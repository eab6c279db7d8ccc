import ReplayServer.Replay.WorkerThread

/-!
# replay: every run of a worker thread

`WorkerThread.Inv` holds after every run of a thread, and where the position histories have room no
step of a thread panics.

* `WorkerThread.Inv.step`     every step keeps the invariant;
* `WorkerThread.Inv.alive`    a replay that is not over is held by an assignment;
* `WorkerThread.Inv.returns`  no step panics where there is room.
-/

namespace ReplayServer
open Fallible

/-- an assignment that is to call the `lifetime` of a replay -/
def Assignment.starts (ptr : Nat) : Assignment → Bool
  | .newReplay r => r.ptr == ptr
  | .connection _ _ => false

theorem Assignment.starts_of_ne {a : Assignment} {ptr : Nat} (h : a.replay.ptr ≠ ptr) :
    a.starts ptr = false := by
  cases a with
  | connection c r => rfl
  | newReplay r => exact beq_eq_false_iff_ne.mpr h

def WorkerTask.starts (ptr : Nat) (u : WorkerTask) : Bool :=
  u.place = .fresh && u.assignment.starts ptr

namespace WorkerThread

/-- how many assignments are to call the `lifetime` of a replay -/
def pending (t : WorkerThread) (ptr : Nat) : Nat :=
  t.worker.assigned.countP (Assignment.starts ptr) + t.tasks.countP (WorkerTask.starts ptr)

structure Inv (settings : ReplaySettings) (mine : Nat → Prop) (t : WorkerThread) : Prop where
  worker : t.worker.Inv mine
  running : t.worker.running = t.tasks.map WorkerTask.assignment
  made : t.replays.length = t.worker.made
  held : ∀ a ∈ t.worker.assigned ++ t.worker.running,
    ∃ r, t.replays[a.replay.ptr]? = some r ∧ r.id = a.replay.id
  lives : ∀ r ∈ t.replays, ∃ evs, Lts.Run ReplayLife.Step settings.newLife evs r.life
  created : ∀ (ptr : Nat) r, t.replays[ptr]? = some r →
    t.pending ptr = if r.life.lifetime = .created then 1 else 0
  works : ∀ (ptr : Nat) r p, t.replays[ptr]? = some r → p.Works r.life.tasks →
    ∃ u ∈ t.tasks, u.place = p ∧ u.assignment.replay.ptr = ptr

theorem new_inv (settings : ReplaySettings) (mine : Nat → Prop) : new.Inv settings mine where
  worker := Worker.new_inv mine
  running := rfl
  made := rfl
  held := fun _ h => absurd h List.not_mem_nil
  lives := fun _ h => absurd h List.not_mem_nil
  created := fun _ _ h => by cases h
  works := fun _ _ _ h => by cases h

section
variable {settings : ReplaySettings} {mine : Nat → Prop} {t : WorkerThread}

theorem Inv.task_held (h : t.Inv settings mine) {u : WorkerTask} (hu : u ∈ t.tasks) :
    ∃ r, t.replays[u.assignment.replay.ptr]? = some r ∧ r.id = u.assignment.replay.id := by
  refine h.held _ (List.mem_append_right _ ?_)
  rw [h.running]
  exact List.mem_map_of_mem hu

/-- no assignment has a pointer that was not given yet -/
theorem Inv.pending_made (h : t.Inv settings mine) : t.pending t.worker.made = 0 := by
  have hlt : ∀ a ∈ t.worker.assigned ++ t.worker.running, a.starts t.worker.made = false := by
    intro a ha
    obtain ⟨r, hr, -⟩ := h.held a ha
    have hlt := (List.getElem?_eq_some_iff.mp hr).1
    exact Assignment.starts_of_ne (by rw [h.made] at hlt; exact hlt.ne)
  unfold pending
  rw [List.countP_eq_zero.mpr, List.countP_eq_zero.mpr]
  · intro u hu
    have hmem : u.assignment ∈ t.worker.assigned ++ t.worker.running := by
      rw [h.running]
      exact List.mem_append_right _ (List.mem_map_of_mem hu)
    unfold WorkerTask.starts
    rw [hlt _ hmem, Bool.and_false]
    exact Bool.false_ne_true
  · intro a ha
    rw [hlt a (List.mem_append_left _ ha)]
    exact Bool.false_ne_true

theorem new_lives (settings : ReplaySettings) (shutdownToken : Bool) (id : Nat) :
    ∃ evs, Lts.Run ReplayLife.Step settings.newLife evs (Replay.new settings shutdownToken id).life := by
  cases shutdownToken with
  | false => exact ⟨[], .nil _⟩
  | true => exact ⟨[.shutdown], .single ⟨fun _ _ => default, rfl⟩⟩

theorem new_not_works (settings : ReplaySettings) (shutdownToken : Bool) (id : Nat) (p : Place) :
    ¬ p.Works (Replay.new settings shutdownToken id).life.tasks := by
  cases p with
  | fresh | refused => exact fun h => h
  | lifetime => exact fun h => h.1 rfl
  | writer i => exact fun h => nomatch h
  | reader i => exact fun h => nomatch h

/-- the worker assigns a connection to a replay that it has, or to none -/
theorem Inv.same_replays (h : t.Inv settings mine) {w : Worker} (hw : w.Inv mine)
    (hrun : w.running = t.worker.running) (hmade : w.made = t.worker.made)
    (hnil : t.worker.assigned = []) (hno : ∀ a ∈ w.assigned, ∃ c r, a = .connection c r ∧
      t.worker.alive r = true) : ({ t with worker := w } : WorkerThread).Inv settings mine := by
  refine ⟨hw, hrun.trans h.running, h.made.trans hmade.symm, fun a ha => ?_, h.lives,
    fun ptr r hr => ?_, h.works⟩
  · rcases List.mem_append.mp ha with ha | ha
    · obtain ⟨c, r, rfl, halive⟩ := hno a ha
      obtain ⟨b, hb, rfl⟩ := Worker.alive_iff.mp halive
      exact h.held b hb
    · exact h.held a (List.mem_append_right _ (hrun ▸ ha))
  · rw [← h.created ptr r hr]
    unfold pending
    rw [hnil, List.countP_nil]
    refine congrArg (· + _) (List.countP_eq_zero.mpr (fun a ha => ?_))
    obtain ⟨c, r, rfl, -⟩ := hno a ha
    exact Bool.false_ne_true

/-- the worker makes a replay -/
theorem Inv.new_replay (h : t.Inv settings mine) {w : Worker} (hw : w.Inv mine) {shutdownToken : Bool}
    (hrun : w.running = t.worker.running) (hmade : w.made = t.worker.made + 1)
    (hnil : t.worker.assigned = []) {c : ConnectionHeader}
    (hnew : w.assigned = [.newReplay ⟨t.worker.made, c.id⟩, .connection c ⟨t.worker.made, c.id⟩]) :
    ({ t with worker := w, replays := t.replays ++ [.new settings shutdownToken c.id] } :
      WorkerThread).Inv settings mine := by
  have hlast : (t.replays ++ [Replay.new settings shutdownToken c.id])[t.worker.made]? =
      some (.new settings shutdownToken c.id) := by
    rw [← h.made]
    exact List.getElem?_concat_length
  have hold : ∀ {ptr : Nat} {r : Replay}, t.replays[ptr]? = some r →
      (t.replays ++ [Replay.new settings shutdownToken c.id])[ptr]? = some r := fun hr =>
    (List.getElem?_append_left (List.getElem?_eq_some_iff.mp hr).1).trans hr
  have hcases : ∀ {ptr : Nat} {r : Replay},
      (t.replays ++ [Replay.new settings shutdownToken c.id])[ptr]? = some r →
      (ptr = t.worker.made ∧ r = .new settings shutdownToken c.id) ∨
        (ptr < t.worker.made ∧ t.replays[ptr]? = some r) := by
    intro ptr r hr
    by_cases hlt : ptr < t.replays.length
    · rw [List.getElem?_append_left hlt] at hr
      exact Or.inr ⟨h.made ▸ hlt, hr⟩
    · have hle := (List.getElem?_eq_some_iff.mp hr).1
      rw [List.length_append, List.length_singleton] at hle
      obtain rfl : ptr = t.worker.made := by rw [← h.made]; omega
      exact Or.inl ⟨rfl, Option.some.inj (hr.symm.trans hlast)⟩
  refine ⟨hw, hrun.trans h.running, ?_, fun a ha => ?_, fun r hr => ?_, fun ptr r hr => ?_,
    fun ptr r p hr hp => ?_⟩
  · show (t.replays ++ _).length = w.made
    rw [List.length_append, h.made, hmade]
    rfl
  · rcases List.mem_append.mp ha with ha | ha
    · have hrc : a.replay = ⟨t.worker.made, c.id⟩ := by
        rw [hnew] at ha
        rcases List.mem_cons.mp ha with rfl | ha
        · rfl
        · rw [List.mem_singleton.mp ha]
          rfl
      rw [hrc]
      exact ⟨_, hlast, rfl⟩
    · obtain ⟨r, hr, hid⟩ := h.held a (List.mem_append_right _ (hrun ▸ ha))
      exact ⟨r, hold hr, hid⟩
  · rcases List.mem_append.mp hr with hr | hr
    · exact h.lives r hr
    · rw [List.mem_singleton.mp hr]
      exact new_lives settings shutdownToken c.id
  · have hpend : ∀ ptr, pending { t with
        worker := w, replays := t.replays ++ [.new settings shutdownToken c.id] } ptr =
        (if t.worker.made = ptr then 1 else 0) + t.pending ptr := by
      intro ptr
      unfold pending
      dsimp only
      rw [hnew, hnil]
      by_cases hptr : t.worker.made = ptr
      · simp [Assignment.starts, hptr]
      · simp [Assignment.starts, hptr]
    rw [hpend]
    rcases hcases hr with ⟨rfl, rfl⟩ | ⟨hlt, hr⟩
    · rw [if_pos rfl, h.pending_made]
      rfl
    · rw [if_neg hlt.ne', Nat.zero_add]
      exact h.created ptr r hr
  · rcases hcases hr with ⟨rfl, rfl⟩ | ⟨hlt, hr⟩
    · exact absurd hp (new_not_works settings shutdownToken c.id p)
    · exact h.works ptr r p hr hp

theorem Inv.assign (h : t.Inv settings mine) {shutdownToken : Bool} {w : Worker}
    (hn : t.worker.next .assign = some w) : ({ t with
      worker := w
      replays := t.replays ++ (w.assigned.filterMap Assignment.made).map
        (fun r => .new settings shutdownToken r.id) } : WorkerThread).Inv settings mine := by
  have hw := h.worker.next hn
  obtain ⟨c, rest, hnil, -, rfl⟩ := Worker.next_assign hn
  have hspec := Worker.assignConnectionToReplay_spec t.worker c
  revert hspec hw
  generalize t.worker.assignConnectionToReplay c = res
  intro hw hspec
  cases hspec with
  | found r hg =>
    have hsame := h.same_replays hw rfl rfl hnil (fun a ha =>
      ⟨c, r, List.mem_singleton.mp ha, (Worker.get_eq_some.mp hg).2⟩)
    show Inv settings mine { t with worker := _, replays := t.replays ++ [] }
    rwa [List.append_nil]
  | turnedAway hg ht =>
    have hsame := h.same_replays hw rfl rfl hnil (fun a ha => absurd ha List.not_mem_nil)
    show Inv settings mine { t with worker := _, replays := t.replays ++ [] }
    rwa [List.append_nil]
  | created hg ht => exact h.new_replay hw rfl rfl hnil rfl

theorem Inv.start (h : t.Inv settings mine) {a : Assignment} {rest : List Assignment}
    (ha : t.worker.assigned = a :: rest) : ({ t with
      worker := { t.worker with assigned := rest, running := t.worker.running ++ [a] }
      tasks := t.tasks ++ [⟨a, .fresh⟩] } : WorkerThread).Inv settings mine := by
  have hn : t.worker.next .start =
      some { t.worker with assigned := rest, running := t.worker.running ++ [a] } := by
    unfold Worker.next
    rw [ha]
  refine ⟨h.worker.next hn, ?_, h.made, fun b hb => h.held b ?_, h.lives, fun ptr r hr => ?_,
    fun ptr r p hr hp => ?_⟩
  · show t.worker.running ++ [a] = _
    rw [h.running, List.map_append]
    rfl
  · exact (Worker.next_other hn (fun he => nomatch he)).2.2.2.2 b hb
  · rw [← h.created ptr r hr]
    unfold pending
    dsimp only
    rw [ha, List.countP_append, List.countP_singleton, List.countP_cons]
    have hfresh : WorkerTask.starts ptr ⟨a, .fresh⟩ = a.starts ptr := Bool.true_and _
    rw [hfresh]
    omega
  · obtain ⟨u, hu, hp⟩ := h.works ptr r p hr hp
    exact ⟨u, List.mem_append_left _ hu, hp⟩

/-- a replay takes a step, and its thread knows where the futures are -/
theorem Inv.set_life (h : t.Inv settings mine) {ptr : Nat} {r : Replay} {e : LifeEvent}
    {life : ReplayLife} {tasks : List WorkerTask} (hr : t.replays[ptr]? = some r)
    (hs : ReplayLife.Step r.life e life)
    (hrun : tasks.map WorkerTask.assignment = t.tasks.map WorkerTask.assignment)
    (hkeep : ∀ u ∈ t.tasks, u.place ≠ .fresh → u ∈ tasks)
    (hpend : ∀ q, tasks.countP (WorkerTask.starts q) + (if e = .lifetime ∧ q = ptr then 1 else 0) =
      t.tasks.countP (WorkerTask.starts q))
    (hopen : e.opens = true → ∃ a : Assignment, a.event = e ∧ a.replay.ptr = ptr ∧
      ⟨a, r.life.tasks.firstPlace a⟩ ∈ tasks) :
    ({ t.setLife ptr r life with tasks := tasks } : WorkerThread).Inv settings mine := by
  have hcases : ∀ {q : Nat} {r' : Replay}, (t.replays.set ptr { r with life := life })[q]? = some r' →
      (q = ptr ∧ r' = { r with life := life }) ∨ (q ≠ ptr ∧ t.replays[q]? = some r') :=
    fun h => getElem?_set_some h
  have hself : (t.replays.set ptr { r with life := life })[ptr]? = some { r with life := life } :=
    List.getElem?_set_self (List.getElem?_eq_some_iff.mp hr).1
  refine ⟨h.worker, h.running.trans hrun.symm, ?_, fun a ha => ?_, fun r' hr' => ?_,
    fun q r' hr' => ?_, fun q r' p hr' hp => ?_⟩
  · exact (List.length_set).trans h.made
  · obtain ⟨r', hr', hid⟩ := h.held a ha
    by_cases hq : a.replay.ptr = ptr
    · rw [hq] at hr' ⊢
      rw [hr] at hr'
      cases hr'
      exact ⟨_, hself, hid⟩
    · exact ⟨r', (List.getElem?_set_ne (Ne.symm hq)).trans hr', hid⟩
  · rcases List.mem_or_eq_of_mem_set hr' with hr' | rfl
    · exact h.lives r' hr'
    · obtain ⟨evs, hevs⟩ := h.lives r (List.mem_of_getElem? hr)
      exact ⟨_, .snoc hevs hs⟩
  · have hq := hpend q
    have hold : ∀ r, t.replays[q]? = some r → t.worker.assigned.countP (Assignment.starts q) +
        t.tasks.countP (WorkerTask.starts q) = if r.life.lifetime = .created then 1 else 0 :=
      h.created q
    show t.worker.assigned.countP (Assignment.starts q) + tasks.countP (WorkerTask.starts q) = _
    rcases hcases hr' with ⟨rfl, rfl⟩ | ⟨hne, hr'⟩
    · have hold := hold r hr
      have hiff : life.lifetime = .created ↔ r.life.lifetime = .created ∧ e ≠ .lifetime :=
        ReplayTasks.created_step hs.tasks
      show _ = if life.lifetime = .created then 1 else 0
      by_cases he : e = .lifetime
      · rw [if_pos ⟨he, rfl⟩] at hq
        rw [if_neg (fun hc => (hiff.mp hc).2 he)]
        split at hold <;> omega
      · rw [if_neg (fun hc => he hc.1)] at hq
        by_cases hc : r.life.lifetime = .created
        · rw [if_pos (hiff.mpr ⟨hc, he⟩)]
          rw [if_pos hc] at hold
          omega
        · rw [if_neg (fun hc' => hc (hiff.mp hc').1)]
          rw [if_neg hc] at hold
          omega
    · rw [if_neg (fun hc => hne hc.2)] at hq
      rw [← hold r' hr']
      omega
  · have hwas : ∀ {r : Replay}, t.replays[q]? = some r → p.Works r.life.tasks →
        ∃ u ∈ tasks, u.place = p ∧ u.assignment.replay.ptr = q := by
      intro r hr hp
      obtain ⟨u, hu, rfl, hptr⟩ := h.works q r p hr hp
      refine ⟨u, hkeep u hu ?_, rfl, hptr⟩
      intro hfresh
      rw [hfresh] at hp
      exact hp
    rcases hcases hr' with ⟨rfl, rfl⟩ | ⟨hne, hr'⟩
    · rcases ReplayTasks.works_step hs.tasks hp with hp | ⟨hopens, hplace⟩
      · exact hwas hr hp
      · obtain ⟨a, ha, hptr, hmem⟩ := hopen hopens
        exact ⟨_, hmem, (hplace a ha).symm, hptr⟩
    · exact hwas hr' hp

theorem Inv.wake (h : t.Inv settings mine) {shutdownToken : Bool} {ptr : Nat} {r : Replay}
    {e : LifeEvent} {life : ReplayLife} (hr : t.replays[ptr]? = some r)
    (he : e.wakes shutdownToken r.life = true) (hs : ReplayLife.Step r.life e life) :
    (t.setLife ptr r life).Inv settings mine := by
  have hopens := LifeEvent.not_opens he
  have hne : e ≠ .lifetime := by
    rintro rfl
    cases hopens
  refine h.set_life hr hs rfl (fun u hu _ => hu) (fun q => ?_) (fun ho => ?_)
  · rw [if_neg (fun hc => hne hc.1), Nat.add_zero]
  · rw [hopens] at ho
    cases ho

theorem Assignment.event_eq_lifetime {a : Assignment} (ptr : Nat) :
    (a.event = .lifetime ∧ ptr = a.replay.ptr) ↔ a.starts ptr = true := by
  cases a with
  | connection c r => simp [Assignment.event, Assignment.starts]
  | newReplay r =>
    simp only [Assignment.event, Assignment.starts, Assignment.replay, true_and, beq_iff_eq]
    exact eq_comm

theorem Inv.poll (h : t.Inv settings mine) {k : Nat} {a : Assignment} {r : Replay} {life : ReplayLife}
    (ht : t.tasks[k]? = some ⟨a, .fresh⟩) (hr : t.replays[a.replay.ptr]? = some r)
    (hs : ReplayLife.Step r.life a.event life) :
    ({ t.setLife a.replay.ptr r life with
      tasks := t.tasks.set k ⟨a, r.life.tasks.firstPlace a⟩ } : WorkerThread).Inv settings mine := by
  obtain ⟨hlt, hk⟩ := List.getElem?_eq_some_iff.mp ht
  refine h.set_life hr hs ?_ (fun u hu hne => ?_) (fun q => ?_)
    (fun _ => ⟨a, rfl, rfl, List.mem_set hlt _⟩)
  · exact map_set_same ht rfl
  · refine mem_set_of_ne _ hu ht ?_
    rintro rfl
    exact hne rfl
  · have hplace := ReplayTasks.firstPlace_ne r.life.tasks a
    have hset : WorkerTask.starts q ⟨a, r.life.tasks.firstPlace a⟩ = false := by
      unfold WorkerTask.starts
      rw [decide_eq_false hplace, Bool.false_and]
    have hfresh : WorkerTask.starts q ⟨a, .fresh⟩ = a.starts q := Bool.true_and _
    have hcount := List.countP_set (p := WorkerTask.starts q) (l := t.tasks)
      (a := ⟨a, r.life.tasks.firstPlace a⟩) hlt
    rw [hk, hset, hfresh] at hcount
    simp only [Assignment.event_eq_lifetime]
    by_cases hq : a.starts q = true
    · have hpos : 0 < t.tasks.countP (WorkerTask.starts q) :=
        List.countP_pos_iff.mpr ⟨_, List.mem_of_getElem? ht, hfresh.trans hq⟩
      rw [if_pos hq] at hcount ⊢
      simp only [Bool.false_eq_true, if_false] at hcount
      omega
    · rw [if_neg hq] at hcount ⊢
      simp only [Bool.false_eq_true, if_false] at hcount
      omega

theorem Inv.done (h : t.Inv settings mine) {k : Nat} {u : WorkerTask} {r : Replay}
    (hu : t.tasks[k]? = some u) (hr : t.replays[u.assignment.replay.ptr]? = some r)
    (hret : u.place.returned r.life.tasks = true) (hlt : k < t.worker.running.length) :
    ({ t with
      worker := { t.worker with running := t.worker.running.eraseIdx k }
      tasks := t.tasks.eraseIdx k } : WorkerThread).Inv settings mine := by
  have hn : t.worker.next (.done k) =
      some { t.worker with running := t.worker.running.eraseIdx k } := by
    unfold Worker.next
    dsimp only
    rw [if_pos hlt]
  obtain ⟨hk, hget⟩ := List.getElem?_eq_some_iff.mp hu
  have hfresh : u.place ≠ .fresh := by
    intro hf
    rw [hf] at hret
    cases hret
  refine ⟨h.worker.next hn, ?_, h.made, fun b hb => h.held b ?_, h.lives, fun q r' hr' => ?_,
    fun q r' p hr' hp => ?_⟩
  · show t.worker.running.eraseIdx k = _
    rw [h.running, List.eraseIdx_map]
  · exact (Worker.next_other hn (fun he => nomatch he)).2.2.2.2 b hb
  · rw [← h.created q r' hr']
    refine congrArg (t.worker.assigned.countP (Assignment.starts q) + ·) ?_
    rw [← (List.getElem_cons_eraseIdx_perm hk).countP_eq, hget, List.countP_cons]
    have hno : WorkerTask.starts q u = false := by
      unfold WorkerTask.starts
      rw [decide_eq_false hfresh, Bool.false_and]
    rw [if_neg (by rw [hno]; exact Bool.false_ne_true)]
    rfl
  · obtain ⟨v, hv, rfl, hptr⟩ := h.works q r' p hr' hp
    refine ⟨v, mem_eraseIdx_of_ne hv hu ?_, rfl, hptr⟩
    -- the future that is dropped returned
    rintro rfl
    rw [hptr, hr'] at hr
    cases hr
    exact ReplayTasks.not_works_of_returned hret hp

/-- **every step of a thread keeps the invariant** -/
theorem Inv.step (h : t.Inv settings mine) {shutdownToken : Bool} {e : ThreadEvent} {t' : WorkerThread}
    (hs : t.Step settings shutdownToken e t') : t'.Inv settings mine := by
  obtain ⟨ords, hs⟩ := hs
  generalize hx : Except.ok t' = x at hs
  cases does_of_next hs with
  | assign hn =>
    cases hx
    exact h.assign hn
  | start ha =>
    cases hx
    exact h.start ha
  | poll ht hr hl =>
    obtain ⟨life, rfl, hok⟩ := bind_eq_ok.mp hx.symm
    cases hok
    exact h.poll ht hr ⟨ords, hl⟩
  | wake hr he hl =>
    obtain ⟨life, rfl, hok⟩ := bind_eq_ok.mp hx.symm
    cases hok
    exact h.wake hr he ⟨ords, hl⟩
  | done hu hr hret hlt =>
    cases hx
    exact h.done hu hr hret hlt

/-- **no step of a thread panics**, when a cycle has room for its position -/
theorem Inv.returns (h : t.Inv settings mine) (hN : 0 < settings.mergeQuorumSize)
    {shutdownToken : Bool} {ords : Nat → Nat → IterOrder} {e : ThreadEvent} {x : Res WorkerThread}
    (hroom : ∀ ptr id, e = .wake ptr (.cycle id) → 0 < settings.delayCycles.historySize)
    (hx : t.next settings shutdownToken ords e = some x) : ∃ t', x = .ok t' := by
  have hlife : ∀ {ptr : Nat} {r : Replay} {e : LifeEvent} {y : Res ReplayLife},
      (∀ id, e = .cycle id → 0 < settings.delayCycles.historySize) →
      t.replays[ptr]? = some r → r.life.next ords e = some y → ∃ l, y = .ok l := by
    intro ptr r e y hsize hr hy
    obtain ⟨evs, hevs⟩ := h.lives r (List.mem_of_getElem? hr)
    obtain ⟨m, hm⟩ := ReplayLife.sound_of_run hevs
    refine (hm.next ords hy).ok ⟨hN, fun id t he => ?_⟩
    exact ReplayLife.hasRoom_of_run (hsize id he) hevs e id t he
  cases does_of_next hx with
  | assign hn => exact ⟨_, rfl⟩
  | start ha => exact ⟨_, rfl⟩
  | @poll k a r life ht hr hl =>
    obtain ⟨life, rfl⟩ := hlife (fun id he => by cases a <;> cases he) hr hl
    exact ⟨_, rfl⟩
  | @wake ptr e r life hr he hl =>
    obtain ⟨life, rfl⟩ := hlife (fun id he => hroom ptr id (congrArg _ he)) hr hl
    exact ⟨_, rfl⟩
  | done hu hr hret hlt => exact ⟨_, rfl⟩

/-- what a step is for the worker -/
theorem Step.worker {shutdownToken : Bool} {e : ThreadEvent} {t' : WorkerThread}
    (h : t.Step settings shutdownToken e t') :
    t'.worker = t.worker ∨ ∃ e', t.worker.next e' = some t'.worker := by
  obtain ⟨ords, h⟩ := h
  generalize hx : Except.ok t' = x at h
  cases does_of_next h with
  | assign hn =>
    cases hx
    exact Or.inr ⟨_, hn⟩
  | start ha =>
    cases hx
    refine Or.inr ⟨.start, ?_⟩
    unfold Worker.next
    rw [ha]
  | poll ht hr hl =>
    obtain ⟨life, -, hok⟩ := bind_eq_ok.mp hx.symm
    cases hok
    exact Or.inl rfl
  | wake hr he hl =>
    obtain ⟨life, -, hok⟩ := bind_eq_ok.mp hx.symm
    cases hok
    exact Or.inl rfl
  | @done k u r hu hr hret hlt =>
    cases hx
    refine Or.inr ⟨.done k, ?_⟩
    unfold Worker.next
    dsimp only
    rw [if_pos hlt]

/-- **a replay that is not over is held** -/
theorem Inv.alive (h : t.Inv settings mine) {ptr : Nat} {r : Replay} (hr : t.replays[ptr]? = some r)
    (hover : r.life.lifetime = .created ∨ ∃ p : Place, p.Works r.life.tasks) :
    t.worker.alive ⟨ptr, r.id⟩ = true := by
  have key : ∃ a ∈ t.worker.assigned ++ t.worker.running, a.replay.ptr = ptr := by
    rcases hover with hc | ⟨p, hp⟩
    · have hpos := h.created ptr r hr
      rw [if_pos hc] at hpos
      rcases Nat.eq_zero_or_pos (t.worker.assigned.countP (Assignment.starts ptr)) with hz | hpos'
      · have htasks : 0 < t.tasks.countP (WorkerTask.starts ptr) := by
          unfold pending at hpos
          omega
        obtain ⟨u, hu, hst⟩ := List.countP_pos_iff.mp htasks
        refine ⟨u.assignment, ?_, ((Assignment.event_eq_lifetime ptr).mpr
          (Bool.and_eq_true_iff.mp hst).2).2.symm⟩
        rw [h.running]
        exact List.mem_append_right _ (List.mem_map_of_mem hu)
      · obtain ⟨a, ha, hst⟩ := List.countP_pos_iff.mp hpos'
        exact ⟨a, List.mem_append_left _ ha, ((Assignment.event_eq_lifetime ptr).mpr hst).2.symm⟩
    · obtain ⟨u, hu, -, hptr⟩ := h.works ptr r p hr hp
      refine ⟨u.assignment, ?_, hptr⟩
      rw [h.running]
      exact List.mem_append_right _ (List.mem_map_of_mem hu)
  obtain ⟨a, ha, rfl⟩ := key
  obtain ⟨r', hr', hid⟩ := h.held a ha
  rw [hr] at hr'
  cases hr'
  rw [hid]
  exact Worker.alive_of_mem ha

end

end WorkerThread

end ReplayServer
