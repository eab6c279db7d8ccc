import ReplayServer.Server.Server

/-!
# server: the server stops

After the token of the server is cancelled and no connection is accepted any more, the threads have
something to do until all of them can be joined, and there is only so much of it.

* `WorkerThread.rank_step`      a step of a thread that closes something lowers its rank;
* `WorkerThread.Inv.progress`   a thread with a cancelled token has a step that closes something, or
                                is at its end;
* `Server.stops`                so the threads are joined, after every replay was saved.
-/

namespace ReplayServer
open Fallible

def Replay.rank (r : Replay) : Nat := r.life.tasks.todo + if r.life.cancelled then 0 else 1

/-- a step that closes something: all but a new connection and the work of one -/
def ThreadEvent.closes : ThreadEvent → Bool
  | .wake _ e => e.closes || e == .shutdown
  | .assign | .start | .poll _ | .done _ => true

def ThreadEvent.closing (e : ThreadEvent) : Nat := if e.closes then 1 else 0

namespace WorkerThread

/-- a connection in the channel may become a replay and two futures -/
def rank (t : WorkerThread) : Nat :=
  (t.replays.map Replay.rank).sum + 45 * t.worker.incoming.length + 9 * t.worker.assigned.length +
    7 * t.tasks.countP (fun u => decide (u.place = .fresh)) + t.tasks.length

section
variable {settings : ReplaySettings} {shutdownToken : Bool} {t t' : WorkerThread}

theorem new_rank (settings : ReplaySettings) (shutdownToken : Bool) (id : Nat) :
    (Replay.new settings shutdownToken id).rank ≤ 26 := by
  unfold Replay.rank
  have htodo : (Replay.new settings shutdownToken id).life.tasks.todo = 25 := rfl
  rw [htodo]
  split <;> omega

theorem rank_life {r : Replay} {e : LifeEvent} {life : ReplayLife} (h : ReplayLife.Step r.life e life) :
    e.closing + Replay.rank { r with life := life } ≤ r.rank + e.brings := by
  have htodo := ReplayTasks.todo_step h.tasks
  have hcancelled : (if life.cancelled then 0 else 1) ≤ if r.life.cancelled then 0 else 1 := by
    cases hc : r.life.cancelled with
    | false => split <;> simp
    | true =>
      have hc' : life.cancelled = true := ReplayTasks.cancelled_step h.tasks hc
      simp [hc']
  unfold Replay.rank
  dsimp only
  omega

theorem rank_assign {w : Worker} (hn : t.worker.next .assign = some w) : 1 + ({ t with
    worker := w
    replays := t.replays ++ (w.assigned.filterMap Assignment.made).map
      (fun r => .new settings shutdownToken r.id) } : WorkerThread).rank ≤ t.rank := by
  obtain ⟨c, rest, hnil, hin, rfl⟩ := Worker.next_assign hn
  have hspec := Worker.assignConnectionToReplay_spec t.worker c
  revert hspec
  generalize t.worker.assignConnectionToReplay c = res
  intro hspec
  have hnew := new_rank settings shutdownToken c.id
  unfold rank
  rw [hnil, hin]
  cases hspec with
  | found r hg =>
    show 1 + (((t.replays ++ []).map Replay.rank).sum + 45 * rest.length + 9 * 1 + _ + _) ≤ _
    rw [List.append_nil, List.length_cons]
    dsimp only [List.length_nil]
    omega
  | turnedAway hg ht =>
    show 1 + (((t.replays ++ []).map Replay.rank).sum + 45 * rest.length + 9 * 0 + _ + _) ≤ _
    rw [List.append_nil, List.length_cons]
    dsimp only [List.length_nil]
    omega
  | created hg ht =>
    show 1 + (((t.replays ++ [Replay.new settings shutdownToken c.id]).map Replay.rank).sum +
      45 * rest.length + 9 * 2 + _ + _) ≤ _
    rw [List.map_append, List.sum_append, List.map_singleton, List.sum_singleton, List.length_cons]
    dsimp only [List.length_nil]
    omega

/-- a replay takes a step, and a future of its thread with it -/
theorem rank_setLife {ptr : Nat} {r : Replay} {e : LifeEvent} {life : ReplayLife}
    (hr : t.replays[ptr]? = some r) (hs : ReplayLife.Step r.life e life) :
    e.closing + (t.setLife ptr r life).rank ≤ t.rank + e.brings := by
  have hsum := sum_map_set Replay.rank hr { r with life := life }
  have hlife := rank_life hs
  unfold rank setLife
  dsimp only
  omega

/-- **a step of a thread that closes something lowers its rank** -/
theorem rank_step {e : ThreadEvent} (h : t.Step settings shutdownToken e t') :
    e.closing + t'.rank ≤ t.rank := by
  obtain ⟨ords, h⟩ := h
  generalize hx : Except.ok t' = x at h
  cases does_of_next h with
  | assign hn =>
    cases hx
    exact rank_assign hn
  | @start a rest ha =>
    cases hx
    show 1 + _ ≤ _
    unfold rank
    dsimp only
    rw [ha, List.countP_append, List.countP_singleton, if_pos (decide_eq_true rfl),
      List.length_append, List.length_singleton, List.length_cons]
    omega
  | @poll k a r life ht hr hl =>
    obtain ⟨l, rfl, hok⟩ := bind_eq_ok.mp hx.symm
    cases hok
    have hlife := rank_setLife (t := t) hr ⟨ords, hl⟩
    have hbrings : a.event.brings ≤ 6 := by
      cases a with
      | connection c r => exact le_rfl
      | newReplay r => exact Nat.zero_le _
    have hplace : r.life.tasks.firstPlace a ≠ .fresh := ReplayTasks.firstPlace_ne r.life.tasks a
    have hcount : (t.tasks.set k ⟨a, r.life.tasks.firstPlace a⟩).countP
        (fun u => decide (u.place = .fresh)) + 1 =
        t.tasks.countP (fun u => decide (u.place = .fresh)) := by
      have hset := countP_set_of_getElem? (p := fun u : WorkerTask => decide (u.place = .fresh)) ht rfl
        ⟨a, r.life.tasks.firstPlace a⟩
      rwa [if_neg (by simpa using hplace)] at hset
    have hrank : ({ t.setLife a.replay.ptr r l with
        tasks := t.tasks.set k ⟨a, r.life.tasks.firstPlace a⟩ } : WorkerThread).rank + 7 =
        (t.setLife a.replay.ptr r l).rank := by
      unfold rank setLife
      dsimp only
      rw [List.length_set]
      omega
    show 1 + _ ≤ _
    omega
  | @wake ptr e r life hr he hl =>
    obtain ⟨l, rfl, hok⟩ := bind_eq_ok.mp hx.symm
    cases hok
    have hlife := rank_setLife (t := t) hr ⟨ords, hl⟩
    have hbrings : e.brings = 0 := by
      cases e <;> first | rfl | cases he
    by_cases hsd : e = .shutdown
    · -- the token of the replay is cancelled once
      subst hsd
      have hc : r.life.cancelled = false := by
        have hand : (shutdownToken && !r.life.cancelled) = true := he
        simpa using (Bool.and_eq_true_iff.mp hand).2
      have hl : l.tasks.todo = r.life.tasks.todo ∧ l.cancelled = true := by
        cases hl
        exact ⟨rfl, rfl⟩
      have hsum := sum_map_set Replay.rank hr { r with life := l }
      have hold : r.rank = r.life.tasks.todo + 1 := by
        unfold Replay.rank
        rw [hc]
        rfl
      have hnew : Replay.rank { r with life := l } = r.life.tasks.todo := by
        unfold Replay.rank
        dsimp only
        rw [hl.1, hl.2]
        rfl
      show 1 + _ ≤ _
      unfold rank setLife
      dsimp only
      omega
    · have hclosing : ThreadEvent.closing (.wake ptr e) = e.closing := by
        show (if (e.closes || e == .shutdown) = true then 1 else 0) = if e.closes = true then 1 else 0
        rw [beq_eq_false_iff_ne.mpr hsd, Bool.or_false]
      omega
  | @done k u r hu hr hret hlt =>
    cases hx
    have hk := (List.getElem?_eq_some_iff.mp hu).1
    have hperm := (List.getElem_cons_eraseIdx_perm hk).countP_eq
      (fun u => decide (u.place = .fresh))
    rw [List.countP_cons] at hperm
    have hlen := List.length_eraseIdx_of_lt hk
    show 1 + _ ≤ _
    unfold rank
    dsimp only
    omega

/-- nothing is left, so `handle_connections_and_replays` returns when the channel is closed -/
structure AtEnd (t : WorkerThread) : Prop where
  incoming : t.worker.incoming = []
  assigned : t.worker.assigned = []
  tasks : t.tasks = []

def CanClose (settings : ReplaySettings) (shutdownToken : Bool) (t : WorkerThread) : Prop :=
  ∃ e t', e.closes = true ∧ t.Step settings shutdownToken e t'

variable {mine : Nat → Prop}

theorem Inv.canClose (h : t.Inv settings mine) (hN : 0 < settings.mergeQuorumSize) {e : ThreadEvent}
    (he : e.closes = true)
    (hx : (t.next settings shutdownToken (fun _ _ => default) e).isSome = true) :
    t.CanClose settings shutdownToken := by
  obtain ⟨x, hx⟩ := Option.isSome_iff_exists.mp hx
  have hroom : ∀ ptr id, e = .wake ptr (.cycle id) → 0 < settings.delayCycles.historySize := by
    rintro ptr id rfl
    cases he
  obtain ⟨t', rfl⟩ := h.returns hN hroom hx
  exact ⟨e, t', he, _, hx⟩

/-- a future that was not polled can be polled -/
theorem Inv.canClose_fresh (h : t.Inv settings mine) (hN : 0 < settings.mergeQuorumSize) {k : Nat}
    {a : Assignment} (ht : t.tasks[k]? = some ⟨a, .fresh⟩) : t.CanClose settings shutdownToken := by
  obtain ⟨r, hr, -⟩ := h.task_held (List.mem_of_getElem? ht)
  have hlife : (r.life.next (fun _ _ => default) a.event).isSome = true := by
    cases a with
    | connection c q => rfl
    | newReplay q =>
      have hpos : 0 < t.tasks.countP (WorkerTask.starts q.ptr) := by
        refine List.countP_pos_iff.mpr ⟨_, List.mem_of_getElem? ht, ?_⟩
        show (true && (q.ptr == q.ptr)) = true
        rw [beq_self_eq_true]
        rfl
      have hc : r.life.lifetime = .created := by
        by_contra hne
        have hpend := h.created q.ptr r hr
        rw [if_neg hne] at hpend
        unfold pending at hpend
        omega
      show (ReplayLife.next _ r.life .lifetime).isSome = true
      unfold ReplayLife.next
      rw [if_pos hc]
      rfl
  obtain ⟨y, hy⟩ := Option.isSome_iff_exists.mp hlife
  refine h.canClose hN (e := .poll k) rfl ?_
  unfold next
  simp only [ht, hr, hy, Option.bind_eq_bind, Option.bind_some, if_true]
  rfl

/-- a task of a replay that is not over can wake up -/
theorem Inv.canClose_wake (h : t.Inv settings mine) (hN : 0 < settings.mergeQuorumSize) {ptr : Nat}
    {r : Replay} (hr : t.replays[ptr]? = some r) (hc : r.life.lifetime ≠ .created)
    (hover : ¬ r.life.Over) : t.CanClose settings true := by
  have wake : ∀ e : LifeEvent, (ThreadEvent.wake ptr e).closes = true → e.wakes true r.life = true →
      (∃ ords l, r.life.next ords e = some (.ok l)) → t.CanClose settings true := by
    rintro e he hw ⟨ords, l, hl⟩
    refine ⟨.wake ptr e, t.setLife ptr r l, he, ords, ?_⟩
    unfold next
    simp only [hr, hw, hl, Option.bind_eq_bind, Option.bind_some, if_true]
    rfl
  obtain ⟨evs, hevs⟩ := h.lives r (List.mem_of_getElem? hr)
  cases hcancelled : r.life.cancelled with
  | false =>
    refine wake .shutdown rfl ?_ ⟨fun _ _ => default, _, rfl⟩
    show (true && !r.life.cancelled) = true
    rw [hcancelled]
    rfl
  | true =>
    obtain ⟨m, hm⟩ := ReplayLife.sound_of_run hevs
    obtain ⟨e, l, he, hs⟩ := (ReplayLife.closes_or_over hN hm (ReplayLife.waiting_of_run hevs)
      hcancelled).resolve_right hover
    refine wake e ?_ ?_ (Exists.imp (fun ords hl => ⟨l, hl⟩) hs)
    · show (e.closes || _) = true
      rw [he]
      rfl
    · cases e with
      | connection | shutdown => cases he
      | lifetime =>
        -- it is called once
        obtain ⟨ords, hl⟩ := hs
        simp only [ReplayLife.next] at hl
        rw [if_neg hc] at hl
        cases hl
      | header | data | cycle | writerStops | readerStops | newCount | timer | waitCancelled | saved
      | timeout | timeoutCancelled => rfl

/-- **a thread with a cancelled token has a step that closes something, or is at its end** -/
theorem Inv.progress (h : t.Inv settings mine) (hN : 0 < settings.mergeQuorumSize) :
    t.CanClose settings true ∨ t.AtEnd := by
  cases hassigned : t.worker.assigned with
  | cons a rest =>
    refine Or.inl (h.canClose hN (e := .start) rfl ?_)
    unfold next Worker.next
    simp only [hassigned, List.head?_cons, Option.bind_eq_bind, Option.bind_some]
    rfl
  | nil =>
  cases hincoming : t.worker.incoming with
  | cons c rest =>
    refine Or.inl (h.canClose hN (e := .assign) rfl ?_)
    unfold next Worker.next
    simp only [hassigned, hincoming, Option.bind_eq_bind, Option.bind_some]
    rfl
  | nil =>
  by_cases hfresh : ∃ (k : Nat) (a : Assignment), t.tasks[k]? = some ⟨a, .fresh⟩
  · obtain ⟨k, a, ht⟩ := hfresh
    exact Or.inl (h.canClose_fresh hN ht)
  by_cases hover : ∃ (ptr : Nat) (r : Replay), t.replays[ptr]? = some r ∧ ¬ r.life.Over
  · obtain ⟨ptr, r, hr, ho⟩ := hover
    refine Or.inl (h.canClose_wake hN hr (fun hc => ?_) ho)
    -- an assignment still has to call `lifetime`
    have hpend := h.created ptr r hr
    rw [if_pos hc] at hpend
    unfold pending at hpend
    rw [hassigned, List.countP_nil, Nat.zero_add] at hpend
    obtain ⟨⟨a, p⟩, hu, hst⟩ := List.countP_pos_iff.mp (hpend.symm ▸ Nat.one_pos)
    obtain ⟨k, hk⟩ := List.getElem?_of_mem hu
    obtain rfl : p = .fresh := of_decide_eq_true (Bool.and_eq_true_iff.mp hst).1
    exact hfresh ⟨k, a, hk⟩
  cases htasks : t.tasks with
  | nil => exact Or.inr ⟨hincoming, hassigned, htasks⟩
  | cons u rest =>
    -- its replay is over, so it returned
    obtain ⟨r, hr, -⟩ := h.task_held (u := u) (by rw [htasks]; exact List.mem_cons_self)
    have ho : r.life.Over := by
      by_contra ho
      exact hover ⟨_, r, hr, ho⟩
    have hret : u.place.returned r.life.tasks = true := by
      refine ReplayTasks.returned_of_not_works (fun hf => ?_) (fun _ hc => ?_) (ho.not_works u.place)
      · refine hfresh ⟨0, u.assignment, ?_⟩
        rw [htasks, ← hf]
        rfl
      · have hended : r.life.lifetime = .ended := ho.lifetime
        rw [show r.life.lifetime = _ from hc] at hended
        cases hended
    have hlt : 0 < t.worker.running.length := by
      rw [h.running, htasks]
      exact Nat.succ_pos _
    refine Or.inl (h.canClose hN (e := .done 0) rfl ?_)
    unfold next Worker.next
    simp only [htasks, List.getElem?_cons_zero, hr, hret, hlt, Option.bind_eq_bind, Option.bind_some,
      if_true]
    rfl

end

end WorkerThread

def ServerEvent.closes : ServerEvent → Bool
  | .thread _ e => e.closes
  | _ => false

def ServerEvent.connects : ServerEvent → Bool
  | .connection _ => true
  | _ => false

namespace Server

def rank (s : Server) : Nat := (s.threads.map WorkerThread.rank).sum

def CanClose (settings : ReplaySettings) (s : Server) : Prop :=
  ∃ e s', e.closes = true ∧ Step settings s e s'

structure Joined (s : Server) : Prop where
  accepting : s.accepting = false
  threads : ∀ t ∈ s.threads, t.AtEnd

section
variable {settings : ReplaySettings} {count : Nat} {s s' : Server} {e : ServerEvent}

theorem rank_step (h : Step settings s e s') :
    (if e.closes = true then 1 else 0) + s'.rank ≤
      s.rank + 45 * if e.connects = true then 1 else 0 := by
  cases h.does with
  | @connection c _ ha hok =>
    obtain ⟨-, t, ht, rfl⟩ := dispatch_runner hok
    have hsum := sum_map_set WorkerThread.rank ht
      { t with worker := { t.worker with incoming := t.worker.incoming ++ [c] } }
    show 0 + _ ≤ _ + 45 * 1
    unfold rank
    dsimp only
    unfold WorkerThread.rank at hsum ⊢
    dsimp only at hsum ⊢
    rw [List.length_append, List.length_singleton] at hsum
    omega
  | @thread i e t t' ht hstep =>
    have hsum := sum_map_set WorkerThread.rank ht t'
    have hlt : (if e.closes = true then 1 else 0) + t'.rank ≤ t.rank := WorkerThread.rank_step hstep
    show (if e.closes = true then 1 else 0) + _ ≤ _ + 45 * 0
    unfold rank
    dsimp only
    omega
  | shutdown => exact (Nat.zero_add _).le
  | stopAccepting ha => exact (Nat.zero_add _).le

/-- a shut down server goes on to its end -/
theorem Inv.progress (h : s.Inv settings count) (hN : 0 < settings.mergeQuorumSize)
    (ht : s.shutdownToken = true) (ha : s.accepting = false) : s.CanClose settings ∨ s.Joined := by
  by_cases hend : ∀ t ∈ s.threads, t.AtEnd
  · exact Or.inr ⟨ha, hend⟩
  · simp only [not_forall] at hend
    obtain ⟨t, hmem, hne⟩ := hend
    obtain ⟨i, hi⟩ := List.getElem?_of_mem hmem
    obtain ⟨e, t', he, ords, hs⟩ := ((h.thread i t hi).progress hN).resolve_right hne
    refine Or.inl ⟨.thread i e, { s with threads := s.threads.set i t' }, he, ords, ?_⟩
    unfold next
    simp only [hi, ht, hs, Option.bind_eq_bind, Option.bind_some]
    rfl

/-- when `run` returned, every replay is over -/
theorem Inv.over_of_joined (h : s.Inv settings count) (hj : s.Joined) {t : WorkerThread} {r : Replay}
    (ht : t ∈ s.threads) (hr : r ∈ t.replays) : r.life.Over := by
  obtain ⟨i, hi⟩ := List.getElem?_of_mem ht
  obtain ⟨p, hp⟩ := List.getElem?_of_mem hr
  refine r.life.works_or_over.resolve_right (fun hover => ?_)
  obtain ⟨a, ha, -⟩ := Worker.alive_iff.mp ((h.thread i t hi).alive hp hover)
  rw [(hj.threads t ht).assigned, (h.thread i t hi).running, (hj.threads t ht).tasks] at ha
  exact absurd ha List.not_mem_nil

/-- the token stays cancelled, and no connection is accepted later -/
theorem closed_step (h : Step settings s e s') (ht : s.shutdownToken = true)
    (ha : s.accepting = false) :
    s'.shutdownToken = true ∧ s'.accepting = false ∧ e.connects = false := by
  cases h.does with
  | connection ha' hok =>
    rw [ha] at ha'
    cases ha'
  | thread hi hs => exact ⟨ht, ha, rfl⟩
  | shutdown => exact ⟨rfl, ha, rfl⟩
  | stopAccepting ha' =>
    rw [ha] at ha'
    cases ha'

/-- **a server that is shut down stops**: until its threads can be joined some step that closes
something is possible, of these there are only so many, and then every replay is finished and saved -/
theorem stops (hn : 0 < count) (hN : 0 < settings.mergeQuorumSize) {evs evs' : List ServerEvent}
    (h : Lts.Run (Step settings) (new count) evs s) (ht : s.shutdownToken = true)
    (ha : s.accepting = false) (h' : Lts.Run (Step settings) s evs' s') :
    (s'.CanClose settings ∨ s'.Joined) ∧
    evs'.countP ServerEvent.closes ≤ 45 * evs.countP ServerEvent.connects ∧
    (s'.Joined → ∀ t ∈ s'.threads, ∀ r ∈ t.replays, r.life.Over ∧
      r.life.session.merged.finished = true ∧ r.life.log.count .save = 1) := by
  have hs' := inv_of_run hn (h.append h')
  have hclosed : s'.shutdownToken = true ∧ s'.accepting = false := by
    refine h'.invariant (I := fun s => s.shutdownToken = true ∧ s.accepting = false) ?_ ⟨ht, ha⟩
    rintro s e s' ⟨ht, ha⟩ hs
    exact ⟨(closed_step hs ht ha).1, (closed_step hs ht ha).2.1⟩
  refine ⟨hs'.progress hN hclosed.1 hclosed.2, ?_, fun hj t ht r hr => ?_⟩
  · have h1 := h.countP_le (I := fun _ => True) (r := rank) (p := ServerEvent.closes)
      (q := ServerEvent.connects) (k := 45) (fun _ _ _ _ _ => trivial) (fun _ _ _ _ hs => rank_step hs)
      trivial
    have h2 := h'.countP_le (I := fun s => s.shutdownToken = true ∧ s.accepting = false) (r := rank)
      (p := ServerEvent.closes) (q := fun _ => false) (k := 0)
      (fun _ _ _ hc hs => ⟨(closed_step hs hc.1 hc.2).1, (closed_step hs hc.1 hc.2).2.1⟩)
      (fun s e s' hc hs => ?_) ⟨ht, ha⟩
    · have hnew : (new count).rank = 0 := by
        unfold rank new
        rw [List.map_replicate, List.sum_replicate]
        rfl
      omega
    · have hle := rank_step hs
      rw [(closed_step hs hc.1 hc.2).2.2] at hle
      simpa using hle
  · have hover := hs'.over_of_joined hj ht hr
    obtain ⟨i, hi⟩ := List.getElem?_of_mem ht
    obtain ⟨m, hm⟩ := hs'.sound hi hr
    exact ⟨hover, hover.saved hm⟩

/-- a writer is there when the server is shut down -/
def shutDown : List ServerEvent :=
  [.connection ⟨.writer, 5, "a"⟩] ++ ([.assign, .start, .start, .poll 0, .poll 1,
    .wake 0 (.header 0 ⟨[7]⟩)].map (.thread 1)) ++ [.shutdown, .stopAccepting]

def joining : List ServerEvent :=
  [.wake 0 .shutdown, .wake 0 .waitCancelled, .wake 0 (.writerStops 0 .token), .wake 0 .newCount,
    .wake 0 .timer, .wake 0 .saved, .wake 0 .timer, .wake 0 .timeoutCancelled, .done 1,
    .done 0].map (.thread 1)

theorem stops_joining : ∃ s s', Lts.Run (Step exampleSettings) (new 2) shutDown s ∧
    Lts.Run (Step exampleSettings) s joining s' ∧ s'.Joined ∧
    joining.countP ServerEvent.closes ≤ 45 * shutDown.countP ServerEvent.connects ∧
    ∃ t ∈ s'.threads, ∃ r ∈ t.replays, r.life.Over ∧ r.life.session.merged.finished = true ∧
      r.life.log.count .save = 1 := by
  have hex : (shutDown.foldlM (exec exampleSettings) (new 2)).any (fun s => s.shutdownToken &&
      !s.accepting && (joining.foldlM (exec exampleSettings) s).any (fun s' => !s'.accepting &&
        s'.threads.all (fun t => t.worker.incoming.isEmpty && t.worker.assigned.isEmpty &&
          t.tasks.isEmpty) &&
        s'.threads[1]?.any (fun t => t.replays[0]?.isSome))) = true := by
    decide +kernel
  obtain ⟨s, hs, hex⟩ := (Option.any_eq_true _ _).mp hex
  simp only [Bool.and_eq_true, Bool.not_eq_true'] at hex
  obtain ⟨⟨htoken, hacc⟩, hex⟩ := hex
  obtain ⟨s', hs', hex⟩ := (Option.any_eq_true _ _).mp hex
  simp only [Bool.and_eq_true, Bool.not_eq_true', List.all_eq_true, List.isEmpty_iff] at hex
  obtain ⟨⟨hacc', hend⟩, hex⟩ := hex
  obtain ⟨t, ht, hex⟩ := (Option.any_eq_true _ _).mp hex
  obtain ⟨r, hr⟩ := Option.isSome_iff_exists.mp hex
  have hrun := Lts.Run.of_foldlM (fun _ _ _ => step_of_exec) hs
  have hrun' := Lts.Run.of_foldlM (fun _ _ _ => step_of_exec) hs'
  have hj : s'.Joined := ⟨hacc', fun t ht => ⟨(hend t ht).1.1, (hend t ht).1.2, (hend t ht).2⟩⟩
  obtain ⟨-, hcount, hover⟩ := stops (by decide) (by decide) hrun htoken hacc hrun'
  have hmem := List.mem_of_getElem? ht
  exact ⟨s, s', hrun, hrun', hj, hcount, t, hmem, r, List.mem_of_getElem? hr,
    hover hj t hmem r (List.mem_of_getElem? hr)⟩

end

end Server

end ReplayServer
