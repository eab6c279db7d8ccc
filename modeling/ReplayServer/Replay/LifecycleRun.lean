import ReplayServer.Replay.LifecycleCalls

/-!
# replay: the life of one replay, runs

* `ReplayLife.Sound`       what holds between two wake-ups;
* `ReplayLife.Sound.next`  every wake-up keeps it, and does not fail with a positive target and, in a
                           cycle, with room in the history of the writer.
-/

set_option linter.unusedSectionVars false

namespace ReplayServer
open Fallible Merge

/-- one of those that are counted is replaced -/
theorem countP_set_of_getElem? {α : Type} {p : α → Bool} {l : List α} {i : Nat} {a : α}
    (h : l[i]? = some a) (ha : p a = true) (b : α) :
    (l.set i b).countP p + 1 = l.countP p + if p b = true then 1 else 0 := by
  obtain ⟨hlt, he⟩ := List.getElem?_eq_some_iff.mp h
  have hpos : 0 < l.countP p := List.countP_pos_iff.mpr ⟨a, List.mem_of_getElem? h, ha⟩
  rw [List.countP_set hlt, he, if_pos ha]
  omega

/-! ## between two wake-ups -/

def Lifetime.accepts : Lifetime → Bool
  | .created | .noWritersForAWhile _ => true
  | _ => false

/-- `finish` was called -/
def Lifetime.merged : Lifetime → Bool
  | .saving | .noReaders _ | .ended => true
  | _ => false

namespace ReplayLife

structure Sound (target dist : Nat) (l : ReplayLife) (m : State) : Prop where
  tracks : l.session.Tracks m
  targetEq : m.core.target = target
  conforming : Session.Conforming target dist (l.log.filterMap Call.action) l.session
  length : l.writers.length = m.core.replays.length
  writers : ∀ id, WriterAt id l.writers[id]? (m.core.get id).shown (callsOf id l.log)
  writerCount : l.writerConnectionCount.count = l.writers.countP WriterTask.active
  readerCount : l.readerConnectionCount.count = l.readers.countP id
  accepting : l.shouldStopAcceptingConnections = !l.lifetime.accepts
  finished : m.core.canon.finished = l.lifetime.merged
  log : ∃ calls, (∀ c ∈ calls, ∃ id a, c = .writer id a) ∧
    l.log = calls ++ if l.lifetime.merged then [.finish, .save] else []
  drained : l.lifetime.merged = true → ∀ t ∈ l.writers, t = .done
  left : l.lifetime = .ended → true ∉ l.readers

theorem new_sound (target dist historySize : Nat) :
    (withHistory target dist historySize).Sound target dist (State.new target dist) where
  tracks := Session.Tracks.new target dist
  targetEq := rfl
  conforming := .nil _
  length := rfl
  writers := fun _ => .absent
  writerCount := rfl
  readerCount := rfl
  accepting := rfl
  finished := rfl
  log := ⟨[], fun _ h => absurd h List.not_mem_nil, rfl⟩
  drained := fun _ _ h => absurd h List.not_mem_nil
  left := fun _ => List.not_mem_nil

/-- a cycle finds room in the history of its writer -/
def HasRoom (l : ReplayLife) (e : LifeEvent) : Prop :=
  ∀ id t, e = .cycle id → l.writers[id]? = some (.data t) → 0 < t.posQueue.historySize

/-- what holds after a wake-up that found the abstract state `m` -/
def Onward (target dist : Nat) (m : State) (l' : ReplayLife) : Prop :=
  ∃ m', Sound target dist l' m' ∧ Evolves m.core m'.core

namespace Sound
variable {target dist : Nat} {l : ReplayLife} {m : State} (h : l.Sound target dist m)
include h

theorem onward : Onward target dist m l := ⟨m, h, .refl _⟩

theorem length_conns : l.session.conns.length = l.writers.length :=
  h.tracks.rel.length.trans h.length.symm

theorem ran (id : Nat) : Ran target dist l.log m id [] l.session m := by
  refine ⟨h.tracks, h.targetEq, ?_, fun _ h => absurd h List.not_mem_nil, fun _ => rfl, rfl, rfl,
    .refl _⟩
  rw [List.append_nil]
  exact h.conforming

/-- the calls of one writer, with the change to the tasks that goes with them -/
theorem of_ran (hm : l.lifetime.merged = false) {id : Nat} {as : List Action} {s : Session}
    {m' : State} (hr : Ran target dist l.log m id as s m') {writers : List WriterTask}
    {count : EmptyCounter} (hlen : writers.length = l.writers.length + as.count .added)
    (hself : WriterAt id writers[id]? (as.foldl (fun r a => r.report id a) (m.core.get id).shown)
      (callsOf id l.log ++ as))
    (hother : ∀ j, j ≠ id → writers[j]? = l.writers[j]?)
    (hcount : count.count = writers.countP WriterTask.active) :
    Sound target dist { l with
      session := s, log := l.log ++ as.map (Call.writer id), writers := writers,
      writerConnectionCount := count } m' where
  tracks := hr.tracks
  targetEq := hr.targetEq
  conforming := by
    show Session.Conforming target dist ((l.log ++ as.map (Call.writer id)).filterMap Call.action) s
    rw [filterMap_action]
    exact hr.conforming
  length := by rw [hr.length, ← h.length, ← hlen]
  writers := by
    intro j
    show WriterAt j writers[j]? (m'.core.get j).shown (callsOf j (l.log ++ as.map (Call.writer id)))
    rw [callsOf_append, hr.shown]
    by_cases hj : id = j
    · subst hj
      rw [if_pos rfl]
      exact hself
    · rw [if_neg hj, List.append_nil, hother j (Ne.symm hj), foldl_report_of_ne hr.own (Ne.symm hj)]
      exact h.writers j
  writerCount := hcount
  readerCount := h.readerCount
  accepting := h.accepting
  finished := hr.finished.trans h.finished
  log := by
    obtain ⟨calls, hc, hl⟩ := h.log
    rw [hm] at hl
    refine ⟨calls ++ as.map (Call.writer id), fun c hmem => ?_, ?_⟩
    · rcases List.mem_append.mp hmem with hmem | hmem
      · exact hc c hmem
      · obtain ⟨a, _, rfl⟩ := List.mem_map.mp hmem
        exact ⟨id, a, rfl⟩
    · show l.log ++ _ = _
      rw [hl, hm, List.append_assoc]
      simp
  drained := fun h => absurd (hm.symm.trans h) Bool.false_ne_true
  left := h.left

/-! ### writers -/

theorem live {id : Nat} {task : WriterTask} (ht : l.writers[id]? = some task)
    (ha : task.active = true) : m.live id ∧ l.lifetime.merged = false ∧
      received (callsOf id l.log) = m.core.len id := by
  have hat := h.writers id
  rw [ht] at hat
  obtain ⟨hf, hlen⟩ := hat.active ha
  refine ⟨⟨?_, hf⟩, ?_, hlen⟩
  · rw [← h.length]
    exact (List.getElem?_eq_some_iff.mp ht).1
  · by_contra hm
    rw [h.drained (by simpa using hm) task (List.mem_of_getElem? ht)] at ha
    cases ha

theorem moved {id : Nat} {as : List Action} {s : Session} {m' : State}
    (hr : Ran target dist l.log m id as s m') {task task' : WriterTask}
    (ht : l.writers[id]? = some task) (ha : task.active = true) (hadd : as.count .added = 0)
    (hat : WriterAt id (some task')
      (as.foldl (fun r a => r.report id a) (m.core.get id).shown) (callsOf id l.log ++ as))
    {count : EmptyCounter}
    (hcount : count.count + 1 = l.writerConnectionCount.count + if task'.active = true then 1 else 0) :
    Sound target dist { l with
      session := s, log := l.log ++ as.map (Call.writer id), writers := l.writers.set id task',
      writerConnectionCount := count } m' := by
  have hlt := (List.getElem?_eq_some_iff.mp ht).1
  refine h.of_ran (h.live ht ha).2.1 hr ?_ ?_ (fun j hj => List.getElem?_set_ne (Ne.symm hj)) ?_
  · rw [List.length_set, hadd, Nat.add_zero]
  · rw [List.getElem?_set_self hlt]
    exact hat
  · have hc := countP_set_of_getElem? (p := WriterTask.active) ht ha task'
    rw [← h.writerCount, ← hcount] at hc
    omega

theorem handleConnection (ords : Nat → IterOrder) (type : ConnectionType) :
    ReturnsIf (0 < target) (l.handleConnection ords type) (Onward target dist m) := by
  unfold ReplayLife.handleConnection
  split
  · exact returnsIf_ok h.onward
  · rename_i hstop
    have hacc : l.lifetime.accepts = true := by
      have := h.accepting
      cases hl : l.lifetime.accepts with
      | true => rfl
      | false =>
        rw [hl] at this
        exact absurd this hstop
    have hm : l.lifetime.merged = false := by
      cases hl : l.lifetime <;> rw [hl] at hacc <;> first | rfl | cases hacc
    cases type with
    | writer =>
      have hlen : l.writers[l.writers.length]? = none := List.getElem?_eq_none le_rfl
      have hat := h.writers l.writers.length
      rw [hlen] at hat
      refine ((h.ran l.writers.length).call (l := { l with
        writerConnectionCount := l.writerConnectionCount.inc
        writers := l.writers ++ [.header] }) (a := .added) (List.append_nil _).symm
        (h.finished.trans hm) rfl ords).mono ?_
      rintro l' ⟨s, m', rfl, hr⟩
      refine ⟨m', h.of_ran hm hr ?_ ?_ (fun j hj => ?_) ?_, hr.evolves⟩
      · exact List.length_append
      · rw [List.getElem?_concat_length]
        exact hat.added
      · rcases Nat.lt_or_gt_of_ne hj with hj | hj
        · rw [List.getElem?_append_left hj]
        · rw [List.getElem?_eq_none (by rw [List.length_append, List.length_singleton]; omega),
            List.getElem?_eq_none (by omega)]
      · rw [List.countP_append, ← h.writerCount]
        rfl
    | reader =>
      refine returnsIf_ok (onward { h with readerCount := ?_, left := fun hl => ?_ })
      · show l.readerConnectionCount.count + 1 = (l.readers ++ [true]).countP id
        rw [h.readerCount, List.countP_append]
        rfl
      · change l.lifetime = .ended at hl
        rw [hl] at hacc
        cases hacc

theorem readHeader (ords : Nat → IterOrder) {id : Nat} (ht : l.writers[id]? = some .header)
    (x : ReplayHeader) :
    ReturnsIf (0 < target) (l.readHeader ords id x) (Onward target dist m) := by
  have hat := h.writers id
  rw [ht] at hat
  refine ReturnsIf.bind ((h.ran id).call (List.append_nil _).symm (a := .header id x)
    ⟨(h.live ht rfl).1, hat.no_header⟩ (beq_self_eq_true id) ords) ?_
  rintro l' ⟨s, m', rfl, hr⟩
  exact returnsIf_ok ⟨m', h.moved hr ht rfl rfl (hat.read x l.historySize) rfl, hr.evolves⟩

theorem readData (ords : Nat → IterOrder) {id : Nat} {t : TimestampLoop}
    (ht : l.writers[id]? = some (.data t)) (buf : List UInt8) :
    ReturnsIf (0 < target) (l.call ords id (.data id buf)) (Onward target dist m) := by
  have hat := h.writers id
  rw [ht] at hat
  refine ((h.ran id).call (List.append_nil _).symm (a := .data id buf)
    ⟨(h.live ht rfl).1, hat.timestamp.1⟩ (beq_self_eq_true id) ords).mono ?_
  rintro l' ⟨s, m', rfl, hr⟩
  have hmoved := h.moved hr ht rfl rfl (hat.got buf) rfl
  rw [set_of_getElem? ht] at hmoved
  exact ⟨m', hmoved, hr.evolves⟩

theorem updateReplayTimestamp (ords : Nat → IterOrder) {id : Nat} {t : TimestampLoop}
    (ht : l.writers[id]? = some (.data t)) : ReturnsIf (0 < target ∧ 0 < t.posQueue.historySize)
      (l.updateReplayTimestamp ords id t) (Onward target dist m) := by
  have hat := h.writers id
  rw [ht] at hat
  obtain ⟨hl, hm, _⟩ := h.live ht rfl
  obtain ⟨_, hprev, hq⟩ := hat.timestamp
  obtain ⟨w, hw, hwd, hwl⟩ := h.tracks.rel.writer_some hl.1
  have hle : (m.core.get id).delayed ≤ (m.core.get id).data.length :=
    h.tracks.sound.toInv.toEarly.delayed id
  unfold ReplayLife.updateReplayTimestamp
  rw [hw, unwrap_some, ok_bind, hwl]
  refine ((PositionHistory.pushAndGetDelayed_returns hq hle le_rfl).imp And.right).bind ?_
  rintro ⟨q, d⟩ ⟨hlo, hhi, hq'⟩
  dsimp only
  split
  · refine (((h.ran id).call (List.append_nil _).symm (a := .delayed id d)
      ⟨hl, hlo, hhi⟩ (beq_self_eq_true id) ords).imp And.left).bind ?_
    rintro l' ⟨s, m', rfl, hr⟩
    exact returnsIf_ok ⟨m', h.moved hr ht rfl rfl (hat.updated _ hq') rfl, hr.evolves⟩
  · rename_i hsame
    obtain ⟨_, hd⟩ := Prod.mk.inj (not_not.mp hsame)
    have hmod := h.tracks.rel.modifyWriter_same hl.1
    have hcur : (m.core.get id).delayed = d := hprev.symm.trans hd.symm
    rw [hcur] at hmod
    rw [hmod]
    have hmoved := h.moved (h.ran id) ht rfl rfl
      (by rw [List.append_nil]; exact hat.same (m.core.len id) hq' hd) rfl
    rw [List.map_nil, List.append_nil] at hmoved
    exact returnsIf_ok hmoved.onward

theorem writerStopped (ords : Nat → Nat → IterOrder) {id : Nat} {task : WriterTask}
    (ht : l.writers[id]? = some task) (ha : task.active = true) :
    ReturnsIf (0 < target) (l.writerStopped ords id) (Onward target dist m) := by
  have hat := h.writers id
  rw [ht] at hat
  obtain ⟨hl, _, _⟩ := h.live ht ha
  obtain ⟨w, hw, _, hwl⟩ := h.tracks.rel.writer_some hl.1
  have hle : (m.core.get id).delayed ≤ m.core.len id := h.tracks.sound.toInv.toEarly.delayed id
  have hpos : 0 < l.writerConnectionCount.count := by
    rw [h.writerCount]
    exact List.countP_pos_iff.mpr ⟨task, List.mem_of_getElem? ht, ha⟩
  unfold ReplayLife.writerStopped
  rw [hw, unwrap_some, ok_bind, hwl]
  refine ReturnsIf.bind ((h.ran id).call (List.append_nil _).symm (a := .delayed id (m.core.len id))
    ⟨hl, hle, le_rfl⟩ (beq_self_eq_true id) (ords 0)) ?_
  rintro l1 ⟨s1, m1, rfl, hr1⟩
  have hs : (m1.core.get id).shown =
      (m.core.get id).shown.report id (.delayed id (m.core.len id)) := hr1.shown id
  rw [Shown.report, if_pos rfl] at hs
  have hended : m1.allowed (.ended id) := by
    refine ⟨⟨?_, (congrArg Shown.finished hs).trans hl.2⟩, (congrArg Shown.delayed hs).trans ?_⟩
    · rw [hr1.length]
      exact Nat.lt_add_right _ hl.1
    · exact (congrArg (fun r => r.data.length) hs).symm
  refine ReturnsIf.bind (hr1.call (l := { l with session := s1, log := _ }) rfl hended
    (beq_self_eq_true id) (ords 1)) ?_
  rintro l2 ⟨s2, m2, rfl, hr2⟩
  rw [EmptyCounter.dec_eq hpos]
  refine returnsIf_ok ⟨m2, h.moved hr2 ht ha rfl (hat.stopped ha) ?_, hr2.evolves⟩
  show l.writerConnectionCount.count - 1 + 1 = l.writerConnectionCount.count + 0
  omega

/-! ### readers and the lifetime -/

theorem readerStopped {i : Nat} (ht : l.readers[i]? = some true) :
    ReturnsIf (0 < target) (l.readerStopped i) (Onward target dist m) := by
  have hpos : 0 < l.readerConnectionCount.count := by
    rw [h.readerCount]
    exact List.countP_pos_iff.mpr ⟨true, List.mem_of_getElem? ht, rfl⟩
  unfold ReplayLife.readerStopped
  rw [EmptyCounter.dec_eq hpos]
  refine returnsIf_ok (onward { h with readerCount := ?_, left := fun hl => ?_ })
  · have hc := countP_set_of_getElem? (p := id) ht rfl false
    show l.readerConnectionCount.count - 1 = (l.readers.set _ false).countP id
    rw [h.readerCount]
    simp only [id, Bool.false_eq_true, if_false] at hc ⊢
    omega
  · exact absurd (List.mem_of_getElem? ht) (h.left hl)

theorem setLifetime {t : Lifetime} {stop : Bool} (cancelled timeout : Bool)
    (hm : t.merged = l.lifetime.merged) (hs : stop = !t.accepts)
    (hl : t = .ended → true ∉ l.readers) :
    Sound target dist { l with
      lifetime := t, shouldStopAcceptingConnections := stop, cancelled := cancelled,
      timeout := timeout } m :=
  { h with
    accepting := hs
    finished := h.finished.trans hm.symm
    log := by
      show ∃ calls, _ ∧ l.log = calls ++ if t.merged = true then [.finish, .save] else []
      rw [hm]
      exact h.log
    drained := fun ht => h.drained (hm.symm.trans ht)
    left := hl }

theorem setWait (w : CountWait) : (l.setWait w).Sound target dist m := by
  refine h.setLifetime l.cancelled l.timeout ?_ ?_ (fun hl => ?_)
  · cases l.lifetime <;> rfl
  · rw [h.accepting]
    cases l.lifetime <;> rfl
  · refine h.left ?_
    revert hl
    cases l.lifetime <;> intro hl <;> first | rfl | cases hl

/-- without writers the strategy can finish -/
theorem finish (hm : l.lifetime.merged = false) (ha : l.lifetime.accepts = false)
    (hz : l.writerConnectionCount.count = 0) (ords : Nat → IterOrder) :
    ReturnsIf (0 < target) (l.session.step ords .finish) (fun s => Onward target dist m { l with
      session := s, lifetime := .saving, log := l.log ++ [.finish, .save] }) := by
  have hdone : ∀ t ∈ l.writers, t = .done := by
    intro t ht
    have hna := List.countP_eq_zero.mp (h.writerCount.symm.trans hz) t ht
    cases t with
    | done => rfl
    | header => exact absurd rfl hna
    | data t => exact absurd rfl hna
  have hallowed : m.allowed .finish := by
    refine ⟨h.finished.trans hm, fun id hid => ?_⟩
    have hlt : id < l.writers.length := h.length.symm ▸ hid
    have hat := h.writers id
    rw [List.getElem?_eq_getElem hlt, hdone _ (List.getElem_mem hlt)] at hat
    exact hat.finished
  have hsa := (h.tracks.rel.allowed_iff _).mpr hallowed
  obtain ⟨_, hstep⟩ := h.tracks.step hsa ords
  rw [h.targetEq] at hstep
  refine hstep.and_eq.mono (fun s hs => ?_)
  obtain ⟨hok, ht⟩ := hs
  obtain ⟨hconns, hfin⟩ := Session.step_rest hok
  rw [ht.rel.length, h.tracks.rel.length] at hconns
  rw [ht.rel.finished, decide_eq_true rfl, Bool.or_true] at hfin
  have hev := Micros.evolves (State.step_micros_true h.tracks.sound.wf ords hallowed)
    h.tracks.sound.wf
  refine ⟨_, ⟨ht, hev.target.trans h.targetEq, ?_, h.length.trans hconns.symm, fun id => ?_,
    h.writerCount, h.readerCount, ?_, hfin, ?_, fun _ => hdone, fun hl => nomatch hl⟩, hev⟩
  · show Session.Conforming target dist ((l.log ++ [Call.finish, Call.save]).filterMap Call.action) s
    rw [List.filterMap_append]
    exact h.conforming.snoc ⟨hsa, ords, hok⟩
  · show WriterAt id l.writers[id]? _ (callsOf id (l.log ++ [.finish, .save]))
    have hcalls : callsOf id (l.log ++ [.finish, .save]) = callsOf id l.log :=
      List.filterMap_append.trans (List.append_nil _)
    rw [hcalls, step_shown h.tracks.sound.wf ords hallowed]
    exact h.writers id
  · rw [h.accepting, ha]
    rfl
  · obtain ⟨calls, hc, hl⟩ := h.log
    rw [hm] at hl
    refine ⟨calls, hc, ?_⟩
    show l.log ++ _ = _
    rw [hl]
    exact congrArg (· ++ _) (List.append_nil calls)

/-- what ends a wait is an empty counter, or the token where it is asked for -/
theorem waited (ords : Nat → IterOrder)
    (hw : ∀ w, l.lifetime = .noWriters w → l.writerConnectionCount.count = 0)
    (hr : ∀ w, l.lifetime = .noReaders w → l.readerConnectionCount.count = 0) :
    ReturnsIf (0 < target) (l.waited ords) (Onward target dist m) := by
  unfold ReplayLife.waited
  split
  · rename_i w hl
    refine returnsIf_ok (onward (h.setLifetime l.cancelled l.timeout ?_ rfl (fun hl => nomatch hl)))
    rw [hl]
    rfl
  · rename_i w hl
    have hm : l.lifetime.merged = false := by rw [hl]; rfl
    have ha : l.lifetime.accepts = false := by rw [hl]; rfl
    exact (h.finish hm ha (hw w hl) ords).bind (fun _ hs => returnsIf_ok hs)
  · rename_i w hl
    refine returnsIf_ok (onward (h.setLifetime true l.timeout ?_ ?_ (fun _ hmem => ?_)))
    · rw [hl]
      rfl
    · rw [h.accepting, hl]
      rfl
    · have hz := List.countP_eq_zero.mp (h.readerCount.symm.trans (hr w hl)) true hmem
      exact hz rfl
  · exact returnsIf_ok h.onward

/-- **every wake-up keeps it, and does not fail with a positive target**; a cycle needs room in the
history of its writer -/
theorem next (ords : Nat → Nat → IterOrder) {e : LifeEvent} {x : Res ReplayLife}
    (hx : l.next ords e = some x) :
    ReturnsIf (0 < target ∧ l.HasRoom e) x (Onward target dist m) := by
  cases wakes_of_next hx with
  | connection type => exact (h.handleConnection (ords 0) type).imp And.left
  | header ht y => exact (h.readHeader (ords 0) ht y).imp And.left
  | data ht hbuf => exact (h.readData (ords 0) ht _).imp And.left
  | cycle ht =>
    exact (h.updateReplayTimestamp (ords 0) ht).imp (fun hp => ⟨hp.1, hp.2 _ _ rfl ht⟩)
  | writerStops ht ha hs => exact (h.writerStopped ords ht ha).imp And.left
  | readerStops hr hs => exact (h.readerStopped hr).imp And.left
  | lifetime hl =>
    refine returnsIf_ok (onward (h.setLifetime l.cancelled true ?_ ?_ (fun hl => nomatch hl)))
    · rw [hl]
      rfl
    · rw [h.accepting, hl]
      rfl
  | newCount hw hn => exact returnsIf_ok (h.setWait _).onward
  | timer hw ht => exact returnsIf_ok (h.setWait _).onward
  | timerOver hwait ht =>
    have hc := CountWait.timer_over ht
    refine (h.waited (ords 0) (fun w hl => ?_) (fun w hl => ?_)).imp And.left
    · rw [ReplayLife.wait, hl] at hwait
      cases hwait
      exact hc
    · rw [ReplayLife.wait, hl] at hwait
      cases hwait
      exact hc
  | waitCancelled hl hc =>
    exact (h.waited (ords 0) (fun w hl' => nomatch hl.symm.trans hl')
      (fun w hl' => nomatch hl.symm.trans hl')).imp And.left
  | saved hl =>
    refine returnsIf_ok (onward (h.setLifetime l.cancelled l.timeout ?_ ?_ (fun hl => nomatch hl)))
    · rw [hl]
      rfl
    · rw [h.accepting, hl]
      rfl
  | timeout ht => exact returnsIf_ok (onward { h with })
  | timeoutCancelled ht hc => exact returnsIf_ok (onward { h with })
  | shutdown => exact returnsIf_ok (onward { h with })

end Sound

theorem sound_of_run {target dist historySize : Nat} {evs : List LifeEvent}
    {l : ReplayLife} (h : Lts.Run Step (withHistory target dist historySize) evs l) :
    ∃ m, l.Sound target dist m := by
  refine h.invariant (I := fun l => ∃ m, Sound target dist l m) ?_ ⟨_, new_sound target dist historySize⟩
  rintro l e l' ⟨m, hm⟩ ⟨ords, hx⟩
  obtain ⟨m', hm', -⟩ := (hm.next ords hx).spec _ rfl
  exact ⟨m', hm'⟩

end ReplayLife

end ReplayServer
