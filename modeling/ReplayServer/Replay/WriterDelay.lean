import ReplayServer.Replay.DelayLine
import ReplayServer.Replay.LifecycleRun

/-!
# replay: every writer of a replay runs along its delay line

The wake-ups of one writer in the life of a replay are a schedule, and what the writer calls
follows from the run of this schedule alone.

* `delayEvents`, `delayCalls`   the schedule of a writer, and its calls;
* `WriterStep`                  what one wake-up means for one writer;
* `ReplayLife.writer_follows`   after every life, each writer is where its schedule leads.
-/

namespace ReplayServer
open Fallible Merge DelayEvent

/-! ## the schedule of a writer -/

/-- a wake-up that appends, or a cycle, of the writer `id`; times do not matter here -/
def LifeEvent.delayEvents (id : Nat) : LifeEvent → List (Nat × DelayEvent)
  | .data i buf => if i = id then [(0, .append buf)] else []
  | .cycle i => if i = id then [(0, .tick)] else []
  | _ => []

def delayEvents (id : Nat) (evs : List LifeEvent) : List (Nat × DelayEvent) :=
  evs.flatMap (LifeEvent.delayEvents id)

/-- what a writer calls in a schedule with the cycles `ticks` -/
def delayCalls (id : Nat) : List (Nat × DelayEvent) → List Tick → List Action
  | [], _ => []
  | (_, .append buf) :: sched, ticks => .data id buf :: delayCalls id sched ticks
  | (_, .tick) :: sched, [] => delayCalls id sched []
  | (_, .tick) :: sched, k :: ticks =>
    (if k.updated then [.delayed id k.delayed] else []) ++ delayCalls id sched ticks

theorem delayEvents_concat (id : Nat) (evs : List LifeEvent) (e : LifeEvent) :
    delayEvents id (evs ++ [e]) = delayEvents id evs ++ e.delayEvents id := by
  simp [delayEvents]

theorem delayCalls_append (id : Nat) {sched : List (Nat × DelayEvent)} {ticks : List Tick}
    (h : ticks.length = (tickTimes sched).length) (l : List (Nat × DelayEvent)) (ks : List Tick) :
    delayCalls id (sched ++ l) (ticks ++ ks) = delayCalls id sched ticks ++ delayCalls id l ks := by
  induction sched generalizing ticks with
  | nil =>
    rw [List.length_eq_zero_iff.mp h]
    rfl
  | cons e sched ih =>
    obtain ⟨now, ev⟩ := e
    cases ev with
    | append buf =>
      show .data id buf :: delayCalls id (sched ++ l) (ticks ++ ks) = .data id buf :: (_ ++ _)
      rw [ih h]
    | tick =>
      cases ticks with
      | nil => simp [tickTimes] at h
      | cons k ticks =>
        have hlen : ticks.length = (tickTimes sched).length := by
          simpa [tickTimes] using h
        show _ ++ delayCalls id (sched ++ l) (ticks ++ ks) = (_ ++ _) ++ _
        rw [ih hlen, List.append_assoc]

theorem delayCalls_tick (id now : Nat) (k : Tick) : delayCalls id [(now, .tick)] [k]
    = if k.updated then [.delayed id k.delayed] else [] :=
  List.append_nil _

/-- the data in the calls is the data of the schedule -/
theorem received_delayCalls (id : Nat) (sched : List (Nat × DelayEvent)) (ticks : List Tick) :
    received (delayCalls id sched ticks) = (appended sched).length := by
  induction sched generalizing ticks with
  | nil => rfl
  | cons e sched ih =>
    obtain ⟨now, ev⟩ := e
    have happ : appended ((now, ev) :: sched) = ev.bytes ++ appended sched := rfl
    rw [happ, List.length_append]
    cases ev with
    | append buf =>
      show buf.length + received (delayCalls id sched ticks) = _
      rw [ih]
      rfl
    | tick =>
      cases ticks with
      | nil =>
        show received (delayCalls id sched []) = _
        rw [ih, DelayEvent.bytes]
        simp
      | cons k ticks =>
        have hnone : received (if k.updated then [Action.delayed id k.delayed] else []) = 0 := by
          split
          · rfl
          · rfl
        show received (_ ++ delayCalls id sched ticks) = _
        rw [received_append, ih, hnone]
        rfl

/-! ## one wake-up -/

namespace ReplayLife

/-- what the wake-up `e` means for the writer `id`: its task after it, and its calls -/
inductive WriterStep (l : ReplayLife) (id : Nat) : LifeEvent → Option WriterTask → List Action → Prop where
  | connection (h : l.writers[id]? = none) :
      WriterStep l id (.connection .writer) (some .header) [.added]
  | header (h : l.writers[id]? = some .header) (x : ReplayHeader) :
      WriterStep l id (.header id x) (some (.data (.new l.historySize))) [.header id x]
  | data {t : TimestampLoop} (h : l.writers[id]? = some (.data t)) (buf : List UInt8) :
      WriterStep l id (.data id buf) (some (.data t)) [.data id buf]
  | cycle {t : TimestampLoop} (h : l.writers[id]? = some (.data t)) {w : WriterReplay}
      (hw : l.session.writer id = some w) {posQueue : PositionHistory} {delayed : Nat}
      (hpush : t.posQueue.pushAndGetDelayed w.dataLen = .ok (posQueue, delayed)) :
      WriterStep l id (.cycle id) (some (.data ⟨posQueue, w.dataLen, delayed⟩))
        (if (w.dataLen, delayed) ≠ (t.prevCurrent, t.prevDelayed) then [.delayed id delayed] else [])
  | stops {task : WriterTask} (h : l.writers[id]? = some task) (ha : task.active = true)
      {w : WriterReplay} (hw : l.session.writer id = some w) (why : Stop) :
      WriterStep l id (.writerStops id why) (some .done) [.delayed id w.dataLen, .ended id]
  | stays {e : LifeEvent} (he : e.delayEvents id = []) : WriterStep l id e l.writers[id]? []

/-- the wake-up `e` as a step of all writers -/
def WriterSteps (l : ReplayLife) (e : LifeEvent) (l' : ReplayLife) : Prop :=
  l'.historySize = l.historySize ∧ ∀ id, ∃ calls, WriterStep l id e l'.writers[id]? calls ∧
    callsOf id l'.log = callsOf id l.log ++ calls

section
variable {l l' : ReplayLife} {e : LifeEvent}

theorem call_eq_ok {ords : Nat → IterOrder} {id : Nat} {a : Action} (h : l.call ords id a = .ok l') :
    ∃ s, l' = { l with session := s, log := l.log ++ [.writer id a] } := by
  obtain ⟨s, -, h⟩ := bind_eq_ok.mp h
  cases h
  exact ⟨s, rfl⟩

theorem WriterSteps.of_quiet (hc : l'.historySize = l.historySize) (hw : l'.writers = l.writers)
    (hlog : ∀ id, callsOf id l'.log = callsOf id l.log) (he : ∀ id, e.delayEvents id = []) :
    WriterSteps l e l' := by
  refine ⟨hc, fun id => ⟨[], ?_, ?_⟩⟩
  · rw [hw]
    exact .stays (he id)
  · rw [hlog, List.append_nil]

theorem WriterSteps.of_writer {id : Nat} {task : WriterTask} {calls : List Action}
    (hc : l'.historySize = l.historySize) (hlt : id < l.writers.length)
    (hw : l'.writers = l.writers.set id task) (hlog : l'.log = l.log ++ calls.map (Call.writer id))
    (hself : WriterStep l id e (some task) calls) (he : ∀ j, id ≠ j → e.delayEvents j = []) :
    WriterSteps l e l' := by
  refine ⟨hc, fun j => ?_⟩
  rw [hlog, hw, callsOf_append]
  by_cases hj : id = j
  · subst hj
    rw [if_pos rfl, List.getElem?_set_self hlt]
    exact ⟨calls, hself, rfl⟩
  · rw [if_neg hj, List.getElem?_set_ne hj]
    exact ⟨[], .stays (he j hj), rfl⟩

theorem handleConnection_steps {ords : Nat → IterOrder} {type : ConnectionType}
    (h : l.handleConnection ords type = .ok l') : WriterSteps l (.connection type) l' := by
  have hquiet : ∀ id, (LifeEvent.connection type).delayEvents id = [] := fun _ => rfl
  unfold handleConnection at h
  split at h
  · cases h
    exact .of_quiet rfl rfl (fun _ => rfl) hquiet
  · cases type with
    | reader =>
      cases h
      exact .of_quiet rfl rfl (fun _ => rfl) hquiet
    | writer =>
      obtain ⟨s, rfl⟩ := call_eq_ok h
      refine ⟨rfl, fun id => ?_⟩
      show ∃ calls, WriterStep l id _ (l.writers ++ [WriterTask.header])[id]? calls ∧
        callsOf id (l.log ++ [Action.added].map (Call.writer l.writers.length)) = _
      rw [callsOf_append]
      rcases Nat.lt_trichotomy id l.writers.length with hid | rfl | hid
      · rw [List.getElem?_append_left hid, if_neg hid.ne']
        exact ⟨[], .stays (hquiet id), rfl⟩
      · rw [List.getElem?_concat_length, if_pos rfl]
        exact ⟨_, .connection (List.getElem?_eq_none le_rfl), rfl⟩
      · have hnone : (l.writers ++ [WriterTask.header])[id]? = l.writers[id]? := by
          rw [List.getElem?_eq_none (by simp; omega), List.getElem?_eq_none hid.le]
        rw [hnone, if_neg hid.ne]
        exact ⟨[], .stays (hquiet id), rfl⟩

theorem lt_of_writer {id : Nat} {task : WriterTask} (h : l.writers[id]? = some task) :
    id < l.writers.length :=
  (List.getElem?_eq_some_iff.mp h).1

theorem readHeader_steps {ords : Nat → IterOrder} {id : Nat} {x : ReplayHeader}
    (ht : l.writers[id]? = some .header) (h : l.readHeader ords id x = .ok l') :
    WriterSteps l (.header id x) l' := by
  obtain ⟨l1, h1, h⟩ := bind_eq_ok.mp h
  obtain ⟨s, rfl⟩ := call_eq_ok h1
  cases h
  exact .of_writer rfl (lt_of_writer ht) rfl rfl (.header ht x) (fun _ _ => rfl)

theorem readData_steps {ords : Nat → IterOrder} {id : Nat} {t : TimestampLoop} {buf : List UInt8}
    (ht : l.writers[id]? = some (.data t)) (h : l.call ords id (.data id buf) = .ok l') :
    WriterSteps l (.data id buf) l' := by
  obtain ⟨s, rfl⟩ := call_eq_ok h
  refine .of_writer rfl (lt_of_writer ht) ?_ rfl (.data ht buf) (fun j hj => if_neg hj)
  exact (set_of_getElem? ht).symm

theorem updateReplayTimestamp_steps {ords : Nat → IterOrder} {id : Nat} {t : TimestampLoop}
    (ht : l.writers[id]? = some (.data t)) (h : l.updateReplayTimestamp ords id t = .ok l') :
    WriterSteps l (.cycle id) l' := by
  obtain ⟨w, hw, h⟩ := bind_eq_ok.mp h
  have hw := unwrap_eq_ok.mp hw
  obtain ⟨⟨q, d⟩, hpush, h⟩ := bind_eq_ok.mp h
  have hself := WriterStep.cycle ht hw hpush
  dsimp only at h
  split at h
  · rename_i hne
    rw [if_pos hne] at hself
    obtain ⟨l1, h1, h⟩ := bind_eq_ok.mp h
    obtain ⟨s, rfl⟩ := call_eq_ok h1
    cases h
    exact .of_writer rfl (lt_of_writer ht) rfl rfl hself (fun j hj => if_neg hj)
  · rename_i hne
    rw [if_neg hne] at hself
    obtain ⟨σ, -, h⟩ := bind_eq_ok.mp h
    cases h
    exact .of_writer rfl (lt_of_writer ht) rfl (List.append_nil _).symm hself (fun j hj => if_neg hj)

theorem writerStopped_steps {ords : Nat → Nat → IterOrder} {id : Nat} {task : WriterTask} {why : Stop}
    (ht : l.writers[id]? = some task) (ha : task.active = true) (h : l.writerStopped ords id = .ok l') :
    WriterSteps l (.writerStops id why) l' := by
  obtain ⟨w, hw, h⟩ := bind_eq_ok.mp h
  have hw := unwrap_eq_ok.mp hw
  obtain ⟨l1, h1, h⟩ := bind_eq_ok.mp h
  obtain ⟨s1, rfl⟩ := call_eq_ok h1
  obtain ⟨l2, h2, h⟩ := bind_eq_ok.mp h
  obtain ⟨s2, rfl⟩ := call_eq_ok h2
  obtain ⟨count, -, h⟩ := bind_eq_ok.mp h
  cases h
  have hlog : l.log ++ [Call.writer id (.delayed id w.dataLen)] ++ [Call.writer id (.ended id)]
      = l.log ++ [Action.delayed id w.dataLen, .ended id].map (Call.writer id) :=
    List.append_assoc _ _ _
  exact .of_writer rfl (lt_of_writer ht) rfl hlog (.stops ht ha hw why) (fun _ _ => rfl)

theorem waited_steps {ords : Nat → IterOrder} (h : l.waited ords = .ok l')
    (he : ∀ id, e.delayEvents id = []) : WriterSteps l e l' := by
  unfold waited at h
  split at h
  · cases h
    exact .of_quiet rfl rfl (fun _ => rfl) he
  · obtain ⟨s, -, h⟩ := bind_eq_ok.mp h
    cases h
    refine .of_quiet rfl rfl (fun id => ?_) he
    show callsOf id (l.log ++ [.finish, .save]) = _
    exact List.filterMap_append.trans (List.append_nil _)
  · cases h
    exact .of_quiet rfl rfl (fun _ => rfl) he
  · cases h
    exact .of_quiet rfl rfl (fun _ => rfl) he

/-- **what a wake-up means for each writer** -/
theorem Step.writerSteps (h : Step l e l') : WriterSteps l e l' := by
  obtain ⟨ords, h⟩ := h
  generalize hx : Except.ok l' = x at h
  cases wakes_of_next h with
  | connection type => exact handleConnection_steps hx.symm
  | header ht y => exact readHeader_steps ht hx.symm
  | data ht hbuf => exact readData_steps ht hx.symm
  | cycle ht => exact updateReplayTimestamp_steps ht hx.symm
  | writerStops ht ha hs => exact writerStopped_steps ht ha hx.symm
  | readerStops hr hs =>
    obtain ⟨count, -, h⟩ := bind_eq_ok.mp hx.symm
    cases h
    exact .of_quiet rfl rfl (fun _ => rfl) (fun _ => rfl)
  | timerOver hw ht => exact waited_steps hx.symm (fun _ => rfl)
  | waitCancelled hl hc => exact waited_steps hx.symm (fun _ => rfl)
  | lifetime | newCount | timer | saved | timeout | timeoutCancelled | shutdown =>
    cases hx
    exact .of_quiet rfl rfl (fun _ => rfl) (fun _ => rfl)

end

/-! ## a whole life -/

/-- where a writer is, and its calls, after the schedule `sched` -/
inductive Follows (historySize id : Nat) (sched : List (Nat × DelayEvent)) :
    Option WriterTask → List Action → Prop where
  | absent (h : sched = []) : Follows historySize id sched none []
  | header (h : sched = []) : Follows historySize id sched (some .header) [.added]
  /-- what the timestamp loop remembers is what the run of the schedule remembers -/
  | data {s : DelayRun} (h : sched.foldlM StreamDelay.next (.new historySize) = .ok s)
      (x : ReplayHeader) : Follows historySize id sched (some (.data s.loop))
        (.added :: .header id x :: delayCalls id sched s.ticks)
  /-- the final position is all the data -/
  | done {task : WriterTask} {calls : List Action} (h : Follows historySize id sched (some task) calls)
      (ha : task.active = true) : Follows historySize id sched (some .done)
        (calls ++ [.delayed id (appended sched).length, .ended id])

namespace Follows
variable {historySize id : Nat} {sched : List (Nat × DelayEvent)} {calls : List Action}

theorem of_none (h : Follows historySize id sched none calls) : sched = [] ∧ calls = [] := by
  cases h with
  | absent h => exact ⟨h, rfl⟩

theorem of_header (h : Follows historySize id sched (some .header) calls) :
    sched = [] ∧ calls = [.added] := by
  cases h with
  | header h => exact ⟨h, rfl⟩

theorem of_data {t : TimestampLoop} (h : Follows historySize id sched (some (.data t)) calls) :
    ∃ s x, sched.foldlM StreamDelay.next (.new historySize) = .ok s ∧ s.loop = t ∧
      calls = .added :: .header id x :: delayCalls id sched s.ticks := by
  cases h with
  | data h x => exact ⟨_, x, h, rfl, rfl⟩

theorem received {task : WriterTask} (h : Follows historySize id sched (some task) calls)
    (ha : task.active = true) : ReplayServer.received calls = (appended sched).length := by
  cases h with
  | header h =>
    rw [h]
    rfl
  | data h x =>
    rw [← received_delayCalls id sched]
    show 0 + (0 + ReplayServer.received _) = _
    rw [Nat.zero_add, Nat.zero_add]
  | done => cases ha

theorem append {t : TimestampLoop} (h : Follows historySize id sched (some (.data t)) calls)
    (buf : List UInt8) : Follows historySize id (sched ++ [(0, .append buf)]) (some (.data t))
      (calls ++ [.data id buf]) := by
  obtain ⟨s, x, hrun, rfl, rfl⟩ := h.of_data
  have hs := (run_history _ sched).spec _ hrun
  obtain ⟨b, -, hnext⟩ := hs.next_append 0 buf
  have hlen : s.ticks.length = (tickTimes sched).length := by
    rw [← hs.times, List.length_map]
  have hcalls := delayCalls_append id hlen [(0, .append buf)] []
  rw [List.append_nil] at hcalls
  have hrun' : (sched ++ [(0, DelayEvent.append buf)]).foldlM StreamDelay.next
      (.new historySize) = .ok { s with replay := { s.replay with data := b } } := by
    rw [List.foldlM_append, hrun, ok_bind, List.foldlM_cons, hnext, ok_bind, List.foldlM_nil,
      pure_eq_ok]
  have hdata : Follows historySize id _ _ _ := .data hrun' x
  dsimp only at hdata
  rw [hcalls] at hdata
  exact hdata

theorem tick {t : TimestampLoop} (h : Follows historySize id sched (some (.data t)) calls)
    {posQueue : PositionHistory} {delayed : Nat}
    (hpush : t.posQueue.pushAndGetDelayed (appended sched).length = .ok (posQueue, delayed)) :
    Follows historySize id (sched ++ [(0, .tick)])
      (some (.data ⟨posQueue, (appended sched).length, delayed⟩))
      (calls ++ if ((appended sched).length, delayed) ≠ (t.prevCurrent, t.prevDelayed) then
        [.delayed id delayed] else []) := by
  obtain ⟨s, x, hrun, rfl, rfl⟩ := h.of_data
  have hs := (run_history _ sched).spec _ hrun
  rw [← hs.dataLen] at hpush ⊢
  have hnext := hs.next_tick 0 hpush
  have hlen : s.ticks.length = (tickTimes sched).length := by
    rw [← hs.times, List.length_map]
  have hrun' : (sched ++ [(0, DelayEvent.tick)]).foldlM StreamDelay.next
      (.new historySize) = .ok (s.ticked 0 posQueue delayed) := by
    rw [List.foldlM_append, hrun, ok_bind, List.foldlM_cons, hnext, ok_bind, List.foldlM_nil,
      pure_eq_ok]
  have hdata : Follows historySize id _ _ _ := .data hrun' x
  rw [DelayRun.ticked, delayCalls_append id hlen [(0, .tick)], delayCalls_tick] at hdata
  simp only [decide_eq_true_eq] at hdata
  exact hdata

/-- one wake-up; a writer that did not stop shows all its data -/
theorem step {l : ReplayLife} {e : LifeEvent} {task' : Option WriterTask} {calls' : List Action}
    (h : Follows l.historySize id sched l.writers[id]? calls)
    (hlen : ∀ task w, l.writers[id]? = some task → task.active = true → l.session.writer id = some w →
      w.dataLen = ReplayServer.received calls)
    (hs : WriterStep l id e task' calls') :
    Follows l.historySize id (sched ++ e.delayEvents id) task' (calls ++ calls') := by
  cases hs with
  | connection ht =>
    rw [ht] at h
    obtain ⟨rfl, rfl⟩ := h.of_none
    exact .header rfl
  | header ht x =>
    rw [ht] at h
    obtain ⟨rfl, rfl⟩ := h.of_header
    have hrun : ([] : List (Nat × DelayEvent)).foldlM StreamDelay.next
        (.new l.historySize) = .ok (.new l.historySize) := rfl
    exact .data hrun x
  | data ht buf =>
    rw [ht] at h
    rw [LifeEvent.delayEvents, if_pos rfl]
    exact h.append buf
  | cycle ht hw hpush =>
    rw [ht] at h
    rw [LifeEvent.delayEvents, if_pos rfl]
    rw [hlen _ _ ht rfl hw, h.received rfl] at hpush ⊢
    exact h.tick hpush
  | stops ht ha hw why =>
    rw [ht] at h
    rw [hlen _ _ ht ha hw, h.received ha]
    show Follows _ _ (sched ++ []) _ _
    rw [List.append_nil]
    exact h.done ha
  | stays he =>
    rw [he, List.append_nil, List.append_nil]
    exact h

end Follows

/-- **every writer of every life runs along its delay line**: what its timestamp loop remembers and
what it calls are the ones of the run of its schedule -/
theorem writer_follows {target dist historySize : Nat} {evs : List LifeEvent} {l : ReplayLife}
    (h : Lts.Run Step (withHistory target dist historySize) evs l) (id : Nat) :
    Follows historySize id (delayEvents id evs) l.writers[id]? (callsOf id l.log) := by
  have hall : l.historySize = historySize ∧
      Follows historySize id (delayEvents id evs) l.writers[id]? (callsOf id l.log) := by
    induction h with
    | nil => exact ⟨rfl, .absent rfl⟩
    | @snoc t u evs e hr hs ih =>
      obtain ⟨hc, hf⟩ := ih
      obtain ⟨m, hm⟩ := sound_of_run hr
      obtain ⟨hc', hw⟩ := hs.writerSteps
      obtain ⟨calls, hstep, hcalls⟩ := hw id
      refine ⟨hc'.trans hc, ?_⟩
      rw [← hc] at hf ⊢
      rw [hcalls, delayEvents_concat]
      refine hf.step ?_ hstep
      intro task w ht ha hwriter
      obtain ⟨hlive, -, hlen⟩ := hm.live ht ha
      obtain ⟨w', hw', -, hwl⟩ := hm.tracks.rel.writer_some hlive.1
      rw [hwriter] at hw'
      cases hw'
      exact hwl.trans hlen.symm
  exact hall.2

theorem hasRoom_of_run {target dist historySize : Nat} (hsize : 0 < historySize)
    {evs : List LifeEvent} {l : ReplayLife}
    (h : Lts.Run Step (withHistory target dist historySize) evs l) (e : LifeEvent) : l.HasRoom e := by
  intro id t _ ht
  have hf := writer_follows h id
  rw [ht] at hf
  obtain ⟨s, x, hrun, rfl, -⟩ := hf.of_data
  rw [((run_history _ _).spec _ hrun).size]
  exact hsize

end ReplayLife

end ReplayServer
