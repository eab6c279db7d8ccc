import ReplayServer.Replay.CallingProtocol
import ReplayServer.Replay.LifecycleTasks
import ReplayServer.Replay.Readers

/-!
# replay: sending the merged replay to its readers

`sender.rs` inside the life of a replay.  A `Broadcast` is a `ReplayLife` in which the work on every
reader connection is followed too: `tokio::io::copy` fills a buffer from the merged replay and
writes it to the connection, in pieces of any size.  A poll that finds nothing new leaves only its
waker behind, which is the subject of `Readers`, so it is not a step here.

* `ReplayLife.Step.readers`   what a wake-up of the life does to the readers;
* `ReplayLife.Step.merged`    once it is merged the replay does not change any more;
* `Broadcast.task_step`       all that a step can do to the copy for one reader.
-/

set_option linter.unusedSectionVars false

namespace ReplayServer
open Fallible Merge

/-- where `send_replay_to_connection` is -/
inductive Sending where
  | copying
  | copied
  /-- the connection broke, or the token was cancelled -/
  | cut
  deriving DecidableEq, Repr

structure SendTask where
  reader : MReplayReader
  /-- what was read and is not written yet -/
  buffer : List UInt8
  readDone : Bool
  written : List UInt8
  sending : Sending
  deriving DecidableEq, Repr

namespace SendTask

def new : SendTask := ⟨.new, [], false, [], .copying⟩

def copying (t : SendTask) : Bool := t.sending = .copying

/-- the buffer is filled; a read of nothing is the end -/
def filled (t : SendTask) (reader : MReplayReader) (l : List UInt8) : SendTask :=
  { t with reader := reader, buffer := t.buffer ++ l, readDone := l.isEmpty }

def write (t : SendTask) (n : Nat) : SendTask :=
  { t with buffer := t.buffer.drop n, written := t.written ++ t.buffer.take n }

def stop (t : SendTask) (sending : Sending) : SendTask := { t with sending := sending }

end SendTask

inductive BroadcastEvent where
  /-- a wake-up of another task; the work on a reader may be cut off by it -/
  | life (e : LifeEvent)
  /-- the copy for reader `i` reads, with room for `size` bytes -/
  | fill (i size : Nat)
  | write (i n : Nat)
  | copied (i : Nat)
  deriving DecidableEq, Repr

def BroadcastEvent.ofTask (i : Nat) : BroadcastEvent → Bool
  | .fill j _ | .write j _ | .copied j => j == i
  | .life _ => false

structure Broadcast where
  life : ReplayLife
  tasks : List SendTask

namespace Broadcast

def new (targetQuorumSize streamCmpDistance delayCycles : Nat) : Broadcast :=
  ⟨.new targetQuorumSize streamCmpDistance delayCycles, []⟩

def tasksAfter (self : Broadcast) : LifeEvent → List SendTask
  | .connection .reader =>
    if self.life.shouldStopAcceptingConnections then self.tasks else self.tasks ++ [.new]
  | .readerStops i _ =>
    match self.tasks[i]? with
    | some t => self.tasks.set i (t.stop .cut)
    | none => self.tasks
  | _ => self.tasks

inductive Step : Broadcast → BroadcastEvent → Broadcast → Prop where
  | life {b : Broadcast} {e : LifeEvent} {l : ReplayLife} (h : ReplayLife.Step b.life e l) :
      Step b (.life e) ⟨l, b.tasksAfter e⟩
  | fill {b : Broadcast} {i size : Nat} {t : SendTask} {reader : MReplayReader}
      {merged : MergedReplay} {l : List UInt8} (ht : b.tasks[i]? = some t)
      (hc : t.copying = true) (hd : t.readDone = false) (hs : 0 < size)
      (h : t.reader.pollRead b.life.session.merged i size = .ok (reader, merged, .ready l)) :
      Step b (.fill i size) { b with tasks := b.tasks.set i (t.filled reader l) }
  | write {b : Broadcast} {i n : Nat} {t : SendTask} (ht : b.tasks[i]? = some t)
      (hc : t.copying = true) (hn : 0 < n) (hle : n ≤ t.buffer.length) :
      Step b (.write i n) { b with tasks := b.tasks.set i (t.write n) }
  | copied {b : Broadcast} {i : Nat} {t : SendTask} {l : ReplayLife} (ht : b.tasks[i]? = some t)
      (hc : t.copying = true) (hd : t.readDone = true) (hb : t.buffer = [])
      (h : ReplayLife.Step b.life (.readerStops i .connection) l) :
      Step b (.copied i) ⟨l, b.tasks.set i (t.stop .copied)⟩

end Broadcast

/-! ## the readers in the life of a replay -/

namespace ReplayLife
variable {l l' : ReplayLife}

def readersAfter (self : ReplayLife) : LifeEvent → List Bool
  | .connection .reader =>
    if self.shouldStopAcceptingConnections then self.readers else self.readers ++ [true]
  | .readerStops i _ => self.readers.set i false
  | _ => self.readers

theorem Step.readers {e : LifeEvent} (h : Step l e l') : l'.readers = l.readersAfter e := by
  show l'.tasks.readers = _
  have hs := h.tasks
  revert hs
  generalize l'.tasks = t'
  intro hs
  cases hs with
  | @late type hstop =>
    cases type with
    | writer => rfl
    | reader => exact (if_pos hstop).symm
  | writer hstop => rfl
  | reader hstop => exact (if_neg (Bool.eq_false_iff.mp hstop)).symm
  | works he ht =>
    revert he
    cases e <;> intro he <;> first | rfl | cases he
  | timerOver hd => cases hd <;> rfl
  | waitCancelled hc hd => cases hd <;> rfl
  | writerStops | readerStops | lifetime | newCount | timer | saved | timeout | timeoutCancelled
  | shutdown => rfl

/-- **once it is merged the replay does not change any more** -/
theorem Step.merged {target dist : Nat} {m : State} (hm : l.Sound target dist m)
    (hl : l.lifetime.merged = true) {e : LifeEvent} (h : Step l e l') :
    l'.session = l.session ∧ l'.lifetime.merged = true := by
  obtain ⟨ords, h⟩ := h
  generalize hx : Except.ok l' = x at h
  -- no writer is left that could wake up
  have hdone : ∀ {id : Nat} {task : WriterTask}, l.writers[id]? = some task → task = .done :=
    fun ht => hm.drained hl _ (List.mem_of_getElem? ht)
  have hmerged : ∀ {t : Lifetime}, l.lifetime = t → t.merged = true := fun ht => ht ▸ hl
  cases wakes_of_next h with
  | connection type =>
    have hstop : l.shouldStopAcceptingConnections = true := by
      rw [hm.accepting]
      cases hlt : l.lifetime <;> rw [hlt] at hl <;> first | rfl | cases hl
    unfold handleConnection at hx
    rw [if_pos hstop] at hx
    cases hx
    exact ⟨rfl, hl⟩
  | header ht y => cases hdone ht
  | data ht hbuf => cases hdone ht
  | cycle ht => cases hdone ht
  | writerStops ht ha hs =>
    rw [hdone ht] at ha
    cases ha
  | readerStops hr hs =>
    obtain ⟨count, -, h⟩ := bind_eq_ok.mp hx.symm
    cases h
    exact ⟨rfl, hl⟩
  | lifetime hlt => cases hmerged hlt
  | newCount hw hn =>
    cases hx
    refine ⟨rfl, ?_⟩
    revert hl
    unfold setWait
    cases l.lifetime <;> intro hl <;> first | rfl | cases hl
  | timer hw ht =>
    cases hx
    refine ⟨rfl, ?_⟩
    revert hl
    unfold setWait
    cases l.lifetime <;> intro hl <;> first | rfl | cases hl
  | timerOver hw ht =>
    unfold waited at hx
    split at hx
    · rename_i hlt
      cases hmerged hlt
    · rename_i hlt
      cases hmerged hlt
    · cases hx
      exact ⟨rfl, rfl⟩
    · cases hx
      exact ⟨rfl, hl⟩
  | waitCancelled hlt hc => cases hmerged hlt
  | saved hlt =>
    cases hx
    exact ⟨rfl, rfl⟩
  | timeout | timeoutCancelled | shutdown =>
    cases hx
    exact ⟨rfl, hl⟩

end ReplayLife

namespace Broadcast

/-! ## what becomes of one copy -/

inductive TaskStep (b : Broadcast) (i : Nat) : BroadcastEvent → SendTask → SendTask → Prop where
  | other {e : BroadcastEvent} (he : e.ofTask i = false) (t : SendTask) : TaskStep b i e t t
  | cut (why : Stop) (t : SendTask) : TaskStep b i (.life (.readerStops i why)) t (t.stop .cut)
  | fill {size : Nat} {t : SendTask} {reader : MReplayReader} {merged : MergedReplay}
      {l : List UInt8} (hc : t.copying = true) (hd : t.readDone = false) (hs : 0 < size)
      (h : t.reader.pollRead b.life.session.merged i size = .ok (reader, merged, .ready l)) :
      TaskStep b i (.fill i size) t (t.filled reader l)
  | write {n : Nat} {t : SendTask} (hc : t.copying = true) (hn : 0 < n) (hle : n ≤ t.buffer.length) :
      TaskStep b i (.write i n) t (t.write n)
  | copied {t : SendTask} (hc : t.copying = true) (hd : t.readDone = true) (hb : t.buffer = []) :
      TaskStep b i (.copied i) t (t.stop .copied)

section
variable {b b' : Broadcast} {e : BroadcastEvent} {i : Nat} {t : SendTask}

theorem set_task_step {j : Nat} {u v : SendTask} (hu : b.tasks[j]? = some u)
    (hj : TaskStep b j e u v) (he : j ≠ i → e.ofTask i = false) (ht : b.tasks[i]? = some t) :
    ∃ t', (b.tasks.set j v)[i]? = some t' ∧ TaskStep b i e t t' := by
  by_cases hij : j = i
  · subst hij
    rw [ht] at hu
    cases hu
    exact ⟨v, List.getElem?_set_self (List.getElem?_eq_some_iff.mp ht).1, hj⟩
  · rw [List.getElem?_set_ne hij]
    exact ⟨t, ht, .other (he hij) t⟩

/-- **the copy for a reader goes on** -/
theorem task_step (hs : Step b e b') (ht : b.tasks[i]? = some t) :
    ∃ t', b'.tasks[i]? = some t' ∧ TaskStep b i e t t' := by
  cases hs with
  | @life e l hs =>
    show ∃ t', (b.tasksAfter e)[i]? = some t' ∧ _
    unfold tasksAfter
    split
    · split
      · exact ⟨t, ht, .other rfl t⟩
      · exact ⟨t, (List.getElem?_append_left (List.getElem?_eq_some_iff.mp ht).1).trans ht,
          .other rfl t⟩
    · rename_i j why
      split
      · rename_i u hu
        exact set_task_step hu (.cut why u) (fun _ => rfl) ht
      · exact ⟨t, ht, .other rfl t⟩
    · exact ⟨t, ht, .other rfl t⟩
  | fill hu hc hd hs hp => exact set_task_step hu (.fill hc hd hs hp) beq_eq_false_iff_ne.mpr ht
  | write hu hc hn hle => exact set_task_step hu (.write hc hn hle) beq_eq_false_iff_ne.mpr ht
  | copied hu hc hd hb hs => exact set_task_step hu (.copied hc hd hb) beq_eq_false_iff_ne.mpr ht

theorem task_new (hs : Step b e b') (hnone : b.tasks[i]? = none) (ht : b'.tasks[i]? = some t) :
    t = .new := by
  have hset : ∀ {j : Nat} {u : SendTask}, (b.tasks.set j u)[i]? ≠ some t := by
    intro j u h
    have hlt := (List.getElem?_eq_some_iff.mp h).1
    rw [List.length_set] at hlt
    exact absurd hlt (not_lt.mpr (List.getElem?_eq_none_iff.mp hnone))
  have hold : b.tasks[i]? ≠ some t := fun h => nomatch hnone.symm.trans h
  cases hs with
  | @life e l hs =>
    change (b.tasksAfter e)[i]? = some t at ht
    unfold tasksAfter at ht
    split at ht
    · split at ht
      · exact absurd ht hold
      · rw [List.getElem?_append_right (List.getElem?_eq_none_iff.mp hnone)] at ht
        exact List.mem_singleton.mp (List.mem_of_getElem? ht)
    · split at ht
      · exact absurd ht hset
      · exact absurd ht hold
    · exact absurd ht hold
  | fill => exact absurd ht hset
  | write => exact absurd ht hset
  | copied => exact absurd ht hset

end

/-! ## the steps that are possible -/

def next (self : Broadcast) : BroadcastEvent → Option Broadcast
  | .life e => (self.life.wake e).map (fun l => ⟨l, self.tasksAfter e⟩)
  | .fill i size =>
    match self.tasks[i]? with
    | some t =>
      if t.copying = true ∧ t.readDone = false ∧ 0 < size then
        match t.reader.pollRead self.life.session.merged i size with
        | .ok (reader, _, .ready l) =>
          some { self with tasks := self.tasks.set i (t.filled reader l) }
        | _ => none
      else none
    | none => none
  | .write i n =>
    match self.tasks[i]? with
    | some t =>
      if t.copying = true ∧ 0 < n ∧ n ≤ t.buffer.length then
        some { self with tasks := self.tasks.set i (t.write n) }
      else none
    | none => none
  | .copied i =>
    match self.tasks[i]? with
    | some t =>
      if t.copying = true ∧ t.readDone = true ∧ t.buffer = [] then
        (self.life.wake (.readerStops i .connection)).map
          (fun l => ⟨l, self.tasks.set i (t.stop .copied)⟩)
      else none
    | none => none

theorem step_of_next {b b' : Broadcast} {e : BroadcastEvent} (h : b.next e = some b') :
    Step b e b' := by
  cases e with
  | life e =>
    obtain ⟨l, hl, rfl⟩ := Option.map_eq_some_iff.mp h
    exact .life (ReplayLife.step_of_wake hl)
  | fill i size =>
    simp only [next] at h
    split at h
    · rename_i t ht
      split at h
      · rename_i hc
        split at h
        · rename_i hp
          cases h
          exact .fill ht hc.1 hc.2.1 hc.2.2 hp
        · cases h
      · cases h
    · cases h
  | write i n =>
    simp only [next] at h
    split at h
    · rename_i t ht
      split at h
      · rename_i hc
        cases h
        exact .write ht hc.1 hc.2.1 hc.2.2
      · cases h
    · cases h
  | copied i =>
    simp only [next] at h
    split at h
    · rename_i t ht
      split at h
      · rename_i hc
        obtain ⟨l, hl, rfl⟩ := Option.map_eq_some_iff.mp h
        exact .copied ht hc.1 hc.2.1 hc.2.2 (ReplayLife.step_of_wake hl)
      · cases h
    · cases h

end Broadcast

end ReplayServer
