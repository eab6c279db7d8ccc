import ReplayServer.Lib.Lists
import ReplayServer.Replay.Lifecycle

/-!
# replay: the tasks of one replay

A `ReplayLife` without its data: which tasks sleep where, and what they tell each other.

* `ReplayTasks.Step`       what a wake-up does to the tasks, case by case;
* `ReplayLife.Step.tasks`  every wake-up of a replay is one of these.
-/

namespace ReplayServer
open Fallible

structure ReplayTasks where
  /-- whether `handle_connection` of a writer has not returned -/
  writers : List Bool
  /-- whether `handle_connection` of a reader has not returned -/
  readers : List Bool
  writerConnectionCount : EmptyCounter
  readerConnectionCount : EmptyCounter
  shouldStopAcceptingConnections : Bool
  cancelled : Bool
  lifetime : Lifetime
  timeout : Bool

def ReplayLife.tasks (l : ReplayLife) : ReplayTasks where
  writers := l.writers.map WriterTask.active
  readers := l.readers
  writerConnectionCount := l.writerConnectionCount
  readerConnectionCount := l.readerConnectionCount
  shouldStopAcceptingConnections := l.shouldStopAcceptingConnections
  cancelled := l.cancelled
  lifetime := l.lifetime
  timeout := l.timeout

/-- the work of a writer between its first wake-up and its last -/
def LifeEvent.worker : LifeEvent → Option Nat
  | .header id _ | .data id _ | .cycle id => some id
  | _ => none

namespace ReplayTasks

def wait (t : ReplayTasks) : Option (CountWait × EmptyCounter) :=
  t.lifetime.wait t.writerConnectionCount t.readerConnectionCount

def setWait (t : ReplayTasks) (w : CountWait) : ReplayTasks :=
  { t with lifetime := t.lifetime.setWait w }

inductive Waited (t : ReplayTasks) : ReplayTasks → Prop where
  | noWritersForAWhile {w : CountWait} (h : t.lifetime = .noWritersForAWhile w) :
      Waited t { t with
        shouldStopAcceptingConnections := true
        lifetime := .noWriters (.start t.writerConnectionCount) }
  | noWriters {w : CountWait} (h : t.lifetime = .noWriters w) : Waited t { t with lifetime := .saving }
  | noReaders {w : CountWait} (h : t.lifetime = .noReaders w) :
      Waited t { t with lifetime := .ended, cancelled := true }

inductive Step (t : ReplayTasks) : LifeEvent → ReplayTasks → Prop where
  | late (type : ConnectionType) (h : t.shouldStopAcceptingConnections = true) :
      Step t (.connection type) t
  | writer (h : t.shouldStopAcceptingConnections = false) :
      Step t (.connection .writer) { t with
        writers := t.writers ++ [true], writerConnectionCount := t.writerConnectionCount.inc }
  | reader (h : t.shouldStopAcceptingConnections = false) :
      Step t (.connection .reader) { t with
        readers := t.readers ++ [true], readerConnectionCount := t.readerConnectionCount.inc }
  | works {e : LifeEvent} {id : Nat} (he : e.worker = some id) (h : t.writers[id]? = some true) :
      Step t e t
  | writerStops {id : Nat} {why : Stop} {count : EmptyCounter} (h : t.writers[id]? = some true)
      (hc : t.writerConnectionCount.dec = .ok count) :
      Step t (.writerStops id why)
        { t with writers := t.writers.set id false, writerConnectionCount := count }
  | readerStops {id : Nat} {why : Stop} {count : EmptyCounter} (h : t.readers[id]? = some true)
      (hc : t.readerConnectionCount.dec = .ok count) :
      Step t (.readerStops id why)
        { t with readers := t.readers.set id false, readerConnectionCount := count }
  | lifetime (h : t.lifetime = .created) :
      Step t .lifetime { t with
        lifetime := .noWritersForAWhile (.start t.writerConnectionCount), timeout := true }
  | newCount {w w' : CountWait} {c : EmptyCounter} (hw : t.wait = some (w, c))
      (h : w.newCount c = some w') : Step t .newCount (t.setWait w')
  | timer {w w' : CountWait} {c : EmptyCounter} (hw : t.wait = some (w, c))
      (h : w.timer c = some (some w')) : Step t .timer (t.setWait w')
  | timerOver {t' : ReplayTasks} (h : Waited t t') : Step t .timer t'
  | waitCancelled {t' : ReplayTasks} (hc : t.cancelled = true) (h : Waited t t') :
      Step t .waitCancelled t'
  | saved (h : t.lifetime = .saving) :
      Step t .saved { t with lifetime := .noReaders (.start t.readerConnectionCount) }
  | timeout (h : t.timeout = true) : Step t .timeout { t with cancelled := true, timeout := false }
  | timeoutCancelled (h : t.timeout = true) (hc : t.cancelled = true) :
      Step t .timeoutCancelled { t with timeout := false }
  | shutdown : Step t .shutdown { t with cancelled := true }

end ReplayTasks

namespace ReplayLife
variable {l l' : ReplayLife}

theorem call_tasks {ords : Nat → IterOrder} {id : Nat} {a : Action} (h : l.call ords id a = .ok l') :
    l'.tasks = l.tasks := by
  obtain ⟨s, -, h⟩ := bind_eq_ok.mp h
  cases h
  rfl

theorem setWriter_tasks {id : Nat} {task task' : WriterTask} (h : l.writers[id]? = some task)
    (ha : task.active = task'.active) : (l.setWriter id task').tasks = l.tasks := by
  unfold tasks setWriter
  rw [map_set_same h ha.symm]

theorem waited_tasks {ords : Nat → IterOrder} (hw : ∃ w c, l.wait = some (w, c))
    (h : l.waited ords = .ok l') : l.tasks.Waited l'.tasks := by
  obtain ⟨w, c, hw⟩ := hw
  unfold wait at hw
  unfold waited at h
  cases hl : l.lifetime with
  | noWritersForAWhile v =>
    rw [hl] at h
    cases h
    exact .noWritersForAWhile hl
  | noWriters v =>
    rw [hl] at h
    obtain ⟨s, -, h⟩ := bind_eq_ok.mp h
    cases h
    exact .noWriters hl
  | noReaders v =>
    rw [hl] at h
    cases h
    exact .noReaders hl
  | created | saving | ended =>
    rw [hl] at hw
    cases hw

/-- **what a wake-up does to the tasks of a replay** -/
theorem Step.tasks {e : LifeEvent} (h : Step l e l') : l.tasks.Step e l'.tasks := by
  obtain ⟨ords, h⟩ := h
  generalize hx : Except.ok l' = x at h
  have active : ∀ {id : Nat} {task : WriterTask}, l.writers[id]? = some task → task.active = true →
      l.tasks.writers[id]? = some true := by
    intro id task ht ha
    show (l.writers.map WriterTask.active)[id]? = _
    rw [List.getElem?_map, ht, ← ha]
    rfl
  have works : ∀ {id : Nat} {task : WriterTask}, e.worker = some id → l.writers[id]? = some task →
      task.active = true → l'.tasks = l.tasks → l.tasks.Step e l'.tasks := by
    intro id task he ht ha heq
    rw [heq]
    exact .works he (active ht ha)
  cases wakes_of_next h with
  | connection type =>
    unfold handleConnection at hx
    split at hx
    · rename_i hstop
      cases hx
      exact .late type hstop
    · rename_i hstop
      cases type with
      | writer =>
        rw [call_tasks hx.symm]
        convert ReplayTasks.Step.writer (t := l.tasks) (Bool.eq_false_iff.mpr hstop) using 1
        unfold ReplayLife.tasks
        dsimp only
        rw [List.map_append]
        rfl
      | reader =>
        cases hx
        exact .reader (Bool.eq_false_iff.mpr hstop)
  | header ht y =>
    obtain ⟨l1, h1, h⟩ := bind_eq_ok.mp hx.symm
    obtain ⟨s, -, h1⟩ := bind_eq_ok.mp h1
    cases h1
    cases h
    exact works rfl ht rfl (setWriter_tasks ht rfl)
  | data ht hbuf => exact works rfl ht rfl (call_tasks hx.symm)
  | cycle ht =>
    obtain ⟨w, -, h⟩ := bind_eq_ok.mp hx.symm
    obtain ⟨⟨q, n⟩, -, h⟩ := bind_eq_ok.mp h
    dsimp only at h
    split at h
    · obtain ⟨l1, h1, h⟩ := bind_eq_ok.mp h
      obtain ⟨s, -, h1⟩ := bind_eq_ok.mp h1
      cases h1
      cases h
      exact works rfl ht rfl (setWriter_tasks ht rfl)
    · obtain ⟨σ, -, h⟩ := bind_eq_ok.mp h
      cases h
      exact works rfl ht rfl (setWriter_tasks ht rfl)
  | @writerStops id task ht ha why hs =>
    obtain ⟨w, -, h⟩ := bind_eq_ok.mp hx.symm
    obtain ⟨l1, h1, h⟩ := bind_eq_ok.mp h
    obtain ⟨s1, -, h1⟩ := bind_eq_ok.mp h1
    obtain ⟨l2, h2, h⟩ := bind_eq_ok.mp h
    obtain ⟨s2, -, h2⟩ := bind_eq_ok.mp h2
    obtain ⟨count, hcount, h⟩ := bind_eq_ok.mp h
    cases h1
    cases h2
    cases h
    convert ReplayTasks.Step.writerStops (active ht ha) hcount using 1
    unfold ReplayLife.tasks setWriter
    dsimp only
    rw [List.map_set]
    rfl
  | readerStops hr hs =>
    obtain ⟨count, hcount, h⟩ := bind_eq_ok.mp hx.symm
    cases h
    exact .readerStops hr hcount
  | lifetime hl =>
    cases hx
    exact .lifetime hl
  | newCount hw hn =>
    cases hx
    exact .newCount hw hn
  | timer hw ht =>
    cases hx
    exact .timer hw ht
  | timerOver hw ht => exact .timerOver (waited_tasks ⟨_, _, hw⟩ hx.symm)
  | @waitCancelled w hl hc =>
    refine .waitCancelled hc (waited_tasks ⟨w, l.writerConnectionCount, ?_⟩ hx.symm)
    unfold wait
    rw [hl]
    rfl
  | saved hl =>
    cases hx
    exact .saved hl
  | timeout ht =>
    cases hx
    exact .timeout ht
  | timeoutCancelled ht hc =>
    cases hx
    exact .timeoutCancelled ht hc
  | shutdown =>
    cases hx
    exact .shutdown

end ReplayLife

end ReplayServer
