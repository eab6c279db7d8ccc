import ReplayServer.Accept.Header
import ReplayServer.Replay.Protocol
import ReplayServer.Replay.ReplayDelay
import ReplayServer.Util.EmptyCounter

/-!
# replay: the life of one replay

`Replay` is a set of tasks on one thread: `lifetime`, which is `regular_lifetime` next to
`timeout`, and `handle_connection` for every connection.  What a task does between two awaits is
atomic, so the state of a task is the await that it sleeps in, and a `LifeEvent` is one wake-up.

* `ReplayLife`       all tasks of one replay and what they share;
* `ReplayLife.next`  what one wake-up does; `none` when the task does not sleep there;
* `wakes_of_next`    all that a wake-up can be, case by case.

The merge strategy with the writer replays is a `Session`, whose actions are executed without
asking whether they are allowed.  A writer is known by its place in the list of writers, which is
the token that the strategy gave it.  `log` is not in the source.
-/

namespace ReplayServer
open Fallible

/-- where `handle_connection` of a writer is: `read_header`, `read_data` next to
`update_replay_timestamp`, or the end -/
inductive WriterTask where
  | header
  | data (timestamp : TimestampLoop)
  | done
  deriving DecidableEq, Repr

def WriterTask.active : WriterTask → Bool
  | .done => false
  | _ => true

/-- the work on a connection stops with the connection, or because the token is cancelled -/
inductive Stop where
  | connection
  | token
  deriving DecidableEq, Repr

/-- the awaits of `regular_lifetime` -/
inductive Lifetime where
  | created
  | noWritersForAWhile (wait : CountWait)
  | noWriters (wait : CountWait)
  | saving
  | noReaders (wait : CountWait)
  | ended
  deriving DecidableEq, Repr

namespace Lifetime

def wait (self : Lifetime) (writers readers : EmptyCounter) : Option (CountWait × EmptyCounter) :=
  match self with
  | .noWritersForAWhile w | .noWriters w => some (w, writers)
  | .noReaders w => some (w, readers)
  | _ => none

def setWait (self : Lifetime) (w : CountWait) : Lifetime :=
  match self with
  | .noWritersForAWhile _ => .noWritersForAWhile w
  | .noWriters _ => .noWriters w
  | .noReaders _ => .noReaders w
  | l => l

end Lifetime

inductive Call where
  /-- all but `data` are callbacks of the strategy -/
  | writer (token : Nat) (a : Action)
  | finish
  | save
  deriving DecidableEq, Repr

/-- a call of `handle_connection` or `lifetime`, or what a task wakes up for -/
inductive LifeEvent where
  | connection (type : ConnectionType)
  | header (id : Nat) (h : ReplayHeader)
  | data (id : Nat) (buf : List UInt8)
  | cycle (id : Nat)
  | writerStops (id : Nat) (why : Stop)
  | readerStops (id : Nat) (why : Stop)
  | lifetime
  /-- the wait for an empty counter sees a new count, or slept long enough -/
  | newCount
  | timer
  /-- the first wait is cancelled -/
  | waitCancelled
  | saved
  | timeout
  | timeoutCancelled
  /-- the parent of the token is cancelled -/
  | shutdown
  deriving DecidableEq, Repr

structure ReplayLife where
  session : Session
  historySize : Nat
  writers : List WriterTask
  /-- whether `handle_connection` of a reader has not returned -/
  readers : List Bool
  writerConnectionCount : EmptyCounter
  readerConnectionCount : EmptyCounter
  shouldStopAcceptingConnections : Bool
  cancelled : Bool
  lifetime : Lifetime
  /-- `timeout` sleeps -/
  timeout : Bool
  log : List Call

namespace ReplayLife

def withHistory (targetQuorumSize streamCmpDistance historySize : Nat) : ReplayLife where
  session := .new targetQuorumSize streamCmpDistance
  historySize := historySize
  writers := []
  readers := []
  writerConnectionCount := .new
  readerConnectionCount := .new
  shouldStopAcceptingConnections := false
  cancelled := false
  lifetime := .created
  timeout := false
  log := []

/-- with a delay of `delayCycles` cycles, which do not overflow the history -/
def new (targetQuorumSize streamCmpDistance delayCycles : Nat) : ReplayLife :=
  .withHistory targetQuorumSize streamCmpDistance (delayCycles + 1)

/-! ## connections -/

def call (ords : Nat → IterOrder) (self : ReplayLife) (id : Nat) (a : Action) : Res ReplayLife := do
  return { self with session := ← self.session.step ords a, log := self.log ++ [.writer id a] }

def setWriter (self : ReplayLife) (id : Nat) (task : WriterTask) : ReplayLife :=
  { self with writers := self.writers.set id task }

/-- up to the first await; a connection that comes too late gets an error -/
def handleConnection (ords : Nat → IterOrder) (self : ReplayLife) (type : ConnectionType) :
    Res ReplayLife :=
  if self.shouldStopAcceptingConnections then .ok self
  else match type with
    | .writer =>
      { self with
        writerConnectionCount := self.writerConnectionCount.inc
        writers := self.writers ++ [WriterTask.header] }.call ords self.writers.length .added
    | .reader => .ok
      { self with
        readerConnectionCount := self.readerConnectionCount.inc
        readers := self.readers ++ [true] }

def readHeader (ords : Nat → IterOrder) (self : ReplayLife) (id : Nat) (h : ReplayHeader) :
    Res ReplayLife := do
  return (← self.call ords id (.header id h)).setWriter id (.data (.new self.historySize))

def updateReplayTimestamp (ords : Nat → IterOrder) (self : ReplayLife) (id : Nat)
    (timestamp : TimestampLoop) : Res ReplayLife := do
  let replay ← unwrap (self.session.writer id)
  let current := replay.dataLen
  let (posQueue, delayed) ← timestamp.posQueue.pushAndGetDelayed current
  let self ← if (current, delayed) ≠ (timestamp.prevCurrent, timestamp.prevDelayed) then
      self.call ords id (.delayed id delayed)
    else do
      let strategy ← self.session.strategy.modifyWriter id (fun w => w.setDelayedDataLen delayed)
      pure { self with session := { self.session with strategy } }
  return self.setWriter id (.data ⟨posQueue, current, delayed⟩)

/-- from the end of the work on a connection to the end of its `handle_connection` -/
def writerStopped (ords : Nat → Nat → IterOrder) (self : ReplayLife) (id : Nat) :
    Res ReplayLife := do
  let replay ← unwrap (self.session.writer id)
  let self ← self.call (ords 0) id (.delayed id replay.dataLen)
  let self ← self.call (ords 1) id (.ended id)
  let count ← self.writerConnectionCount.dec
  return { self.setWriter id .done with writerConnectionCount := count }

def readerStopped (self : ReplayLife) (id : Nat) : Res ReplayLife := do
  let count ← self.readerConnectionCount.dec
  return { self with readers := self.readers.set id false, readerConnectionCount := count }

def canStop (self : ReplayLife) : Stop → Bool
  | .connection => true
  | .token => self.cancelled

/-! ## the lifetime -/

/-- what `regular_lifetime` does after a wait -/
def waited (ords : Nat → IterOrder) (self : ReplayLife) : Res ReplayLife :=
  match self.lifetime with
  | .noWritersForAWhile _ => .ok
    { self with
      shouldStopAcceptingConnections := true
      lifetime := .noWriters (.start self.writerConnectionCount) }
  | .noWriters _ => do
    let session ← self.session.step ords .finish
    return { self with session, lifetime := .saving, log := self.log ++ [.finish, .save] }
  | .noReaders _ => .ok { self with lifetime := .ended, cancelled := true }
  | _ => .ok self

def wait (self : ReplayLife) : Option (CountWait × EmptyCounter) :=
  self.lifetime.wait self.writerConnectionCount self.readerConnectionCount

def setWait (self : ReplayLife) (w : CountWait) : ReplayLife :=
  { self with lifetime := self.lifetime.setWait w }

def next (ords : Nat → Nat → IterOrder) (self : ReplayLife) : LifeEvent → Option (Res ReplayLife)
  | .connection type => some (self.handleConnection (ords 0) type)
  | .header id h =>
    match self.writers[id]? with
    | some .header => some (self.readHeader (ords 0) id h)
    | _ => none
  | .data id buf =>
    match self.writers[id]? with
    | some (.data _) =>
      if buf ≠ [] ∧ buf.length ≤ 4096 then some (self.call (ords 0) id (.data id buf)) else none
    | _ => none
  | .cycle id =>
    match self.writers[id]? with
    | some (.data timestamp) => some (self.updateReplayTimestamp (ords 0) id timestamp)
    | _ => none
  | .writerStops id why =>
    if self.writers[id]?.any WriterTask.active && self.canStop why then
      some (self.writerStopped ords id)
    else none
  | .readerStops id why =>
    if self.readers[id]? = some true && self.canStop why then some (self.readerStopped id) else none
  | .lifetime =>
    if self.lifetime = .created then
      some (.ok { self with
        lifetime := .noWritersForAWhile (.start self.writerConnectionCount)
        timeout := true })
    else none
  | .newCount => do
    let (w, c) ← self.wait
    return .ok (self.setWait (← w.newCount c))
  | .timer => do
    let (w, c) ← self.wait
    match ← w.timer c with
    | none => return self.waited (ords 0)
    | some w => return .ok (self.setWait w)
  | .waitCancelled =>
    match self.lifetime with
    | .noWritersForAWhile _ => if self.cancelled then some (self.waited (ords 0)) else none
    | _ => none
  | .saved =>
    if self.lifetime = .saving then
      some (.ok { self with lifetime := .noReaders (.start self.readerConnectionCount) })
    else none
  | .timeout =>
    if self.timeout then some (.ok { self with cancelled := true, timeout := false }) else none
  | .timeoutCancelled =>
    if self.timeout && self.cancelled then some (.ok { self with timeout := false }) else none
  | .shutdown => some (.ok { self with cancelled := true })

def Step (l : ReplayLife) (e : LifeEvent) (l' : ReplayLife) : Prop :=
  ∃ ords, l.next ords e = some (.ok l')

/-- a wake-up with the task that slept there, and what comes out of it -/
inductive Wakes (ords : Nat → Nat → IterOrder) (l : ReplayLife) : LifeEvent → Res ReplayLife → Prop where
  | connection (type : ConnectionType) :
      Wakes ords l (.connection type) (l.handleConnection (ords 0) type)
  | header {id : Nat} (h : l.writers[id]? = some .header) (x : ReplayHeader) :
      Wakes ords l (.header id x) (l.readHeader (ords 0) id x)
  | data {id : Nat} {t : TimestampLoop} (h : l.writers[id]? = some (.data t)) {buf : List UInt8}
      (hbuf : buf ≠ [] ∧ buf.length ≤ 4096) :
      Wakes ords l (.data id buf) (l.call (ords 0) id (.data id buf))
  | cycle {id : Nat} {t : TimestampLoop} (h : l.writers[id]? = some (.data t)) :
      Wakes ords l (.cycle id) (l.updateReplayTimestamp (ords 0) id t)
  | writerStops {id : Nat} {task : WriterTask} (h : l.writers[id]? = some task)
      (ha : task.active = true) {why : Stop} (hs : l.canStop why = true) :
      Wakes ords l (.writerStops id why) (l.writerStopped ords id)
  | readerStops {id : Nat} (h : l.readers[id]? = some true) {why : Stop} (hs : l.canStop why = true) :
      Wakes ords l (.readerStops id why) (l.readerStopped id)
  | lifetime (h : l.lifetime = .created) :
      Wakes ords l .lifetime (.ok { l with
        lifetime := .noWritersForAWhile (.start l.writerConnectionCount)
        timeout := true })
  | newCount {w w' : CountWait} {c : EmptyCounter} (hw : l.wait = some (w, c))
      (h : w.newCount c = some w') : Wakes ords l .newCount (.ok (l.setWait w'))
  | timer {w w' : CountWait} {c : EmptyCounter} (hw : l.wait = some (w, c))
      (h : w.timer c = some (some w')) : Wakes ords l .timer (.ok (l.setWait w'))
  | timerOver {w : CountWait} {c : EmptyCounter} (hw : l.wait = some (w, c))
      (h : w.timer c = some none) : Wakes ords l .timer (l.waited (ords 0))
  | waitCancelled {w : CountWait} (h : l.lifetime = .noWritersForAWhile w)
      (hc : l.cancelled = true) : Wakes ords l .waitCancelled (l.waited (ords 0))
  | saved (h : l.lifetime = .saving) :
      Wakes ords l .saved (.ok { l with lifetime := .noReaders (.start l.readerConnectionCount) })
  | timeout (h : l.timeout = true) :
      Wakes ords l .timeout (.ok { l with cancelled := true, timeout := false })
  | timeoutCancelled (h : l.timeout = true) (hc : l.cancelled = true) :
      Wakes ords l .timeoutCancelled (.ok { l with timeout := false })
  | shutdown : Wakes ords l .shutdown (.ok { l with cancelled := true })

theorem wakes_of_next {ords : Nat → Nat → IterOrder} {l : ReplayLife} {e : LifeEvent}
    {x : Res ReplayLife} (hx : l.next ords e = some x) : l.Wakes ords e x := by
  cases e with
  | connection type =>
    cases hx
    exact .connection type
  | header id y =>
    simp only [next] at hx
    split at hx
    · rename_i ht
      cases hx
      exact .header ht y
    · cases hx
  | data id buf =>
    simp only [next] at hx
    split at hx
    · rename_i t ht
      split at hx
      · rename_i hbuf
        cases hx
        exact .data ht hbuf
      · cases hx
    · cases hx
  | cycle id =>
    simp only [next] at hx
    split at hx
    · rename_i t ht
      cases hx
      exact .cycle ht
    · cases hx
  | writerStops id why =>
    simp only [next] at hx
    split at hx
    · rename_i hc
      obtain ⟨hany, hs⟩ := Bool.and_eq_true_iff.mp hc
      obtain ⟨task, ht, ha⟩ := (Option.any_eq_true _ _).mp hany
      cases hx
      exact .writerStops ht ha hs
    · cases hx
  | readerStops id why =>
    simp only [next] at hx
    split at hx
    · rename_i hc
      obtain ⟨hr, hs⟩ := Bool.and_eq_true_iff.mp hc
      cases hx
      exact .readerStops (of_decide_eq_true hr) hs
    · cases hx
  | lifetime =>
    simp only [next] at hx
    split at hx
    · rename_i hl
      cases hx
      exact .lifetime hl
    · cases hx
  | newCount =>
    obtain ⟨⟨w, c⟩, hw, hx⟩ := Option.bind_eq_some_iff.mp hx
    obtain ⟨w', hn, hx⟩ := Option.bind_eq_some_iff.mp hx
    cases hx
    exact .newCount hw hn
  | timer =>
    obtain ⟨⟨w, c⟩, hw, hx⟩ := Option.bind_eq_some_iff.mp hx
    obtain ⟨r, ht, hx⟩ := Option.bind_eq_some_iff.mp hx
    cases r with
    | none =>
      cases hx
      exact .timerOver hw ht
    | some w' =>
      cases hx
      exact .timer hw ht
  | waitCancelled =>
    simp only [next] at hx
    split at hx
    · rename_i w hl
      split at hx
      · rename_i hc
        cases hx
        exact .waitCancelled hl hc
      · cases hx
    · cases hx
  | saved =>
    simp only [next] at hx
    split at hx
    · rename_i hl
      cases hx
      exact .saved hl
    · cases hx
  | timeout =>
    simp only [next] at hx
    split at hx
    · rename_i ht
      cases hx
      exact .timeout ht
    · cases hx
  | timeoutCancelled =>
    simp only [next] at hx
    split at hx
    · rename_i hc
      obtain ⟨ht, hc⟩ := Bool.and_eq_true_iff.mp hc
      cases hx
      exact .timeoutCancelled ht hc
    · cases hx
  | shutdown =>
    cases hx
    exact .shutdown

end ReplayLife

end ReplayServer
