import ReplayServer.Util.Compare

/-!
# replay: the two kinds of replay streams

`WriterReplay` is what one writer connection has sent, `MergedReplay` what the readers get.  Both
are shared cells in the source; here an operation takes the old value and gives the new one.

`Event` holds the wakers of sleeping readers.  `woken` is not a field of the source: it records
the effect of `wake` on the runtime.
-/

namespace ReplayServer
open Fallible

structure ReplayHeader where
  data : List UInt8
  deriving DecidableEq, Repr

/-- one registration of a task that waits -/
abbrev Waker := Nat

structure Event where
  waiting : List Waker
  woken : List Waker
  deriving DecidableEq, Repr

namespace Event

def new : Event := ⟨[], []⟩

def wait (e : Event) (w : Waker) : Event := { e with waiting := e.waiting ++ [w] }

def notify (e : Event) : Event := ⟨[], e.woken ++ e.waiting⟩

end Event

/-! ## writer replays -/

structure WriterReplay where
  header : Option ReplayHeader
  data : BufDeque
  delayedDataLen : Nat
  finished : Bool

namespace WriterReplay

def new : WriterReplay := ⟨none, .new, 0, false⟩

def dataLen (w : WriterReplay) : Nat := w.data.windowEnd

def addHeader (w : WriterReplay) (h : ReplayHeader) : WriterReplay := { w with header := some h }

def takeHeader (w : WriterReplay) : Res (WriterReplay × ReplayHeader) := do
  let h ← unwrap w.header
  return ({ w with header := none }, h)

def addData (w : WriterReplay) (buf : List UInt8) : Res WriterReplay := do
  return { w with data := ← w.data.writeAll buf }

def setDelayedDataLen (w : WriterReplay) (new : Nat) : Res WriterReplay := do
  assertThat (w.delayedDataLen ≤ new)
  return { w with delayedDataLen := new }

def discard (w : WriterReplay) (until_ : Nat) : WriterReplay :=
  { w with data := w.data.discard until_ }

def discardAll (w : WriterReplay) : WriterReplay := { w with data := w.data.discard usizeMax }

def finish (w : WriterReplay) : WriterReplay := { w with finished := true }

end WriterReplay

/-! ## the merged replay -/

structure MergedReplay where
  data : BufDeque
  header : Option ReplayHeader
  delayedDataLen : Nat
  finished : Bool
  readEvent : Event

namespace MergedReplay

def new : MergedReplay := ⟨.new, none, 0, false, .new⟩

def dataLen (m : MergedReplay) : Nat := m.data.windowEnd

def headerLen (m : MergedReplay) : Nat :=
  match m.header with
  | some h => h.data.length
  | none => 0

def notifyReadEvent (m : MergedReplay) : MergedReplay := { m with readEvent := m.readEvent.notify }

def waitForReadEvent (m : MergedReplay) (w : Waker) : MergedReplay :=
  { m with readEvent := m.readEvent.wait w }

def addHeader (m : MergedReplay) (h : ReplayHeader) : Res MergedReplay := do
  assertThat (m.finished = false)
  assertThat (m.dataLen = 0)
  return notifyReadEvent { m with header := some h }

def addData (m : MergedReplay) (writer : WriterReplay) (until_ : Nat) : Res MergedReplay := do
  assertThat (m.finished = false)
  assertThat (until_ ≤ writer.dataLen)
  let chunks ← ChunkedBuf.iterChunks writer.data m.dataLen until_
  return { m with data := ← chunks.foldlM BufDeque.writeAll m.data }

def advanceDelayedData (m : MergedReplay) (len : Nat) : Res MergedReplay := do
  assertThat (len ≤ m.dataLen)
  assertThat (m.finished = false)
  return notifyReadEvent { m with delayedDataLen := len }

def finish (m : MergedReplay) : MergedReplay := notifyReadEvent { m with finished := true }

/-- header and data up to the delayed position, as the readers see them -/
def getChunk (m : MergedReplay) (start : Nat) : Res (List UInt8) := do
  if start < m.headerLen then
    return (← unwrap m.header).data.drop start
  else
    let start := start - m.headerLen
    let delayLimit ← checkedSub m.delayedDataLen start
    let chunk ← ChunkedBuf.getChunk m.data start
    return chunk.take (min chunk.length delayLimit)

instance : ChunkedBuf MergedReplay where
  getChunk := getChunk
  len m := m.delayedDataLen + m.headerLen

/-- header and data, also what is still held back -/
def stream (m : MergedReplay) : List UInt8 :=
  (match m.header with
    | some h => h.data
    | none => []) ++ m.data.contents

/-- what a reader that starts at `position` gets, when the replay stays as it is -/
def readFrom (m : MergedReplay) (position : Nat) : List UInt8 :=
  (m.stream.take (ChunkedBuf.len m)).drop position

end MergedReplay

/-! ## readers of the merged replay -/

structure MReplayReader where
  position : Nat
  deriving DecidableEq, Repr

inductive Poll where
  | pending
  | ready (bytes : List UInt8)
  deriving DecidableEq, Repr

namespace MReplayReader

def new : MReplayReader := ⟨0⟩

/-- `w` is the waker of the polling task, `remaining` the room in its buffer -/
def pollRead (self : MReplayReader) (r : MergedReplay) (w : Waker) (remaining : Nat) :
    Res (MReplayReader × MergedReplay × Poll) := do
  if ChunkedBuf.len r ≤ self.position then
    if r.finished then
      return (self, r, .ready [])
    else
      return (self, r.waitForReadEvent w, .pending)
  else
    let chunk ← ChunkedBuf.getChunk r self.position
    let copyable := min chunk.length remaining
    return (⟨self.position + copyable⟩, r, .ready (chunk.take copyable))

/-- what `tokio::io::copy` reads of a replay that stays as it is: polls with room for any sizes until
one gives nothing -/
def readToEnd (r : MergedReplay) (sizes : Nat → Nat) : Nat → MReplayReader → Res (List UInt8)
  | 0, _ => .error .endless
  | fuel + 1, self => do
    match ← self.pollRead r 0 (sizes fuel) with
    | (_, _, .pending) => .error .endless
    | (self, _, .ready bytes) =>
      if bytes.isEmpty then return []
      return bytes ++ (← readToEnd r sizes fuel self)

end MReplayReader

end ReplayServer
