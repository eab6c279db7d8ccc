import ReplayServer.Lib.Fallible
import ReplayServer.Lib.Agree

/-!
# util: panics and chunked buffers

`Res α` is the result of code that may panic.  Loops of the source that have no structural bound
take fuel, and `Panic.endless` is what they end with when the fuel runs out; the callers give
enough fuel, so this is the answer for a loop that never ends.

`ChunkedBuf` and the functions of its extension trait: `commonPrefixFromTo`, `at`, `iterChunks`,
and reading through `readAt` and a `ReadAtCursor`.
-/

namespace ReplayServer
open Fallible

inductive Panic where
  | assertion
  | unwrapNone
  | outOfBounds
  | overflow
  | endless
  deriving DecidableEq, Repr

abbrev Res (α : Type) := Except Panic α

/-- `assert!` and `debug_assert!` -/
def assertThat (p : Prop) [Decidable p] : Res Unit :=
  if p then .ok () else .error .assertion

/-- `unwrap` and `expect` -/
def unwrap {α : Type} : Option α → Res α
  | some a => .ok a
  | none => .error .unwrapNone

/-- a subtraction of `usize` values -/
def checkedSub (a b : Nat) : Res Nat :=
  if b ≤ a then .ok (a - b) else .error .overflow

@[simp] theorem assertThat_true {p : Prop} [Decidable p] (h : p) : assertThat p = .ok () :=
  if_pos h

@[simp] theorem unwrap_some {α : Type} (a : α) : unwrap (some a) = .ok a := rfl

theorem unwrap_eq_ok {α : Type} {o : Option α} {a : α} : unwrap o = .ok a ↔ o = some a := by
  cases o with
  | none => simp [unwrap]
  | some b => simp

theorem checkedSub_of_le {a b : Nat} (h : b ≤ a) : checkedSub a b = .ok (a - b) := if_pos h

/-- `getChunk` gives a contiguous run of the contents from a position on -/
class ChunkedBuf (B : Type) where
  getChunk : B → Nat → Res (List UInt8)
  len : B → Nat

export ChunkedBuf (getChunk)

namespace ChunkedBuf
variable {B B' : Type} [ChunkedBuf B] [ChunkedBuf B']

/-- the loop of `common_prefix_from_to`; whole chunks are compared, so the answer may lie beyond
`maxCmp` -/
def cmpLoop (b : B) (other : B') (maxCmp : Nat) : Nat → Nat → Res Nat
  | 0, pos => if pos < maxCmp then .error .endless else .ok pos
  | fuel + 1, pos =>
    if pos < maxCmp then do
      let myChunk ← getChunk b pos
      let otherChunk ← getChunk other pos
      let eqLen := ((myChunk.zip otherChunk).takeWhile (fun p => p.1 == p.2)).length
      if eqLen < min myChunk.length otherChunk.length then
        return pos + eqLen
      cmpLoop b other maxCmp fuel (pos + eqLen)
    else .ok pos

def commonPrefixFromTo (b : B) (other : B') (start : Nat) (stop : Option Nat) : Res Nat :=
  let maxCmp := min (len b) (len other)
  let maxCmp := match stop with
    | some e => min maxCmp e
    | none => maxCmp
  cmpLoop b other maxCmp (maxCmp - start) start

def commonPrefixFrom (b : B) (other : B') (start : Nat) : Res Nat :=
  commonPrefixFromTo b other start none

def «at» (b : B) (pos : Nat) : Res UInt8 := do
  match (← getChunk b pos)[0]? with
  | some x => return x
  | none => .error .outOfBounds

/-- the chunks that `IterChunks` yields from `start` to `stop` -/
def iterLoop (b : B) (stop : Nat) : Nat → Nat → Res (List (List UInt8))
  | 0, start => if start = stop then .ok [] else .error .endless
  | fuel + 1, start =>
    if start = stop then .ok []
    else do
      let chunk ← getChunk b start
      let chunk := if start + chunk.length > stop then chunk.take (stop - start) else chunk
      return chunk :: (← iterLoop b stop fuel (start + chunk.length))

def iterChunks (b : B) (start stop : Nat) : Res (List (List UInt8)) := do
  assertThat (start ≤ stop)
  assertThat (stop ≤ len b)
  iterLoop b stop (stop - start) start

/-- what one `read_at` into a buffer of `size` bytes copies -/
def readAt (b : B) (start size : Nat) : Res (List UInt8) :=
  if start ≥ len b then .ok []
  else do return (← getChunk b start).take size

end ChunkedBuf

/-- the position of a cursor over a buffer -/
structure ReadAtCursor where
  start : Nat
  deriving DecidableEq, Repr

/-- one read through the cursor into a buffer of `size` bytes -/
def ReadAtCursor.read {B : Type} [ChunkedBuf B] (c : ReadAtCursor) (src : B) (size : Nat) :
    Res (ReadAtCursor × List UInt8) := do
  let res ← ChunkedBuf.readAt src c.start size
  return (⟨c.start + res.length⟩, res)

/-- `read_to_end`: reads into buffers of any sizes until a read gives nothing -/
def ReadAtCursor.readToEnd {B : Type} [ChunkedBuf B] (src : B) (sizes : Nat → Nat) :
    Nat → ReadAtCursor → Res (List UInt8)
  | 0, _ => .error .endless
  | fuel + 1, c => do
    let (c, res) ← c.read src (sizes fuel)
    if res.isEmpty then return []
    return res ++ (← readToEnd src sizes fuel c)

end ReplayServer
