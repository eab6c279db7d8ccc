import Mathlib.Algebra.Ring.Nat
import ReplayServer.Util.BufTraits

/-!
# util: the buffer of a replay

A deque of chunks of `chunkSize` bytes with a low-water mark that only moves up, as in
`buf_deque.rs`.  `discard` may pass the end of the data; later writes then only move the end
until they reach the mark.
-/

namespace ReplayServer
open Fallible

def chunkSize : Nat := 4096

theorem chunkSize_pos : 0 < chunkSize := by decide

instance : NeZero chunkSize := ⟨chunkSize_pos.ne'⟩

/-- `usize::MAX` -/
def usizeMax : Nat := 18446744073709551615

/-- an array `[u8; CHUNK_SIZE]` -/
abbrev Chunk := Fin chunkSize → UInt8

def Chunk.zero : Chunk := fun _ => 0

/-- the slice `chunk[start..stop]` -/
def Chunk.slice (c : Chunk) (start stop : Nat) : Res (List UInt8) :=
  if start ≤ stop ∧ stop ≤ chunkSize then
    .ok ((List.range' start (stop - start)).map (fun i => c (Fin.ofNat _ i)))
  else .error .outOfBounds

/-- `(&mut chunk[offset..]).write(buf)`: what does not fit is left out -/
def Chunk.write (c : Chunk) (offset : Nat) (buf : List UInt8) : Chunk :=
  fun i => if offset ≤ i.val then (buf[i.val - offset]?).getD (c i) else c i

structure BufDeque where
  chunks : List Chunk
  discardedChunks : Nat
  windowEnd : Nat

namespace BufDeque

def new : BufDeque := ⟨[], 0, 0⟩

def windowStart (b : BufDeque) : Nat := b.discardedChunks * chunkSize

def windowSize (b : BufDeque) : Res Nat := do
  assertThat (b.windowStart ≤ b.windowEnd)
  return b.windowEnd - b.windowStart

def noSpaceInLastChunk (b : BufDeque) : Res Bool := do
  return (← b.windowSize) == b.chunks.length * chunkSize

/-- the deque with room in its last chunk, and that chunk -/
def getLastChunk (b : BufDeque) : Res (BufDeque × Chunk) := do
  let b := if ← b.noSpaceInLastChunk then { b with chunks := b.chunks ++ [Chunk.zero] } else b
  return (b, ← unwrap b.chunks.getLast?)

/-- the loop of `discard`: pop chunks from the front while there are chunks to discard -/
def discardLoop (discardableChunks : Nat) : List Chunk → Nat → List Chunk × Nat
  | [], k => ([], k)
  | c :: cs, k => if k < discardableChunks then discardLoop discardableChunks cs (k + 1)
      else (c :: cs, k)

def discard (b : BufDeque) (until_ : Nat) : BufDeque :=
  let discardableChunks := until_ / chunkSize
  let (chunks, discardedChunks) := discardLoop discardableChunks b.chunks b.discardedChunks
  { b with chunks, discardedChunks := max discardableChunks discardedChunks }

/-- append what fits into one chunk; gives the number of bytes taken from `buf` -/
def appendSome (b : BufDeque) (buf : List UInt8) : Res (BufDeque × Nat) := do
  -- If we discarded beyond end, cut off the start.
  let skipped := if b.windowEnd < b.windowStart then min (b.windowStart - b.windowEnd) buf.length
    else 0
  let b := { b with windowEnd := b.windowEnd + skipped }
  let buf := buf.drop skipped
  if buf.isEmpty then
    return (b, skipped)
  let offset := b.windowEnd % chunkSize
  let (b, chunk) ← b.getLastChunk
  let written := min (chunkSize - offset) buf.length
  return ({ b with chunks := b.chunks.dropLast ++ [chunk.write offset buf],
                   windowEnd := b.windowEnd + written }, skipped + written)

/-- `write_all`: write until nothing is left; a write of nothing would be an error -/
def writeAllLoop : Nat → BufDeque → List UInt8 → Res BufDeque
  | 0, b, buf => if buf.isEmpty then .ok b else .error .endless
  | fuel + 1, b, buf =>
    if buf.isEmpty then .ok b
    else do
      let (b, n) ← b.appendSome buf
      if n = 0 then .error .unwrapNone
      writeAllLoop fuel b (buf.drop n)

def writeAll (b : BufDeque) (buf : List UInt8) : Res BufDeque := writeAllLoop buf.length b buf

def getChunk (b : BufDeque) (start : Nat) : Res (List UInt8) := do
  assertThat (b.windowStart ≤ start ∧ start < b.windowEnd)
  let start := start - b.windowStart
  let chunkIdx := start / chunkSize
  let chunkStart := start % chunkSize
  let chunkEnd := min chunkSize ((← b.windowSize) - chunkIdx * chunkSize)
  let chunk ← unwrap b.chunks[chunkIdx]?
  chunk.slice chunkStart chunkEnd

instance : ChunkedBuf BufDeque where
  getChunk := getChunk
  len b := b.windowEnd

end BufDeque

end ReplayServer
