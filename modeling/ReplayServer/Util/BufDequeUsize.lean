import ReplayServer.Util.BufDequeRepr

/-!
# util: the deque in `usize` arithmetic

`BufDeque` counts in natural numbers.  `Checked` is the same code with sums, products and
differences that have to stay in the range of a `usize`.

* `Fits`                 the products of the deque stay in range;
* `Checked.discard_eq`, `Checked.appendSome_eq`, `Checked.getChunk_eq`
                         then nothing overflows, and the code does what `BufDeque` does.
-/

namespace ReplayServer
open Fallible

/-- a sum of `usize` values -/
def checkedAdd (a b : Nat) : Res Nat :=
  if a + b ≤ usizeMax then .ok (a + b) else .error .overflow

/-- a product of `usize` values -/
def checkedMul (a b : Nat) : Res Nat :=
  if a * b ≤ usizeMax then .ok (a * b) else .error .overflow

theorem checkedAdd_of_le {a b : Nat} (h : a + b ≤ usizeMax) : checkedAdd a b = .ok (a + b) :=
  if_pos h

theorem checkedMul_of_le {a b : Nat} (h : a * b ≤ usizeMax) : checkedMul a b = .ok (a * b) :=
  if_pos h

namespace BufDeque

namespace Checked

def windowStart (b : BufDeque) : Res Nat := checkedMul b.discardedChunks chunkSize

def windowSize (b : BufDeque) : Res Nat := do
  assertThat ((← windowStart b) ≤ b.windowEnd)
  checkedSub b.windowEnd (← windowStart b)

def noSpaceInLastChunk (b : BufDeque) : Res Bool := do
  return (← windowSize b) == (← checkedMul b.chunks.length chunkSize)

def getLastChunk (b : BufDeque) : Res (BufDeque × Chunk) := do
  let b := if ← noSpaceInLastChunk b then { b with chunks := b.chunks ++ [Chunk.zero] } else b
  return (b, ← unwrap b.chunks.getLast?)

def discardLoop (discardableChunks : Nat) : List Chunk → Nat → Res (List Chunk × Nat)
  | [], k => .ok ([], k)
  | c :: cs, k =>
    if k < discardableChunks then do discardLoop discardableChunks cs (← checkedAdd k 1)
    else .ok (c :: cs, k)

def discard (b : BufDeque) (until_ : Nat) : Res BufDeque := do
  let discardableChunks := until_ / chunkSize
  let (chunks, discardedChunks) ← discardLoop discardableChunks b.chunks b.discardedChunks
  return { b with chunks, discardedChunks := max discardableChunks discardedChunks }

/-- what `append_some` cuts off at the start if the deque was discarded beyond its end -/
def skippable (b : BufDeque) (start : Nat) (buf : List UInt8) : Res Nat :=
  if b.windowEnd < start then do
    return min (← checkedSub start b.windowEnd) buf.length
  else .ok 0

def appendSome (b : BufDeque) (buf : List UInt8) : Res (BufDeque × Nat) := do
  let skipped ← skippable b (← windowStart b) buf
  let b := { b with windowEnd := ← checkedAdd b.windowEnd skipped }
  let buf := buf.drop skipped
  if buf.isEmpty then
    return (b, skipped)
  let offset := b.windowEnd % chunkSize
  let (b, chunk) ← getLastChunk b
  let written := min (chunkSize - offset) buf.length
  let windowEnd ← checkedAdd b.windowEnd written
  return ({ b with chunks := b.chunks.dropLast ++ [chunk.write offset buf], windowEnd },
    ← checkedAdd skipped written)

def writeAllLoop : Nat → BufDeque → List UInt8 → Res BufDeque
  | 0, b, buf => if buf.isEmpty then .ok b else .error .endless
  | fuel + 1, b, buf =>
    if buf.isEmpty then .ok b
    else do
      let (b, n) ← appendSome b buf
      if n = 0 then .error .unwrapNone
      writeAllLoop fuel b (buf.drop n)

def writeAll (b : BufDeque) (buf : List UInt8) : Res BufDeque := writeAllLoop buf.length b buf

def getChunk (b : BufDeque) (pos : Nat) : Res (List UInt8) := do
  let start ← windowStart b
  assertThat (start ≤ pos ∧ pos < b.windowEnd)
  let pos ← checkedSub pos start
  let chunkIdx := pos / chunkSize
  let chunkStart := pos % chunkSize
  let chunkEnd := min chunkSize (← checkedSub (← windowSize b) (← checkedMul chunkIdx chunkSize))
  let chunk ← unwrap b.chunks[chunkIdx]?
  chunk.slice chunkStart chunkEnd

end Checked

/-- what a write of `buf` leaves out because it was discarded in advance -/
def skip (b : BufDeque) (buf : List UInt8) : Nat :=
  if b.windowEnd < b.windowStart then min (b.windowStart - b.windowEnd) buf.length else 0

/-- what a write can do -/
theorem appendSome_cases {b b' : BufDeque} {buf : List UInt8} {n : Nat}
    (he : b.appendSome buf = .ok (b', n)) :
    (buf.length ≤ b.skip buf ∧ n = b.skip buf ∧
      b' = { b with windowEnd := b.windowEnd + b.skip buf }) ∨
    (b.skip buf < buf.length ∧ ∃ b1 c,
      getLastChunk { b with windowEnd := b.windowEnd + b.skip buf } = .ok (b1, c) ∧
      b1.windowEnd = b.windowEnd + b.skip buf ∧
      n = b.skip buf + min (chunkSize - (b.windowEnd + b.skip buf) % chunkSize)
        (buf.drop (b.skip buf)).length ∧
      b' = { b1 with
        chunks := b1.chunks.dropLast ++
          [c.write ((b.windowEnd + b.skip buf) % chunkSize) (buf.drop (b.skip buf))]
        windowEnd := b1.windowEnd + min (chunkSize - (b.windowEnd + b.skip buf) % chunkSize)
          (buf.drop (b.skip buf)).length }) := by
  change ((do
    if (buf.drop (b.skip buf)).isEmpty then
      return ({ b with windowEnd := b.windowEnd + b.skip buf }, b.skip buf)
    let (b1, c) ← getLastChunk { b with windowEnd := b.windowEnd + b.skip buf }
    return ({ b1 with
        chunks := b1.chunks.dropLast ++
          [c.write ((b.windowEnd + b.skip buf) % chunkSize) (buf.drop (b.skip buf))]
        windowEnd := b1.windowEnd + min (chunkSize - (b.windowEnd + b.skip buf) % chunkSize)
          (buf.drop (b.skip buf)).length },
      b.skip buf + min (chunkSize - (b.windowEnd + b.skip buf) % chunkSize)
        (buf.drop (b.skip buf)).length)) : Res (BufDeque × Nat)) = _ at he
  by_cases hnil : (buf.drop (b.skip buf)).isEmpty = true
  · rw [if_pos hnil] at he
    cases he
    exact Or.inl ⟨by simpa using hnil, rfl, rfl⟩
  · rw [if_neg hnil] at he
    obtain ⟨⟨b1, c⟩, hlast, he⟩ := bind_eq_ok.mp he
    have hend : b1.windowEnd = b.windowEnd + b.skip buf := by
      unfold getLastChunk at hlast
      obtain ⟨full, -, hlast⟩ := bind_eq_ok.mp hlast
      obtain ⟨c', -, hlast⟩ := bind_eq_ok.mp hlast
      cases hlast
      cases full <;> rfl
    cases he
    exact Or.inr ⟨by simpa using hnil, b1, c, hlast, hend, rfl, rfl⟩

/-- the products of the deque stay in the range of a `usize` -/
structure Fits (b : BufDeque) : Prop where
  start : b.windowStart ≤ usizeMax
  chunks : b.chunks.length * chunkSize ≤ usizeMax

theorem Repr.fits {b : BufDeque} {data : List UInt8} (h : b.Repr data)
    (hlen : data.length + chunkSize ≤ usizeMax) (hd : b.discardedChunks ≤ usizeMax / chunkSize) :
    b.Fits := by
  have hc := h.chunks
  refine ⟨?_, ?_⟩
  · exact le_trans (Nat.mul_le_mul_right _ hd) (Nat.div_mul_le_self _ _)
  · unfold chunkSize at *
    omega

namespace Checked

theorem discardLoop_eq {d : Nat} (hd : d ≤ usizeMax) (cs : List Chunk) (k : Nat) :
    discardLoop d cs k = .ok (BufDeque.discardLoop d cs k) := by
  induction cs generalizing k with
  | nil => rfl
  | cons c cs ih =>
    unfold discardLoop BufDeque.discardLoop
    by_cases h : k < d
    · rw [if_pos h, if_pos h, checkedAdd_of_le (by omega), ok_bind, ih]
    · rw [if_neg h, if_neg h]

theorem discard_eq (b : BufDeque) {u : Nat} (hu : u ≤ usizeMax) : discard b u = .ok (b.discard u) := by
  have hloop := discardLoop_eq ((Nat.div_le_self u chunkSize).trans hu) b.chunks b.discardedChunks
  unfold discard BufDeque.discard
  simp only [hloop]
  rfl

section
variable {b : BufDeque} (h : b.Fits)
include h

theorem windowStart_eq : windowStart b = .ok b.windowStart := checkedMul_of_le h.start

theorem windowSize_eq : windowSize b = b.windowSize := by
  unfold windowSize BufDeque.windowSize
  rw [windowStart_eq h, ok_bind]
  by_cases hle : b.windowStart ≤ b.windowEnd
  · rw [assertThat_true hle, ok_bind, ok_bind, ok_bind, checkedSub_of_le hle]
    rfl
  · simp [assertThat, hle]

theorem getLastChunk_eq : getLastChunk b = b.getLastChunk := by
  unfold getLastChunk BufDeque.getLastChunk noSpaceInLastChunk BufDeque.noSpaceInLastChunk
  rw [windowSize_eq h, checkedMul_of_le h.chunks]
  cases b.windowSize <;> rfl

/-- **nothing in a write overflows if the end of the data stays in range** -/
theorem appendSome_eq {b' : BufDeque} {buf : List UInt8} {n : Nat}
    (he : b.appendSome buf = .ok (b', n)) (hend : b.windowEnd + n ≤ usizeMax) :
    appendSome b buf = .ok (b', n) := by
  have hskip : skippable b b.windowStart buf = .ok (b.skip buf) := by
    unfold skippable skip
    split
    · rw [checkedSub_of_le (by omega)]
      rfl
    · rfl
  unfold appendSome
  rw [windowStart_eq h, ok_bind, hskip, ok_bind]
  rcases appendSome_cases he with ⟨hnil, rfl, rfl⟩ | ⟨hlt, b1, c, hlast, hend1, rfl, rfl⟩
  · have hdrop : (buf.drop (b.skip buf)).isEmpty = true := by simpa using hnil
    rw [checkedAdd_of_le hend, ok_bind]
    simp only [hdrop, ↓reduceIte]
    rfl
  · have hdrop : (buf.drop (b.skip buf)).isEmpty = false := by simpa using hlt
    have hfit : Fits { b with windowEnd := b.windowEnd + b.skip buf } := ⟨h.start, h.chunks⟩
    rw [checkedAdd_of_le (by omega), ok_bind]
    simp only [hdrop]
    rw [getLastChunk_eq hfit, hlast]
    simp only [ok_bind]
    rw [checkedAdd_of_le (by omega), ok_bind, checkedAdd_of_le (by omega)]
    rfl

theorem getChunk_eq (hend : b.windowEnd ≤ usizeMax) (p : Nat) : getChunk b p = b.getChunk p := by
  unfold getChunk BufDeque.getChunk
  rw [windowStart_eq h, ok_bind]
  by_cases hin : b.windowStart ≤ p ∧ p < b.windowEnd
  · have hle : (p - b.windowStart) / chunkSize * chunkSize ≤ p - b.windowStart :=
      Nat.div_mul_le_self _ _
    have hsize : b.windowSize = .ok (b.windowEnd - b.windowStart) := by
      unfold BufDeque.windowSize
      rw [assertThat_true (by omega)]
      rfl
    rw [assertThat_true hin, ok_bind, ok_bind, checkedSub_of_le hin.1, ok_bind, windowSize_eq h,
      hsize, ok_bind, ok_bind, checkedMul_of_le (by omega), ok_bind, checkedSub_of_le (by omega)]
    rfl
  · simp [assertThat, hin]

end

end Checked

end BufDeque

end ReplayServer
