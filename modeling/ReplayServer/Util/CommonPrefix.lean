import ReplayServer.Util.Compare

/-!
# util: the bound of `common_prefix_from_to`

The two contents are compared from `start` on, up to a bound `m`.  `CommonEnd` is the end of the
part within the bound on which they agree.  The loop compares whole chunks, so it goes past `m`
unless it stops before, or arrives exactly there.

* `min_eq_commonEnd_iff`            the only end within the bound;
* `commonPrefixFromTo_exact_iff`    when the answer is that end.
-/

namespace ReplayServer
open Fallible Agree ChunkedBuf

/-- how far two buffers are compared: to the end of one of them, or to `stop` -/
def cmpBound (x y : List UInt8) (stop : Option Nat) : Nat :=
  match stop with
  | some e => min (min x.length y.length) e
  | none => min x.length y.length

/-- `k` is the largest end up to `m` of a range from `start` on which `x` and `y` agree -/
structure CommonEnd (x y : List UInt8) (start m k : Nat) : Prop where
  bound : k ≤ m
  agree : AgreeOn x y start k
  greatest : ∀ j, j ≤ m → AgreeOn x y start j → j ≤ k

/-- somewhere from `start` to `m` the two contents differ, or one of them ends -/
def PartsBy (x y : List UInt8) (start m : Nat) : Prop :=
  ∃ i, start ≤ i ∧ i ≤ m ∧ (x.length ≤ i ∨ y.length ≤ i ∨ x[i]? ≠ y[i]?)

theorem cmpBound_le_left (x y : List UInt8) (stop : Option Nat) : cmpBound x y stop ≤ x.length := by
  cases stop <;> simp [cmpBound]

theorem cmpBound_le_right (x y : List UInt8) (stop : Option Nat) : cmpBound x y stop ≤ y.length := by
  cases stop <;> simp [cmpBound]

section
variable {x y : List UInt8} {start m : Nat} (hs : start ≤ m) (hx : m ≤ x.length) (hy : m ≤ y.length)
include hs hx hy

theorem partsBy_iff : PartsBy x y start m ↔ lcpFrom x y start ≤ m := by
  have hle := le_lcpFrom x y start
  have hlx := lcpFrom_le_left (hs.trans hx) (hs.trans hy)
  have hly := lcpFrom_le_right (hs.trans hx) (hs.trans hy)
  constructor
  · rintro ⟨i, hi, him, h⟩
    by_contra hlt
    have hi' : i < lcpFrom x y start := by omega
    rcases h with h | h | h
    · omega
    · omega
    · exact h (agreeOn_lcpFrom (hs.trans hx) (hs.trans hy) i hi hi')
  · intro h
    refine ⟨lcpFrom x y start, hle, h, ?_⟩
    by_cases h1 : lcpFrom x y start < x.length
    · by_cases h2 : lcpFrom x y start < y.length
      · exact Or.inr (Or.inr (lcpFrom_ne (hs.trans hx) (hs.trans hy) h1 h2))
      · exact Or.inr (Or.inl (by omega))
    · exact Or.inl (by omega)

theorem commonEnd_iff {k : Nat} : CommonEnd x y start m k ↔ k = min (lcpFrom x y start) m := by
  have hle := le_lcpFrom x y start
  have hag := agreeOn_lcpFrom (hs.trans hx) (hs.trans hy)
  have hmax : ∀ j, j ≤ m → AgreeOn x y start j → j ≤ min (lcpFrom x y start) m := by
    intro j hj h
    by_cases hsj : start ≤ j
    · have := (le_lcpFrom_iff hsj (hs.trans hx) (hs.trans hy)).mpr ⟨by omega, by omega, h⟩
      omega
    · omega
  constructor
  · intro h
    have h1 := hmax k h.bound h.agree
    have h2 := h.greatest (min (lcpFrom x y start) m) (min_le_right _ _)
      (hag.mono le_rfl (min_le_left _ _))
    omega
  · rintro rfl
    exact ⟨min_le_right _ _, hag.mono le_rfl (min_le_left _ _), hmax⟩

/-- an end that lies at or past the bound is cut off there iff it is the bound -/
theorem min_eq_commonEnd_iff {e : Nat} (he : m ≤ e) :
    CommonEnd x y start m (min (lcpFrom x y start) e) ↔ PartsBy x y start m ∨ e = m := by
  rw [commonEnd_iff hs hx hy, partsBy_iff hs hx hy]
  constructor
  · intro h
    by_cases hl : lcpFrom x y start ≤ m
    · exact Or.inl hl
    · exact Or.inr (by omega)
  · rintro (h | h)
    · omega
    · rw [h]

end

theorem commonPrefixFromTo_eq_cmpLoop {B B' : Type} [ChunkedBuf B] [ChunkedBuf B'] {a : B} {b : B'}
    {lo start : Nat} {x y : List UInt8} (ha : Lawful a lo x) (hb : Lawful b lo y)
    (stop : Option Nat) : commonPrefixFromTo a b start stop
      = cmpLoop a b (cmpBound x y stop) (cmpBound x y stop - start) start := by
  cases stop <;> simp [commonPrefixFromTo, cmpBound, ha.len, hb.len]

/-- **`common_prefix_from_to` always answers.**  Its answer is the end of the common part within
the bound iff the contents part at or before the bound, or the comparison arrives exactly there. -/
theorem commonPrefixFromTo_exact_iff {B B' : Type} [ChunkedBuf B] [ChunkedBuf B'] {a : B} {b : B'}
    {x y : List UInt8} {start : Nat} (ha : Lawful a start x) (hb : Lawful b start y)
    (stop : Option Nat) (hs : start ≤ cmpBound x y stop) :
    ∃ k, commonPrefixFromTo a b start stop = .ok k ∧
      (CommonEnd x y start (cmpBound x y stop) k ↔
        PartsBy x y start (cmpBound x y stop) ∨
          Arrives (meet a b) (cmpBound x y stop) start (cmpBound x y stop)) := by
  have hx := cmpBound_le_left x y stop
  have hy := cmpBound_le_right x y stop
  obtain ⟨e, harr⟩ := exists_arrives ha hb hx hy (le_refl start)
  refine ⟨min (lcpFrom x y start) e, ?_, ?_⟩
  · rw [commonPrefixFromTo_eq_cmpLoop ha hb]
    exact cmpLoop_eq ha hb _ harr hx hy (hs.trans hx) (hs.trans hy) le_rfl le_rfl
  · rw [min_eq_commonEnd_iff hs hx hy harr.le]
    apply or_congr_right
    constructor
    · intro he
      rwa [he] at harr
    · exact harr.unique

/-- a deque that was written once -/
theorem BufDeque.exists_written (data : List UInt8) :
    ∃ b : BufDeque, BufDeque.new.writeAll data = .ok b ∧ Lawful b 0 data := by
  obtain ⟨b, hb, hr, hd⟩ := BufDeque.Repr.new.writeAll data
  refine ⟨b, hb, hr.lawful.mono ?_⟩
  show b.discardedChunks * chunkSize ≤ 0
  rw [hd]
  exact le_of_eq (Nat.zero_mul _)

theorem commonPrefixFromTo_exact_iff_written :
    ∃ b : BufDeque, BufDeque.new.writeAll [1, 2, 3] = .ok b ∧
      ∃ k, commonPrefixFromTo b b 0 (some 1) = .ok k ∧
        (CommonEnd [1, 2, 3] [1, 2, 3] 0 1 k ↔
          PartsBy [1, 2, 3] [1, 2, 3] 0 1 ∨ Arrives (meet b b) 1 0 1) := by
  obtain ⟨b, hb, hl⟩ := BufDeque.exists_written [1, 2, 3]
  exact ⟨b, hb, commonPrefixFromTo_exact_iff hl hl (some 1) (by decide)⟩

/-- two equal deques of one chunk, compared up to position 1, agree up to position 3 -/
theorem commonPrefixFromTo_exceeds :
    ∃ b : BufDeque, BufDeque.new.writeAll [1, 2, 3] = .ok b ∧ Lawful b 0 [1, 2, 3] ∧
      commonPrefixFromTo b b 0 (some 1) = .ok 3 ∧ ¬ CommonEnd [1, 2, 3] [1, 2, 3] 0 1 3 := by
  obtain ⟨b, hb, hr, hd⟩ := BufDeque.Repr.new.writeAll [1, 2, 3]
  have h0 : b.windowStart ≤ 0 := by
    show b.discardedChunks * chunkSize ≤ 0
    rw [hd]
    exact le_of_eq (Nat.zero_mul _)
  refine ⟨b, hb, hr.lawful.mono h0, ?_, fun h => absurd h.bound (by decide)⟩
  exact BufDeque.commonPrefixFromTo_eq hr hr (Nat.zero_le _) (Nat.zero_le _) h0 h0 1

end ReplayServer
