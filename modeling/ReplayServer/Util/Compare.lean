import ReplayServer.Util.BufDequeRepr
import ReplayServer.Util.ChunkedBufExt

/-!
# util: what the functions over chunked buffers compute on `BufDeque`s

* `Repr.lawful`             a deque is a lawful chunked buffer;
* `commonPrefixFromTo_eq`   the comparison stops at the first difference, but its bound is only
                            felt at a chunk edge: the answer is `boundedLcp`;
* `commonPrefixFrom_eq`     without a bound it is the exact end of the common part;
* `at_eq`, `iterChunks_eq`  reading one byte, and cutting a range into chunks;
* `contents_eq`             a buffer that never discarded a chunk still holds everything.
-/

namespace ReplayServer
open Fallible Agree

/-- the first chunk edge that is not below `m` -/
def roundUp (m : Nat) : Nat := (m + chunkSize - 1) / chunkSize * chunkSize

theorem le_roundUp (m : Nat) : m ≤ roundUp m := by
  unfold roundUp chunkSize
  omega

theorem roundUp_mono {m n : Nat} (h : m ≤ n) : roundUp m ≤ roundUp n := by
  unfold roundUp
  exact Nat.mul_le_mul_right _ (Nat.div_le_div_right (by omega))

theorem roundUp_roundUp (m : Nat) : roundUp (roundUp m) = roundUp m := by
  unfold roundUp chunkSize
  omega

theorem roundUp_eq_self_iff (m : Nat) : roundUp m = m ↔ chunkSize ∣ m := by
  unfold roundUp chunkSize
  omega

theorem chunkEdge_le_roundUp {p m : Nat} (h : p < m) : chunkEdge p ≤ roundUp m := by
  unfold chunkEdge roundUp chunkSize
  omega

theorem roundUp_le_chunkEdge {p m : Nat} (h : m ≤ chunkEdge p) : roundUp m ≤ chunkEdge p := by
  unfold chunkEdge roundUp chunkSize at *
  omega

/-- what `common_prefix_from_to` answers when the lists agree up to `lcp` and the comparison is
bounded by `stop` -/
def boundedLcp (start stop lcp : Nat) : Nat :=
  if start < stop then min lcp (roundUp stop) else start

namespace BufDeque
open ChunkedBuf

/-- **a deque is lawful from its low-water mark on** -/
theorem Repr.lawful {b : BufDeque} {data : List UInt8} (h : b.Repr data) :
    Lawful b b.windowStart data := by
  refine ⟨h.len, fun i hlo hi => ⟨_, h.getChunk hlo hi, ?_, List.take_prefix _ _⟩⟩
  have hedge := lt_chunkEdge i
  apply List.ne_nil_of_length_pos
  rw [List.length_take, List.length_drop]
  omega

theorem Repr.chunkEnd_eq {b : BufDeque} {data : List UInt8} (h : b.Repr data) {i : Nat}
    (hlo : b.windowStart ≤ i) (hi : i < data.length) :
    chunkEnd b i = min data.length (chunkEdge i) := by
  have hc : ChunkedBuf.getChunk b i = _ := h.getChunk hlo hi
  have hedge := lt_chunkEdge i
  unfold chunkEnd
  rw [hc]
  show i + _ = _
  rw [List.length_take, List.length_drop]
  omega

section
variable {a b : BufDeque} {x y : List UInt8} (ha : a.Repr x) (hb : b.Repr y)
  {start : Nat} (hpx : start ≤ x.length) (hpy : start ≤ y.length)
  (hla : a.windowStart ≤ start) (hlb : b.windowStart ≤ start)
include ha hb hpx hpy hla hlb

/-- two deques have common chunk ends at the chunk edges, and where one of them ends -/
theorem arrives_eq {m e : Nat} (hmx : m ≤ x.length) (hmy : m ≤ y.length) (hlt : start < m)
    (harr : Arrives (meet a b) m start e) : e = min (min x.length y.length) (roundUp m) := by
  have hmeet : ∀ q, start ≤ q → q < m →
      meet a b q = min (min x.length y.length) (chunkEdge q) := by
    intro q hq hqm
    unfold meet
    rw [ha.chunkEnd_eq (hla.trans hq) (by omega), hb.chunkEnd_eq (hlb.trans hq) (by omega)]
    omega
  obtain ⟨q, hq, hqm, rfl⟩ := harr.last hlt (le_refl start) (fun q hq hqm => by
    have := lt_chunkEdge q
    rw [hmeet q hq hqm]
    omega)
  have hge := harr.le
  rw [hmeet q hq hqm] at hge ⊢
  have h1 := chunkEdge_le_roundUp hqm
  have h2 := roundUp_le_chunkEdge (p := q) (m := m) (by omega)
  omega

theorem cmpLoop_eq {m : Nat} (hmx : m ≤ x.length) (hmy : m ≤ y.length) :
    cmpLoop a b m (m - start) start = .ok (boundedLcp start m (lcpFrom x y start)) := by
  have hA := ha.lawful.mono hla
  have hB := hb.lawful.mono hlb
  obtain ⟨e, harr⟩ := exists_arrives hA hB hmx hmy (le_refl start)
  rw [ChunkedBuf.cmpLoop_eq hA hB _ harr hmx hmy hpx hpy le_rfl le_rfl]
  have hle := le_lcpFrom x y start
  have hlx := lcpFrom_le_left hpx hpy
  have hly := lcpFrom_le_right hpx hpy
  unfold boundedLcp
  by_cases hlt : start < m
  · rw [if_pos hlt, arrives_eq ha hb hpx hpy hla hlb hmx hmy hlt harr]
    congr 1
    omega
  · rw [if_neg hlt, harr.unique (.stop (by omega)), min_eq_right hle]

theorem commonPrefixFromTo_eq (stop : Nat) :
    commonPrefixFromTo a b start (some stop)
      = .ok (boundedLcp start (min (min x.length y.length) stop) (lcpFrom x y start)) := by
  have hax : a.windowEnd = x.length := ha.len
  have hby : b.windowEnd = y.length := hb.len
  show cmpLoop a b (min (min a.windowEnd b.windowEnd) stop)
    (min (min a.windowEnd b.windowEnd) stop - start) start = _
  rw [hax, hby]
  exact cmpLoop_eq ha hb hpx hpy hla hlb (by omega) (by omega)

/-- **without a bound the comparison is exact** -/
theorem commonPrefixFrom_eq : commonPrefixFrom a b start = .ok (lcpFrom x y start) := by
  have hax : a.windowEnd = x.length := ha.len
  have hby : b.windowEnd = y.length := hb.len
  have hle := le_lcpFrom x y start
  have hlx := lcpFrom_le_left hpx hpy
  have hly := lcpFrom_le_right hpx hpy
  have hup := le_roundUp (min x.length y.length)
  show cmpLoop a b (min a.windowEnd b.windowEnd) (min a.windowEnd b.windowEnd - start) start = _
  rw [hax, hby, cmpLoop_eq ha hb hpx hpy hla hlb (by omega) (by omega)]
  unfold boundedLcp
  split
  · congr 1
    omega
  · congr 1
    omega

end

section
variable {b : BufDeque} {data : List UInt8} (h : b.Repr data)
include h

theorem at_eq {p : Nat} {x : UInt8} (hlo : b.windowStart ≤ p) (hx : data[p]? = some x) :
    ChunkedBuf.at b p = .ok x :=
  h.lawful.at_eq hlo hx

theorem iterChunks_eq {start stop : Nat} (hlo : b.windowStart ≤ start) (hs : start ≤ stop)
    (hstop : stop ≤ data.length) :
    Returns (iterChunks b start stop)
      (fun cs => cs.flatten = (data.drop start).take (stop - start) ∧ ∀ c ∈ cs, c ≠ []) := by
  have hlen : ChunkedBuf.len b = data.length := h.len
  unfold iterChunks
  rw [assertThat_true hs, assertThat_true (by rw [hlen]; exact hstop)]
  exact h.lawful.iterLoop_eq stop _ start hlo hs hstop le_rfl

end

/-! ## the bytes still held -/

/-- the byte at position `p`, if it is held -/
def byte (b : BufDeque) (p : Nat) : UInt8 :=
  match b.chunks[p / chunkSize - b.discardedChunks]? with
  | some c => c (Fin.ofNat _ p)
  | none => 0

/-- everything from the low-water mark to the end -/
def contents (b : BufDeque) : List UInt8 :=
  (List.range' b.windowStart (b.windowEnd - b.windowStart)).map b.byte

theorem contents_eq {b : BufDeque} {data : List UInt8} (h : b.Repr data) :
    b.contents = data.drop b.windowStart := by
  have hl := h.len
  unfold contents
  apply List.ext_getElem?
  intro i
  rw [List.getElem?_map, List.getElem?_drop]
  by_cases hi : i < b.windowEnd - b.windowStart
  · rw [List.getElem?_range' hi, Option.map_some, Nat.one_mul]
    obtain ⟨c, hc, hx⟩ := h.byte (b.windowStart + i) (by omega) (by omega)
    unfold byte
    rw [hc, hx]
  · rw [List.getElem?_eq_none (by rw [List.length_range']; omega),
      List.getElem?_eq_none (show data.length ≤ b.windowStart + i by omega)]
    rfl

end BufDeque

end ReplayServer
