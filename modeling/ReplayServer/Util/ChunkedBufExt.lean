import ReplayServer.Util.BufTraits

/-!
# util: what the functions over chunked buffers compute on any lawful buffer

A buffer is lawful from a position on if every chunk it gives from there is a non-empty run of its
contents.  Where its chunks end is up to the buffer.

* `Lawful.getChunk`       a chunk is the run of the contents up to `chunkEnd`;
* `Arrives`               stepping from position to position until a bound is reached or passed;
* `cmpLoop_eq`            the comparison steps over the common chunk ends (`meet`) and stops at the
                          first difference, or where it arrives;
* `iterLoop_eq`, `at_eq`  cutting a range into chunks, and reading one byte.
-/

namespace ReplayServer
open Fallible Agree

/-! ## stepping up to a bound -/

/-- stepping with `f` from a position, `m` is first reached or passed at `e` -/
inductive Arrives (f : Nat → Nat) (m : Nat) : Nat → Nat → Prop
  | stop {p : Nat} (h : m ≤ p) : Arrives f m p p
  | step {p e : Nat} (h : p < m) (harr : Arrives f m (f p) e) : Arrives f m p e

namespace Arrives
variable {f : Nat → Nat} {m p e e' : Nat}

theorem le (h : Arrives f m p e) : m ≤ e := by
  induction h with
  | stop h => exact h
  | step _ _ ih => exact ih

theorem unique (h : Arrives f m p e) (h' : Arrives f m p e') : e = e' := by
  induction h with
  | stop h =>
    cases h' with
    | stop => rfl
    | step hlt => omega
  | step hlt _ ih =>
    cases h' with
    | stop h => omega
    | step _ harr => exact ih harr

/-- steps that move on arrive -/
theorem exists_of_lt {lo : Nat} (hf : ∀ q, lo ≤ q → q < m → q < f q) (p : Nat) (hp : lo ≤ p) :
    ∃ e, Arrives f m p e := by
  obtain ⟨n, hn⟩ : ∃ n, n = m - p := ⟨_, rfl⟩
  induction n using Nat.strong_induction_on generalizing p with
  | _ n ih =>
    by_cases h : p < m
    · have hlt := hf p hp h
      obtain ⟨e, he⟩ := ih (m - f p) (by omega) (f p) (by omega) rfl
      exact ⟨e, .step h he⟩
    · exact ⟨p, .stop (by omega)⟩

/-- the last step before the arrival -/
theorem last (h : Arrives f m p e) (hp : p < m) {I : Nat → Prop} (hI : I p)
    (hstep : ∀ q, I q → q < m → I (f q)) : ∃ q, I q ∧ q < m ∧ f q = e := by
  induction h with
  | stop h => omega
  | @step p e hlt harr ih =>
    by_cases hn : f p < m
    · exact ih hn (hstep p hI hlt)
    · cases harr with
      | stop => exact ⟨p, hI, hlt, rfl⟩
      | step hlt' => exact absurd hlt' hn

end Arrives

namespace ChunkedBuf
variable {B B' : Type} [ChunkedBuf B] [ChunkedBuf B']

/-! ## lawful buffers -/

/-- from position `lo` on, `b` gives non-empty runs of `data` -/
structure Lawful (b : B) (lo : Nat) (data : List UInt8) : Prop where
  len : len b = data.length
  chunk : ∀ i, lo ≤ i → i < data.length → ∃ c, getChunk b i = .ok c ∧ c ≠ [] ∧ c <+: data.drop i

/-- where the chunk at position `i` ends -/
def chunkEnd (b : B) (i : Nat) : Nat :=
  match getChunk b i with
  | .ok c => i + c.length
  | .error _ => i

/-- where the shorter one of two chunks ends -/
def meet (a : B) (b : B') (i : Nat) : Nat := min (chunkEnd a i) (chunkEnd b i)

namespace Lawful
variable {b : B} {lo : Nat} {data : List UInt8}

theorem mono (h : Lawful b lo data) {lo' : Nat} (hlo : lo ≤ lo') : Lawful b lo' data :=
  ⟨h.len, fun i hi => h.chunk i (hlo.trans hi)⟩

theorem getChunk (h : Lawful b lo data) {i : Nat} (hlo : lo ≤ i) (hi : i < data.length) :
    getChunk b i = .ok ((data.drop i).take (chunkEnd b i - i)) ∧
      i < chunkEnd b i ∧ chunkEnd b i ≤ data.length := by
  obtain ⟨c, hc, hne, hpre⟩ := h.chunk i hlo hi
  have hend : chunkEnd b i = i + c.length := by simp [chunkEnd, hc]
  have hpos := List.length_pos_of_ne_nil hne
  have hlen := hpre.length_le
  rw [List.length_drop] at hlen
  have htake : c = (data.drop i).take c.length := List.prefix_iff_eq_take.mp hpre
  rw [hend, Nat.add_sub_cancel_left, ← htake]
  exact ⟨hc, by omega, by omega⟩

theorem at_eq (h : Lawful b lo data) {p : Nat} {x : UInt8} (hlo : lo ≤ p) (hx : data[p]? = some x) :
    ChunkedBuf.at b p = .ok x := by
  have hp : p < data.length := (List.getElem?_eq_some_iff.mp hx).1
  obtain ⟨hc, hlt, _⟩ := h.getChunk hlo hp
  unfold ChunkedBuf.at
  rw [hc]
  simp only [ok_bind]
  rw [List.getElem?_take, if_pos (by omega), List.getElem?_drop, Nat.add_zero, hx]
  rfl

/-- **the chunks of a range are not empty, and together they are the range** -/
theorem iterLoop_eq (h : Lawful b lo data) (stop fuel start : Nat) (hlo : lo ≤ start)
    (hs : start ≤ stop) (hstop : stop ≤ data.length) (hf : stop - start ≤ fuel) :
    Returns (iterLoop b stop fuel start)
      (fun cs => cs.flatten = (data.drop start).take (stop - start) ∧ ∀ c ∈ cs, c ≠ []) := by
  induction fuel generalizing start with
  | zero =>
    have e : start = stop := by omega
    subst e
    simp [iterLoop]
  | succ fuel ih =>
    by_cases e : start = stop
    · subst e
      simp [iterLoop]
    · obtain ⟨hc, hlt, hle⟩ := h.getChunk hlo (by omega : start < data.length)
      unfold iterLoop
      rw [if_neg e, hc]
      simp only [ok_bind]
      -- cut at `stop` or not, the chunk is the run of the data up to `next`
      obtain ⟨next, hn⟩ : ∃ next, next = min (chunkEnd b start) stop := ⟨_, rfl⟩
      have hcut : (if start + ((data.drop start).take (chunkEnd b start - start)).length > stop
          then ((data.drop start).take (chunkEnd b start - start)).take (stop - start)
          else (data.drop start).take (chunkEnd b start - start))
          = (data.drop start).take (next - start) := by
        rw [List.length_take, List.length_drop]
        split
        · rw [List.take_take]
          congr 1
          omega
        · congr 1
          omega
      have hlen : ((data.drop start).take (next - start)).length = next - start := by
        rw [List.length_take, List.length_drop]
        omega
      have hnext : start + (next - start) = next := by omega
      rw [hcut, hlen, hnext]
      refine (ih next (by omega) (by omega) (by omega)).bind (fun cs hcs => returns_ok ⟨?_, ?_⟩)
      · rw [List.flatten_cons, hcs.1, ← hnext, ← List.drop_drop, hnext, ← List.take_add]
        congr 1
        omega
      · intro c hc'
        rcases List.mem_cons.mp hc' with rfl | hc'
        · apply List.ne_nil_of_length_pos
          omega
        · exact hcs.2 c hc'

end Lawful

/-! ## comparing two buffers -/

section
variable {a : B} {b : B'} {lo : Nat} {x y : List UInt8} (ha : Lawful a lo x) (hb : Lawful b lo y)
include ha hb

/-- the comparison moves on as long as it stays inside both buffers -/
theorem meet_spec {p : Nat} (hlo : lo ≤ p) (hx : p < x.length) (hy : p < y.length) :
    p < meet a b p ∧ meet a b p ≤ x.length ∧ meet a b p ≤ y.length := by
  obtain ⟨_, h1, h2⟩ := ha.getChunk hlo hx
  obtain ⟨_, h3, h4⟩ := hb.getChunk hlo hy
  unfold meet
  omega

theorem exists_arrives {m : Nat} (hx : m ≤ x.length) (hy : m ≤ y.length) {p : Nat} (hp : lo ≤ p) :
    ∃ e, Arrives (meet a b) m p e :=
  Arrives.exists_of_lt
    (fun _ hq hm => (meet_spec ha hb hq (lt_of_lt_of_le hm hx) (lt_of_lt_of_le hm hy)).1) p hp

/-- **the comparison stops at the first difference, or at the first common chunk end that is not
below its bound** -/
theorem cmpLoop_eq {m e pos : Nat} (fuel : Nat) (harr : Arrives (meet a b) m pos e)
    (hmx : m ≤ x.length) (hmy : m ≤ y.length) (hpx : pos ≤ x.length) (hpy : pos ≤ y.length)
    (hlo : lo ≤ pos) (hf : m - pos ≤ fuel) :
    cmpLoop a b m fuel pos = .ok (min (lcpFrom x y pos) e) := by
  induction harr generalizing fuel with
  | @stop pos h =>
    have hle := le_lcpFrom x y pos
    rw [min_eq_right hle]
    cases fuel with
    | zero => exact if_neg (by omega)
    | succ fuel => exact if_neg (by omega)
  | @step pos e hlt harr ih =>
    cases fuel with
    | zero => omega
    | succ fuel =>
      obtain ⟨hca, ha1, ha2⟩ := ha.getChunk hlo (by omega : pos < x.length)
      obtain ⟨hcb, hb1, hb2⟩ := hb.getChunk hlo (by omega : pos < y.length)
      obtain ⟨hm1, hm2, hm3⟩ := meet_spec ha hb hlo (by omega) (by omega)
      have hle := le_lcpFrom x y pos
      have hge := harr.le
      have hmin : min ((x.drop pos).take (chunkEnd a pos - pos)).length
          ((y.drop pos).take (chunkEnd b pos - pos)).length = meet a b pos - pos := by
        rw [List.length_take, List.length_take, List.length_drop, List.length_drop]
        unfold meet
        omega
      have heq : ((((x.drop pos).take (chunkEnd a pos - pos)).zip
          ((y.drop pos).take (chunkEnd b pos - pos))).takeWhile (fun p => p.1 == p.2)).length
          = min (lcpFrom x y pos) (meet a b pos) - pos := by
        show commonPrefixLen _ _ = _
        rw [commonPrefixLen_take]
        unfold lcpFrom meet
        omega
      unfold cmpLoop
      rw [if_pos hlt, hca, hcb]
      simp only [ok_bind]
      rw [heq, hmin]
      by_cases hdiff : lcpFrom x y pos < meet a b pos
      · -- the chunks differ, so the walk never gets to `e`
        have hlast : meet a b pos ≤ e := by
          cases harr with
          | stop => exact le_rfl
          | step h' harr' =>
            have := (Arrives.step h' harr').le
            omega
        have e1 : pos + (min (lcpFrom x y pos) (meet a b pos) - pos)
            = min (lcpFrom x y pos) e := by omega
        rw [if_pos (by omega), e1]
        rfl
      · have e1 : pos + (min (lcpFrom x y pos) (meet a b pos) - pos) = meet a b pos := by omega
        have hadv : lcpFrom x y (meet a b pos) = lcpFrom x y pos :=
          lcpFrom_advance hpx hpy (by omega) (by omega)
        rw [if_neg (by omega)]
        simp only [e1]
        rw [ih fuel hm2 hm3 (by omega) (by omega), hadv]

end

end ChunkedBuf

end ReplayServer
