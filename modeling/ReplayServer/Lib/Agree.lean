import Mathlib.Data.List.Basic
import Mathlib.Data.List.Infix
import Mathlib.Data.List.TakeWhile
import Mathlib.Order.MinMax
import Mathlib.Tactic.Common

/-!
# Sequences that agree on an interval

`AgreeOn x y a b`: the lists `x` and `y` have the same entries at the positions `a ≤ i < b`.

* `agreeOn_zero_iff`      `y` agrees with `x` on its whole length iff it is a prefix of `x`;
* `prefix_iff_agreeOn`    and behind a common prefix only the rest counts;
* `commonPrefixLen`       the length of the longest common prefix, as a zip and a `takeWhile`;
* `lcpFrom x y s`         the first position from `s` on at which the two lists differ or one of
                          them ends, with `le_lcpFrom_iff` (what lies below it) and
                          `lcpFrom_ne` (what happens at it).
-/

namespace Agree

variable {α : Type*}

def AgreeOn (x y : List α) (a b : Nat) : Prop := ∀ i, a ≤ i → i < b → x[i]? = y[i]?

namespace AgreeOn
variable {x y z : List α} {a b c d : Nat}

theorem refl (x : List α) (a b : Nat) : AgreeOn x x a b := fun _ _ _ => rfl

theorem symm (h : AgreeOn x y a b) : AgreeOn y x a b := fun i ha hb => (h i ha hb).symm

theorem trans (h : AgreeOn x y a b) (h' : AgreeOn y z a b) : AgreeOn x z a b :=
  fun i ha hb => (h i ha hb).trans (h' i ha hb)

theorem mono (h : AgreeOn x y a b) (hac : a ≤ c) (hdb : d ≤ b) : AgreeOn x y c d :=
  fun i hc hd => h i (hac.trans hc) (lt_of_lt_of_le hd hdb)

theorem of_le (h : b ≤ a) : AgreeOn x y a b := fun i ha hb => absurd hb (by omega)

/-- two intervals that touch or overlap -/
theorem join (h : AgreeOn x y a b) (h' : AgreeOn x y c d) (hcb : c ≤ b) : AgreeOn x y a d := by
  intro i ha hd
  by_cases hi : i < b
  · exact h i ha hi
  · exact h' i (by omega) hd

end AgreeOn

theorem getElem?_of_isPrefix {x x' : List α} (h : x <+: x') {i : Nat} (hi : i < x.length) :
    x'[i]? = x[i]? := by
  obtain ⟨t, rfl⟩ := h
  exact List.getElem?_append_left hi

/-- a list agrees with its prefixes -/
theorem AgreeOn.of_prefix {x x' : List α} (h : x <+: x') (a : Nat) {b : Nat} (hb : b ≤ x.length) :
    AgreeOn x' x a b :=
  fun _ _ hi => getElem?_of_isPrefix h (lt_of_lt_of_le hi hb)

/-- agreement within both lengths survives growth of both lists -/
theorem AgreeOn.grow {x x' y y' : List α} {a b : Nat} (h : AgreeOn x y a b) (hx : x <+: x')
    (hy : y <+: y') (hbx : b ≤ x.length) (hby : b ≤ y.length) : AgreeOn x' y' a b :=
  ((AgreeOn.of_prefix hx a hbx).trans h).trans (AgreeOn.of_prefix hy a hby).symm

theorem agreeOn_zero_iff {x y : List α} :
    y <+: x ↔ y.length ≤ x.length ∧ AgreeOn x y 0 y.length := by
  constructor
  · intro h
    exact ⟨h.length_le, AgreeOn.of_prefix h 0 le_rfl⟩
  · rintro ⟨hl, h⟩
    rw [List.prefix_iff_eq_take]
    apply List.ext_getElem?
    intro i
    rw [List.getElem?_take]
    by_cases hi : i < y.length
    · rw [if_pos hi]
      exact (h i (Nat.zero_le _) hi).symm
    · rw [if_neg hi]
      exact List.getElem?_eq_none (by omega)

/-- what extends a common prefix is a prefix itself iff it agrees from there on -/
theorem prefix_iff_agreeOn {x y z : List α} (hy : x <+: y) (hz : x <+: z) :
    y <+: z ↔ AgreeOn z y x.length y.length := by
  constructor
  · exact fun h => AgreeOn.of_prefix h _ le_rfl
  · intro h
    by_cases hle : y.length ≤ x.length
    · rw [← hy.eq_of_length_le hle]
      exact hz
    · have hlast := h (y.length - 1) (by omega) (by omega)
      rw [List.getElem?_eq_getElem (show y.length - 1 < y.length by omega)] at hlast
      have hlen := (List.getElem?_eq_some_iff.mp hlast).1
      have h0 : AgreeOn z y 0 x.length :=
        (AgreeOn.of_prefix hz 0 le_rfl).trans (AgreeOn.of_prefix hy 0 le_rfl).symm
      exact agreeOn_zero_iff.mpr ⟨by omega, h0.join h le_rfl⟩

/-- a prefix of `x` of length `k`, read through `y` -/
theorem take_prefix_iff {x y : List α} {k : Nat} (hk : k ≤ y.length) :
    y.take k <+: x ↔ k ≤ x.length ∧ AgreeOn x y 0 k := by
  have hlen : (y.take k).length = k := by rw [List.length_take]; omega
  have hself : AgreeOn (y.take k) y 0 k := by
    intro i _ hi
    rw [List.getElem?_take, if_pos hi]
  rw [agreeOn_zero_iff, hlen]
  exact and_congr_right fun _ => ⟨fun h => h.trans hself, fun h => h.trans hself.symm⟩

/-! ## common prefixes -/

section
variable [DecidableEq α]

def commonPrefixLen (x y : List α) : Nat := ((x.zip y).takeWhile (fun p => p.1 == p.2)).length

@[simp] theorem commonPrefixLen_nil_left (y : List α) : commonPrefixLen [] y = 0 := rfl

@[simp] theorem commonPrefixLen_nil_right (x : List α) : commonPrefixLen x [] = 0 := by
  simp [commonPrefixLen]

theorem commonPrefixLen_cons (a b : α) (x y : List α) :
    commonPrefixLen (a :: x) (b :: y) = if a = b then commonPrefixLen x y + 1 else 0 := by
  unfold commonPrefixLen
  rw [List.zip_cons_cons, List.takeWhile_cons]
  by_cases h : a = b <;> simp [h]

theorem le_commonPrefixLen_iff (x y : List α) (k : Nat) :
    k ≤ commonPrefixLen x y ↔ k ≤ x.length ∧ k ≤ y.length ∧ AgreeOn x y 0 k := by
  induction x generalizing y k with
  | nil =>
    rw [commonPrefixLen_nil_left, List.length_nil]
    constructor
    · intro h
      exact ⟨h, by omega, AgreeOn.of_le h⟩
    · exact fun h => h.1
  | cons a x ih =>
    cases y with
    | nil =>
      rw [commonPrefixLen_nil_right, List.length_nil]
      exact ⟨fun h => ⟨by omega, h, AgreeOn.of_le h⟩, fun h => h.2.1⟩
    | cons b y =>
      rw [commonPrefixLen_cons, List.length_cons, List.length_cons]
      cases k with
      | zero => simp [AgreeOn]
      | succ k =>
        have hag : AgreeOn (a :: x) (b :: y) 0 (k + 1) ↔ a = b ∧ AgreeOn x y 0 k := by
          constructor
          · intro h
            refine ⟨by simpa using h 0 le_rfl (by omega), fun i _ hi => ?_⟩
            simpa using h (i + 1) (Nat.zero_le _) (by omega)
          · rintro ⟨rfl, h⟩ i _ hi
            cases i with
            | zero => rfl
            | succ i => simpa using h i (Nat.zero_le _) (by omega)
        by_cases hab : a = b
        · rw [if_pos hab, Nat.add_le_add_iff_right, ih, Nat.add_le_add_iff_right,
            Nat.add_le_add_iff_right, hag]
          exact and_congr_right fun _ => and_congr_right fun _ => ⟨fun h => ⟨hab, h⟩, fun h => h.2⟩
        · rw [if_neg hab, hag]
          exact ⟨fun h => absurd h (by omega), fun h => absurd h.2.2.1 hab⟩

theorem commonPrefixLen_take (x y : List α) (j k : Nat) :
    commonPrefixLen (x.take j) (y.take k) = min (commonPrefixLen x y) (min j k) := by
  apply eq_of_forall_le_iff
  intro m
  have hag : m ≤ j → m ≤ k → (AgreeOn (x.take j) (y.take k) 0 m ↔ AgreeOn x y 0 m) := by
    intro hj hk
    have e : ∀ i < m, (x.take j)[i]? = x[i]? ∧ (y.take k)[i]? = y[i]? := by
      intro i hi
      rw [List.getElem?_take, List.getElem?_take, if_pos (by omega), if_pos (by omega)]
      exact ⟨rfl, rfl⟩
    constructor
    · intro h i h0 hi
      rw [← (e i hi).1, ← (e i hi).2]
      exact h i h0 hi
    · intro h i h0 hi
      rw [(e i hi).1, (e i hi).2]
      exact h i h0 hi
  rw [le_commonPrefixLen_iff, le_min_iff, le_min_iff, le_commonPrefixLen_iff, List.length_take,
    List.length_take, le_min_iff, le_min_iff]
  constructor
  · rintro ⟨⟨hj, hx⟩, ⟨hk, hy⟩, h⟩
    exact ⟨⟨hx, hy, (hag hj hk).mp h⟩, hj, hk⟩
  · rintro ⟨⟨hx, hy, h⟩, hj, hk⟩
    exact ⟨⟨hj, hx⟩, ⟨hk, hy⟩, (hag hj hk).mpr h⟩

/-- the first position from `s` on at which the lists differ or one of them ends -/
def lcpFrom (x y : List α) (s : Nat) : Nat := s + commonPrefixLen (x.drop s) (y.drop s)

theorem le_lcpFrom (x y : List α) (s : Nat) : s ≤ lcpFrom x y s := Nat.le_add_right _ _

theorem le_lcpFrom_iff {x y : List α} {s k : Nat} (hs : s ≤ k) (hx : s ≤ x.length)
    (hy : s ≤ y.length) :
    k ≤ lcpFrom x y s ↔ k ≤ x.length ∧ k ≤ y.length ∧ AgreeOn x y s k := by
  obtain ⟨j, rfl⟩ := Nat.exists_eq_add_of_le hs
  have hag : AgreeOn (x.drop s) (y.drop s) 0 j ↔ AgreeOn x y s (s + j) := by
    constructor
    · intro h i hi hj
      have := h (i - s) (Nat.zero_le _) (by omega)
      rwa [List.getElem?_drop, List.getElem?_drop, Nat.add_sub_cancel' hi] at this
    · intro h i _ hi
      rw [List.getElem?_drop, List.getElem?_drop]
      exact h (s + i) (by omega) (by omega)
  unfold lcpFrom
  rw [Nat.add_le_add_iff_left, le_commonPrefixLen_iff, List.length_drop, List.length_drop, hag]
  constructor
  · rintro ⟨h1, h2, h3⟩
    exact ⟨by omega, by omega, h3⟩
  · rintro ⟨h1, h2, h3⟩
    exact ⟨by omega, by omega, h3⟩

section
variable {x y : List α} {s : Nat} (hx : s ≤ x.length) (hy : s ≤ y.length)
include hx hy

theorem lcpFrom_le_left : lcpFrom x y s ≤ x.length :=
  ((le_lcpFrom_iff (le_lcpFrom x y s) hx hy).mp le_rfl).1

theorem lcpFrom_le_right : lcpFrom x y s ≤ y.length :=
  ((le_lcpFrom_iff (le_lcpFrom x y s) hx hy).mp le_rfl).2.1

theorem agreeOn_lcpFrom : AgreeOn x y s (lcpFrom x y s) :=
  ((le_lcpFrom_iff (le_lcpFrom x y s) hx hy).mp le_rfl).2.2

/-- inside both lists, the entries at `lcpFrom` differ -/
theorem lcpFrom_ne (h1 : lcpFrom x y s < x.length) (h2 : lcpFrom x y s < y.length) :
    x[lcpFrom x y s]? ≠ y[lcpFrom x y s]? := by
  intro he
  have hk : lcpFrom x y s + 1 ≤ lcpFrom x y s := by
    refine (le_lcpFrom_iff (by have := le_lcpFrom x y s; omega) hx hy).mpr ⟨h1, h2, ?_⟩
    intro i hi hi'
    rcases Nat.lt_succ_iff_lt_or_eq.mp hi' with h | h
    · exact agreeOn_lcpFrom hx hy i hi h
    · rw [h]; exact he
  omega

theorem lcpFrom_unique {k : Nat} (hs : s ≤ k) (hkx : k ≤ x.length) (hky : k ≤ y.length)
    (hag : AgreeOn x y s k) (hne : k < x.length → k < y.length → x[k]? ≠ y[k]?) :
    lcpFrom x y s = k := by
  have h1 : k ≤ lcpFrom x y s := (le_lcpFrom_iff hs hx hy).mpr ⟨hkx, hky, hag⟩
  by_contra hlt
  have h2 : k < lcpFrom x y s := by omega
  have hlx := lcpFrom_le_left hx hy
  have hly := lcpFrom_le_right hx hy
  exact hne (by omega) (by omega) (agreeOn_lcpFrom hx hy k hs h2)

end

/-- inside the common part the starting point does not matter -/
theorem lcpFrom_advance {x y : List α} {s t : Nat} (hx : s ≤ x.length) (hy : s ≤ y.length)
    (hst : s ≤ t) (ht : t ≤ lcpFrom x y s) : lcpFrom x y t = lcpFrom x y s := by
  have hlx := lcpFrom_le_left hx hy
  have hly := lcpFrom_le_right hx hy
  refine lcpFrom_unique (ht.trans hlx) (ht.trans hly) ht hlx hly ?_ ?_
  · exact (agreeOn_lcpFrom hx hy).mono hst le_rfl
  · exact fun h1 h2 => lcpFrom_ne hx hy h1 h2

end

end Agree
