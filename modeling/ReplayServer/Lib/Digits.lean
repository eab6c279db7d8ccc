import Mathlib.Data.List.Basic
import Mathlib.Algebra.Order.Ring.Nat
import Mathlib.Tactic.Common
import Mathlib.Tactic.Ring

/-!
# decimal text and arithmetic

The value of a row of digits is `Nat.ofDigitChars 10`.  Cutting a row in two is a division with
remainder.

* `ofDigitChars_take`, `ofDigitChars_drop`  without and with the last `k` digits only;
* `ofDigitChars_window`                     the digits between two places from the right.
-/

namespace Digits

theorem digit_lt {c : Char} (h : c.isDigit) : c.toNat - '0'.toNat < 10 := by
  unfold Char.isDigit at h
  simp only [Bool.and_eq_true, decide_eq_true_eq, ge_iff_le] at h
  have h2 : c.toNat ≤ 57 := h.2
  show c.toNat - 48 < 10
  omega

/-- a row of digits stays below the power of its length -/
theorem ofDigitChars_lt {s : List Char} (h : ∀ c ∈ s, c.isDigit) :
    Nat.ofDigitChars 10 s 0 < 10 ^ s.length := by
  induction s with
  | nil => simp
  | cons c s ih =>
    have hc := digit_lt (h c List.mem_cons_self)
    have hs := ih (fun c' hc' => h c' (List.mem_cons_of_mem c hc'))
    rw [Nat.ofDigitChars_cons, Nat.ofDigitChars_eq_ofDigitChars_zero, List.length_cons, Nat.mul_zero,
      Nat.zero_add]
    calc 10 ^ s.length * (c.toNat - '0'.toNat) + Nat.ofDigitChars 10 s 0
        < 10 ^ s.length * (c.toNat - '0'.toNat) + 10 ^ s.length := by omega
      _ = 10 ^ s.length * (c.toNat - '0'.toNat + 1) := by ring
      _ ≤ 10 ^ s.length * 10 := Nat.mul_le_mul_left _ hc
      _ = 10 ^ (s.length + 1) := by rw [Nat.pow_succ]

/-- zeros on the left change nothing -/
theorem ofDigitChars_zeros (n : Nat) (s : List Char) :
    Nat.ofDigitChars 10 (List.replicate n '0' ++ s) 0 = Nat.ofDigitChars 10 s 0 := by
  rw [Nat.ofDigitChars_append, Nat.ofDigitChars_replicate_zero, Nat.mul_zero]

theorem ofDigitChars_append (s t : List Char) : Nat.ofDigitChars 10 (s ++ t) 0
    = 10 ^ t.length * Nat.ofDigitChars 10 s 0 + Nat.ofDigitChars 10 t 0 := by
  rw [Nat.ofDigitChars_append, Nat.ofDigitChars_eq_ofDigitChars_zero]

section
variable {s : List Char} (h : ∀ c ∈ s, c.isDigit) {k : Nat} (hk : k ≤ s.length)
include h hk

/-- the two parts of a row that is cut `k` digits from the right -/
theorem ofDigitChars_cut : Nat.ofDigitChars 10 s 0
      = 10 ^ k * Nat.ofDigitChars 10 (s.take (s.length - k)) 0
        + Nat.ofDigitChars 10 (s.drop (s.length - k)) 0 ∧
    Nat.ofDigitChars 10 (s.drop (s.length - k)) 0 < 10 ^ k := by
  have hlen : (s.drop (s.length - k)).length = k := by
    rw [List.length_drop]
    omega
  have hlt := ofDigitChars_lt (s := s.drop (s.length - k)) (fun c hc => h c (List.mem_of_mem_drop hc))
  have hsum := ofDigitChars_append (s.take (s.length - k)) (s.drop (s.length - k))
  rw [hlen] at hlt hsum
  rw [List.take_append_drop] at hsum
  exact ⟨hsum, hlt⟩

theorem ofDigitChars_take :
    Nat.ofDigitChars 10 (s.take (s.length - k)) 0 = Nat.ofDigitChars 10 s 0 / 10 ^ k := by
  obtain ⟨hsum, hlt⟩ := ofDigitChars_cut h hk
  rw [hsum, Nat.mul_add_div (Nat.pow_pos (by decide)), Nat.div_eq_of_lt hlt, Nat.add_zero]

theorem ofDigitChars_drop :
    Nat.ofDigitChars 10 (s.drop (s.length - k)) 0 = Nat.ofDigitChars 10 s 0 % 10 ^ k := by
  obtain ⟨hsum, hlt⟩ := ofDigitChars_cut h hk
  rw [hsum, Nat.mul_add_mod, Nat.mod_eq_of_lt hlt]

/-- the last `n` digits before the last `k` ones -/
theorem ofDigitChars_window {n : Nat} (hn : k + n ≤ s.length) :
    Nat.ofDigitChars 10 ((s.take (s.length - k)).drop (s.length - k - n)) 0
      = Nat.ofDigitChars 10 s 0 / 10 ^ k % 10 ^ n := by
  have hlen : (s.take (s.length - k)).length = s.length - k := by
    rw [List.length_take]
    omega
  have hdrop := ofDigitChars_drop (s := s.take (s.length - k))
    (fun c hc => h c (List.mem_of_mem_take hc)) (k := n) (by omega)
  rw [hlen, ofDigitChars_take h hk] at hdrop
  exact hdrop

end

end Digits
