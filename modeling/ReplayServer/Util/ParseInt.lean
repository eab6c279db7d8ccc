import Mathlib.Data.List.Basic
import Mathlib.Tactic.Common

/-!
# util: decimal text

`to_string` of an integer is `Nat.toDigits 10`; `str::parse` of the standard library is translated
here for the types that the server parses.  The text of a number is a list of characters.

* `pushDigits_eq_some`   what a row of digits is read as;
* `parseU64_eq_some`     the grammar of `parse::<u64>`.
-/

namespace ReplayServer

/-- `checked_mul` and `checked_add` of a type with the largest value `max` -/
def checkedMax (max n : Nat) : Option Nat := if n ≤ max then some n else none

def pushDigit (max acc : Nat) (c : Char) : Option Nat := do
  let acc ← checkedMax max (acc * 10)
  if c.isDigit then checkedMax max (acc + (c.toNat - '0'.toNat)) else none

def pushDigits (max acc : Nat) (s : List Char) : Option Nat := s.foldlM (pushDigit max) acc

/-- `u64::MAX` -/
def u64Max : Nat := 18446744073709551615

/-- `parse::<u64>`: a sign alone is no number, and the only sign is a plus -/
def parseU64 : List Char → Option Nat
  | [] => none
  | ['+'] => none
  | ['-'] => none
  | '+' :: s => pushDigits u64Max 0 s
  | s => pushDigits u64Max 0 s

/-- `parse::<i32>` -/
def parseI32 : List Char → Option Int
  | [] => none
  | ['+'] => none
  | ['-'] => none
  | '+' :: s => (pushDigits 2147483647 0 s).map Int.ofNat
  | '-' :: s => (pushDigits 2147483648 0 s).map (fun n => -Int.ofNat n)
  | s => (pushDigits 2147483647 0 s).map Int.ofNat

theorem checkedMax_eq_some {max n k : Nat} : checkedMax max n = some k ↔ n ≤ max ∧ n = k := by
  unfold checkedMax
  by_cases h : n ≤ max
  · simp [h]
  · simp [h]

theorem pushDigit_eq_some {max acc k : Nat} {c : Char} : pushDigit max acc c = some k ↔
    c.isDigit ∧ 10 * acc + (c.toNat - '0'.toNat) = k ∧ k ≤ max := by
  unfold pushDigit
  by_cases hc : c.isDigit
  · simp only [hc, if_true, Option.bind_eq_bind, Option.bind_eq_some_iff, checkedMax_eq_some]
    constructor
    · rintro ⟨a, ⟨h1, rfl⟩, h2, rfl⟩
      exact ⟨trivial, by omega, by omega⟩
    · rintro ⟨-, h1, h2⟩
      exact ⟨acc * 10, ⟨by omega, rfl⟩, by omega, by omega⟩
  · simp [hc]

theorem le_ofDigitChars (s : List Char) (acc : Nat) : acc ≤ Nat.ofDigitChars 10 s acc := by
  induction s generalizing acc with
  | nil => simp
  | cons c s ih =>
    rw [Nat.ofDigitChars_cons]
    have hle := ih (10 * acc + (c.toNat - '0'.toNat))
    omega

/-- an overflow on the way is one at the end -/
theorem pushDigits_eq_some {max acc n : Nat} (hacc : acc ≤ max) {s : List Char} :
    pushDigits max acc s = some n ↔
      (∀ c ∈ s, c.isDigit) ∧ Nat.ofDigitChars 10 s acc = n ∧ n ≤ max := by
  unfold pushDigits
  induction s generalizing acc with
  | nil =>
    simp only [List.foldlM_nil, List.not_mem_nil, Nat.ofDigitChars_nil]
    constructor
    · intro h
      cases h
      exact ⟨fun _ hc => hc.elim, rfl, hacc⟩
    · rintro ⟨-, rfl, -⟩
      rfl
  | cons c s ih =>
    rw [List.foldlM_cons, Option.bind_eq_bind, Option.bind_eq_some_iff, Nat.ofDigitChars_cons]
    constructor
    · rintro ⟨k, hk, h⟩
      obtain ⟨h1, rfl, h2⟩ := pushDigit_eq_some.mp hk
      obtain ⟨h3, h4, h5⟩ := (ih h2).mp h
      exact ⟨List.forall_mem_cons.mpr ⟨h1, h3⟩, h4, h5⟩
    · rintro ⟨h1, h2, h3⟩
      obtain ⟨h4, h5⟩ := List.forall_mem_cons.mp h1
      have hle : 10 * acc + (c.toNat - '0'.toNat) ≤ max := by
        have hs := le_ofDigitChars s (10 * acc + (c.toNat - '0'.toNat))
        omega
      exact ⟨_, pushDigit_eq_some.mpr ⟨h4, rfl, hle⟩, (ih hle).mpr ⟨h5, h2, h3⟩⟩

/-- a row of digits is no sign -/
theorem parseU64_digits {c : Char} {s : List Char} (h : c.isDigit) :
    parseU64 (c :: s) = pushDigits u64Max 0 (c :: s) := by
  have hplus : c ≠ '+' := by
    rintro rfl
    exact absurd h (by decide)
  have hminus : c ≠ '-' := by
    rintro rfl
    exact absurd h (by decide)
  unfold parseU64
  split <;> simp_all

/-- an optional plus and at least one digit, without an overflow -/
theorem parseU64_eq_some {s : List Char} {n : Nat} : parseU64 s = some n ↔
    ∃ ds, (s = ds ∨ s = '+' :: ds) ∧ ds ≠ [] ∧ (∀ c ∈ ds, c.isDigit) ∧
      Nat.ofDigitChars 10 ds 0 = n ∧ n ≤ u64Max := by
  constructor
  · intro h
    unfold parseU64 at h
    split at h
    · cases h
    · cases h
    · cases h
    · rename_i ds hne
      obtain ⟨h1, h2⟩ := (pushDigits_eq_some (Nat.zero_le _)).mp h
      refine ⟨ds, Or.inr rfl, ?_, h1, h2⟩
      rintro rfl
      exact hne rfl
    · rename_i hnil _ _ _
      obtain ⟨h1, h2⟩ := (pushDigits_eq_some (Nat.zero_le _)).mp h
      exact ⟨s, Or.inl rfl, hnil, h1, h2⟩
  · rintro ⟨ds, hs, hne, h⟩
    have hpush := (pushDigits_eq_some (Nat.zero_le u64Max)).mpr h
    obtain ⟨c, cs, rfl⟩ := List.exists_cons_of_ne_nil hne
    have hc := h.1 c List.mem_cons_self
    cases hs with
    | inl hs => rw [hs, parseU64_digits hc, hpush]
    | inr hs =>
      rw [hs]
      exact hpush

end ReplayServer
