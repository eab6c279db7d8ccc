import Mathlib.Data.List.TakeWhile
import Mathlib.Tactic.Common

/-!
# util: bytes and text

* `fromUtf8_eq_some`   which bytes are a text;
* `utf8_ascii`         the bytes of an ASCII text;
* `splitn_two`         a split at the first separator only.
-/

namespace ReplayServer

/-- `as_bytes` -/
def utf8 (s : String) : List UInt8 := s.toByteArray.data.toList

/-- `from_utf8` -/
def fromUtf8 (bytes : List UInt8) : Option String := String.fromUTF8? bytes.toByteArray

theorem toByteArray_utf8 (s : String) : (utf8 s).toByteArray = s.toByteArray := by
  apply ByteArray.ext
  rw [List.data_toByteArray]
  exact Array.toArray_toList

theorem utf8_eq_iff {s : String} {bytes : List UInt8} :
    utf8 s = bytes ↔ s.toByteArray = bytes.toByteArray := by
  constructor
  · rintro rfl
    exact (toByteArray_utf8 s).symm
  · intro h
    unfold utf8
    rw [h]
    exact List.toList_data_toByteArray

theorem fromUtf8_eq_some {bytes : List UInt8} {s : String} :
    fromUtf8 bytes = some s ↔ utf8 s = bytes := by
  rw [utf8_eq_iff]
  unfold fromUtf8 String.fromUTF8?
  by_cases h : bytes.toByteArray.IsValidUTF8
  · rw [dif_pos h, Option.some.injEq, ← String.toByteArray_inj]
    exact eq_comm
  · rw [dif_neg h]
    constructor
    · intro hn
      cases hn
    · intro hs
      rw [← hs] at h
      exact absurd s.isValidUTF8 h

theorem utf8_ofList (l : List Char) : utf8 (String.ofList l) = l.flatMap String.utf8EncodeChar := by
  rw [utf8_eq_iff, String.toByteArray_ofList]
  rfl

/-- one byte for each character -/
theorem utf8_ascii {l : List Char} (h : ∀ c ∈ l, c.toNat < 128) :
    utf8 (String.ofList l) = l.map (fun c => UInt8.ofNat c.toNat) := by
  rw [utf8_ofList]
  induction l with
  | nil => rfl
  | cons c l ih =>
    have hc : String.utf8EncodeChar c = [UInt8.ofNat c.toNat] :=
      if_pos (Nat.le_of_lt_succ (h c List.mem_cons_self))
    rw [List.flatMap_cons, List.map_cons, hc, ih fun d hd => h d (List.mem_cons_of_mem c hd)]
    rfl

/-- `splitn`: at most `n` pieces, and the last one may have separators in it -/
def splitn {α : Type} (pred : α → Bool) : Nat → List α → List (List α)
  | 0, _ => []
  | 1, l => [l]
  | n + 2, l =>
    match l.dropWhile (fun c => !pred c) with
    | [] => [l]
    | _ :: rest => l.takeWhile (fun c => !pred c) :: splitn pred (n + 1) rest

theorem splitn_two {α : Type} {pred : α → Bool} {a b : List α} {sep : α}
    (ha : ∀ c ∈ a, pred c = false) (hsep : pred sep = true) :
    splitn pred 2 (a ++ sep :: b) = [a, b] := by
  have hpos : ∀ c ∈ a, (!pred c) = true := fun c hc => by rw [ha c hc]; rfl
  unfold splitn
  rw [List.dropWhile_append_of_pos hpos, List.takeWhile_append_of_pos hpos,
    List.dropWhile_cons_of_neg (by simp [hsep]), List.takeWhile_cons_of_neg (by simp [hsep]),
    List.append_nil]
  rfl

theorem splitn_none {α : Type} {pred : α → Bool} {l : List α} (h : ∀ c ∈ l, pred c = false) :
    splitn pred 2 l = [l] := by
  have hpos : ∀ c ∈ l, (!pred c) = true := fun c hc => by rw [h c hc]; rfl
  unfold splitn
  rw [List.dropWhile_eq_nil_iff.mpr hpos]

/-- `ascii::escape_default` -/
def escapeDefault (b : UInt8) : List Char :=
  if b = 9 then "\\t".toList
  else if b = 13 then "\\r".toList
  else if b = 10 then "\\n".toList
  else if b = 34 ∨ b = 39 ∨ b = 92 then [Char.ofNat 92, Char.ofNat b.toNat]
  else if 32 ≤ b ∧ b ≤ 126 then [Char.ofNat b.toNat]
  else "\\x".toList ++ [Nat.digitChar (b.toNat / 16), Nat.digitChar (b.toNat % 16)]

/-- the escapes are ASCII, so `from_utf8` does not fail on them -/
def prettyBytes (bytes : List UInt8) : String := String.ofList (bytes.flatMap escapeDefault)

end ReplayServer
