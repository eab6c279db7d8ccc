import Mathlib.Algebra.GroupWithZero.Nat
import Mathlib.Data.List.Basic
import Mathlib.Data.List.InsertIdx
import Mathlib.Data.List.Perm.Basic
import Mathlib.Tactic.Common

/-!
# Lists with one place changed

What is still there when a place of a list is written or dropped.

* `getElem?_set_some`   an entry after a write is the new one, or was there before;
* `mem_set_of_ne`       an entry other than the one that is replaced stays;
* `map_set_same`        a write that a function does not see;
* `sum_map_set`         a sum before and after a write.
-/

namespace ReplayServer

variable {α β : Type*} {l : List α} {i j : Nat} {a b : α}

theorem getElem?_set_some (h : (l.set i a)[j]? = some b) :
    (j = i ∧ b = a) ∨ (j ≠ i ∧ l[j]? = some b) := by
  by_cases hij : j = i
  · left
    subst hij
    rw [List.getElem?_set, if_pos rfl] at h
    split at h
    · exact ⟨rfl, (Option.some.inj h).symm⟩
    · cases h
  · rw [List.getElem?_set_ne (Ne.symm hij)] at h
    exact Or.inr ⟨hij, h⟩

theorem mem_set_of_ne (c : α) (ha : a ∈ l) (hb : l[i]? = some b) (hne : a ≠ b) : a ∈ l.set i c := by
  obtain ⟨j, hj⟩ := List.getElem?_of_mem ha
  have hij : i ≠ j := by
    rintro rfl
    exact hne (Option.some.inj (hj.symm.trans hb))
  rw [← List.getElem?_set_ne hij] at hj
  exact List.mem_of_getElem? hj

theorem mem_eraseIdx_of_ne (ha : a ∈ l) (hb : l[i]? = some b) (hne : a ≠ b) : a ∈ l.eraseIdx i := by
  obtain ⟨j, hj⟩ := List.getElem?_of_mem ha
  refine List.mem_eraseIdx_iff_getElem?.mpr ⟨j, ?_, hj⟩
  rintro rfl
  exact hne (Option.some.inj (hj.symm.trans hb))

theorem map_set_same {f : α → β} (ha : l[i]? = some a) (hf : f b = f a) :
    (l.set i b).map f = l.map f := by
  obtain ⟨hlt, rfl⟩ := List.getElem?_eq_some_iff.mp ha
  rw [List.map_set, hf, ← List.map_set, List.set_getElem_self]

theorem sum_map_set (f : α → Nat) (ha : l[i]? = some a) (b : α) :
    ((l.set i b).map f).sum + f a = (l.map f).sum + f b := by
  obtain ⟨hlt, rfl⟩ := List.getElem?_eq_some_iff.mp ha
  have h1 := ((List.set_perm_cons_eraseIdx hlt b).map f).sum_nat
  have h2 := ((List.getElem_cons_eraseIdx_perm hlt).map f).sum_nat
  rw [List.map_cons, List.sum_cons] at h1 h2
  omega

end ReplayServer
