import Mathlib.Algebra.Order.Ring.Nat
import Mathlib.Data.List.Chain
import Mathlib.Tactic.Common
import Mathlib.Tactic.Ring

/-!
# Stretches of time

A stretch is opened and closed, and belongs to an owner.  Stretches that do not overlap fill at
most the time there is; where every stretch of an owner is closed a delay after the one before it
was opened, there are only as many of them as delays fit into that time.

* `total_le`        stretches that do not overlap;
* `chain_le`        a row of stretches, each closed a delay after the one before was opened;
* `length_le`       the same for many owners, where the first and last ones of each owner are free.
-/

namespace Stretches

variable {α : Type*} (opened closed : α → Nat)

def total (l : List α) : Nat := (l.map fun a => closed a - opened a).sum

/-- from the second stretch to the last but two, the next one is closed a delay later -/
def Spaced (delay : Nat) (l : List α) : Prop :=
  ∀ k a b, l[k]? = some a → l[k + 1]? = some b → 1 ≤ k → k + 3 < l.length →
    opened a + delay ≤ closed b

variable {opened closed} {l m : List α} {a b : α} {delay start stop : Nat}

theorem total_cons : total opened closed (a :: l) = closed a - opened a + total opened closed l := by
  unfold total
  rw [List.map_cons, List.sum_cons]

theorem total_sublist (h : l.Sublist m) : total opened closed l ≤ total opened closed m := by
  induction h with
  | slnil => exact le_rfl
  | cons a h ih =>
    rw [total_cons]
    omega
  | cons_cons a h ih =>
    rw [total_cons, total_cons]
    omega

/-- the owners divide the stretches -/
theorem total_filter (p : α → Bool) (l : List α) : total opened closed l =
    total opened closed (l.filter p) + total opened closed (l.filter fun a => !p a) := by
  induction l with
  | nil => rfl
  | cons a l ih =>
    cases hp : p a with
    | true =>
      rw [List.filter_cons_of_pos hp, List.filter_cons_of_neg (by rw [hp]; decide), total_cons,
        total_cons, ih, Nat.add_assoc]
    | false =>
      rw [List.filter_cons_of_neg (by rw [hp]; decide), List.filter_cons_of_pos (by rw [hp]; decide),
        total_cons, total_cons, ih]
      omega

/-- **stretches that do not overlap** -/
theorem total_le (hl : l.Pairwise fun a b => closed a ≤ opened b)
    (h : ∀ a ∈ l, start ≤ opened a ∧ opened a ≤ closed a ∧ closed a ≤ stop) :
    total opened closed l ≤ stop - start := by
  induction l generalizing start with
  | nil => exact Nat.zero_le _
  | cons a l ih =>
    obtain ⟨ha, hl⟩ := List.pairwise_cons.mp hl
    obtain ⟨h1, h2, h3⟩ := h a List.mem_cons_self
    have hlater : ∀ b ∈ l, closed a ≤ opened b ∧ opened b ≤ closed b ∧ closed b ≤ stop := by
      intro b hb
      obtain ⟨-, h5, h6⟩ := h b (List.mem_cons_of_mem _ hb)
      exact ⟨ha b hb, h5, h6⟩
    have hrest := ih hl hlater
    rw [total_cons]
    omega

/-- **a row of stretches, each closed a delay after the one before was opened** -/
theorem chain_le (hl : (a :: l).IsChain fun a b => opened a + delay ≤ closed b)
    (h : ∀ b ∈ l, opened b ≤ closed b) (hstop : ∀ b ∈ a :: l, opened b ≤ stop) :
    l.length * delay + opened a ≤ total opened closed l + stop := by
  induction l generalizing a with
  | nil =>
    have := hstop a List.mem_cons_self
    rw [List.length_nil, Nat.zero_mul]
    omega
  | cons b l ih =>
    obtain ⟨hab, hl⟩ := List.isChain_cons_cons.mp hl
    have hb := h b List.mem_cons_self
    have hrest := ih hl (fun c hc => h c (List.mem_cons_of_mem _ hc))
      (fun c hc => hstop c (List.mem_cons_of_mem _ hc))
    rw [List.length_cons, Nat.succ_mul, total_cons]
    omega

theorem Spaced.length_le (hl : Spaced opened closed delay l)
    (h : ∀ a ∈ l, start ≤ opened a ∧ opened a ≤ closed a ∧ closed a ≤ stop) :
    l.length * delay ≤ total opened closed l + (stop - start) + 4 * delay := by
  by_cases hlen : l.length ≤ 4
  · have := Nat.mul_le_mul_right delay hlen
    omega
  · -- the row without its first and its last two stretches
    obtain ⟨row, hrow⟩ : ∃ row, row = (l.drop 1).take (l.length - 3) := ⟨_, rfl⟩
    have hsub : row.Sublist l := by
      rw [hrow]
      exact (List.take_sublist _ _).trans (List.drop_sublist _ _)
    have hrl : row.length = l.length - 3 := by
      rw [hrow, List.length_take, List.length_drop]
      omega
    have hget : ∀ k, k < row.length → row[k]? = l[k + 1]? := by
      intro k hk
      rw [hrow, List.getElem?_take_of_lt (by omega), List.getElem?_drop, Nat.add_comm]
    have hchain : row.IsChain fun a b => opened a + delay ≤ closed b := by
      rw [List.isChain_iff_getElem]
      intro k hk
      refine hl (k + 1) _ _ ?_ ?_ (by omega) (by omega)
      · rw [← hget k (by omega), List.getElem?_eq_getElem]
      · rw [← hget (k + 1) hk, List.getElem?_eq_getElem]
    cases row with
    | nil =>
      rw [List.length_nil] at hrl
      omega
    | cons a row =>
      have hmem : ∀ b ∈ a :: row, start ≤ opened b ∧ opened b ≤ closed b ∧ closed b ≤ stop :=
        fun b hb => h b (hsub.subset hb)
      have hstop : ∀ b ∈ a :: row, opened b ≤ stop :=
        fun b hb => (hmem b hb).2.1.trans (hmem b hb).2.2
      have hle := chain_le hchain (fun b hb => (hmem b (List.mem_cons_of_mem _ hb)).2.1) hstop
      have htot : total opened closed row ≤ total opened closed l :=
        total_sublist ((List.sublist_cons_self a row).trans hsub)
      have ha := (hmem a List.mem_cons_self).1
      have hn : l.length = row.length + 4 := by
        rw [List.length_cons] at hrl
        omega
      rw [hn, Nat.add_mul]
      omega

/-- **stretches of several owners** -/
theorem length_le {owner : α → Nat} {owners : Nat} (hown : ∀ a ∈ l, owner a < owners)
    (hl : ∀ i, Spaced opened closed delay (l.filter fun a => owner a == i))
    (h : ∀ a ∈ l, start ≤ opened a ∧ opened a ≤ closed a ∧ closed a ≤ stop) :
    l.length * delay ≤ total opened closed l + owners * (stop - start + 4 * delay) := by
  induction owners generalizing l with
  | zero =>
    cases l with
    | nil => rw [List.length_nil, Nat.zero_mul]; exact Nat.zero_le _
    | cons a l => exact absurd (hown a List.mem_cons_self) (Nat.not_lt_zero _)
  | succ n ih =>
    have hmem : ∀ {p : α → Bool} {a : α}, a ∈ l.filter p → a ∈ l := fun ha => List.mem_of_mem_filter ha
    have hlast := (hl n).length_le (fun a ha => h a (hmem ha))
    have hrest := ih (l := l.filter fun a => !(owner a == n)) (fun a ha => ?_) (fun i => ?_)
      (fun a ha => h a (hmem ha))
    · have htot : total opened closed l = total opened closed (l.filter fun a => owner a == n) +
          total opened closed (l.filter fun a => !(owner a == n)) := total_filter _ l
      have hlen : l.length = (l.filter fun a => owner a == n).length +
          (l.filter fun a => !(owner a == n)).length := by
        rw [← List.countP_eq_length_filter, ← List.countP_eq_length_filter]
        rw [List.length_eq_countP_add_countP (fun a => owner a == n)]
        congr 1
        exact List.countP_congr (fun a _ => by simp)
      rw [hlen, Nat.add_mul, Nat.succ_mul]
      omega
    · have hlt := hown a (hmem ha)
      have hne := (List.mem_filter.mp ha).2
      rw [Bool.not_eq_true', beq_eq_false_iff_ne] at hne
      omega
    · by_cases hi : i = n
      · -- none of these is left
        have hnil : (l.filter fun a => !(owner a == n)).filter (fun a => owner a == i) = [] := by
          refine List.filter_eq_nil_iff.mpr (fun a ha hai => ?_)
          have hne := (List.mem_filter.mp ha).2
          rw [hi] at hai
          rw [hai] at hne
          cases hne
        rw [hnil]
        exact fun k a b ha => absurd ha (by rw [List.getElem?_nil]; exact fun h => by cases h)
      · have he : (l.filter fun a => !(owner a == n)).filter (fun a => owner a == i) =
            l.filter fun a => owner a == i := by
          rw [List.filter_filter]
          refine List.filter_congr (fun a _ => ?_)
          cases hai : owner a == i with
          | false => exact Bool.false_and _
          | true =>
            rw [beq_iff_eq.mp hai, Bool.true_and, Bool.not_eq_true', beq_eq_false_iff_ne]
            exact hi
        rw [he]
        exact hl i

end Stretches
