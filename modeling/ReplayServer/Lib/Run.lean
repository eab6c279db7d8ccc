import Mathlib.Data.List.Basic
import Mathlib.Data.List.Infix
import Mathlib.Tactic.Common

/-!
# Runs of a labelled transition system

`Run step s es t`: the system goes from `s` to `t` along the labels `es`, one step per label.

* `Run.invariant`   what holds at the start and is kept by every step holds at the end;
* `Run.closed`      a reflexive and transitive relation kept by every step relates both ends;
* `Run.of_foldlM`   an execution is a run;
* `Run.length_le`   where every step lowers a rank, a run has at most as many steps;
* `Run.countP_le`   where every label pays for its work, so does a run;
* `Run.good_iff`    when all states of a run are good, step by step;
* `Run.simulation`  a step-by-step simulation lifts to runs.
-/

namespace Lts

variable {σ τ ε : Type*}

inductive Run (step : σ → ε → σ → Prop) : σ → List ε → σ → Prop where
  | nil (s : σ) : Run step s [] s
  | snoc {s t u : σ} {es : List ε} {e : ε} (h : Run step s es t) (hs : step t e u) :
      Run step s (es ++ [e]) u

namespace Run
variable {step : σ → ε → σ → Prop} {s t u : σ} {es fs : List ε} {e : ε}

theorem single (h : step s e t) : Run step s [e] t := by
  have := Run.snoc (Run.nil s) h
  rwa [List.nil_append] at this

theorem append (h : Run step s es t) (h' : Run step t fs u) : Run step s (es ++ fs) u := by
  induction h' with
  | nil => rwa [List.append_nil]
  | snoc _ hs ih =>
    rw [← List.append_assoc]
    exact .snoc ih hs

theorem snoc_iff : Run step s (es ++ [e]) u ↔ ∃ t, Run step s es t ∧ step t e u := by
  constructor
  · intro h
    generalize hfs : es ++ [e] = fs at h
    cases h with
    | nil => simp at hfs
    | @snoc t _ es' e' h hs =>
      obtain ⟨rfl, he⟩ := List.append_inj' hfs rfl
      cases he
      exact ⟨t, h, hs⟩
  · rintro ⟨t, h, hs⟩
    exact .snoc h hs

theorem nil_iff : Run step s [] t ↔ s = t := by
  constructor
  · intro h
    generalize hfs : ([] : List ε) = fs at h
    cases h with
    | nil => rfl
    | snoc => simp at hfs
  · rintro rfl
    exact .nil s

theorem single_iff : Run step s [e] t ↔ step s e t := by
  constructor
  · intro h
    obtain ⟨u, hu, hs⟩ := snoc_iff.mp (show Run step s ([] ++ [e]) t from h)
    rwa [nil_iff.mp hu]
  · exact single

theorem invariant {I : σ → Prop} (hstep : ∀ s e t, I s → step s e t → I t)
    (h : Run step s es t) (h0 : I s) : I t := by
  induction h with
  | nil => exact h0
  | snoc _ hs ih => exact hstep _ _ _ ih hs

/-- what is executed step by step is a run -/
theorem of_foldlM {f : σ → ε → Option σ} (hf : ∀ s e t, f s e = some t → step s e t)
    (h : es.foldlM f s = some t) : Run step s es t := by
  induction es generalizing s with
  | nil =>
    cases h
    exact .nil _
  | cons e es ih =>
    rw [List.foldlM_cons] at h
    obtain ⟨u, hu, h⟩ := Option.bind_eq_some_iff.mp h
    exact (single (hf s e u hu)).append (ih h)

/-- a reflexive and transitive relation that every step keeps relates both ends of a run;
an invariant `I` may be used in the steps -/
theorem closed {I : σ → Prop} {R : σ → σ → Prop} (hinv : ∀ s e t, I s → step s e t → I t)
    (hrefl : ∀ s, R s s) (htrans : ∀ s t u, R s t → R t u → R s u)
    (hstep : ∀ s e t, I s → step s e t → R s t) (h : Run step s es t) (h0 : I s) : R s t := by
  induction h with
  | nil => exact hrefl _
  | snoc h hs ih => exact htrans _ _ _ ih (hstep _ _ _ (h.invariant hinv h0) hs)

/-- a rank that every step lowers is spent by the steps of a run -/
theorem length_le {I : σ → Prop} {r : σ → Nat} (hinv : ∀ s e t, I s → step s e t → I t)
    (hstep : ∀ s e t, I s → step s e t → r t < r s) (h : Run step s es t) (h0 : I s) :
    es.length + r t ≤ r s := by
  induction h with
  | nil => simp
  | snoc h hs ih =>
    have hlt := hstep _ _ _ (h.invariant hinv h0) hs
    rw [List.length_append, List.length_singleton]
    omega

/-- amortised: the steps of a run with a label in `p` are paid by what the labels in `q` bring, and
by what the rank loses -/
theorem countP_le {I : σ → Prop} {r : σ → Nat} {p q : ε → Bool} {k : Nat}
    (hinv : ∀ s e t, I s → step s e t → I t)
    (hstep : ∀ s e t, I s → step s e t →
      (if p e = true then 1 else 0) + r t ≤ r s + k * if q e = true then 1 else 0)
    (h : Run step s es t) (h0 : I s) : es.countP p + r t ≤ r s + k * es.countP q := by
  induction h with
  | nil => simp
  | snoc h hs ih =>
    have hlast := hstep _ _ _ (h.invariant hinv h0) hs
    rw [List.countP_append, List.countP_append, List.countP_singleton, List.countP_singleton,
      Nat.mul_add]
    omega

/-- where every label is possible there are runs along all lists of labels -/
theorem exists_run (htotal : ∀ s e, ∃ t, step s e t) (es : List ε) : ∃ t, Run step s es t := by
  induction es using List.reverseRecOn with
  | nil => exact ⟨s, .nil s⟩
  | append_singleton es e ih =>
    obtain ⟨t, ht⟩ := ih
    obtain ⟨u, hu⟩ := htotal t e
    exact ⟨u, .snoc ht hu⟩

/-- in a system where every label is possible: all states of the runs along prefixes of `l` are
good if and only if all their steps meet a condition, given that a step from a good state meets it
exactly if it leads to a good state -/
theorem good_iff {Good : σ → List ε → Prop} {Cond : σ → ε → Prop} (htotal : ∀ s e, ∃ t, step s e t)
    (h0 : Good s []) (hstep : ∀ s es e t, Good s es → step s e t → (Good t (es ++ [e]) ↔ Cond s e))
    (l : List ε) :
    (∀ es t, es <+: l → Run step s es t → Good t es) ↔
      ∀ es e t, es ++ [e] <+: l → Run step s es t → Cond t e := by
  constructor
  · intro h es e t hpre hr
    obtain ⟨u, hu⟩ := htotal t e
    have hgood := h es t ((List.prefix_append es [e]).trans hpre) hr
    exact (hstep t es e u hgood hu).mp (h (es ++ [e]) u hpre (.snoc hr hu))
  · intro h es t hpre hr
    induction hr with
    | nil => exact h0
    | @snoc t u es e hr hu ih =>
      have hgood := ih ((List.prefix_append es [e]).trans hpre)
      exact (hstep t es e u hgood hu).mpr (h es e t hpre hr)

/-- a simulation of every step by a step with the same label -/
theorem simulation {step' : τ → ε → τ → Prop} {R : σ → τ → Prop} {s' : τ}
    (hstep : ∀ s s' e t, R s s' → step s e t → ∃ t', step' s' e t' ∧ R t t')
    (h : Run step s es t) (h0 : R s s') : ∃ t', Run step' s' es t' ∧ R t t' := by
  induction h with
  | nil => exact ⟨s', .nil s', h0⟩
  | snoc _ hs ih =>
    obtain ⟨t', h1, h2⟩ := ih
    obtain ⟨u', h3, h4⟩ := hstep _ _ _ _ h2 hs
    exact ⟨u', .snoc h1 h3, h4⟩

end Run

end Lts
