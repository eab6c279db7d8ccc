import Mathlib.Data.List.Basic
import Mathlib.Tactic.Common

/-!
# Programs that may fail

A program that may stop with a failure is a value of `Except ε α`.  `Returns x P` says that `x`
does NOT fail and that its value satisfies `P`: a total-correctness triple without precondition
(preconditions are hypotheses).

* `returns_bind`, `Returns.bind`   sequencing;
* `ReturnsIf p x P`                the same if `p`, and partial correctness in any case;
* `mapM_ok`, `mapM_returns`        a list traversal none of whose steps fails;
* `foldlM_sim`                     a failing fold next to a pure fold: if every step keeps the
                                   relation, so do the folds;
* `foldlM_returns`                 the special case of an invariant.
-/

namespace Fallible

universe u
variable {ε : Type u} {α β γ σ τ : Type u}

/-- `x` does not fail, and its value satisfies `P` -/
def Returns (x : Except ε α) (P : α → Prop) : Prop := ∃ a, x = .ok a ∧ P a

@[simp] theorem pure_eq_ok (a : α) : (pure a : Except ε α) = .ok a := rfl

@[simp] theorem ok_bind (a : α) (f : α → Except ε β) : (Except.ok a >>= f) = f a := rfl

@[simp] theorem error_bind (e : ε) (f : α → Except ε β) :
    ((Except.error e : Except ε α) >>= f) = .error e := rfl

@[simp] theorem map_ok (a : α) (f : α → β) : (f <$> (Except.ok a : Except ε α)) = .ok (f a) := rfl

theorem bind_eq_ok {x : Except ε α} {f : α → Except ε β} {b : β} :
    x >>= f = .ok b ↔ ∃ a, x = .ok a ∧ f a = .ok b := by
  cases x with
  | error e => simp
  | ok a => simp

theorem eq_ok_of_toOption {x : Except ε α} {a : α} (h : x.toOption = some a) : x = .ok a := by
  cases x with
  | error e => cases h
  | ok b => exact congrArg _ (Option.some.inj h)

theorem returns_ok {P : α → Prop} {a : α} (h : P a) : Returns (.ok a : Except ε α) P :=
  ⟨a, rfl, h⟩

@[simp] theorem returns_ok_iff {P : α → Prop} {a : α} :
    Returns (.ok a : Except ε α) P ↔ P a := by
  constructor
  · rintro ⟨b, hb, h⟩
    cases hb
    exact h
  · exact returns_ok

@[simp] theorem returns_error_iff {P : α → Prop} {e : ε} :
    Returns (.error e : Except ε α) P ↔ False := by
  constructor
  · rintro ⟨b, hb, _⟩
    cases hb
  · exact False.elim

theorem Returns.mono {x : Except ε α} {P Q : α → Prop} (h : Returns x P) (hPQ : ∀ a, P a → Q a) :
    Returns x Q := by
  obtain ⟨a, ha, hP⟩ := h
  exact ⟨a, ha, hPQ a hP⟩

theorem Returns.of_eq {x : Except ε α} {P : α → Prop} (h : Returns x P) {a : α} (hx : x = .ok a) :
    P a := by
  obtain ⟨b, hb, hP⟩ := h
  rw [hx] at hb
  cases hb
  exact hP

theorem returns_bind {x : Except ε α} {f : α → Except ε β} {P : β → Prop} :
    Returns (x >>= f) P ↔ Returns x (fun a => Returns (f a) P) := by
  cases x with
  | error e => simp
  | ok a => simp

theorem Returns.bind {x : Except ε α} {f : α → Except ε β} {Q : α → Prop} {P : β → Prop}
    (hx : Returns x Q) (hf : ∀ a, Q a → Returns (f a) P) : Returns (x >>= f) P :=
  returns_bind.mpr (hx.mono hf)

/-! ## partial correctness -/

/-- a value of `x` satisfies `P`, and under `p` there is one -/
structure ReturnsIf (p : Prop) (x : Except ε α) (P : α → Prop) : Prop where
  spec : ∀ a, x = .ok a → P a
  ok : p → ∃ a, x = .ok a

theorem Returns.returnsIf {p : Prop} {x : Except ε α} {P : α → Prop} (h : Returns x P) :
    ReturnsIf p x P := by
  obtain ⟨a, ha, hP⟩ := h
  refine ⟨fun b hb => ?_, fun _ => ⟨a, ha⟩⟩
  rw [ha] at hb
  cases hb
  exact hP

theorem ReturnsIf.returns {p : Prop} {x : Except ε α} {P : α → Prop} (h : ReturnsIf p x P)
    (hp : p) : Returns x P := by
  obtain ⟨a, ha⟩ := h.ok hp
  exact ⟨a, ha, h.spec a ha⟩

theorem returnsIf_ok {p : Prop} {P : α → Prop} {a : α} (h : P a) :
    ReturnsIf p (.ok a : Except ε α) P :=
  (returns_ok h).returnsIf

theorem returnsIf_error {p : Prop} {P : α → Prop} {e : ε} (hp : ¬ p) :
    ReturnsIf p (.error e : Except ε α) P :=
  ⟨fun _ h => (nomatch h), fun h => absurd h hp⟩

theorem ReturnsIf.mono {p : Prop} {x : Except ε α} {P Q : α → Prop} (h : ReturnsIf p x P)
    (hPQ : ∀ a, P a → Q a) : ReturnsIf p x Q :=
  ⟨fun a ha => hPQ a (h.spec a ha), h.ok⟩

theorem ReturnsIf.imp {p q : Prop} {x : Except ε α} {P : α → Prop} (h : ReturnsIf p x P)
    (hqp : q → p) : ReturnsIf q x P :=
  ⟨h.spec, fun hq => h.ok (hqp hq)⟩

/-- the value is the one of `x` -/
theorem ReturnsIf.and_eq {p : Prop} {x : Except ε α} {P : α → Prop} (h : ReturnsIf p x P) :
    ReturnsIf p x (fun a => x = .ok a ∧ P a) :=
  ⟨fun a ha => ⟨ha, h.spec a ha⟩, h.ok⟩

theorem ReturnsIf.bind {p : Prop} {x : Except ε α} {f : α → Except ε β} {Q : α → Prop}
    {P : β → Prop} (hx : ReturnsIf p x Q) (hf : ∀ a, Q a → ReturnsIf p (f a) P) :
    ReturnsIf p (x >>= f) P := by
  refine ⟨fun b hb => ?_, fun hp => ?_⟩
  · obtain ⟨a, ha, hb⟩ := bind_eq_ok.mp hb
    exact (hf a (hx.spec a ha)).spec b hb
  · obtain ⟨a, ha⟩ := hx.ok hp
    rw [ha]
    exact (hf a (hx.spec a ha)).ok hp

theorem Returns.bindIf {p : Prop} {x : Except ε α} {f : α → Except ε β} {Q : α → Prop}
    {P : β → Prop} (hx : Returns x Q) (hf : ∀ a, Q a → ReturnsIf p (f a) P) :
    ReturnsIf p (x >>= f) P :=
  hx.returnsIf.bind hf

/-! ## traversals -/

theorem mapM_ok (f : α → Except ε β) (g : α → β) (l : List α) (h : ∀ a ∈ l, f a = .ok (g a)) :
    l.mapM f = .ok (l.map g) := by
  induction l with
  | nil => rfl
  | cons a l ih =>
    rw [List.mapM_cons, h a List.mem_cons_self, ok_bind,
      ih (fun b hb => h b (List.mem_cons_of_mem _ hb))]
    rfl

/-- a failing fold `f` runs next to a pure fold `g`: if every step on an element of the list
keeps the relation `R`, the whole fold does -/
theorem foldlM_sim {R : σ → τ → Prop} (f : σ → α → Except ε σ) (g : τ → α → τ) (l : List α)
    (hstep : ∀ s t, ∀ a ∈ l, R s t → Returns (f s a) (fun s' => R s' (g t a))) :
    ∀ s t, R s t → Returns (l.foldlM f s) (fun s' => R s' (l.foldl g t)) := by
  induction l with
  | nil => intro s t h; exact returns_ok h
  | cons a l ih =>
    intro s t h
    rw [List.foldlM_cons, List.foldl_cons]
    refine (hstep s t a List.mem_cons_self h).bind (fun s' hs' => ?_)
    exact ih (fun s t b hb => hstep s t b (List.mem_cons_of_mem _ hb)) s' _ hs'

theorem foldlM_returns {I : σ → Prop} (f : σ → α → Except ε σ) (l : List α)
    (hstep : ∀ s, ∀ a ∈ l, I s → Returns (f s a) I) : ∀ s, I s → Returns (l.foldlM f s) I := by
  induction l with
  | nil => intro s h; exact returns_ok h
  | cons a l ih =>
    intro s h
    rw [List.foldlM_cons]
    exact (hstep s a List.mem_cons_self h).bind
      (ih (fun s b hb => hstep s b (List.mem_cons_of_mem _ hb)))

end Fallible
