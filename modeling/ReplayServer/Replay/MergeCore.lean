import ReplayServer.Replay.Merge

/-!
# replay: the abstract model, its parts

What the functions of `Merge` do to one replay and to the canonical data:

* `Core.get_modify_self`, `Core.get_setMatching`   single replays;
* `Core.Frame`                                   what no step of the strategy touches.
-/

set_option linter.unusedSectionVars false

namespace ReplayServer
namespace Merge
open Agree

namespace Core

variable (c : Core) (id j : Nat) (f : Replay → Replay)

@[simp] theorem modify_canon : (c.modify id f).canon = c.canon := rfl
@[simp] theorem modify_cl : (c.modify id f).cl = c.cl := rfl
@[simp] theorem modify_dist : (c.modify id f).dist = c.dist := rfl
@[simp] theorem modify_target : (c.modify id f).target = c.target := rfl
@[simp] theorem modify_started : (c.modify id f).started = c.started := rfl
@[simp] theorem modify_length : (c.modify id f).replays.length = c.replays.length := by
  simp [modify]

variable {c id j f}

theorem get_modify_self (h : id < c.replays.length) : (c.modify id f).get id = f (c.get id) := by
  unfold get modify
  rw [List.getElem?_modify_eq, List.getElem?_eq_getElem h]
  rfl

theorem get_modify_ne (h : j ≠ id) : (c.modify id f).get j = c.get j := by
  unfold get modify
  rw [List.getElem?_modify_ne _ _ h.symm]

theorem get_of_ge (h : c.replays.length ≤ id) : c.get id = .empty := by
  unfold get
  rw [List.getElem?_eq_none h]
  rfl

/-- a property of single replays that `f` keeps -/
theorem get_modify_of {P : Replay → Prop} (h : P (c.get j)) (hf : ∀ r, P r → P (f r)) :
    P ((c.modify id f).get j) := by
  by_cases hj : j = id
  · subst hj
    by_cases hlt : j < c.replays.length
    · rw [get_modify_self hlt]
      exact hf _ h
    · have e : c.modify j f = c := by
        unfold modify
        rw [List.modify_eq_self (by omega)]
      rwa [e]
  · rwa [get_modify_ne hj]

/-- what `f` does not change -/
theorem get_modify_same {α : Type} (g : Replay → α) (hf : ∀ r, g (f r) = g r) :
    g ((c.modify id f).get j) = g (c.get j) :=
  get_modify_of (P := fun r => g r = g (c.get j)) rfl (fun r hr => (hf r).trans hr)

/-! ### appending and advancing -/

@[simp] theorem append_get (n : Nat) : (c.append id n).get j = c.get j := rfl
@[simp] theorem append_replays (n : Nat) : (c.append id n).replays = c.replays := rfl
@[simp] theorem append_len (n : Nat) : (c.append id n).len j = c.len j := rfl

theorem append_cl {n : Nat} (h1 : c.cl ≤ n) (h2 : n ≤ c.len id) : (c.append id n).cl = n := by
  show (c.canon.data ++ ((c.get id).data.drop c.cl).take (n - c.cl)).length = n
  have h3 : c.canon.data.length = c.cl := rfl
  have h4 : (c.get id).data.length = c.len id := rfl
  rw [List.length_append, List.length_take, List.length_drop]
  omega

theorem append_prefix (n : Nat) : c.canon.data <+: (c.append id n).canon.data :=
  List.prefix_append _ _

/-- the bytes that an append adds are those of its source -/
theorem append_agree (n : Nat) :
    AgreeOn (c.get id).data (c.append id n).canon.data c.cl n := by
  intro i hi hn
  show _ = (c.canon.data ++ ((c.get id).data.drop c.cl).take (n - c.cl))[i]?
  have h3 : c.canon.data.length = c.cl := rfl
  rw [List.getElem?_append_right (by omega), h3, List.getElem?_take, if_pos (by omega),
    List.getElem?_drop]
  congr 1
  omega

theorem advance_delayed (hint : Nat) :
    (c.advance hint).canon.delayed = max c.canon.delayed (min hint c.cl) := by
  unfold advance
  split
  · omega
  · show min hint c.cl = _
    omega

@[simp] theorem advance_data (hint : Nat) : (c.advance hint).canon.data = c.canon.data := by
  unfold advance
  split <;> rfl

@[simp] theorem advance_cl (hint : Nat) : (c.advance hint).cl = c.cl := by
  unfold cl
  rw [advance_data]

@[simp] theorem advance_replays (hint : Nat) : (c.advance hint).replays = c.replays := by
  unfold advance
  split <;> rfl

@[simp] theorem advance_get (hint : Nat) : (c.advance hint).get id = c.get id := by
  unfold get
  rw [advance_replays]

theorem advance_rest (hint : Nat) : (c.advance hint).dist = c.dist ∧
    (c.advance hint).target = c.target ∧ (c.advance hint).started = c.started ∧
    (c.advance hint).canon.header = c.canon.header ∧
    (c.advance hint).canon.finished = c.canon.finished := by
  unfold advance
  split <;> exact ⟨rfl, rfl, rfl, rfl, rfl⟩

/-! ### marking replays as matching -/

theorem setMatching_spec (c : Core) (ids : List Nat) : ∃ rs, c.setMatching ids = { c with replays := rs } ∧
    rs.length = c.replays.length ∧ ∀ j, rs[j]?.getD .empty =
      if j ∈ ids ∧ j < c.replays.length then (c.get j).setMatching c.cl else c.get j := by
  unfold setMatching
  obtain ⟨k, hk⟩ : ∃ k, k = c.cl := ⟨_, rfl⟩
  rw [← hk]
  clear hk
  induction ids generalizing c with
  | nil => exact ⟨c.replays, rfl, rfl, fun j => by simp [get]⟩
  | cons i ids ih =>
    obtain ⟨rs, h1, h2, h3⟩ := ih (c.modify i (Replay.setMatching k))
    refine ⟨rs, h1, by rw [h2, modify_length], fun j => ?_⟩
    rw [h3 j, modify_length]
    have hidem : ∀ r : Replay, (r.setMatching k).setMatching k = r.setMatching k := by
      intro r
      simp [Replay.setMatching]
    by_cases hj : j = i
    · subst hj
      by_cases hlt : j < c.replays.length
      · rw [get_modify_self hlt, hidem]
        simp [hlt]
      · have e : c.modify j (Replay.setMatching k) = c := by
          unfold modify
          rw [List.modify_eq_self (by omega)]
        rw [e]
        simp [hlt]
    · rw [get_modify_ne hj]
      simp [hj]

section
variable {ids : List Nat}

@[simp] theorem setMatching_canon : (c.setMatching ids).canon = c.canon := by
  obtain ⟨rs, h, _⟩ := setMatching_spec c ids
  rw [h]

@[simp] theorem setMatching_cl : (c.setMatching ids).cl = c.cl := by
  unfold cl
  rw [setMatching_canon]

@[simp] theorem setMatching_length : (c.setMatching ids).replays.length = c.replays.length := by
  obtain ⟨rs, h, h', _⟩ := setMatching_spec c ids
  rw [h]
  exact h'

theorem setMatching_rest : (c.setMatching ids).dist = c.dist ∧
    (c.setMatching ids).target = c.target ∧ (c.setMatching ids).started = c.started := by
  obtain ⟨rs, h, _⟩ := setMatching_spec c ids
  rw [h]
  exact ⟨rfl, rfl, rfl⟩

theorem get_setMatching : (c.setMatching ids).get j =
    if j ∈ ids ∧ j < c.replays.length then (c.get j).setMatching c.cl else c.get j := by
  obtain ⟨rs, h, _, h'⟩ := setMatching_spec c ids
  rw [h]
  exact h' j

end

/-! ### what the strategy leaves alone -/

/-- everything but the matching positions, and the canonical data only grows -/
structure Frame (c c' : Core) : Prop where
  dist : c'.dist = c.dist
  target : c'.target = c.target
  length : c'.replays.length = c.replays.length
  data : ∀ id, (c'.get id).data = (c.get id).data
  header : ∀ id, (c'.get id).header = (c.get id).header
  delayed : ∀ id, (c'.get id).delayed = (c.get id).delayed
  finished : ∀ id, (c'.get id).finished = (c.get id).finished
  matching : ∀ id, (c.get id).matching ≤ (c'.get id).matching
  grow : c.canon.data <+: c'.canon.data
  canonHeader : c'.canon.header = c.canon.header
  canonFinished : c'.canon.finished = c.canon.finished

namespace Frame

theorem refl (c : Core) : Frame c c :=
  ⟨rfl, rfl, rfl, fun _ => rfl, fun _ => rfl, fun _ => rfl, fun _ => rfl, fun _ => le_rfl,
    List.prefix_refl _, rfl, rfl⟩

theorem trans {c c' c'' : Core} (h : Frame c c') (h' : Frame c' c'') : Frame c c'' where
  dist := h'.dist.trans h.dist
  target := h'.target.trans h.target
  length := h'.length.trans h.length
  data id := (h'.data id).trans (h.data id)
  header id := (h'.header id).trans (h.header id)
  delayed id := (h'.delayed id).trans (h.delayed id)
  finished id := (h'.finished id).trans (h.finished id)
  matching id := (h.matching id).trans (h'.matching id)
  grow := h.grow.trans h'.grow
  canonHeader := h'.canonHeader.trans h.canonHeader
  canonFinished := h'.canonFinished.trans h.canonFinished

theorem len {c c' : Core} (h : Frame c c') (id : Nat) : c'.len id = c.len id :=
  congrArg List.length (h.data id)

theorem cl {c c' : Core} (h : Frame c c') : c.cl ≤ c'.cl := h.grow.length_le

end Frame

theorem frame_modify_matching (k : Nat) : Frame c (c.modify id (Replay.setMatching k)) where
  dist := rfl
  target := rfl
  length := modify_length c id _
  data _ := get_modify_same Replay.data (fun _ => rfl)
  header _ := get_modify_same Replay.header (fun _ => rfl)
  delayed _ := get_modify_same Replay.delayed (fun _ => rfl)
  finished _ := get_modify_same Replay.finished (fun _ => rfl)
  matching j := get_modify_of (P := fun r => (c.get j).matching ≤ r.matching) le_rfl
    (fun _ hr => hr.trans (le_max_right _ _))
  grow := List.prefix_refl _
  canonHeader := rfl
  canonFinished := rfl

theorem frame_append (n : Nat) : Frame c (c.append id n) where
  dist := rfl
  target := rfl
  length := rfl
  data _ := rfl
  header _ := rfl
  delayed _ := rfl
  finished _ := rfl
  matching _ := le_rfl
  grow := append_prefix n
  canonHeader := rfl
  canonFinished := rfl

theorem frame_advance (hint : Nat) : Frame c (c.advance hint) where
  dist := (advance_rest hint).1
  target := (advance_rest hint).2.1
  length := by rw [advance_replays]
  data _ := by rw [advance_get]
  header _ := by rw [advance_get]
  delayed _ := by rw [advance_get]
  finished _ := by rw [advance_get]
  matching _ := by rw [advance_get]
  grow := by rw [advance_data]
  canonHeader := (advance_rest hint).2.2.2.1
  canonFinished := (advance_rest hint).2.2.2.2

theorem frame_setMatching (ids : List Nat) : Frame c (c.setMatching ids) := by
  unfold setMatching
  have key : ∀ (ids : List Nat) (d : Core) (k : Nat), Frame c d →
      Frame c (ids.foldl (fun d id => d.modify id (Replay.setMatching k)) d) := by
    intro ids
    induction ids with
    | nil => intro d k h; exact h
    | cons i ids ih =>
      intro d k h
      exact ih _ k (h.trans (frame_modify_matching k))
  exact key ids c c.cl (Frame.refl c)

end Core

end Merge

end ReplayServer
