import ReplayServer.Replay.MergeCore
import Mathlib.Data.Finset.Card

/-!
# replay: the abstract model, its steps

* `evaluate_spec`         the four things that can happen to a reserve replay in a stalemate;
* `bestByte_spec`         the byte that resolves a stalemate has the most candidates;
* `select_spec`           how the good replays are split into quorum and reserve;
* `shortest_spec`, `commonPrefix_bounds`   what a merge compares and where it can end;
* `position_le`, `le_position`             the delayed position of a quorum is its minimum.
-/

set_option linter.unusedSectionVars false

namespace ReplayServer
namespace Merge
open Agree

/-! ## candidates -/

/-- `id` is a candidate for the byte `b` -/
def IsCand (c : Candidates) (b : UInt8) (id : Nat) : Prop := ∃ l, c.lookup b = some l ∧ id ∈ l

theorem lookup_addCandidate (c : Candidates) (b b' : UInt8) (id : Nat) :
    (addCandidate c b id).lookup b' =
      if b' = b then some ((c.lookup b).getD [] ++ [id]) else c.lookup b' := by
  unfold addCandidate
  by_cases h : b' = b
  · subst h
    rw [if_pos rfl, Finmap.lookup_insert]
  · rw [if_neg h, Finmap.lookup_insert_of_ne _ h]

theorem isCand_addCandidate {c : Candidates} {b b' : UInt8} {id j : Nat} :
    IsCand (addCandidate c b id) b' j ↔ IsCand c b' j ∨ (b' = b ∧ j = id) := by
  unfold IsCand
  rw [lookup_addCandidate]
  by_cases h : b' = b
  · subst h
    rw [if_pos rfl]
    cases hl : c.lookup b' with
    | none => simp
    | some l => simp
  · simp [h]

theorem isCand_empty {b : UInt8} {id : Nat} : ¬ IsCand ∅ b id := by
  rintro ⟨l, h, _⟩
  rw [Finmap.lookup_empty] at h
  cases h

theorem mem_entries {c : Candidates} {ord : IterOrder} {b : UInt8} {l : List Nat} :
    (b, l) ∈ c.entries ord ↔ c.lookup b = some l := by
  unfold Candidates.entries
  rw [List.mem_filterMap]
  constructor
  · rintro ⟨k, _, hk⟩
    obtain ⟨v, hv, he⟩ := Option.map_eq_some_iff.mp hk
    cases he
    exact hv
  · intro h
    refine ⟨b, (ord.mem_keys _ _).mpr ?_, by rw [h]; rfl⟩
    rw [Finmap.mem_keys, ← Finmap.lookup_isSome, h]
    rfl

theorem entries_ne_nil {c : Candidates} {ord : IterOrder} (h : c.keys ≠ ∅) : c.entries ord ≠ [] := by
  obtain ⟨b, hb⟩ := Finset.nonempty_iff_ne_empty.mpr h
  rw [Finmap.mem_keys, ← Finmap.lookup_isSome] at hb
  obtain ⟨l, hl⟩ := Option.isSome_iff_exists.mp hb
  exact List.ne_nil_of_mem (mem_entries.mpr hl)

theorem keys_eq_empty_iff {c : Candidates} : c.keys = ∅ ↔ ∀ b, c.lookup b = none := by
  rw [Finset.eq_empty_iff_forall_notMem]
  refine forall_congr' (fun b => ?_)
  rw [Finmap.mem_keys, Finmap.lookup_eq_none]

/-! ## evaluating a reserve replay -/

/-- the outcomes of `t.evaluate id` -/
inductive Evaluated (t : Stalemate) (id : Nat) : Stalemate → Prop where
  | keep (hlen : t.core.len id ≤ t.core.cl) (hfin : (t.core.get id).finished = false) :
      Evaluated t id t
  | short (hlen : t.core.len id ≤ t.core.cl) (hfin : (t.core.get id).finished = true) :
      Evaluated t id { t with reserve := t.reserve.erase id }
  | diverged (hlen : t.core.cl < t.core.len id)
      (hne : ¬ AgreeOn (t.core.get id).data t.core.canon.data
        (t.core.matchStart (t.core.get id)) t.core.cl) :
      Evaluated t id { t with reserve := t.reserve.erase id }
  | promoted (b : UInt8) (hlen : t.core.cl < t.core.len id)
      (hag : AgreeOn (t.core.get id).data t.core.canon.data
        (t.core.matchStart (t.core.get id)) t.core.cl)
      (hb : (t.core.get id).data[t.core.cl]? = some b) :
      Evaluated t id
        { core := t.core.modify id (Replay.setMatching t.core.cl)
          cand := addCandidate t.cand b id
          reserve := t.reserve.erase id }

theorem matchStart_le {c : Core} {r : Replay} (h : r.matching ≤ c.cl) : c.matchStart r ≤ c.cl := by
  unfold Core.matchStart
  omega

theorem evaluate_spec {t : Stalemate} {id : Nat} (hm : (t.core.get id).matching ≤ t.core.cl) :
    Evaluated t id (t.evaluate id) := by
  have hlen : (t.core.get id).data.length = t.core.len id := rfl
  have hcl : t.core.canon.data.length = t.core.cl := rfl
  have hms := matchStart_le hm
  unfold Stalemate.evaluate
  by_cases hshort : t.core.len id ≤ t.core.cl
  · simp only [hlen, if_pos hshort]
    cases hfin : (t.core.get id).finished with
    | true => exact .short hshort hfin
    | false => exact .keep hshort hfin
  · simp only [hlen, if_neg hshort]
    have hlcp := le_lcpFrom_iff (x := (t.core.get id).data) (y := t.core.canon.data)
      (k := t.core.cl) hms (by omega) (by omega)
    have hle := lcpFrom_le_right (x := (t.core.get id).data) (y := t.core.canon.data)
      (s := t.core.matchStart (t.core.get id)) (by omega) (by omega)
    by_cases heq : lcpFrom (t.core.get id).data t.core.canon.data
        (t.core.matchStart (t.core.get id)) = t.core.cl
    · rw [if_pos heq]
      have hin : t.core.cl < (t.core.get id).data.length := by omega
      have hb := List.getElem?_eq_getElem hin
      rw [hb, Option.getD_some]
      exact .promoted _ (by omega) (hlcp.mp heq.ge).2.2 hb
    · rw [if_neg heq]
      refine .diverged (by omega) (fun hag => heq ?_)
      have := hlcp.mpr ⟨by omega, by omega, hag⟩
      omega

theorem evaluate_frame (t : Stalemate) (id : Nat) : Core.Frame t.core (t.evaluate id).core := by
  unfold Stalemate.evaluate
  dsimp only
  split
  · split
    · exact Core.Frame.refl _
    · exact Core.Frame.refl _
  · split
    · exact Core.frame_modify_matching _
    · exact Core.Frame.refl _

theorem evaluate_reserve (t : Stalemate) (id : Nat) :
    t.reserve.erase id ⊆ (t.evaluate id).reserve ∧ (t.evaluate id).reserve ⊆ t.reserve := by
  unfold Stalemate.evaluate
  dsimp only
  split
  · split
    · exact ⟨Finset.Subset.refl _, Finset.erase_subset _ _⟩
    · exact ⟨Finset.erase_subset _ _, Finset.Subset.refl _⟩
  · split
    · exact ⟨Finset.Subset.refl _, Finset.erase_subset _ _⟩
    · exact ⟨Finset.Subset.refl _, Finset.erase_subset _ _⟩

theorem evaluate_canon (t : Stalemate) (id : Nat) :
    (t.evaluate id).core.canon = t.core.canon ∧ (t.evaluate id).core.started = t.core.started := by
  unfold Stalemate.evaluate
  dsimp only
  split
  · split <;> exact ⟨rfl, rfl⟩
  · split <;> exact ⟨rfl, rfl⟩

/-! ### a look at a replay of the reserve -/

theorem evaluateIf_frame (t : Stalemate) (id : Nat) : Core.Frame t.core (t.evaluateIf id).core := by
  unfold Stalemate.evaluateIf
  split
  · exact evaluate_frame t id
  · exact Core.Frame.refl _

theorem evaluateIf_started (t : Stalemate) (id : Nat) :
    (t.evaluateIf id).core.started = t.core.started := by
  unfold Stalemate.evaluateIf
  split
  · exact (evaluate_canon t id).2
  · rfl

theorem evaluateIf_reserve (t : Stalemate) (id : Nat) : (t.evaluateIf id).reserve ⊆ t.reserve := by
  unfold Stalemate.evaluateIf
  split
  · exact (evaluate_reserve t id).2
  · exact Finset.Subset.refl _

theorem evaluate_cand (t : Stalemate) (id : Nat) {b : UInt8} {j : Nat} (h : IsCand t.cand b j) :
    IsCand (t.evaluate id).cand b j := by
  unfold Stalemate.evaluate
  dsimp only
  split
  · split <;> exact h
  · split
    · exact isCand_addCandidate.mpr (Or.inl h)
    · exact h

/-- an invariant of the evaluation of the replays of a list, all of which are in the reserve -/
theorem foldl_evaluate {P : Stalemate → Prop}
    (hstep : ∀ t id, P t → id ∈ t.reserve → P (t.evaluate id)) (l : List Nat) :
    ∀ t, l.Nodup → (∀ id ∈ l, id ∈ t.reserve) → P t → P (l.foldl Stalemate.evaluate t) := by
  induction l with
  | nil => intro t _ _ h; exact h
  | cons i l ih =>
    intro t hnd hsub h
    obtain ⟨hi, hnd'⟩ := List.nodup_cons.mp hnd
    refine ih (t.evaluate i) hnd' (fun j hj => ?_) (hstep t i h (hsub i List.mem_cons_self))
    refine (evaluate_reserve t i).1 (Finset.mem_erase.mpr ⟨?_, hsub j (List.mem_cons_of_mem _ hj)⟩)
    rintro rfl
    exact hi hj

/-! ## the byte that resolves a stalemate -/

theorem tupleLe_le {a b : Nat × Nat × UInt8} (h : tupleLe a b = true) : a.1 ≤ b.1 := by
  unfold tupleLe at h
  simp only [Bool.or_eq_true, Bool.and_eq_true, decide_eq_true_eq, beq_iff_eq] at h
  omega

theorem tupleLe_total_le {a b : Nat × Nat × UInt8} (h : ¬ tupleLe a b = true) : b.1 ≤ a.1 := by
  unfold tupleLe at h
  simp only [Bool.or_eq_true, Bool.and_eq_true, decide_eq_true_eq, beq_iff_eq] at h
  omega

theorem iterMax_spec {l : List (Nat × Nat × UInt8)} (h : l ≠ []) :
    ∃ m, iterMax l = some m ∧ m ∈ l ∧ ∀ x ∈ l, x.1 ≤ m.1 := by
  cases l with
  | nil => exact absurd rfl h
  | cons a l =>
    have key : ∀ (l : List (Nat × Nat × UInt8)) (a : Nat × Nat × UInt8),
        (l.foldl (fun m x => if tupleLe m x then x else m) a) ∈ a :: l ∧
        ∀ x ∈ a :: l, x.1 ≤ (l.foldl (fun m x => if tupleLe m x then x else m) a).1 := by
      intro l
      induction l with
      | nil => intro a; simp
      | cons b l ih =>
        intro a
        rw [List.foldl_cons]
        by_cases hab : tupleLe a b = true
        · rw [if_pos hab]
          obtain ⟨h1, h2⟩ := ih b
          refine ⟨List.mem_cons_of_mem _ h1, fun x hx => ?_⟩
          rcases List.mem_cons.mp hx with rfl | hx
          · exact (tupleLe_le hab).trans (h2 b List.mem_cons_self)
          · exact h2 x hx
        · rw [if_neg hab]
          obtain ⟨h1, h2⟩ := ih a
          refine ⟨?_, fun x hx => ?_⟩
          · rcases List.mem_cons.mp h1 with h1 | h1
            · rw [h1]
              exact List.mem_cons_self
            · exact List.mem_cons_of_mem _ (List.mem_cons_of_mem _ h1)
          · rcases List.mem_cons.mp hx with rfl | hx
            · exact h2 x List.mem_cons_self
            · rcases List.mem_cons.mp hx with rfl | hx
              · exact (tupleLe_total_le hab).trans (h2 a List.mem_cons_self)
              · exact h2 x (List.mem_cons_of_mem _ hx)
    exact ⟨_, rfl, (key l a).1, (key l a).2⟩

theorem bestByte_spec {t : Stalemate} (ord : IterOrder) (h : t.cand.keys ≠ ∅) :
    t.cand.lookup (t.bestByte ord) = some (t.good ord) ∧
      ∀ b l, t.cand.lookup b = some l → l.length ≤ (t.good ord).length := by
  have hne : t.tuples ord ≠ [] := by
    unfold Stalemate.tuples
    rw [ne_eq, List.map_eq_nil_iff]
    exact entries_ne_nil h
  obtain ⟨m, hm, hmem, hmax⟩ := iterMax_spec hne
  have hbest : t.bestByte ord = m.2.2 := by
    unfold Stalemate.bestByte
    rw [hm]
    rfl
  obtain ⟨⟨b, l⟩, he, rfl⟩ := List.mem_map.mp hmem
  have hl := mem_entries.mp he
  have hbest' : t.bestByte ord = b := hbest
  have hgood : t.good ord = l := by
    unfold Stalemate.good
    rw [hbest', hl]
    rfl
  refine ⟨by rw [hbest', hgood]; exact hl, fun b' l' hl' => ?_⟩
  rw [hgood]
  exact hmax _ (List.mem_map.mpr ⟨(b', l'), mem_entries.mpr hl', rfl⟩)

theorem max?_getD_spec (l : List Nat) : (∀ x ∈ l, x ≤ l.max?.getD 0) ∧
    (l ≠ [] → l.max?.getD 0 ∈ l) := by
  cases h : l.max? with
  | none =>
    rw [List.max?_eq_none_iff] at h
    subst h
    simp
  | some m =>
    obtain ⟨h1, h2⟩ := List.max?_eq_some_iff.mp h
    exact ⟨h2, fun _ => h1⟩

/-- a stalemate that can be resolved has a reserve that ran out, or a full set of candidates -/
theorem canExit_iff {t : Stalemate} {ord : IterOrder} : t.canExit ord = true ↔
    t.core.started = true ∧ t.cand.keys ≠ ∅ ∧
      (t.reserve = ∅ ∨ ∃ b l, t.cand.lookup b = some l ∧ t.core.target ≤ l.length) := by
  unfold Stalemate.canExit
  rw [Bool.and_eq_true, Bool.and_eq_true, Bool.or_eq_true, decide_eq_true_eq, decide_eq_true_eq,
    decide_eq_true_eq, and_assoc]
  refine and_congr_right fun _ => and_congr_right fun hne => or_congr_right ?_
  obtain ⟨h1, h2⟩ := max?_getD_spec ((t.cand.entries ord).map (fun e => e.2.length))
  constructor
  · intro h
    obtain ⟨⟨b, l⟩, he, hl⟩ := List.mem_map.mp (h2 (by
      rw [ne_eq, List.map_eq_nil_iff]
      exact entries_ne_nil hne))
    refine ⟨b, l, mem_entries.mp he, ?_⟩
    unfold Stalemate.largest at h
    rw [← hl] at h
    exact h
  · rintro ⟨b, l, hl, h⟩
    exact h.trans (h1 _ (List.mem_map.mpr ⟨(b, l), mem_entries.mpr hl, rfl⟩))

/-! ## choosing the quorum -/

theorem sorted_perm (c : Core) (ord : IterOrder) (good : List Nat) :
    (Quorum.sorted c ord good).Perm good := by
  unfold Quorum.sorted
  refine (List.reverse_perm _).trans (((ord.sort_perm _).map _).trans ?_)
  rw [List.map_map]
  exact List.Perm.of_eq (List.map_id _)

structure Selected (c : Core) (good : List Nat) (reserve : Finset Nat) (q : Quorum) : Prop where
  core : q.core = c
  mem : ∀ id ∈ q.quorum, id ∈ good
  all : ∀ id, id ∈ q.quorum ∨ id ∈ q.reserve ↔ id ∈ good ∨ id ∈ reserve
  nonempty : q.quorum.Nonempty
  card : q.quorum.card = min good.length (max 1 c.target)
  disjoint : Disjoint q.quorum q.reserve

theorem select_spec {c : Core} {ord : IterOrder} {good : List Nat} {reserve : Finset Nat}
    (hne : good ≠ []) (hnd : good.Nodup) (hres : ∀ id ∈ good, id ∉ reserve) :
    Selected c good reserve (Quorum.select c ord good reserve) := by
  have hp := sorted_perm c ord good
  obtain ⟨l, hl⟩ : ∃ l, l = Quorum.sorted c ord good := ⟨_, rfl⟩
  have hpos : 0 < good.length := List.length_pos_of_ne_nil hne
  have hsel : Quorum.select c ord good reserve = ⟨c, (l.take (min l.length (max 1 c.target))).toFinset,
      reserve ∪ (l.drop (min l.length (max 1 c.target))).toFinset⟩ := by
    rw [hl]
    rfl
  rw [← hl] at hp
  have hlnd : l.Nodup := hp.nodup_iff.mpr hnd
  have hmem : ∀ n id, id ∈ l.take n ∨ id ∈ l.drop n ↔ id ∈ good := by
    intro n id
    rw [← List.mem_append, List.take_append_drop]
    exact hp.mem_iff
  rw [hsel]
  refine ⟨rfl, ?_, ?_, ?_, ?_, ?_⟩
  · intro id hid
    exact (hmem _ id).mp (Or.inl (List.mem_toFinset.mp hid))
  · intro id
    show id ∈ List.toFinset _ ∨ id ∈ reserve ∪ List.toFinset _ ↔ _
    rw [Finset.mem_union, List.mem_toFinset, List.mem_toFinset,
      ← hmem (min l.length (max 1 c.target)) id]
    tauto
  · have hlen : 0 < (l.take (min l.length (max 1 c.target))).length := by
      rw [List.length_take, hp.length_eq]
      omega
    obtain ⟨id, hid⟩ := List.exists_mem_of_length_pos hlen
    exact ⟨id, List.mem_toFinset.mpr hid⟩
  · show (l.take _).toFinset.card = _
    rw [List.toFinset_card_of_nodup (hlnd.sublist (List.take_sublist _ _)), List.length_take,
      hp.length_eq]
    omega
  · show Disjoint (l.take _).toFinset (reserve ∪ (l.drop _).toFinset)
    rw [Finset.disjoint_left]
    intro id hid hid'
    rw [List.mem_toFinset] at hid
    rw [Finset.mem_union, List.mem_toFinset] at hid'
    rcases hid' with h | h
    · exact hres id ((hmem _ id).mp (Or.inl hid)) h
    · exact (List.disjoint_take_drop hlnd le_rfl) hid h

/-! ## the members of a quorum -/

theorem ids_ne_nil {s : Finset Nat} (ord : IterOrder) (h : s.Nonempty) : ord.ids s ≠ [] := by
  obtain ⟨a, ha⟩ := h
  exact List.ne_nil_of_mem ((ord.mem_ids s a).mpr ha)

theorem iterMinByKey_spec {l : List (Nat × Nat)} (h : l ≠ []) :
    ∃ m ∈ l, iterMinByKey l = some m.1 ∧ ∀ x ∈ l, m.2 ≤ x.2 := by
  cases l with
  | nil => exact absurd rfl h
  | cons a l =>
    have key : ∀ (l : List (Nat × Nat)) (a : Nat × Nat),
        (l.foldl (fun m x => if x.2 < m.2 then x else m) a) ∈ a :: l ∧
        ∀ x ∈ a :: l, (l.foldl (fun m x => if x.2 < m.2 then x else m) a).2 ≤ x.2 := by
      intro l
      induction l with
      | nil => intro a; simp
      | cons b l ih =>
        intro a
        rw [List.foldl_cons]
        by_cases hab : b.2 < a.2
        · rw [if_pos hab]
          obtain ⟨h1, h2⟩ := ih b
          refine ⟨List.mem_cons_of_mem _ h1, fun x hx => ?_⟩
          rcases List.mem_cons.mp hx with rfl | hx
          · exact (h2 b List.mem_cons_self).trans hab.le
          · exact h2 x hx
        · rw [if_neg hab]
          obtain ⟨h1, h2⟩ := ih a
          refine ⟨?_, fun x hx => ?_⟩
          · rcases List.mem_cons.mp h1 with h1 | h1
            · rw [h1]
              exact List.mem_cons_self
            · exact List.mem_cons_of_mem _ (List.mem_cons_of_mem _ h1)
          · rcases List.mem_cons.mp hx with rfl | hx
            · exact h2 x List.mem_cons_self
            · rcases List.mem_cons.mp hx with rfl | hx
              · exact (h2 a List.mem_cons_self).trans (not_lt.mp hab)
              · exact h2 x (List.mem_cons_of_mem _ hx)
    exact ⟨_, (key l a).1, rfl, (key l a).2⟩

theorem position_le {q : Quorum} (ord : IterOrder) {id : Nat} (hid : id ∈ q.quorum) :
    q.position ord ≤ (q.core.get id).delayed := by
  unfold Quorum.position
  have hmem : (q.core.get id).delayed ∈
      (ord.ids q.quorum).map (fun id => (q.core.get id).delayed) :=
    List.mem_map.mpr ⟨id, (ord.mem_ids _ _).mpr hid, rfl⟩
  cases h : ((ord.ids q.quorum).map (fun id => (q.core.get id).delayed)).min? with
  | none => exact Nat.zero_le _
  | some m => exact (List.min?_eq_some_iff.mp h).2 _ hmem

section
variable {q : Quorum} (ord : IterOrder) (hne : q.quorum.Nonempty)
include hne

theorem shortest_spec : q.shortest ord ∈ q.quorum ∧
    ∀ id ∈ q.quorum, q.core.len (q.shortest ord) ≤ q.core.len id := by
  obtain ⟨m, hm, he, hmin⟩ := iterMinByKey_spec
    (l := (ord.ids q.quorum).map (fun id => (id, q.core.len id))) (by
      rw [ne_eq, List.map_eq_nil_iff]
      exact ids_ne_nil ord hne)
  obtain ⟨s, hs, rfl⟩ := List.mem_map.mp hm
  have hsh : q.shortest ord = s := by
    unfold Quorum.shortest
    rw [he]
    rfl
  rw [hsh]
  refine ⟨(ord.mem_ids _ _).mp hs, fun id hid => ?_⟩
  exact hmin (id, q.core.len id) (List.mem_map.mpr ⟨id, (ord.mem_ids _ _).mpr hid, rfl⟩)

theorem any_mem : q.any ord ∈ q.quorum := by
  have h := ids_ne_nil ord hne
  unfold Quorum.any
  cases hl : ord.ids q.quorum with
  | nil => exact absurd hl h
  | cons a l =>
    refine (ord.mem_ids _ _).mp ?_
    rw [hl]
    exact List.mem_cons_self

theorem le_position {k : Nat} (h : ∀ id ∈ q.quorum, k ≤ (q.core.get id).delayed) :
    k ≤ q.position ord := by
  unfold Quorum.position
  cases hm : ((ord.ids q.quorum).map (fun id => (q.core.get id).delayed)).min? with
  | none =>
    rw [List.min?_eq_none_iff, List.map_eq_nil_iff] at hm
    exact absurd hm (ids_ne_nil ord hne)
  | some m =>
    obtain ⟨id, hid, he⟩ := List.mem_map.mp (List.min?_eq_some_iff.mp hm).1
    show k ≤ m
    rw [← he]
    exact h id ((ord.mem_ids _ _).mp hid)

end

/-! ## where a merge ends -/

theorem boundedLcp_bounds {start e lcp n : Nat} (h1 : start ≤ lcp) (h2 : lcp ≤ n)
    (h3 : start ≤ e) (h4 : start ≤ n) :
    start ≤ boundedLcp start e lcp ∧ boundedLcp start e lcp ≤ n := by
  have := le_roundUp e
  unfold boundedLcp
  split <;> omega

theorem commonPrefix_bounds {q : Quorum} (ord : IterOrder) (hne : q.quorum.Nonempty)
    (hlen : ∀ id ∈ q.quorum, q.core.cl ≤ q.core.len id) :
    q.core.cl ≤ q.commonPrefix ord ∧ ∀ id ∈ q.quorum, q.commonPrefix ord ≤ q.core.len id := by
  obtain ⟨hs, hmin⟩ := shortest_spec ord hne
  obtain ⟨s, hs'⟩ : ∃ s, s = q.shortest ord := ⟨_, rfl⟩
  rw [← hs'] at hs hmin
  have hcs := hlen s hs
  have key : ∀ (l : List Nat) (cp : Nat), (∀ id ∈ l, id ∈ q.quorum) → q.core.cl ≤ cp →
      cp ≤ q.core.len s →
      q.core.cl ≤ l.foldl (fun cp id => if id = s then cp
        else boundedLcp q.core.cl (min (min (q.core.len s) (q.core.len id)) cp)
          (lcpFrom (q.core.get s).data (q.core.get id).data q.core.cl)) cp ∧
      l.foldl (fun cp id => if id = s then cp
        else boundedLcp q.core.cl (min (min (q.core.len s) (q.core.len id)) cp)
          (lcpFrom (q.core.get s).data (q.core.get id).data q.core.cl)) cp ≤ q.core.len s := by
    intro l
    induction l with
    | nil => intro cp _ h1 h2; exact ⟨h1, h2⟩
    | cons i l ih =>
      intro cp hsub h1 h2
      have hci := hlen i (hsub i List.mem_cons_self)
      rw [List.foldl_cons]
      by_cases his : i = s
      · rw [if_pos his]
        exact ih cp (fun j hj => hsub j (List.mem_cons_of_mem _ hj)) h1 h2
      · rw [if_neg his]
        have hb := boundedLcp_bounds (e := min (min (q.core.len s) (q.core.len i)) cp)
          (le_lcpFrom (q.core.get s).data (q.core.get i).data q.core.cl)
          (lcpFrom_le_left (x := (q.core.get s).data) (y := (q.core.get i).data) hcs hci)
          (by omega) hcs
        exact ih _ (fun j hj => hsub j (List.mem_cons_of_mem _ hj)) hb.1 hb.2
  have h := key (ord.ids q.quorum) (q.core.len s) (fun id hid => (ord.mem_ids _ _).mp hid) hcs le_rfl
  have hcp : q.commonPrefix ord = (ord.ids q.quorum).foldl (fun cp id => if id = s then cp
        else boundedLcp q.core.cl (min (min (q.core.len s) (q.core.len id)) cp)
          (lcpFrom (q.core.get s).data (q.core.get id).data q.core.cl)) (q.core.len s) := by
    rw [hs']
    rfl
  rw [hcp]
  exact ⟨h.1, fun id hid => h.2.trans (hmin id hid)⟩

end Merge

end ReplayServer
