import ReplayServer.Replay.MergeStep

/-!
# replay: the abstract model, its invariants

`State.WF` is what holds at every moment, also between two passes of the loop; `State.Inv` is
what holds between callbacks.

* `State.change_wf`, `State.change_rank`   a pass of the loop keeps `WF` and comes closer to the
                                           end (the rank is at most `State.fuel - 1`);
* `State.settle_stable`                    so the loop ends within its fuel;
* `State.step_inv`                         every allowed action keeps `Inv`;
* `finish_clean`                           when all replays have ended, only a clean stalemate is
                                           left.
-/

set_option linter.unusedSectionVars false

namespace ReplayServer
namespace Merge
open Agree

structure Core.WF (c : Core) : Prop where
  delayed : c.canon.delayed ≤ c.cl
  matching : ∀ id, (c.get id).matching ≤ c.cl
  reached : ∀ id, (c.get id).matching ≤ c.len id

structure Stalemate.WF (t : Stalemate) : Prop where
  core : t.core.WF
  delayed : t.core.canon.delayed = t.core.cl
  reserve : ∀ id ∈ t.reserve, id < t.core.replays.length
  lists : ∀ b l, t.cand.lookup b = some l → l ≠ [] ∧ l.Nodup
  cand : ∀ b id, IsCand t.cand b id → id < t.core.replays.length ∧ id ∉ t.reserve ∧
    (t.core.get id).data[t.core.cl]? = some b ∧ (t.core.get id).matching = t.core.cl

/-- a quorum, also before it has merged -/
structure Quorum.Base (q : Quorum) : Prop where
  core : q.core.WF
  nonempty : q.quorum.Nonempty
  card : q.quorum.card ≤ max 1 q.core.target
  disjoint : Disjoint q.quorum q.reserve
  members : ∀ id ∈ q.quorum, id < q.core.replays.length ∧ q.core.cl ≤ q.core.len id
  reserve : ∀ id ∈ q.reserve, id < q.core.replays.length

structure Quorum.WF (q : Quorum) : Prop extends q.Base where
  matched : ∀ id ∈ q.quorum, (q.core.get id).matching = q.core.cl

def State.WF : State → Prop
  | .quorum q => q.WF
  | .stalemate t => t.WF

theorem State.WF.core {m : State} (h : m.WF) : m.core.WF := by
  cases m with
  | quorum q => exact (show q.WF from h).toBase.core
  | stalemate t => exact (show t.WF from h).core

/-! ## the core -/

namespace Core

theorem WF.setMatching {c : Core} (h : c.WF) {ids : List Nat} (hids : ∀ id ∈ ids, c.cl ≤ c.len id) :
    (c.setMatching ids).WF := by
  have hf := frame_setMatching (c := c) ids
  have hget : ∀ j, (c.setMatching ids).get j = _ := fun j => get_setMatching
  refine ⟨?_, ?_, ?_⟩
  · rw [setMatching_canon, setMatching_cl]
    exact h.delayed
  · intro j
    rw [hget, setMatching_cl]
    split
    · exact max_le le_rfl (h.matching j)
    · exact h.matching j
  · intro j
    rw [hget, hf.len]
    split
    · rename_i hj
      exact max_le (hids j hj.1) (h.reached j)
    · exact h.reached j

theorem WF.append {c : Core} (h : c.WF) {id n : Nat} (h1 : c.cl ≤ n) (h2 : n ≤ c.len id) :
    (c.append id n).WF := by
  have hcl := append_cl h1 h2
  refine ⟨?_, ?_, h.reached⟩
  · rw [hcl]
    exact h.delayed.trans h1
  · intro j
    rw [hcl]
    exact (h.matching j).trans h1

theorem WF.advance {c : Core} (h : c.WF) (hint : Nat) : (c.advance hint).WF := by
  have hf := frame_advance (c := c) hint
  have hd := h.delayed
  refine ⟨?_, ?_, ?_⟩
  · rw [advance_delayed, advance_cl]
    omega
  · intro j
    rw [advance_get, advance_cl]
    exact h.matching j
  · intro j
    rw [advance_get, hf.len]
    exact h.reached j

theorem WF.modify_matching {c : Core} (h : c.WF) {id : Nat} (hid : c.cl ≤ c.len id) :
    (c.modify id (Replay.setMatching c.cl)).WF := by
  have hs : (c.setMatching [id]).WF := h.setMatching (by simpa using hid)
  exact hs

theorem len_le_longest (c : Core) (id : Nat) : c.len id ≤ c.longest := by
  unfold len get longest
  cases h : c.replays[id]? with
  | none => exact Nat.zero_le _
  | some r =>
    have hmem : r ∈ c.replays := List.mem_of_getElem? h
    have key : ∀ l : List Nat, ∀ x ∈ l, x ≤ l.foldr max 0 := by
      intro l
      induction l with
      | nil => simp
      | cons a l ih =>
        intro x hx
        rw [List.foldr_cons]
        rcases List.mem_cons.mp hx with rfl | hx
        · exact le_max_left _ _
        · exact (ih x hx).trans (le_max_right _ _)
    exact key _ _ (List.mem_map.mpr ⟨r, hmem, rfl⟩)

theorem Frame.longest {c c' : Core} (h : Frame c c') : c'.longest = c.longest := by
  have e : c'.replays.map (fun r => r.data.length) = c.replays.map (fun r => r.data.length) := by
    apply List.ext_getElem?
    intro i
    rw [List.getElem?_map, List.getElem?_map]
    by_cases hi : i < c.replays.length
    · have hi' : i < c'.replays.length := by rw [h.length]; exact hi
      have hl := h.len i
      unfold Core.len Core.get at hl
      rw [List.getElem?_eq_getElem hi, List.getElem?_eq_getElem hi'] at hl ⊢
      exact congrArg some hl
    · have hi' : ¬ i < c'.replays.length := by rw [h.length]; exact hi
      rw [List.getElem?_eq_none (by omega), List.getElem?_eq_none (by omega)]
  unfold Core.longest
  rw [e]

end Core

/-! ## stalemates -/

namespace Stalemate

theorem evaluate_wf {t : Stalemate} (h : t.WF) {id : Nat} (hid : id ∈ t.reserve) :
    (t.evaluate id).WF := by
  have herase : ({ t with reserve := t.reserve.erase id } : Stalemate).WF := by
    refine ⟨h.core, h.delayed, fun j hj => h.reserve j (Finset.mem_of_mem_erase hj), h.lists, ?_⟩
    intro b j hj
    obtain ⟨h1, h2, h3⟩ := h.cand b j hj
    exact ⟨h1, fun hr => h2 (Finset.mem_of_mem_erase hr), h3⟩
  have hs := evaluate_spec (h.core.matching id)
  revert hs
  generalize t.evaluate id = u
  intro hs
  cases hs with
  | keep hlen hfin => exact h
  | short hlen hfin => exact herase
  | diverged hlen hne => exact herase
  | promoted b hlen hag hb =>
    have hid' := h.reserve id hid
    refine ⟨h.core.modify_matching hlen.le, h.delayed, ?_, ?_, ?_⟩
    · intro j hj
      rw [Core.modify_length]
      exact h.reserve j (Finset.mem_of_mem_erase hj)
    · intro b' l hl
      rw [lookup_addCandidate] at hl
      by_cases hbb : b' = b
      · rw [if_pos hbb] at hl
        cases hl
        refine ⟨by simp, ?_⟩
        cases hlk : t.cand.lookup b with
        | none => simp
        | some l0 =>
          have hfresh : id ∉ l0 := fun hi => (h.cand b id ⟨l0, hlk, hi⟩).2.1 hid
          rw [Option.getD_some]
          exact ((h.lists b l0 hlk).2).append (List.nodup_singleton id)
            (List.disjoint_singleton.mpr hfresh)
      · rw [if_neg hbb] at hl
        exact h.lists b' l hl
    · intro b' j hj
      show j < (t.core.modify id _).replays.length ∧ _ ∧
        ((t.core.modify id _).get j).data[t.core.cl]? = _ ∧ ((t.core.modify id _).get j).matching = t.core.cl
      rw [Core.modify_length]
      rcases isCand_addCandidate.mp hj with hj | ⟨rfl, rfl⟩
      · obtain ⟨h1, h2, h3, h4⟩ := h.cand b' j hj
        have hne : j ≠ id := by
          rintro rfl
          exact h2 hid
        rw [Core.get_modify_ne hne]
        exact ⟨h1, fun hr => h2 (Finset.mem_of_mem_erase hr), h3, h4⟩
      · rw [Core.get_modify_self hid']
        exact ⟨hid', Finset.notMem_erase _ _, hb, max_eq_left (h.core.matching j)⟩

theorem fromQuorum_wf {ord : IterOrder} {c : Core} {reserve : Finset Nat} (h : c.WF)
    (hd : c.canon.delayed = c.cl) (hr : ∀ id ∈ reserve, id < c.replays.length) :
    (fromQuorum ord c reserve).WF := by
  refine foldl_evaluate (P := Stalemate.WF) (fun t id ht hid => evaluate_wf ht hid) _ _
    (ord.ids_nodup _) (fun id hid => (ord.mem_ids _ _).mp hid) ⟨h, hd, hr, ?_, ?_⟩
  · intro b l hl
    rw [Finmap.lookup_empty] at hl
    cases hl
  · intro b id hc
    exact absurd hc isCand_empty

theorem foldl_frame (l : List Nat) (t : Stalemate) :
    Core.Frame t.core (l.foldl evaluate t).core ∧
    (l.foldl evaluate t).core.canon = t.core.canon ∧
    (l.foldl evaluate t).core.started = t.core.started ∧ (l.foldl evaluate t).reserve ⊆ t.reserve := by
  induction l generalizing t with
  | nil => exact ⟨Core.Frame.refl _, rfl, rfl, Finset.Subset.refl _⟩
  | cons i l ih =>
    obtain ⟨h1, h2, h3, h4⟩ := ih (t.evaluate i)
    exact ⟨(evaluate_frame t i).trans h1, h2.trans (evaluate_canon t i).1,
      h3.trans (evaluate_canon t i).2, h4.trans (evaluate_reserve t i).2⟩

theorem fromQuorum_frame (ord : IterOrder) (c : Core) (reserve : Finset Nat) :
    Core.Frame c (fromQuorum ord c reserve).core ∧
    (fromQuorum ord c reserve).core.canon = c.canon ∧
    (fromQuorum ord c reserve).core.started = c.started ∧
    (fromQuorum ord c reserve).reserve ⊆ reserve :=
  foldl_frame (ord.ids reserve) ⟨c, ∅, reserve⟩

/-- what is still in the reserve after it was evaluated is short and not finished -/
theorem mem_evaluate_reserve {t : Stalemate} {id : Nat} (hm : (t.core.get id).matching ≤ t.core.cl)
    (h : id ∈ (t.evaluate id).reserve) :
    t.core.len id ≤ t.core.cl ∧ (t.core.get id).finished = false := by
  have hs := evaluate_spec hm
  revert hs h
  generalize t.evaluate id = u
  intro h hs
  revert h
  cases hs with
  | keep hlen hfin => exact fun _ => ⟨hlen, hfin⟩
  | short hlen hfin => exact fun h => absurd h (Finset.notMem_erase _ _)
  | diverged hlen hne => exact fun h => absurd h (Finset.notMem_erase _ _)
  | promoted b hlen hag hb => exact fun h => absurd h (Finset.notMem_erase _ _)

theorem fromQuorum_reserve {ord : IterOrder} {c : Core} {reserve : Finset Nat} (h : c.WF) {id : Nat}
    (hid : id ∈ (fromQuorum ord c reserve).reserve) :
    c.len id ≤ c.cl ∧ (c.get id).finished = false := by
  have key : ∀ (l : List Nat) (t : Stalemate), (∀ j, (t.core.get j).matching ≤ t.core.cl) →
      (∀ id ∈ t.reserve, id ∈ l ∨ (t.core.len id ≤ t.core.cl ∧ (t.core.get id).finished = false)) →
      ∀ id ∈ (l.foldl evaluate t).reserve,
        t.core.len id ≤ t.core.cl ∧ (t.core.get id).finished = false := by
    intro l
    induction l with
    | nil =>
      intro t _ ht id hid
      rcases ht id hid with h | h
      · exact absurd h List.not_mem_nil
      · exact h
    | cons i l ih =>
      intro t hm ht id hid
      have hf := evaluate_frame t i
      have hcl : (t.evaluate i).core.cl = t.core.cl := by
        unfold Core.cl
        rw [(evaluate_canon t i).1]
      have hm' : ∀ j, ((t.evaluate i).core.get j).matching ≤ (t.evaluate i).core.cl := by
        intro j
        rw [hcl]
        have hs := evaluate_spec (hm i)
        revert hs
        generalize t.evaluate i = u
        intro hs
        cases hs with
        | keep hlen hfin => exact hm j
        | short hlen hfin => exact hm j
        | diverged hlen hne => exact hm j
        | promoted b hlen hag hb =>
          exact Core.get_modify_of (P := fun r => r.matching ≤ t.core.cl) (hm j)
            (fun r hr => max_le le_rfl hr)
      have := ih (t.evaluate i) hm' (fun j hj => ?_) id hid
      · rw [hf.len, hcl, hf.finished] at this
        exact this
      · rw [hf.len, hcl, hf.finished]
        by_cases hji : j = i
        · subst hji
          exact Or.inr (mem_evaluate_reserve (hm j) hj)
        · rcases ht j ((evaluate_reserve t i).2 hj) with h' | h'
          · rcases List.mem_cons.mp h' with h' | h'
            · exact absurd h' hji
            · exact Or.inl h'
          · exact Or.inr h'
  exact key (ord.ids reserve) ⟨c, ∅, reserve⟩ h.matching
    (fun j hj => Or.inl ((ord.mem_ids _ _).mpr hj)) id hid

end Stalemate

/-! ## quorums -/

namespace Quorum

theorem update_base {q : Quorum} (h : q.Base) (ord : IterOrder) : (q.update ord).Base := by
  have hf := Core.frame_advance (c := q.core) (q.position ord)
  refine ⟨h.core.advance _, h.nonempty, ?_, h.disjoint, ?_, ?_⟩
  · show _ ≤ max 1 (q.core.advance _).target
    rw [hf.target]
    exact h.card
  · intro id hid
    show id < (q.core.advance _).replays.length ∧ (q.core.advance _).cl ≤ (q.core.advance _).len id
    rw [Core.advance_replays, Core.advance_cl, hf.len]
    exact h.members id hid
  · intro id hid
    show id < (q.core.advance _).replays.length
    rw [Core.advance_replays]
    exact h.reserve id hid

theorem update_wf {q : Quorum} (h : q.WF) (ord : IterOrder) : (q.update ord).WF := by
  refine ⟨update_base h.toBase ord, fun id hid => ?_⟩
  show ((q.core.advance _).get id).matching = (q.core.advance _).cl
  rw [Core.advance_get, Core.advance_cl]
  exact h.matched id hid

/-- the delayed position has caught up with the quorum -/
def CaughtUp (q : Quorum) : Prop :=
  ∀ k ≤ q.core.cl, (∀ id ∈ q.quorum, k ≤ (q.core.get id).delayed) → k ≤ q.core.canon.delayed

theorem update_caughtUp {q : Quorum} (hne : q.quorum.Nonempty) (ord : IterOrder) :
    (q.update ord).CaughtUp := by
  intro k hk hall
  change k ≤ (q.core.advance _).cl at hk
  change ∀ id ∈ q.quorum, k ≤ ((q.core.advance _).get id).delayed at hall
  show k ≤ (q.core.advance _).canon.delayed
  rw [Core.advance_cl] at hk
  have hp : k ≤ q.position ord := le_position ord hne (fun id hid => by
    have := hall id hid
    rwa [Core.advance_get] at this)
  rw [Core.advance_delayed]
  omega

/-- what a merge makes of a quorum -/
structure Merged (q : Quorum) (ord : IterOrder) (q' : Quorum) : Prop where
  quorum : q'.quorum = q.quorum
  reserve : q'.reserve = q.reserve
  data : q'.core.canon.data = (q.core.append (q.any ord) (q.commonPrefix ord)).canon.data
  cl : q'.core.cl = q.commonPrefix ord
  started : q'.core.started = q.core.started
  get : ∀ id, q'.core.get id = if id ∈ q.quorum then (q.core.get id).setMatching q'.core.cl
    else q.core.get id
  delayed : q'.core.canon.delayed = max q.core.canon.delayed (min (q.position ord) q'.core.cl)
  frame : Core.Frame q.core q'.core

theorem merge_spec {q : Quorum} (h : q.Base) (ord : IterOrder) : Merged q ord (q.merge ord) := by
  obtain ⟨h1, h2⟩ := commonPrefix_bounds ord h.nonempty (fun id hid => (h.members id hid).2)
  have hany := any_mem ord h.nonempty
  obtain ⟨c, hc⟩ : ∃ c, c = q.core.append (q.any ord) (q.commonPrefix ord) := ⟨_, rfl⟩
  have hcl : c.cl = q.commonPrefix ord := by
    rw [hc]
    exact Core.append_cl h1 (h2 _ hany)
  have hcf : Core.Frame q.core c := by
    rw [hc]
    exact Core.frame_append _
  obtain ⟨d, hd⟩ : ∃ d, d = c.setMatching (ord.ids q.quorum) := ⟨_, rfl⟩
  have hdf : Core.Frame c d := by
    rw [hd]
    exact Core.frame_setMatching _
  have hpos : ({ q with core := d } : Quorum).position ord = q.position ord := by
    have e : (fun id => (d.get id).delayed) = (fun id => (q.core.get id).delayed) := by
      funext id
      rw [hdf.delayed, hcf.delayed]
    unfold position
    show (((ord.ids q.quorum).map (fun id => (d.get id).delayed)).min?).getD 0 = _
    rw [e]
  have hm : q.merge ord = { q with core := d.advance (q.position ord) } := by
    rw [← hpos, hd, hc]
    rfl
  have hclm : (q.merge ord).core.cl = q.commonPrefix ord := by
    rw [hm]
    show (d.advance _).cl = _
    rw [Core.advance_cl, hd, Core.setMatching_cl, hcl]
  have haf := Core.frame_advance (c := d) (q.position ord)
  refine ⟨by rw [hm], by rw [hm], ?_, hclm, ?_, ?_, ?_, ?_⟩
  · rw [hm, ← hc]
    show (d.advance _).canon.data = _
    rw [Core.advance_data, hd, Core.setMatching_canon]
  · rw [hm]
    show (d.advance _).started = _
    rw [(Core.advance_rest _).2.2.1, hd, Core.setMatching_rest.2.2, hc]
    rfl
  · intro id
    rw [hclm, hm]
    show (d.advance _).get id = _
    rw [Core.advance_get, hd, Core.get_setMatching, hcl, hcf.length]
    have e : c.get id = q.core.get id := by
      rw [hc]
      rfl
    rw [e]
    by_cases hid : id ∈ q.quorum
    · rw [if_pos ⟨(ord.mem_ids _ _).mpr hid, (h.members id hid).1⟩, if_pos hid]
    · rw [if_neg (fun hh => hid ((ord.mem_ids _ _).mp hh.1)), if_neg hid]
  · rw [hclm, hm]
    show (d.advance _).canon.delayed = _
    rw [Core.advance_delayed, hd, Core.setMatching_canon, Core.setMatching_cl, hcl, hc]
    rfl
  · rw [hm]
    exact (hcf.trans hdf).trans haf

theorem merge_wf {q : Quorum} (h : q.Base) (ord : IterOrder) : (q.merge ord).WF := by
  obtain ⟨h1, h2⟩ := commonPrefix_bounds ord h.nonempty (fun id hid => (h.members id hid).2)
  have hany := any_mem ord h.nonempty
  have hcl := Core.append_cl h1 (h2 _ hany)
  obtain ⟨d, hd⟩ : ∃ d, d = (q.core.append (q.any ord) (q.commonPrefix ord)).setMatching
    (ord.ids q.quorum) := ⟨_, rfl⟩
  have hsf := Core.frame_setMatching (c := q.core.append (q.any ord) (q.commonPrefix ord))
    (ord.ids q.quorum)
  rw [← hd] at hsf
  have hdcl : d.cl = q.commonPrefix ord := by
    rw [hd, Core.setMatching_cl, hcl]
  have hbase : Base { q with core := d } := by
    refine ⟨?_, h.nonempty, ?_, h.disjoint, ?_, ?_⟩
    · show d.WF
      rw [hd]
      refine (h.core.append h1 (h2 _ hany)).setMatching (fun id hid => ?_)
      rw [hcl]
      exact h2 id ((ord.mem_ids _ _).mp hid)
    · show _ ≤ max 1 d.target
      rw [hsf.target]
      exact h.card
    · intro id hid
      show id < d.replays.length ∧ d.cl ≤ d.len id
      rw [hsf.length, hsf.len, hdcl]
      exact ⟨(h.members id hid).1, h2 id hid⟩
    · intro id hid
      show id < d.replays.length
      rw [hsf.length]
      exact h.reserve id hid
  have hs := merge_spec h ord
  have hb : (q.merge ord).Base := by
    have hm : q.merge ord = update { q with core := d } ord := by
      rw [hd]
      rfl
    rw [hm]
    exact update_base hbase ord
  refine ⟨hb, fun id hid => ?_⟩
  rw [hs.get, if_pos (by rw [← hs.quorum]; exact hid)]
  refine max_eq_left ?_
  rw [hs.cl]
  exact (h.core.matching id).trans h1

theorem merge_caughtUp {q : Quorum} (h : q.Base) (ord : IterOrder) : (q.merge ord).CaughtUp :=
  update_caughtUp (by exact h.nonempty) ord

end Quorum

/-! ## changing the state -/

/-- what resolves a stalemate -/
structure Resolved (t : Stalemate) (ord : IterOrder) : Prop where
  lookup : t.cand.lookup (t.bestByte ord) = some (t.good ord)
  most : ∀ b l, t.cand.lookup b = some l → l.length ≤ (t.good ord).length
  cand : ∀ id ∈ t.good ord, IsCand t.cand (t.bestByte ord) id
  cl : (t.advanced ord).cl = t.core.cl + 1
  data : (t.advanced ord).canon.data = t.core.canon.data ++ [t.bestByte ord]
  selected : Selected (t.advanced ord) (t.good ord) t.reserve (t.chosen ord)
  base : (t.chosen ord).Base

theorem resolved {t : Stalemate} (h : t.WF) (ord : IterOrder) (hne : t.cand.keys ≠ ∅) :
    Resolved t ord := by
  obtain ⟨hl, hmax⟩ := bestByte_spec ord hne
  obtain ⟨hgne, hgnd⟩ := h.lists _ _ hl
  have hcand : ∀ id ∈ t.good ord, IsCand t.cand (t.bestByte ord) id := fun id hid => ⟨_, hl, hid⟩
  have hlen : ∀ id ∈ t.good ord, t.core.cl < t.core.len id := fun id hid =>
    (List.getElem?_eq_some_iff.mp (h.cand _ id (hcand id hid)).2.2.1).1
  have hhead : (t.good ord).headD 0 ∈ t.good ord := by
    cases hg : t.good ord with
    | nil => exact absurd hg hgne
    | cons a l => exact List.mem_cons_self
  have hcl : (t.advanced ord).cl = t.core.cl + 1 :=
    Core.append_cl (Nat.le_succ _) (hlen _ hhead)
  have hdata : (t.advanced ord).canon.data = t.core.canon.data ++ [t.bestByte ord] := by
    show t.core.canon.data ++ ((t.core.get _).data.drop t.core.cl).take (t.core.cl + 1 - t.core.cl) = _
    rw [Nat.add_sub_cancel_left, List.take_one, List.head?_drop,
      (h.cand _ _ (hcand _ hhead)).2.2.1]
    rfl
  have hawf : (t.advanced ord).WF := h.core.append (Nat.le_succ _) (hlen _ hhead)
  have hsel : Selected (t.advanced ord) (t.good ord) t.reserve (t.chosen ord) :=
    select_spec hgne hgnd (fun id hid => (h.cand _ id (hcand id hid)).2.1)
  refine ⟨hl, hmax, hcand, hcl, hdata, hsel, ?_⟩
  refine ⟨by rw [hsel.core]; exact hawf, hsel.nonempty, ?_, hsel.disjoint, ?_, ?_⟩
  · rw [hsel.card, hsel.core]
    exact min_le_right _ _
  · intro id hid
    have hg := hsel.mem id hid
    rw [hsel.core, hcl]
    exact ⟨(h.cand _ id (hcand id hg)).1, hlen id hg⟩
  · intro id hid
    rw [hsel.core]
    rcases (hsel.all id).mp (Or.inr hid) with hg | hr
    · exact (h.cand _ id (hcand id hg)).1
    · exact h.reserve id hr

theorem Stalemate.exit_wf {t : Stalemate} (h : t.WF) (ord : IterOrder) (hne : t.cand.keys ≠ ∅) :
    (t.exit ord).WF :=
  Quorum.merge_wf (resolved h ord hne).base ord

theorem Stalemate.exit_frame {t : Stalemate} (h : t.WF) (ord : IterOrder) (hne : t.cand.keys ≠ ∅) :
    Core.Frame t.core (t.exit ord).core ∧ (t.exit ord).core.started = t.core.started := by
  have hr := resolved h ord hne
  have hm := Quorum.merge_spec hr.base ord
  have hf : Core.Frame t.core (t.chosen ord).core := by
    rw [hr.selected.core]
    exact Core.frame_append _
  refine ⟨hf.trans hm.frame, hm.started.trans ?_⟩
  rw [hr.selected.core]
  rfl

namespace State

/-- the ids in one of the sets -/
def Tracked (m : State) (id : Nat) : Prop :=
  match m with
  | .quorum q => id ∈ q.quorum ∨ id ∈ q.reserve
  | .stalemate t => id ∈ t.reserve ∨ ∃ b, IsCand t.cand b id

theorem change_wf {m : State} (h : m.WF) {ord : IterOrder} (hc : m.shouldChange ord = true) :
    (m.change ord).WF := by
  cases m with
  | quorum q =>
    have hq : q.WF := h
    have hd : q.core.canon.delayed = q.core.cl :=
      le_antisymm hq.core.delayed (of_decide_eq_true hc)
    refine Stalemate.fromQuorum_wf hq.core hd (fun id hid => ?_)
    rcases Finset.mem_union.mp hid with hid | hid
    · exact hq.reserve id hid
    · exact (hq.members id hid).1
  | stalemate t =>
    exact Stalemate.exit_wf h ord (canExit_iff.mp hc).2.1

theorem change_frame {m : State} (h : m.WF) {ord : IterOrder} (hc : m.shouldChange ord = true) :
    Core.Frame m.core (m.change ord).core ∧ (m.change ord).core.started = m.core.started := by
  cases m with
  | quorum q =>
    obtain ⟨h1, _, h2, _⟩ := Stalemate.fromQuorum_frame ord q.core (q.reserve ∪ q.quorum)
    exact ⟨h1, h2⟩
  | stalemate t => exact Stalemate.exit_frame h ord (canExit_iff.mp hc).2.1

/-- two for every byte that the canonical data can still grow, and one for a quorum -/
def rank (m : State) : Nat :=
  2 * (m.core.longest - m.core.cl) + (match m with | .quorum _ => 1 | .stalemate _ => 0)

theorem change_rank {m : State} (h : m.WF) {ord : IterOrder} (hc : m.shouldChange ord = true) :
    (m.change ord).rank < m.rank := by
  have hf := (change_frame h hc).1
  have hlong := hf.longest
  unfold rank
  rw [hlong]
  cases m with
  | quorum q =>
    have hcl : (Stalemate.fromQuorum ord q.core (q.reserve ∪ q.quorum)).core.cl = q.core.cl := by
      unfold Core.cl
      rw [(Stalemate.fromQuorum_frame ord q.core (q.reserve ∪ q.quorum)).2.1]
    show 2 * (q.core.longest - (Stalemate.fromQuorum ord q.core (q.reserve ∪ q.quorum)).core.cl) + 0 <
      2 * (q.core.longest - q.core.cl) + 1
    rw [hcl]
    omega
  | stalemate t =>
    have hr := resolved h ord (canExit_iff.mp hc).2.1
    have hm := Quorum.merge_spec hr.base ord
    have hw := Quorum.merge_wf hr.base ord
    obtain ⟨id, hid⟩ := hw.nonempty
    have h1 : (t.exit ord).core.cl ≤ t.core.longest := by
      have := (hw.members id hid).2.trans (Core.len_le_longest _ id)
      rwa [show ((t.chosen ord).merge ord).core.longest = t.core.longest from hlong] at this
    have h2 : t.core.cl + 1 ≤ (t.exit ord).core.cl := by
      have := hm.frame.cl
      rwa [hr.selected.core, hr.cl] at this
    show 2 * (t.core.longest - (t.exit ord).core.cl) + 1 < 2 * (t.core.longest - t.core.cl) + 0
    omega

theorem rank_lt_fuel (m : State) : m.rank < m.fuel := by
  unfold rank fuel
  cases m with
  | quorum q => exact Nat.lt_succ_self _
  | stalemate t => show 2 * _ + 0 < 2 * _ + 2; omega

/-- what every pass of the loop keeps, the loop keeps -/
theorem work_induct {P : State → Prop} {ords : Nat → IterOrder}
    (hP : ∀ m ord, P m → m.shouldChange ord = true → P (m.change ord)) (fuel : Nat) {m : State}
    (h : P m) : P (m.work ords fuel) := by
  induction fuel generalizing m with
  | zero => exact h
  | succ fuel ih =>
    unfold work
    split
    · rename_i hc
      exact ih (hP m _ h hc)
    · exact h

theorem work_frame {m : State} (h : m.WF) (ords : Nat → IterOrder) (fuel : Nat) :
    Core.Frame m.core (m.work ords fuel).core ∧
      (m.work ords fuel).core.started = m.core.started := by
  have hstep : ∀ (m' : State) (ord : IterOrder),
      (m'.WF ∧ Core.Frame m.core m'.core ∧ m'.core.started = m.core.started) →
      m'.shouldChange ord = true → ((m'.change ord).WF ∧ Core.Frame m.core (m'.change ord).core ∧
        (m'.change ord).core.started = m.core.started) := by
    rintro m' ord ⟨h1, h2, h3⟩ hc
    obtain ⟨h4, h5⟩ := change_frame h1 hc
    exact ⟨change_wf h1 hc, h2.trans h4, h5.trans h3⟩
  exact (work_induct hstep fuel ⟨h, Core.Frame.refl _, rfl⟩).2

/-- whether the state should change does not depend on the order of an iteration -/
theorem shouldChange_ord (m : State) (ord ord' : IterOrder) :
    m.shouldChange ord = m.shouldChange ord' := by
  cases m with
  | quorum q => rfl
  | stalemate t =>
    rw [Bool.eq_iff_iff]
    exact canExit_iff.trans canExit_iff.symm

def Stable (m : State) : Prop := ∀ ord, m.shouldChange ord = false

theorem work_stable {m : State} (h : m.WF) (ords : Nat → IterOrder) (fuel : Nat)
    (hf : m.rank ≤ fuel) : (m.work ords fuel).Stable := by
  induction fuel generalizing m with
  | zero =>
    intro ord
    by_contra hc
    have hr : (m.change ord).rank < m.rank := change_rank h (by simpa [State.work] using hc)
    omega
  | succ fuel ih =>
    unfold work
    split
    · rename_i hc
      have := change_rank h hc
      exact ih (change_wf h hc) (by omega)
    · rename_i hc
      intro ord
      rw [shouldChange_ord m ord (ords (fuel + 1))]
      simpa using hc

/-- **the loop ends within its fuel** -/
theorem settle_stable {m : State} (h : m.WF) (ords : Nat → IterOrder) : (m.settle ords).Stable :=
  work_stable h ords m.fuel (rank_lt_fuel m).le

end State

/-! ## what is tracked -/

namespace State

@[simp] theorem tracked_quorum {q : Quorum} {id : Nat} :
    (State.quorum q).Tracked id ↔ id ∈ q.quorum ∨ id ∈ q.reserve := Iff.rfl

@[simp] theorem tracked_stalemate {t : Stalemate} {id : Nat} :
    (State.stalemate t).Tracked id ↔ id ∈ t.reserve ∨ ∃ b, IsCand t.cand b id := Iff.rfl

theorem tracked_mapCore {m : State} {f : Core → Core} {id : Nat} :
    (m.mapCore f).Tracked id ↔ m.Tracked id := by
  cases m <;> exact Iff.rfl

theorem tracked_addReplay {m : State} {id : Nat} :
    m.addReplay.Tracked id ↔ id = m.core.replays.length ∨ m.Tracked id := by
  cases m with
  | quorum q =>
    show id ∈ q.quorum ∨ id ∈ insert q.core.replays.length q.reserve ↔ _
    rw [Finset.mem_insert, tracked_quorum]
    exact or_left_comm
  | stalemate t =>
    show id ∈ insert t.core.replays.length t.reserve ∨ _ ↔ _
    rw [Finset.mem_insert, tracked_stalemate, or_assoc]
    rfl

theorem tracked_enter {q : Quorum} {id : Nat} :
    (State.stalemate ⟨q.core, ∅, q.reserve ∪ q.quorum⟩).Tracked id ↔ (State.quorum q).Tracked id := by
  rw [tracked_stalemate, tracked_quorum, Finset.mem_union]
  constructor
  · rintro (h | ⟨b, h⟩)
    · exact h.symm
    · exact absurd h isCand_empty
  · exact fun h => Or.inl h.symm

theorem tracked_lt {m : State} (h : m.WF) {id : Nat} (ht : m.Tracked id) :
    id < m.core.replays.length := by
  cases m with
  | quorum q =>
    have hq : q.WF := h
    rcases ht with ht | ht
    · exact (hq.members id ht).1
    · exact hq.reserve id ht
  | stalemate t =>
    have hst : t.WF := h
    rcases ht with ht | ⟨b, ht⟩
    · exact hst.reserve id ht
    · exact (hst.cand b id ht).1

end State

end Merge

end ReplayServer
