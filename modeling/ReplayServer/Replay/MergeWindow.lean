import ReplayServer.Replay.MergeDropped

/-!
# replay: the abstract model, what a limited comparison still guarantees

A replay is compared with the last `dist` canonical bytes only.  Nothing else is known of it; but
`Window` says that the comparisons of a tracked replay join up.

* `micro_cases`       a small step is quiet, evaluates a replay or resolves a stalemate;
* `exit_source`       the bytes that resolve a stalemate come from one member of the quorum;
* `Micros.windows`    if all merges are exact: `Window`, and every canonical byte has a replay that
                      agrees with the `dist` bytes before it (`Sources`), and so has the end
                      (`Ends`).
-/

set_option linter.unusedSectionVars false

namespace ReplayServer
namespace Merge
open Agree Relation

variable {joins : State → Prop} {exits : Stalemate → IterOrder → Prop}

/-! ## quiet steps -/

structure Quiet (m m' : State) : Prop where
  data : m'.core.canon.data = m.core.canon.data
  matching : ∀ id, (m'.core.get id).matching = (m.core.get id).matching
  tracked : ∀ id, m.Tracked id → m'.Tracked id

theorem quiet_modify (m : State) (id : Nat) {f : Replay → Replay} (hf : Grows f) :
    Quiet m (m.modify id f) := by
  refine ⟨?_, fun j => ?_, fun j hj => State.tracked_mapCore.mpr hj⟩
  · rw [modify_core]
    rfl
  · rw [modify_core]
    exact Core.matching_modify hf

theorem quiet_mapCore (m : State) {f : Core → Core}
    (hf : ∀ c, ∃ h e fin, f c =
      { c with canon := { c.canon with header := h, event := e, finished := fin } }) :
    Quiet m (m.mapCore f) := by
  obtain ⟨x, e, fin, he⟩ := hf m.core
  refine ⟨?_, fun j => ?_, fun j hj => State.tracked_mapCore.mpr hj⟩
  · rw [mapCore_core, he]
  · rw [mapCore_core, he]
    rfl

theorem Quiet.trans {m m' m'' : State} (h : Quiet m m') (h' : Quiet m' m'') : Quiet m m'' :=
  ⟨h'.data.trans h.data, fun id => (h'.matching id).trans (h.matching id),
    fun id hid => h'.tracked id (h.tracked id hid)⟩

/-- **the three kinds of small steps** -/
theorem micro_cases {m m' : State} (hs : Micro joins exits m m') :
    Quiet m m' ∨
      (∃ t id, m = .stalemate t ∧ id ∈ t.reserve ∧ m' = .stalemate (t.evaluate id)) ∨
      ∃ t ord, m = .stalemate t ∧ t.canExit ord = true ∧ exits t ord ∧ m' = .quorum (t.exit ord) := by
  cases hs with
  | added _ hj hf =>
    refine Or.inl ⟨by rw [addReplay_core], fun j => ?_, fun j hj => ?_⟩
    · rw [addReplay_core, Core.get_addReplay]
    · exact State.tracked_addReplay.mpr (Or.inr hj)
  | header _ i x hl hh =>
    exact Or.inl ((quiet_modify m i (grows_header x)).trans
      (quiet_mapCore _ (fun c => addHeader_eq c x)))
  | data _ i buf hl hh => exact Or.inl (quiet_modify m i (grows_data buf))
  | delayed _ i n hl h1 h2 => exact Or.inl (quiet_modify m i (grows_delayed n))
  | ended _ i hl hd => exact Or.inl (quiet_modify m i grows_finished)
  | evaluate t i hir => exact Or.inr (Or.inl ⟨t, i, rfl, hir, rfl⟩)
  | started t i hd => exact Or.inl ⟨rfl, fun _ => rfl, fun _ h => h⟩
  | update q ord =>
    refine Or.inl ⟨?_, fun j => ?_, fun _ h => h⟩
    · exact Core.advance_data (q.position ord)
    · show ((q.core.advance _).get j).matching = (q.core.get j).matching
      rw [Core.advance_get]
  | enter q hd => exact Or.inl ⟨rfl, fun _ => rfl, fun j hj => State.tracked_enter.mpr hj⟩
  | exit t ord hc hx => exact Or.inr (Or.inr ⟨t, ord, rfl, hc, hx, rfl⟩)
  | finish _ hall => exact Or.inl (quiet_mapCore m finishCanon_eq)

theorem agree_evolves {c c' : Core} (h : Evolves c c') {id a b : Nat} (hb : b ≤ c.cl)
    (hl : b ≤ c.len id) (hag : AgreeOn (c.get id).data c.canon.data a b) :
    AgreeOn (c'.get id).data c'.canon.data a b :=
  hag.grow (h.data id) h.grow hl hb

/-! ## resolving a stalemate -/

section
variable {t : Stalemate} (h : t.WF) {ord : IterOrder} (hc : t.canExit ord = true)
include h hc

theorem exit_cl : t.core.cl < (t.exit ord).core.cl := by
  have hr := resolved h ord (canExit_iff.mp hc).2.1
  have hm := (Quorum.merge_spec hr.base ord).frame.cl
  rwa [hr.selected.core, hr.cl] at hm

/-- the members of the new quorum were candidates for the byte that resolves the stalemate -/
theorem exit_member {id : Nat} (hid : id ∈ (t.exit ord).quorum) :
    IsCand t.cand (t.bestByte ord) id := by
  have hr := resolved h ord (canExit_iff.mp hc).2.1
  have hm := Quorum.merge_spec hr.base ord
  refine hr.cand id (hr.selected.mem id ?_)
  rw [← hm.quorum]
  exact hid

theorem exit_byte {id : Nat} (hid : id ∈ (t.exit ord).quorum) :
    (t.core.get id).data[t.core.cl]? = (t.exit ord).core.canon.data[t.core.cl]? := by
  have hr := resolved h ord (canExit_iff.mp hc).2.1
  have hm := Quorum.merge_spec hr.base ord
  rw [(h.cand _ id (exit_member h hc hid)).2.2.1]
  have hgrow := hm.frame.grow
  rw [hr.selected.core, hr.data] at hgrow
  have hlt : t.core.cl < (t.core.canon.data ++ [t.bestByte ord]).length := by
    rw [List.length_append]
    exact Nat.lt_succ_self _
  rw [show (t.exit ord).core.canon.data[t.core.cl]? = _ from getElem?_of_isPrefix hgrow hlt]
  exact List.getElem?_concat_length.symm

/-- agreement behind the byte that resolves the stalemate is agreement from it on -/
theorem exit_join {id : Nat} (hid : id ∈ (t.exit ord).quorum)
    (hag : AgreeOn (t.core.get id).data (t.exit ord).core.canon.data (t.core.cl + 1)
      (t.exit ord).core.cl) :
    AgreeOn (t.core.get id).data (t.exit ord).core.canon.data t.core.cl (t.exit ord).core.cl := by
  intro i hi hi'
  by_cases he : i = t.core.cl
  · rw [he]
    exact exit_byte h hc hid
  · exact hag i (by omega) hi'

theorem exit_data (id : Nat) : ((t.exit ord).core.get id).data = (t.core.get id).data :=
  (Stalemate.exit_frame h ord (canExit_iff.mp hc).2.1).1.data id

/-- the new bytes are those of one member -/
theorem exit_source : ∃ id ∈ (t.exit ord).quorum, AgreeOn (t.core.get id).data
    (t.exit ord).core.canon.data t.core.cl (t.exit ord).core.cl := by
  have hr := resolved h ord (canExit_iff.mp hc).2.1
  have hm := Quorum.merge_spec hr.base ord
  have hany := any_mem ord hr.base.nonempty
  have hid : (t.chosen ord).any ord ∈ (t.exit ord).quorum := by
    rw [show (t.exit ord).quorum = _ from hm.quorum]
    exact hany
  refine ⟨_, hid, exit_join h hc hid ?_⟩
  have hs := Quorum.merge_source ord hr.base
  rw [hr.selected.core] at hs
  rw [← hr.cl]
  exact hs

/-- the new bytes are those of every member, if the merge is exact -/
theorem exit_common (hx : (t.chosen ord).Exact ord) {id : Nat} (hid : id ∈ (t.exit ord).quorum) :
    AgreeOn (t.core.get id).data (t.exit ord).core.canon.data t.core.cl (t.exit ord).core.cl := by
  have hr := resolved h ord (canExit_iff.mp hc).2.1
  have hm := Quorum.merge_spec hr.base ord
  refine exit_join h hc hid ?_
  have hid' : id ∈ (t.chosen ord).quorum := by
    rw [← hm.quorum]
    exact hid
  have hs := Quorum.merge_common ord hr.base hx hid'
  rw [hr.selected.core] at hs
  rw [← hr.cl]
  exact hs

theorem exit_matching (id : Nat) : ((t.exit ord).core.get id).matching =
    if id ∈ (t.exit ord).quorum then (t.exit ord).core.cl else (t.core.get id).matching := by
  have hr := resolved h ord (canExit_iff.mp hc).2.1
  have hm := Quorum.merge_spec hr.base ord
  by_cases hid : id ∈ (t.exit ord).quorum
  · rw [if_pos hid]
    exact (Quorum.merge_wf hr.base ord).matched id hid
  · rw [if_neg hid]
    have hid' : id ∉ (t.chosen ord).quorum := by
      rw [← hm.quorum]
      exact hid
    have hg := hm.get id
    rw [if_neg hid', hr.selected.core] at hg
    exact congrArg Replay.matching hg

end

/-! ## windows -/

/-- a stalemate that is resolved by an exact merge -/
def ExactExit (t : Stalemate) (ord : IterOrder) : Prop := (t.chosen ord).Exact ord

/-- a tracked replay agrees with the canonical data in the window before its matching position -/
def Window (m : State) : Prop := ∀ id, m.Tracked id → AgreeOn (m.core.get id).data
  m.core.canon.data ((m.core.get id).matching - m.core.dist) (m.core.get id).matching

/-- a comparison from the matching position or the last window on extends the window -/
theorem window_join {c : Core} {r : Replay} (hm : r.matching ≤ c.cl)
    (hw : AgreeOn r.data c.canon.data (r.matching - c.dist) r.matching)
    (hag : AgreeOn r.data c.canon.data (c.matchStart r) c.cl) :
    AgreeOn r.data c.canon.data (c.cl - c.dist) c.cl := by
  unfold Core.matchStart at hag
  by_cases hle : c.cl - c.dist ≤ r.matching
  · rw [max_eq_left hle] at hag
    exact (hw.join hag le_rfl).mono (by omega) le_rfl
  · rw [max_eq_right (by omega)] at hag
    exact hag

/-- a member of the quorum that resolves a stalemate agrees with all of the last window -/
theorem exit_window {t : Stalemate} (h : t.WF) {ord : IterOrder} (hc : t.canExit ord = true)
    (hw : Window (.stalemate t)) (hx : ExactExit t ord) {id : Nat}
    (hid : id ∈ (t.exit ord).quorum) :
    AgreeOn (t.core.get id).data (t.exit ord).core.canon.data (t.core.cl - t.core.dist)
      (t.exit ord).core.cl := by
  have hcand := exit_member h hc hid
  obtain ⟨_, _, h3, h4⟩ := h.cand _ id hcand
  have hlen := (List.getElem?_eq_some_iff.mp h3).1
  have hwin := hw id (Or.inr ⟨_, hcand⟩)
  change AgreeOn (t.core.get id).data t.core.canon.data ((t.core.get id).matching - t.core.dist)
    (t.core.get id).matching at hwin
  rw [h4] at hwin
  have hgrow := (evolves_exit h hc).grow
  exact (hwin.grow (List.prefix_refl _) hgrow hlen.le le_rfl).join (exit_common h hc hx hid) le_rfl

theorem micro_window {m m' : State} (hwf : m.WF) (h : Window m)
    (hs : Micro joins ExactExit m m') : Window m' := by
  have hev := micro_evolves hwf hs
  rcases micro_cases hs with hq | ⟨t, i, rfl, hi, rfl⟩ | ⟨t, ord, rfl, hc, hx, rfl⟩
  · intro id hid
    rw [hev.dist, hq.matching]
    by_cases hlt : id < m.core.replays.length
    · exact agree_evolves hev (hwf.core.matching id) (hwf.core.reached id)
        (h id (micro_tracked hwf hs hlt hid))
    · rw [Core.get_of_ge (not_lt.mp hlt : m.core.replays.length ≤ id)]
      exact AgreeOn.of_le (Nat.zero_le _)
  · have ht : t.WF := hwf
    intro id hid
    have hlt : id < t.core.replays.length := by
      have := State.tracked_lt (micro_wf hwf hs) hid
      rwa [show (State.stalemate (t.evaluate i)).core.replays.length = _ from
        (evaluate_frame t i).length] at this
    have hold := h id (micro_tracked hwf hs hlt hid)
    have hspec := evaluate_spec (ht.core.matching i)
    clear hev hs hid
    revert hspec
    generalize t.evaluate i = u
    intro hspec
    cases hspec with
    | keep hlen hfin => exact hold
    | short hlen hfin => exact hold
    | diverged hlen hne => exact hold
    | promoted b hlen hag hb =>
      show AgreeOn ((t.core.modify i _).get id).data t.core.canon.data
        (((t.core.modify i _).get id).matching - t.core.dist) ((t.core.modify i _).get id).matching
      by_cases hii : id = i
      · subst hii
        rw [Core.get_modify_self hlt]
        show AgreeOn (t.core.get id).data t.core.canon.data
          (max t.core.cl (t.core.get id).matching - t.core.dist) (max t.core.cl (t.core.get id).matching)
        rw [max_eq_left (ht.core.matching id)]
        exact window_join (ht.core.matching id) hold hag
      · rw [Core.get_modify_ne hii]
        exact hold
  · have ht : t.WF := hwf
    intro id hid
    have hlt : id < t.core.replays.length := by
      have := State.tracked_lt (micro_wf hwf hs) hid
      rwa [show (State.quorum (t.exit ord)).core.replays.length = _ from
        (Stalemate.exit_frame ht ord (canExit_iff.mp hc).2.1).1.length] at this
    have hold := h id (micro_tracked hwf hs hlt hid)
    show AgreeOn ((t.exit ord).core.get id).data (t.exit ord).core.canon.data
      (((t.exit ord).core.get id).matching - (t.exit ord).core.dist) ((t.exit ord).core.get id).matching
    rw [exit_matching ht hc, show (t.exit ord).core.dist = t.core.dist from hev.dist]
    by_cases hq : id ∈ (t.exit ord).quorum
    · rw [if_pos hq, exit_data ht hc]
      have hcl := exit_cl ht hc
      refine (exit_window ht hc h hx hq).mono ?_ le_rfl
      show t.core.cl - t.core.dist ≤ (t.exit ord).core.cl - t.core.dist
      omega
    · rw [if_neg hq]
      exact agree_evolves hev (ht.core.matching id) (ht.core.reached id) hold

/-! ## sources and ends -/

/-- every canonical byte has a replay that agrees with it and with the window before it -/
def Sources (m : State) : Prop := ∀ p < m.core.cl, ∃ id, p < m.core.len id ∧
  AgreeOn (m.core.get id).data m.core.canon.data (p - m.core.dist) (p + 1)

theorem micro_sources {m m' : State} (hwf : m.WF) (hw : Window m) (h : Sources m)
    (hs : Micro joins ExactExit m m') : Sources m' := by
  have hev := micro_evolves hwf hs
  have hold : ∀ p < m.core.cl, ∃ id, p < m'.core.len id ∧
      AgreeOn (m'.core.get id).data m'.core.canon.data (p - m'.core.dist) (p + 1) := by
    intro p hp
    obtain ⟨id, h1, h2⟩ := h p hp
    rw [hev.dist]
    exact ⟨id, lt_of_lt_of_le h1 (hev.len id), agree_evolves hev hp h1 h2⟩
  rcases micro_cases hs with hq | ⟨t, i, rfl, hi, rfl⟩ | ⟨t, ord, rfl, hc, hx, rfl⟩
  · intro p hp
    refine hold p ?_
    unfold Core.cl at hp ⊢
    rwa [hq.data] at hp
  · intro p hp
    refine hold p ?_
    change p < (t.evaluate i).core.canon.data.length at hp
    rw [(evaluate_canon t i).1] at hp
    exact hp
  · have ht : t.WF := hwf
    intro p hp
    by_cases hlt : p < t.core.cl
    · exact hold p hlt
    · have hw' := (Quorum.merge_wf (resolved ht ord (canExit_iff.mp hc).2.1).base ord)
      obtain ⟨id, hid⟩ := hw'.nonempty
      have hid' : id ∈ (t.exit ord).quorum := hid
      refine ⟨id, lt_of_lt_of_le hp (hw'.members id hid).2, ?_⟩
      show AgreeOn ((t.exit ord).core.get id).data _ _ _
      rw [exit_data ht hc, show (State.quorum (t.exit ord)).core.dist = t.core.dist from hev.dist]
      refine (exit_window ht hc hw hx hid').mono ?_ hp
      show t.core.cl - t.core.dist ≤ p - t.core.dist
      omega

/-- some replay agrees with the last window, and either goes on or ends there -/
def Ends (m : State) : Prop := 0 < m.core.cl → ∃ id,
  AgreeOn (m.core.get id).data m.core.canon.data (m.core.cl - m.core.dist) m.core.cl ∧
  ((m.Tracked id ∧ (m.core.get id).matching = m.core.cl) ∨
    ((m.core.get id).finished = true ∧ m.core.len id = m.core.cl))

/-- an evaluation only drops a replay that ends, or has another byte before it -/
theorem ends_evaluate {t : Stalemate} (ht : t.WF) {i : Nat} (hi : i ∈ t.reserve)
    (h : Ends (.stalemate t)) : Ends (.stalemate (t.evaluate i)) := by
  have hframe := evaluate_frame t i
  have hcl : (t.evaluate i).core.cl = t.core.cl := by
    unfold Core.cl
    rw [(evaluate_canon t i).1]
  have hcan := (evaluate_canon t i).1
  intro hpos
  change 0 < (t.evaluate i).core.cl at hpos
  rw [hcl] at hpos
  obtain ⟨id, hag, hor⟩ := h hpos
  refine ⟨id, ?_, ?_⟩
  · show AgreeOn ((t.evaluate i).core.get id).data (t.evaluate i).core.canon.data
      ((t.evaluate i).core.cl - (t.evaluate i).core.dist) (t.evaluate i).core.cl
    rw [hcl, hcan, hframe.data, hframe.dist]
    exact hag
  · show ((State.stalemate (t.evaluate i)).Tracked id ∧
        ((t.evaluate i).core.get id).matching = (t.evaluate i).core.cl) ∨
      (((t.evaluate i).core.get id).finished = true ∧ (t.evaluate i).core.len id = (t.evaluate i).core.cl)
    rw [hcl, hframe.finished, hframe.len]
    rcases hor with ⟨htr, hm⟩ | hfl
    · change (t.core.get id).matching = t.core.cl at hm
      have hlen : t.core.cl ≤ t.core.len id := by
        rw [← hm]
        exact ht.core.reached id
      have hmat : ((t.evaluate i).core.get id).matching = t.core.cl := by
        refine le_antisymm ?_ (hm.ge.trans (hframe.matching id))
        rw [← hcl]
        exact (Stalemate.evaluate_wf ht hi).core.matching id
      by_cases hii : id = i
      · subst hii
        have hspec := evaluate_spec (ht.core.matching id)
        clear hframe hcl hcan
        revert hmat hspec
        generalize t.evaluate id = u
        intro hmat hspec
        cases hspec with
        | keep hl hfin => exact Or.inl ⟨Or.inl hi, hmat⟩
        | short hl hfin => exact Or.inr ⟨hfin, le_antisymm hl hlen⟩
        | diverged hl hne =>
          refine absurd (AgreeOn.of_le ?_) hne
          unfold Core.matchStart
          omega
        | promoted b hl hag' hb =>
          exact Or.inl ⟨Or.inr ⟨b, isCand_addCandidate.mpr (Or.inr ⟨rfl, rfl⟩)⟩, hmat⟩
      · refine Or.inl ⟨?_, hmat⟩
        rcases htr with hr | ⟨b, hb⟩
        · exact Or.inl ((evaluate_reserve t i).1 (Finset.mem_erase.mpr ⟨hii, hr⟩))
        · exact Or.inr ⟨b, evaluate_cand t i hb⟩
    · exact Or.inr hfl

/-- the replays that were chosen reach the new end -/
theorem ends_exit {t : Stalemate} (ht : t.WF) {ord : IterOrder} (hc : t.canExit ord = true)
    (hw' : Window (.quorum (t.exit ord))) : Ends (.quorum (t.exit ord)) := by
  intro _
  have hq := (Quorum.merge_wf (resolved ht ord (canExit_iff.mp hc).2.1).base ord)
  obtain ⟨id, hid⟩ := hq.nonempty
  have hid' : id ∈ (t.exit ord).quorum := hid
  have hmat : ((t.exit ord).core.get id).matching = (t.exit ord).core.cl := hq.matched id hid
  have hwin := hw' id (Or.inl hid')
  change AgreeOn ((t.exit ord).core.get id).data (t.exit ord).core.canon.data
    (((t.exit ord).core.get id).matching - (t.exit ord).core.dist)
    ((t.exit ord).core.get id).matching at hwin
  rw [hmat] at hwin
  exact ⟨id, hwin, Or.inl ⟨Or.inl hid', hmat⟩⟩

theorem micro_ends {m m' : State} (hwf : m.WF) (hw : Window m) (h : Ends m)
    (hs : Micro joins ExactExit m m') : Ends m' := by
  have hev := micro_evolves hwf hs
  rcases micro_cases hs with hq | ⟨t, i, rfl, hi, rfl⟩ | ⟨t, ord, rfl, hc, hx, rfl⟩
  · have hcl : m'.core.cl = m.core.cl := by
      unfold Core.cl
      rw [hq.data]
    intro hpos
    rw [hcl] at hpos ⊢
    obtain ⟨id, hag, hor⟩ := h hpos
    have hlen : m.core.cl ≤ m.core.len id := by
      rcases hor with ⟨_, hm⟩ | ⟨_, hl⟩
      · rw [← hm]
        exact hwf.core.reached id
      · exact hl.ge
    refine ⟨id, ?_, ?_⟩
    · rw [hev.dist]
      exact agree_evolves hev le_rfl hlen hag
    · rcases hor with ⟨ht, hm⟩ | ⟨hf, hl⟩
      · exact Or.inl ⟨hq.tracked id ht, (hq.matching id).trans hm⟩
      · obtain ⟨h1, h2⟩ := hev.finished id hf
        refine Or.inr ⟨h1, ?_⟩
        unfold Core.len at hl ⊢
        rw [h2]
        exact hl
  · exact ends_evaluate hwf hi h
  · exact ends_exit hwf hc (micro_window hwf hw hs)

/-- **exact merges keep the windows together** -/
theorem Micros.windows {m m' : State} (hs : Micros joins ExactExit m m') (hwf : m.WF)
    (h : Window m ∧ Sources m ∧ Ends m) : Window m' ∧ Sources m' ∧ Ends m' :=
  Micros.invariant (P := fun m => Window m ∧ Sources m ∧ Ends m) hs (fun _ _ hwf h hst =>
    ⟨micro_window hwf h.1 hst, micro_sources hwf h.1 h.2.1 hst, micro_ends hwf h.1 h.2.2 hst⟩) hwf h

theorem new_windows (target dist : Nat) : Window (State.new target dist) ∧
    Sources (State.new target dist) ∧ Ends (State.new target dist) := by
  refine ⟨fun id hid => AgreeOn.of_le (Nat.zero_le _), fun p hp => absurd hp (Nat.not_lt_zero _),
    fun hp => absurd hp (Nat.lt_irrefl 0)⟩

/-- with at most two members every merge is exact -/
theorem exactExit_of_target {t : Stalemate} (h : t.WF) {ord : IterOrder}
    (hc : t.canExit ord = true) (ht : t.core.target ≤ 2) : ExactExit t ord := by
  have hr := resolved h ord (canExit_iff.mp hc).2.1
  refine Quorum.exact_of_card_le_two ord hr.base ?_
  rw [hr.selected.card]
  exact (min_le_right _ _).trans (max_le (by decide) ht)

theorem passes_of_target {m : State} (h : m.WF) (ht : m.core.target ≤ 2) (ords : Nat → IterOrder)
    (fuel : Nat) : Passes ExactExit ords fuel m := by
  induction fuel generalizing m with
  | zero => trivial
  | succ fuel ih =>
    intro hc
    refine ⟨?_, ih (State.change_wf h hc) ?_⟩
    · rintro t rfl
      exact exactExit_of_target h hc ht
    · rw [(State.change_frame h hc).1.target]
      exact ht

end Merge

end ReplayServer
