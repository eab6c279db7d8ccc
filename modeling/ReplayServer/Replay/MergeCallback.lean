import ReplayServer.Replay.MergeRun

/-!
# replay: the abstract model, what holds between callbacks

`State.Inv` holds between the callbacks of a run that follows the protocol.

* `State.step_inv`       every allowed action keeps it;
* `State.finish_clean`   when every replay has ended only a stalemate without reserve and without
                         candidates is left, all of it shown to the readers.
-/

set_option linter.unusedSectionVars false

namespace ReplayServer
namespace Merge
open Agree Relation

namespace State

/-- the parts that only hold once the direct part of a callback is done -/
structure Ready (m : State) : Prop where
  caughtUp : ∀ q, m = .quorum q → q.CaughtUp
  unfinished : ∀ t, m = .stalemate t → ∀ id ∈ t.reserve, (t.core.get id).finished = false
  waiting : m.core.started = false → ∀ id, (m.core.get id).delayed = 0

/-- the parts that hold at every moment -/
structure Early (m : State) : Prop where
  wf : m.WF
  unstarted : m.core.started = false → (∃ t, m = .stalemate t) ∧ m.core.cl = 0
  delayed : ∀ id, (m.core.get id).delayed ≤ m.core.len id
  ended : ∀ id, (m.core.get id).finished = true → (m.core.get id).delayed = m.core.len id
  closed : m.core.canon.finished = true →
    ∀ id < m.core.replays.length, (m.core.get id).finished = true

structure Inv (m : State) : Prop extends m.Early, m.Ready where
  stable : m.Stable

end State

/-! ## at every moment -/

theorem new_wf (target dist : Nat) : (State.new target dist).WF := by
  refine ⟨⟨le_rfl, fun _ => le_rfl, fun _ => le_rfl⟩, rfl, fun id hid => ?_, ?_, ?_⟩
  · exact absurd hid (Finset.notMem_empty _)
  · intro b l hl
    rw [Finmap.lookup_empty] at hl
    cases hl
  · intro b id hc
    exact absurd hc isCand_empty

theorem new_early (target dist : Nat) : (State.new target dist).Early :=
  ⟨new_wf target dist, fun _ => ⟨⟨_, rfl⟩, rfl⟩, fun _ => le_rfl, fun _ _ => rfl,
    fun hf => absurd hf Bool.false_ne_true⟩

section
variable {joins : State → Prop} {exits : Stalemate → IterOrder → Prop}

theorem delayed_frame {c c' : Core} (hf : Core.Frame c c')
    (hd : ∀ id, (c.get id).delayed ≤ c.len id)
    (he : ∀ id, (c.get id).finished = true → (c.get id).delayed = c.len id) :
    (∀ id, (c'.get id).delayed ≤ c'.len id) ∧
    (∀ id, (c'.get id).finished = true → (c'.get id).delayed = c'.len id) := by
  refine ⟨fun id => ?_, fun id => ?_⟩
  · rw [hf.delayed, hf.len]
    exact hd id
  · rw [hf.delayed, hf.len, hf.finished]
    exact he id

/-- what one writer does keeps its delayed position within its data -/
theorem delayed_modify {c : Core} {id : Nat} {f : Replay → Replay}
    (hd : ∀ id, (c.get id).delayed ≤ c.len id)
    (he : ∀ id, (c.get id).finished = true → (c.get id).delayed = c.len id)
    (hfd : (f (c.get id)).delayed ≤ (f (c.get id)).data.length)
    (hfe : (f (c.get id)).finished = true → (f (c.get id)).delayed = (f (c.get id)).data.length) :
    (∀ j, ((c.modify id f).get j).delayed ≤ (c.modify id f).len j) ∧
    (∀ j, ((c.modify id f).get j).finished = true →
      ((c.modify id f).get j).delayed = (c.modify id f).len j) := by
  unfold Core.len
  refine ⟨fun j => ?_, fun j => ?_⟩
  · by_cases hj : j = id
    · subst hj
      by_cases hlt : j < c.replays.length
      · rw [Core.get_modify_self hlt]
        exact hfd
      · have e : c.modify j f = c := by
          unfold Core.modify
          rw [List.modify_eq_self (by omega)]
        rw [e]
        exact hd j
    · rw [Core.get_modify_ne hj]
      exact hd j
  · by_cases hj : j = id
    · subst hj
      by_cases hlt : j < c.replays.length
      · rw [Core.get_modify_self hlt]
        exact hfe
      · have e : c.modify j f = c := by
          unfold Core.modify
          rw [List.modify_eq_self (by omega)]
        rw [e]
        exact he j
    · rw [Core.get_modify_ne hj]
      exact he j

theorem early_modify {m : State} (h : m.Early) {id : Nat} {f : Replay → Replay} (hf : Grows f)
    (hl : m.live id)
    (hfd : (f (m.core.get id)).delayed ≤ (f (m.core.get id)).data.length)
    (hfe : (f (m.core.get id)).finished = true →
      (f (m.core.get id)).delayed = (f (m.core.get id)).data.length) :
    (m.modify id f).Early := by
  obtain ⟨h1, h2⟩ := delayed_modify h.delayed h.ended hfd hfe
  refine ⟨wf_modify h.wf hf, ?_, ?_, ?_, ?_⟩
  · intro hs
    rw [modify_core] at hs ⊢
    obtain ⟨⟨t, rfl⟩, hcl⟩ := h.unstarted hs
    exact ⟨⟨_, rfl⟩, hcl⟩
  · rw [modify_core]
    exact h1
  · rw [modify_core]
    exact h2
  · intro hcf
    rw [modify_core] at hcf
    exact absurd (hl.2.symm.trans (h.closed hcf id hl.1)) Bool.false_ne_true

theorem early_mapCore {m : State} (h : m.Early) {f : Core → Core}
    (hf : ∀ c, ∃ h e fin, f c =
      { c with canon := { c.canon with header := h, event := e, finished := fin } })
    (hfin : (f m.core).canon.finished = true →
      ∀ id < m.core.replays.length, (m.core.get id).finished = true) :
    (m.mapCore f).Early := by
  obtain ⟨x, e, fin, he⟩ := hf m.core
  refine ⟨wf_mapCore h.wf hf, ?_, ?_, ?_, ?_⟩
  · intro hs
    rw [mapCore_core, he] at hs ⊢
    obtain ⟨⟨t, ht⟩, hcl⟩ := h.unstarted hs
    refine ⟨?_, hcl⟩
    subst ht
    exact ⟨_, rfl⟩
  · rw [mapCore_core, he]
    exact h.delayed
  · rw [mapCore_core, he]
    exact h.ended
  · intro hcf
    rw [mapCore_core] at hcf
    have hall := hfin hcf
    rw [mapCore_core, he]
    exact hall

/-- what the strategy itself does keeps what is said about single replays -/
theorem closed_frame {c c' : Core} (hf : Core.Frame c c')
    (h : c.canon.finished = true → ∀ id < c.replays.length, (c.get id).finished = true) :
    c'.canon.finished = true → ∀ id < c'.replays.length, (c'.get id).finished = true := by
  rw [hf.canonFinished, hf.length]
  intro hcf id hid
  rw [hf.finished]
  exact h hcf id hid

/-- nothing is said of an abstract state but its core, and where it starts -/
theorem early_frame {m m' : State} (h : m.Early) (hwf : m'.WF) (hf : Core.Frame m.core m'.core)
    (hun : m'.core.started = false → (∃ t, m' = .stalemate t) ∧ m'.core.cl = 0) : m'.Early := by
  obtain ⟨h1, h2⟩ := delayed_frame hf h.delayed h.ended
  exact ⟨hwf, hun, h1, h2, closed_frame hf h.closed⟩

/-- a new replay is empty -/
theorem early_addReplay {m : State} (h : m.Early) (hwf : m.addReplay.WF)
    (hf : m.core.canon.finished = false) : m.addReplay.Early := by
  refine ⟨hwf, ?_, ?_, ?_, ?_⟩
  · intro hs
    rw [addReplay_core] at hs ⊢
    obtain ⟨⟨t, rfl⟩, hcl⟩ := h.unstarted hs
    exact ⟨⟨_, rfl⟩, hcl⟩
  · intro id
    unfold Core.len
    rw [addReplay_core, Core.get_addReplay]
    exact h.delayed id
  · intro id
    unfold Core.len
    rw [addReplay_core, Core.get_addReplay]
    exact h.ended id
  · intro hcf
    rw [addReplay_core] at hcf
    exact absurd (hf.symm.trans hcf) Bool.false_ne_true

theorem micro_early {m m' : State} (h : m.Early) (hs : Micro joins exits m m') : m'.Early := by
  have hwf := micro_wf h.wf hs
  cases hs with
  | added _ hj hf => exact early_addReplay h hwf hf
  | header _ id x hl hh =>
    have h1 := early_modify h (grows_header x) hl (h.delayed id) (h.ended id)
    refine early_mapCore h1 (fun c => addHeader_eq c x) (fun hcf => h1.closed ?_)
    unfold State.addHeader at hcf
    split at hcf
    · exact hcf
    · exact hcf
  | data _ id buf hl hh =>
    refine early_modify h (grows_data buf) hl ?_ ?_
    · exact (h.delayed id).trans (List.prefix_append _ _).length_le
    · intro hf
      exact absurd (hl.2.symm.trans hf) Bool.false_ne_true
  | delayed _ id n hl h1 h2 =>
    refine early_modify h (grows_delayed n) hl h2 ?_
    intro hf
    exact absurd (hl.2.symm.trans hf) Bool.false_ne_true
  | ended _ id hl hd => exact early_modify h grows_finished hl (h.delayed id) (fun _ => hd)
  | evaluate t id hid =>
    refine early_frame h hwf (evaluate_frame t id) (fun hs => ⟨⟨_, rfl⟩, ?_⟩)
    obtain ⟨h3, h4⟩ := evaluate_canon t id
    have hcl := (h.unstarted (h4.symm.trans hs)).2
    show (t.evaluate id).core.canon.data.length = 0
    rw [h3]
    exact hcl
  | started t id hd =>
    exact ⟨hwf, fun hs => absurd hs.symm Bool.false_ne_true, h.delayed, h.ended, h.closed⟩
  | update q ord =>
    refine early_frame h hwf (Core.frame_advance (q.position ord)) (fun hs => ?_)
    have hs' : q.core.started = false := (Core.advance_rest (q.position ord)).2.2.1.symm.trans hs
    obtain ⟨⟨t, ht⟩, _⟩ := h.unstarted hs'
    cases ht
  | enter q hd =>
    refine early_frame h hwf (Core.Frame.refl _) (fun hs => ?_)
    obtain ⟨⟨t, ht⟩, _⟩ := h.unstarted hs
    cases ht
  | exit t ord hc hx =>
    obtain ⟨hf, hst⟩ := Stalemate.exit_frame h.wf ord (canExit_iff.mp hc).2.1
    refine early_frame h hwf hf (fun hs => ?_)
    have hstarted := (canExit_iff.mp hc).1
    rw [← hst] at hstarted
    exact absurd (hstarted.symm.trans hs) Bool.true_eq_false.mp
  | finish _ hall => exact early_mapCore h finishCanon_eq (fun _ => hall)

theorem Micros.early {m m' : State} (hs : Micros joins exits m m') (h : m.Early) : m'.Early := by
  induction hs with
  | refl => exact h
  | tail _ hst ih => exact micro_early ih hst

end

/-! ## after the direct part of a callback -/

theorem ready_quorum {q : Quorum} (hc : q.CaughtUp)
    (hw : q.core.started = false → ∀ id, (q.core.get id).delayed = 0) : (State.quorum q).Ready := by
  refine ⟨fun q' hq => ?_, fun _ ht => (nomatch ht), hw⟩
  cases hq
  exact hc

theorem ready_stalemate {t : Stalemate} (hu : ∀ id ∈ t.reserve, (t.core.get id).finished = false)
    (hw : t.core.started = false → ∀ id, (t.core.get id).delayed = 0) :
    (State.stalemate t).Ready := by
  refine ⟨fun _ hq => (nomatch hq), fun t' ht => ?_, hw⟩
  cases ht
  exact hu

theorem change_ready {m : State} (h : m.WF) (hr : m.Ready) {ord : IterOrder}
    (hc : m.shouldChange ord = true) : (m.change ord).Ready := by
  obtain ⟨hf, hs⟩ := State.change_frame h hc
  have hw : (m.change ord).core.started = false → ∀ id, ((m.change ord).core.get id).delayed = 0 := by
    intro hst id
    rw [hf.delayed]
    exact hr.waiting (hs.symm.trans hst) id
  cases m with
  | quorum q =>
    refine ready_stalemate (fun id hid => ?_) hw
    have hfr := (Stalemate.fromQuorum_frame ord q.core (q.reserve ∪ q.quorum)).1
    show ((Stalemate.fromQuorum ord q.core _).core.get id).finished = false
    rw [hfr.finished]
    exact (Stalemate.fromQuorum_reserve (State.WF.core h) hid).2
  | stalemate t =>
    exact ready_quorum (Quorum.merge_caughtUp (resolved h ord (canExit_iff.mp hc).2.1).base ord) hw

theorem work_ready {m : State} (h : m.WF) (hr : m.Ready) (ords : Nat → IterOrder) (fuel : Nat) :
    (m.work ords fuel).Ready :=
  (State.work_induct (P := fun m => m.WF ∧ m.Ready) (fun _ _ hm hc =>
    ⟨State.change_wf hm.1 hc, change_ready hm.1 hm.2 hc⟩) fuel ⟨h, hr⟩).2

theorem caughtUp_of_delayed {q : Quorum} (h : q.CaughtUp) {c : Core} (hc : c.cl = q.core.cl)
    (hd : c.canon.delayed = q.core.canon.delayed)
    (hm : ∀ id ∈ q.quorum, (c.get id).delayed = (q.core.get id).delayed) :
    Quorum.CaughtUp { q with core := c } := by
  intro k hk hall
  change k ≤ c.cl at hk
  change ∀ id ∈ q.quorum, k ≤ (c.get id).delayed at hall
  show k ≤ c.canon.delayed
  rw [hd]
  refine h k (hc ▸ hk) (fun id hid => ?_)
  rw [← hm id hid]
  exact hall id hid

/-- a change to one replay that neither ends it nor moves its delayed position -/
theorem ready_modify {m : State} (hr : m.Ready) {id : Nat} {f : Replay → Replay}
    (hd : ∀ r, (f r).delayed = r.delayed) (hf : ∀ r, (f r).finished = r.finished) :
    (m.modify id f).Ready := by
  have hw : (m.modify id f).core.started = false →
      ∀ j, ((m.modify id f).core.get j).delayed = 0 := by
    intro hs j
    rw [modify_core] at hs ⊢
    rw [Core.get_modify_same Replay.delayed hd]
    exact hr.waiting hs j
  cases m with
  | quorum q =>
    refine ready_quorum ?_ hw
    exact caughtUp_of_delayed (hr.caughtUp q rfl) rfl rfl
      (fun j _ => Core.get_modify_same Replay.delayed hd)
  | stalemate t =>
    refine ready_stalemate (fun j hj => ?_) hw
    rw [Core.get_modify_same Replay.finished hf]
    exact hr.unfinished t rfl j hj

theorem ready_mapCore {m : State} (hr : m.Ready) {f : Core → Core}
    (hf : ∀ c, ∃ h e fin, f c =
      { c with canon := { c.canon with header := h, event := e, finished := fin } }) :
    (m.mapCore f).Ready := by
  have hw : (m.mapCore f).core.started = false → ∀ j, ((m.mapCore f).core.get j).delayed = 0 := by
    intro hs j
    rw [mapCore_core] at hs ⊢
    obtain ⟨x, e, fin, he⟩ := hf m.core
    rw [he] at hs ⊢
    exact hr.waiting hs j
  cases m with
  | quorum q =>
    refine ready_quorum ?_ hw
    obtain ⟨x, e, fin, he⟩ := hf q.core
    rw [he]
    exact caughtUp_of_delayed (hr.caughtUp q rfl) rfl rfl (fun _ _ => rfl)
  | stalemate t =>
    refine ready_stalemate (fun j hj => ?_) hw
    obtain ⟨x, e, fin, he⟩ := hf t.core
    rw [he]
    exact hr.unfinished t rfl j hj

theorem ready_addReplay {m : State} (hr : m.Ready) : m.addReplay.Ready := by
  have hw : m.addReplay.core.started = false → ∀ j, (m.addReplay.core.get j).delayed = 0 := by
    intro hs j
    rw [addReplay_core] at hs ⊢
    rw [Core.get_addReplay]
    exact hr.waiting hs j
  cases m with
  | quorum q =>
    refine ready_quorum ?_ hw
    have hcaught := caughtUp_of_delayed (hr.caughtUp q rfl)
      (c := { q.core with replays := q.core.replays ++ [.empty] }) rfl rfl
      (fun id _ => by rw [Core.get_addReplay])
    exact hcaught
  | stalemate t =>
    refine ready_stalemate (fun j hj => ?_) hw
    rw [Core.get_addReplay]
    rcases Finset.mem_insert.mp hj with rfl | hj
    · rw [Core.get_of_ge le_rfl]
      rfl
    · exact hr.unfinished t rfl j hj

/-- the direct part of `replay_data_updated`: `waiting` may fail for `id` before it -/
theorem ready_dataUpdated {m : State} (h : m.WF) (ord : IterOrder) {id : Nat}
    (hc : ∀ q, m = .quorum q → id ∉ q.quorum → q.CaughtUp)
    (hu : ∀ t, m = .stalemate t → ∀ j ∈ t.reserve, (t.core.get j).finished = false)
    (hq : m.core.started = false → ∃ t, m = .stalemate t)
    (hw : m.core.started = false → ∀ j, j ≠ id → (m.core.get j).delayed = 0) :
    (m.dataUpdated ord id).Ready := by
  cases m with
  | quorum q =>
    have hst : q.core.started = true := by
      by_contra hs
      obtain ⟨t, ht⟩ := hq (Bool.eq_false_iff.mpr hs)
      cases ht
    show (State.quorum (q.dataUpdated ord id)).Ready
    unfold Quorum.dataUpdated
    split
    · have hst' : (q.update ord).core.started = true :=
        (Core.advance_rest (q.position ord)).2.2.1.trans hst
      exact ready_quorum (Quorum.update_caughtUp (Quorum.WF.toBase h).nonempty ord)
        (fun hs => absurd (hst'.symm.trans hs) Bool.true_eq_false.mp)
    · rename_i hid
      exact ready_quorum (hc q rfl hid) (fun hs => absurd (hst.symm.trans hs) Bool.true_eq_false.mp)
  | stalemate t =>
    have hf := evaluateIf_frame t id
    have hst := evaluateIf_started t id
    have hres := evaluateIf_reserve t id
    show (State.stalemate (t.dataUpdated id)).Ready
    unfold Stalemate.dataUpdated
    obtain ⟨u, hu'⟩ : ∃ u, u = t.evaluateIf id := ⟨_, rfl⟩
    rw [← hu'] at hf hst hres ⊢
    have hun : ∀ j ∈ u.reserve, (u.core.get j).finished = false := by
      intro j hj
      rw [hf.finished]
      exact hu t rfl j (hres hj)
    dsimp only
    split
    · exact ready_stalemate hun (fun hs => absurd hs.symm Bool.false_ne_true)
    · rename_i hno
      refine ready_stalemate hun (fun hs j => ?_)
      by_cases hj : j = id
      · subst hj
        rw [hs] at hno
        simpa using hno
      · rw [hf.delayed]
        exact hw (hst.symm.trans hs) j hj

/-- the direct part of `replay_removed` leaves no finished replay in the reserve -/
theorem ready_ended {m : State} (hwf : m.WF) (hr : m.Ready) (id : Nat) :
    ((m.modify id (fun r => { r with finished := true })).replayEnded id).Ready := by
  have hdel : ∀ j, ((m.core.modify id (fun r => { r with finished := true })).get j).delayed
      = (m.core.get j).delayed :=
    fun j => Core.get_modify_same Replay.delayed (fun _ => rfl)
  cases m with
  | quorum q =>
    refine ready_quorum ?_ (fun hs j => (hdel j).trans (hr.waiting hs j))
    exact caughtUp_of_delayed (hr.caughtUp q rfl) rfl rfl (fun j _ => hdel j)
  | stalemate t =>
    obtain ⟨u, hu⟩ : ∃ u : Stalemate, u = { t with
      core := t.core.modify id (fun r => { r with finished := true }) } := ⟨_, rfl⟩
    have hm : (u.core.get id).matching ≤ u.core.cl := by
      rw [hu]
      show ((t.core.modify id _).get id).matching ≤ t.core.cl
      rw [Core.matching_modify grows_finished]
      exact (Stalemate.WF.core hwf).matching id
    have hother : ∀ j, j ≠ id → j ∈ u.reserve → (u.core.get j).finished = false := by
      intro j hj hjr
      rw [hu] at hjr ⊢
      show ((t.core.modify id _).get j).finished = false
      rw [Core.get_modify_ne hj]
      exact hr.unfinished t rfl j hjr
    show (State.stalemate ((Stalemate.mk (t.core.modify id _) t.cand t.reserve).evaluateIf id)).Ready
    rw [← hu]
    refine ready_stalemate (fun j hj => ?_) (fun hs j => ?_)
    · rw [(evaluateIf_frame u id).finished]
      have hjr := evaluateIf_reserve u id hj
      by_cases hji : j = id
      · subst hji
        unfold Stalemate.evaluateIf at hj
        rw [if_pos hjr] at hj
        exact (Stalemate.mem_evaluate_reserve hm hj).2
      · exact hother j hji hjr
    · rw [(evaluateIf_frame u id).delayed, hu]
      rw [evaluateIf_started, hu] at hs
      exact (hdel j).trans (hr.waiting hs j)

theorem direct_ready {m : State} (h : m.Inv) (ord : IterOrder) (a : Action) :
    (m.direct ord a).Ready := by
  cases a with
  | added => exact ready_addReplay h.toReady
  | header id x =>
    exact ready_mapCore (ready_modify h.toReady (f := fun r => { r with header := some x }) (fun _ => rfl)
      (fun _ => rfl)) (fun c => addHeader_eq c x)
  | data id buf => exact ready_modify h.toReady (fun _ => rfl) (fun _ => rfl)
  | delayed id n =>
    have hq : ∀ f, (m.modify id f).core.started = false → ∃ t, m = .stalemate t := by
      intro f hs
      rw [modify_core] at hs
      exact (h.unstarted hs).1
    refine ready_dataUpdated (wf_modify h.wf (grows_delayed n)) ord ?_ ?_ ?_ ?_
    · intro q hq' hid
      cases m with
      | quorum q0 =>
        cases hq'
        refine caughtUp_of_delayed (h.caughtUp q0 rfl) rfl rfl (fun j hj => ?_)
        have hji : j ≠ id := by
          rintro rfl
          exact hid hj
        rw [Core.get_modify_ne hji]
      | stalemate t => cases hq'
    · intro t ht j hj
      cases m with
      | quorum q => cases ht
      | stalemate t0 =>
        cases ht
        show ((t0.core.modify id _).get j).finished = false
        rw [Core.get_modify_same (f := fun r => { r with delayed := n }) Replay.finished
          (fun _ => rfl)]
        exact h.unfinished t0 rfl j hj
    · intro hs
      obtain ⟨t, rfl⟩ := hq _ hs
      exact ⟨_, rfl⟩
    · intro hs j hj
      rw [modify_core] at hs ⊢
      rw [Core.get_modify_ne hj]
      exact h.waiting hs j
  | updated id =>
    refine ready_dataUpdated h.wf ord (fun q hq _ => h.caughtUp q hq) h.unfinished
      (fun hs => (h.unstarted hs).1) (fun hs j _ => h.waiting hs j)
  | ended id => exact ready_ended h.wf h.toReady id
  | finish => exact ready_mapCore h.toReady finishCanon_eq

/-! ## callbacks -/

/-- whether the state should change depends on little -/
theorem stable_congr {m m' : State} (h : m.Stable)
    (hq : ∀ q', m' = .quorum q' → ∃ q, m = .quorum q ∧ q'.core.cl = q.core.cl ∧
      q'.core.canon.delayed = q.core.canon.delayed)
    (ht : ∀ t', m' = .stalemate t' → ∃ t, m = .stalemate t ∧ t'.core.started = t.core.started ∧
      t'.core.target = t.core.target ∧ t'.cand = t.cand ∧ t'.reserve = t.reserve) :
    m'.Stable := by
  intro ord
  have hs := h ord
  cases m' with
  | quorum q' =>
    obtain ⟨q, rfl, h1, h2⟩ := hq q' rfl
    change decide _ = false at hs
    show decide _ = false
    rw [h1, h2]
    exact hs
  | stalemate t' =>
    obtain ⟨t, rfl, h1, h2, h3, h4⟩ := ht t' rfl
    change t.canExit ord = false at hs
    show t'.canExit ord = false
    by_contra hc
    rw [Bool.not_eq_false, canExit_iff, h1, h2, h3, h4, ← canExit_iff, hs] at hc
    exact Bool.false_ne_true hc

theorem stable_modify {m : State} (h : m.Stable) (id : Nat) (f : Replay → Replay) :
    (m.modify id f).Stable := by
  refine stable_congr h ?_ ?_
  · intro q' hq'
    cases m with
    | quorum q =>
      cases hq'
      exact ⟨q, rfl, rfl, rfl⟩
    | stalemate t => cases hq'
  · intro t' ht'
    cases m with
    | quorum q => cases ht'
    | stalemate t =>
      cases ht'
      exact ⟨t, rfl, rfl, rfl, rfl, rfl⟩

theorem stable_mapCore {m : State} (h : m.Stable) {f : Core → Core}
    (hf : ∀ c, ∃ h e fin, f c =
      { c with canon := { c.canon with header := h, event := e, finished := fin } }) :
    (m.mapCore f).Stable := by
  refine stable_congr h ?_ ?_
  · intro q' hq'
    cases m with
    | quorum q =>
      cases hq'
      obtain ⟨x, e, fin, he⟩ := hf q.core
      exact ⟨q, rfl, by rw [he]; rfl, by rw [he]⟩
    | stalemate t => cases hq'
  · intro t' ht'
    cases m with
    | quorum q => cases ht'
    | stalemate t =>
      cases ht'
      obtain ⟨x, e, fin, he⟩ := hf t.core
      exact ⟨t, rfl, by rw [he], by rw [he], rfl, rfl⟩

namespace State

theorem step_micros_true {m : State} (h : m.WF) {a : Action} (ords : Nat → IterOrder)
    (ha : m.allowed a) : Micros (fun _ => True) (fun _ _ => True) m (m.step ords a) :=
  step_micros h ords ha (fun _ => trivial) (fun _ => passes_true _ _ _)

/-- **every callback keeps the invariant** -/
theorem step_inv {m : State} (h : m.Inv) {a : Action} (ords : Nat → IterOrder)
    (ha : m.allowed a) : (m.step ords a).Inv := by
  have hearly := Micros.early (step_micros_true h.wf ords ha) h.toEarly
  have hdirect := direct_ready h (ords 0) a
  have hdm : Micros (fun _ => True) (fun _ _ => True) m (m.direct (ords 0) a) :=
    direct_micros (ords 0) ha (fun _ => trivial)
  have hdwf := Micros.wf h.wf hdm
  cases a with
  | header id x =>
    exact ⟨hearly, hdirect, stable_mapCore (stable_modify h.stable _ _) (fun c => addHeader_eq c x)⟩
  | data id buf => exact ⟨hearly, hdirect, stable_modify h.stable _ _⟩
  | finish => exact ⟨hearly, hdirect, stable_mapCore h.stable finishCanon_eq⟩
  | added => exact ⟨hearly, work_ready hdwf hdirect _ _, settle_stable hdwf ords⟩
  | delayed id n => exact ⟨hearly, work_ready hdwf hdirect _ _, settle_stable hdwf ords⟩
  | updated id => exact ⟨hearly, work_ready hdwf hdirect _ _, settle_stable hdwf ords⟩
  | ended id => exact ⟨hearly, work_ready hdwf hdirect _ _, settle_stable hdwf ords⟩

theorem new_inv (target dist : Nat) : (State.new target dist).Inv := by
  refine ⟨new_early target dist, ⟨fun _ hq => (nomatch hq), ?_, fun _ _ => rfl⟩, ?_⟩
  · intro t ht id hid
    cases ht
    exact absurd hid (Finset.notMem_empty _)
  · intro ord
    rfl

/-- **when every replay has ended, nothing is left to merge or to show** -/
theorem finish_clean {m : State} (h : m.Inv)
    (hall : ∀ id < m.core.replays.length, (m.core.get id).finished = true) :
    ∃ t, m = .stalemate t ∧ t.reserve = ∅ ∧ t.cand.keys = ∅ ∧ t.core.canon.delayed = t.core.cl := by
  cases m with
  | quorum q =>
    have hwf : q.WF := h.wf
    have hcu := h.caughtUp q rfl q.core.cl le_rfl (fun id hid => by
      obtain ⟨h1, h2⟩ := hwf.members id hid
      exact h2.trans (h.ended id (hall id h1)).ge)
    have hs : decide (q.core.canon.delayed ≥ q.core.cl) = false := h.stable default
    rw [decide_eq_true hcu] at hs
    exact absurd hs Bool.true_eq_false.mp
  | stalemate t =>
    have hwf : t.WF := h.wf
    have hres : t.reserve = ∅ := by
      rw [Finset.eq_empty_iff_forall_notMem]
      intro id hid
      have h1 := h.unfinished t rfl id hid
      have h2 := hall id (hwf.reserve id hid)
      exact Bool.false_ne_true (h1.symm.trans h2)
    refine ⟨t, rfl, hres, ?_, hwf.delayed⟩
    by_contra hne
    by_cases hst : t.core.started = true
    · have hc : t.canExit default = true := canExit_iff.mpr ⟨hst, hne, Or.inl hres⟩
      exact Bool.false_ne_true ((h.stable default).symm.trans hc)
    · have hst' : t.core.started = false := by simpa using hst
      obtain ⟨id, hid⟩ := (resolved hwf default hne).base.nonempty
      have hcand := (resolved hwf default hne).cand id ((resolved hwf default hne).selected.mem id hid)
      obtain ⟨h1, _, h3, _⟩ := hwf.cand _ id hcand
      have hlen := (List.getElem?_eq_some_iff.mp h3).1
      have hd := h.waiting hst' id
      have he := h.ended id (hall id h1)
      rw [show (State.stalemate t).core = t.core from rfl] at hd he
      unfold Core.len at he
      omega

end State

end Merge

end ReplayServer
