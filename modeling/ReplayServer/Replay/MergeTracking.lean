import ReplayServer.Replay.MergeReports
import ReplayServer.Replay.MergeCallback

/-!
# replay: the abstract model, when a reserve replay was evaluated

A reserve replay of a stalemate may have grown since the strategy looked at it.  `Waits` is what
the look found; it holds right after every callback for the replay and right after the stalemate
is entered, and in between the replay stays where it is.

* `step_waits`      after a callback for the replay;
* `step_entered`    after a step that enters a stalemate;
* `step_stays`      any other step leaves the stalemate as it is.
-/

set_option linter.unusedSectionVars false

namespace ReplayServer

/-- the callback is one for the replay `id`; `added` replays are there before it -/
def Action.Concerns (a : Action) (added id : Nat) : Prop :=
  match a with
  | .added => id = added
  | .header i _ | .delayed i _ | .updated i | .ended i => id = i
  | .data _ _ | .finish => False

namespace Merge
open Agree Relation

/-- if `id` is in the reserve of a stalemate, it is short and not finished -/
def Waits (m : State) (id : Nat) : Prop := ∀ t, m = .stalemate t → id ∈ t.reserve →
  t.core.len id ≤ t.core.cl ∧ (t.core.get id).finished = false

/-- the state after the step is a stalemate that the step entered -/
def Entered (m m' : State) : Prop :=
  (∃ t, m' = .stalemate t) ∧ ((∃ q, m = .quorum q) ∨ m.core.canon.data ≠ m'.core.canon.data)

/-! ## the loop -/

theorem change_waits {m : State} (h : m.WF) {ord : IterOrder} (id : Nat) :
    Waits (m.change ord) id := by
  intro t ht hid
  cases m with
  | quorum q =>
    cases ht
    have hf := (Stalemate.fromQuorum_frame ord q.core (q.reserve ∪ q.quorum)).1
    obtain ⟨h1, h2⟩ := Stalemate.fromQuorum_reserve (State.WF.core h) hid
    refine ⟨?_, (hf.finished id).trans h2⟩
    exact ((hf.len id).trans_le h1).trans hf.grow.length_le
  | stalemate t' => cases ht

/-- the loop does nothing or ends with a state that was changed last -/
theorem work_waits {m : State} (h : m.WF) (ords : Nat → IterOrder) (fuel : Nat) :
    m.work ords fuel = m ∨ ∀ id, Waits (m.work ords fuel) id := by
  refine (State.work_induct (P := fun m' => m'.WF ∧ (m' = m ∨ ∀ id, Waits m' id)) ?_ fuel
    ⟨h, Or.inl rfl⟩).2
  exact fun m' ord hm hc => ⟨State.change_wf hm.1 hc, Or.inr (change_waits hm.1)⟩

/-- from a stalemate the loop does nothing or merges -/
theorem work_grows {t : Stalemate} (h : State.WF (.stalemate t)) (ords : Nat → IterOrder) (fuel : Nat) :
    (State.stalemate t).work ords fuel = .stalemate t ∨
      t.core.cl < ((State.stalemate t).work ords fuel).core.cl := by
  refine (State.work_induct (P := fun m' => m'.WF ∧ (m' = .stalemate t ∨ t.core.cl < m'.core.cl)) ?_
    fuel ⟨h, Or.inl rfl⟩).2
  rintro m' ord ⟨hw, hor⟩ hc
  refine ⟨State.change_wf hw hc, Or.inr ?_⟩
  rcases hor with rfl | hlt
  · exact exit_cl h hc
  · exact lt_of_lt_of_le hlt (State.change_frame hw hc).1.grow.length_le

/-! ## the direct part of a callback -/

theorem evaluateIf_waits {t : Stalemate} (h : t.WF) (id : Nat) :
    Waits (.stalemate (t.evaluateIf id)) id := by
  rintro _ ⟨⟩ hid
  unfold Stalemate.evaluateIf at hid ⊢
  split at hid
  · rename_i hin
    rw [if_pos hin]
    have hf := evaluate_frame t id
    obtain ⟨h1, h2⟩ := Stalemate.mem_evaluate_reserve (h.core.matching id) hid
    exact ⟨((hf.len id).trans_le h1).trans hf.grow.length_le, (hf.finished id).trans h2⟩
  · rename_i hout
    exact absurd hid hout

theorem dataUpdated_waits {m : State} (h : m.WF) (ord : IterOrder) (id : Nat) :
    Waits (m.dataUpdated ord id) id := by
  intro t ht hid
  cases m with
  | quorum q => cases ht
  | stalemate u =>
    have hu : u.WF := h
    have hw := evaluateIf_waits hu id
    have ht' : Stalemate.dataUpdated u id = t := by
      cases ht
      rfl
    rw [← ht'] at hid ⊢
    unfold Stalemate.dataUpdated at hid ⊢
    dsimp only at hid ⊢
    split
    · rename_i hs
      rw [if_pos hs] at hid
      exact hw (u.evaluateIf id) rfl hid
    · rename_i hs
      rw [if_neg hs] at hid
      exact hw (u.evaluateIf id) rfl hid

theorem direct_waits {m : State} (hi : m.Inv) (hst : Stream m) {a : Action} (ha : m.allowed a)
    (ord : IterOrder) {id : Nat} (hc : a.Concerns m.core.replays.length id) :
    Waits (m.direct ord a) id := by
  cases a with
  | added =>
    have hid : id = m.core.replays.length := hc
    have hget : ∀ t, m.addReplay = .stalemate t → t.core.get id = .empty := by
      intro t ht
      have hcore : m.addReplay.core = t.core := by rw [ht]; rfl
      rw [← hcore, addReplay_core, Core.get_addReplay, hid]
      exact Core.get_of_ge le_rfl
    intro t ht _
    unfold Core.len
    rw [hget t ht]
    exact ⟨Nat.zero_le _, rfl⟩
  | header i x =>
    have hid : id = i := hc
    subst hid
    obtain ⟨hl, hh⟩ := ha
    have hdata : (m.core.get id).data = [] := by
      by_contra hne
      exact hst.headless id hne hh
    intro t ht _
    have hcore : t.core = ((m.modify id (fun r => { r with header := some x })).mapCore
        (fun c => State.addHeader c x)).core := by
      change (m.modify id (fun r => { r with header := some x })).mapCore
        (fun c => State.addHeader c x) = .stalemate t at ht
      rw [ht]
      rfl
    obtain ⟨_, _, _, he⟩ := addHeader_eq (m.core.modify id (fun r => { r with header := some x })) x
    rw [mapCore_core, modify_core, he] at hcore
    unfold Core.len
    rw [hcore]
    show ((m.core.modify id (fun r => { r with header := some x })).get id).data.length ≤ _ ∧
      ((m.core.modify id (fun r => { r with header := some x })).get id).finished = false
    rw [Core.get_modify_self hl.1]
    refine ⟨?_, hl.2⟩
    rw [show ({ m.core.get id with header := some x } : Replay).data = (m.core.get id).data from rfl, hdata]
    exact Nat.zero_le _
  | data i buf => exact hc.elim
  | delayed i n =>
    have hid : id = i := hc
    subst hid
    exact dataUpdated_waits (wf_modify hi.wf (grows_delayed n)) ord id
  | updated i =>
    have hid : id = i := hc
    subst hid
    exact dataUpdated_waits hi.wf ord id
  | ended i =>
    have hid : id = i := hc
    subst hid
    have hw : (m.modify id (fun r => { r with finished := true })).WF := wf_modify hi.wf grows_finished
    show Waits ((m.modify id (fun r => { r with finished := true })).replayEnded id) id
    revert hw
    generalize m.modify id (fun r => { r with finished := true }) = u
    intro hw
    cases u with
    | quorum q => exact fun t ht => nomatch ht
    | stalemate t => exact evaluateIf_waits hw id
  | finish => exact hc.elim

/-- what the direct part of a step leaves as it is -/
structure Stays (a : Action) (m m' : State) : Prop where
  data : m'.core.canon.data = m.core.canon.data
  quorum : ∀ q', m' = .quorum q' → ∃ q, m = .quorum q
  stalemate : ∀ t', m' = .stalemate t' → ∃ t, m = .stalemate t ∧ ∀ id ∈ t'.reserve,
    id ∈ t.reserve ∨ a.Concerns m.core.replays.length id

theorem stays_mapCore (a : Action) (m : State) {f : Core → Core}
    (hf : ∀ c, (f c).canon.data = c.canon.data) : Stays a m (m.mapCore f) := by
  refine ⟨?_, fun q' hq' => ?_, fun t' ht' => ?_⟩
  · rw [mapCore_core]
    exact hf _
  · cases m with
    | quorum q => exact ⟨q, rfl⟩
    | stalemate t => cases hq'
  · cases m with
    | quorum q => cases ht'
    | stalemate t =>
      cases ht'
      exact ⟨t, rfl, fun id hid => Or.inl hid⟩

theorem stays_evaluateIf (a : Action) (t : Stalemate) (id : Nat) :
    Stays a (.stalemate t) (.stalemate (t.evaluateIf id)) := by
  unfold Stalemate.evaluateIf
  split
  · refine ⟨congrArg Canon.data (evaluate_canon t id).1, fun _ hq => (nomatch hq), ?_⟩
    rintro _ ⟨⟩
    exact ⟨t, rfl, fun j hj => Or.inl ((evaluate_reserve t id).2 hj)⟩
  · refine ⟨rfl, fun _ hq => (nomatch hq), ?_⟩
    rintro _ ⟨⟩
    exact ⟨t, rfl, fun j hj => Or.inl hj⟩

theorem stays_dataUpdated (a : Action) (m : State) (ord : IterOrder) (id : Nat) :
    Stays a m (m.dataUpdated ord id) := by
  cases m with
  | quorum q =>
    refine ⟨?_, fun _ _ => ⟨q, rfl⟩, fun t' ht' => nomatch ht'⟩
    show (q.dataUpdated ord id).core.canon.data = q.core.canon.data
    unfold Quorum.dataUpdated
    split
    · exact Core.advance_data _
    · rfl
  | stalemate t =>
    have hs := stays_evaluateIf a t id
    have hd : ∀ u : Stalemate, Stays a (.stalemate t) (.stalemate u) → ∀ b : Bool,
        Stays a (.stalemate t) (.stalemate (if b then { u with core := { u.core with started := true } }
          else u)) := by
      intro u hu b
      cases b with
      | false => exact hu
      | true =>
        refine ⟨hu.data, fun _ hq => (nomatch hq), ?_⟩
        rintro _ ⟨⟩
        exact hu.stalemate u rfl
    exact hd _ hs _

theorem Stays.of_mapCore {a : Action} {m m' : State} {f : Core → Core}
    (h : Stays a (m.mapCore f) m') (hf : ∀ c, (f c).canon.data = c.canon.data)
    (hl : ∀ c, (f c).replays.length = c.replays.length) : Stays a m m' := by
  have h0 := stays_mapCore a m hf
  refine ⟨h.data.trans h0.data, fun q' hq' => ?_, fun t' ht' => ?_⟩
  · obtain ⟨q, hq⟩ := h.quorum q' hq'
    exact h0.quorum q hq
  obtain ⟨u, hu, hres⟩ := h.stalemate t' ht'
  obtain ⟨t, rfl, hres'⟩ := h0.stalemate u hu
  rw [mapCore_core, hl] at hres
  refine ⟨t, rfl, fun id hid => ?_⟩
  rcases hres id hid with h1 | h1
  · exact hres' id h1
  · exact Or.inr h1

theorem direct_stays (m : State) (ord : IterOrder) (a : Action) : Stays a m (m.direct ord a) := by
  have hmod : ∀ (id : Nat) (f : Replay → Replay) (c : Core),
      (c.modify id f).canon.data = c.canon.data ∧ (c.modify id f).replays.length = c.replays.length :=
    fun id f c => ⟨rfl, Core.modify_length c id f⟩
  cases a with
  | added =>
    refine ⟨?_, fun q' hq' => ?_, fun t' ht' => ?_⟩
    · show m.addReplay.core.canon.data = _
      rw [addReplay_core]
    · cases m with
      | quorum q => exact ⟨q, rfl⟩
      | stalemate t => cases hq'
    · cases m with
      | quorum q => cases ht'
      | stalemate t =>
        cases ht'
        refine ⟨t, rfl, fun id hid => ?_⟩
        rcases Finset.mem_insert.mp hid with h | h
        · exact Or.inr h
        · exact Or.inl h
  | header id x =>
    have hhead : ∀ c : Core, (State.addHeader c x).canon.data = c.canon.data := by
      intro c
      unfold State.addHeader
      split <;> rfl
    exact Stays.of_mapCore (f := fun c => c.modify id (fun r => { r with header := some x }))
      (stays_mapCore _ (m.mapCore _) (f := fun c => State.addHeader c x) hhead)
      (fun c => (hmod _ _ c).1) (fun c => (hmod _ _ c).2)
  | data id buf => exact stays_mapCore _ m (fun c => (hmod _ _ c).1)
  | delayed id n =>
    exact Stays.of_mapCore (f := fun c => c.modify id (fun r => { r with delayed := n }))
      (stays_dataUpdated _ _ ord id) (fun c => (hmod _ _ c).1) (fun c => (hmod _ _ c).2)
  | updated id => exact stays_dataUpdated _ m ord id
  | ended id =>
    refine Stays.of_mapCore (f := fun c => c.modify id (fun r => { r with finished := true })) ?_
      (fun c => (hmod _ _ c).1) (fun c => (hmod _ _ c).2)
    show Stays _ (m.mapCore _) (State.replayEnded (m.mapCore _) id)
    generalize m.mapCore _ = u
    cases u with
    | quorum q => exact ⟨rfl, fun _ _ => ⟨q, rfl⟩, fun _ h => nomatch h⟩
    | stalemate t => exact stays_evaluateIf _ t id
  | finish => exact stays_mapCore _ m (fun _ => rfl)

/-! ## steps -/

section
variable {m : State} (h : m.Inv) (hst : Stream m) {a : Action} (ha : m.allowed a)
  (ords : Nat → IterOrder) {id : Nat}
include h hst ha

theorem direct_wf : (m.direct (ords 0) a).WF := by
  have hm : Micros (fun _ => True) (fun _ _ => True) m (m.direct (ords 0) a) :=
    direct_micros (ords 0) ha (fun _ => trivial)
  exact Micros.wf h.wf hm

theorem step_waits (hc : a.Concerns m.core.replays.length id) : Waits (m.step ords a) id := by
  have hd := direct_waits h hst ha (ords 0) hc
  unfold State.step
  split
  · rcases work_waits (direct_wf h hst ha ords) ords (m.direct (ords 0) a).fuel with he | hw
    · unfold State.settle
      rw [he]
      exact hd
    · exact hw id
  · exact hd

theorem step_entered (he : Entered m (m.step ords a)) : Waits (m.step ords a) id := by
  have hs := direct_stays m (ords 0) a
  have hno : ¬ Entered m (m.direct (ords 0) a) := by
    rintro ⟨⟨t', ht'⟩, hor⟩
    obtain ⟨t, rfl, -⟩ := hs.stalemate t' ht'
    rcases hor with ⟨q, hq⟩ | hne
    · cases hq
    · exact hne hs.data.symm
  unfold State.step at he ⊢
  split at he
  · rename_i hset
    rw [if_pos hset]
    rcases work_waits (direct_wf h hst ha ords) ords (m.direct (ords 0) a).fuel with hw | hw
    · unfold State.settle at he
      rw [hw] at he
      exact absurd he hno
    · exact hw id
  · exact absurd he hno

/-- a step that does not enter a stalemate leaves the reserve as it was -/
theorem step_stays (he : ¬ Entered m (m.step ords a)) {t' : Stalemate}
    (ht' : m.step ords a = .stalemate t') (hid : id ∈ t'.reserve) :
    a.Concerns m.core.replays.length id ∨
      ∃ t, m = .stalemate t ∧ id ∈ t.reserve ∧ t'.core.cl = t.core.cl := by
  have hs := direct_stays m (ords 0) a
  have hdata : m.core.canon.data = t'.core.canon.data := by
    by_contra hne
    refine he ⟨⟨t', ht'⟩, Or.inr ?_⟩
    rw [ht']
    exact hne
  have hkind : ¬ ∃ q, m = .quorum q := fun hq => he ⟨⟨t', ht'⟩, Or.inl hq⟩
  cases m with
  | quorum q => exact absurd ⟨q, rfl⟩ hkind
  | stalemate t =>
    have hsame : (State.stalemate t).step ords a = (State.stalemate t).direct (ords 0) a := by
      unfold State.step
      split
      · have hw := direct_wf h hst ha ords
        revert hs hw
        generalize hu : (State.stalemate t).direct (ords 0) a = u
        intro hs hw
        cases u with
        | quorum q =>
          obtain ⟨q', hq'⟩ := hs.quorum q rfl
          cases hq'
        | stalemate u' =>
          rcases work_grows hw ords (State.stalemate u').fuel with hk | hk
          · exact hk
          · exfalso
            have hstep : (State.stalemate t).step ords a = (State.stalemate u').settle ords := by
              unfold State.step
              rw [hu]
              rename_i hset
              rw [if_pos hset]
            rw [hstep] at ht'
            unfold State.settle at ht'
            rw [ht'] at hk
            have h1 := congrArg List.length hdata
            have h2 := congrArg List.length hs.data
            change t.core.canon.data.length = t'.core.canon.data.length at h1
            change u'.core.canon.data.length = t.core.canon.data.length at h2
            change u'.core.canon.data.length < t'.core.canon.data.length at hk
            omega
      · rfl
    rw [hsame] at ht'
    obtain ⟨t0, ht0, hres⟩ := hs.stalemate t' ht'
    cases ht0
    rcases hres id hid with h1 | h1
    · exact Or.inr ⟨t, rfl, h1, congrArg List.length hdata.symm⟩
    · exact Or.inl h1

end

end Merge

end ReplayServer
