import ReplayServer.Replay.MergeTracking
import ReplayServer.Replay.MergeDropped

/-!
# replay: the abstract model, what readers see and what was released

A quorum lets its readers see what all of its members have released, and one of the members has
all the bytes that the quorum merged.

* `Micros.backed`    in every run each byte that is shown was released by a writer that has it;
* `step_rested`      a replay that waits in the reserve of a stalemate released nothing new;
* `shown_of_released`   so what all tracked replays released is shown;
* `few_same_byte`        and then fewer than the target go on with the same byte.
-/

set_option linter.unusedSectionVars false

namespace ReplayServer
namespace Merge
open Agree Relation

variable {joins : State → Prop} {exits : Stalemate → IterOrder → Prop}

/-- a replay has the canonical byte at `p` and has released it -/
def Core.Released (c : Core) (p : Nat) : Prop :=
  ∃ id, p < (c.get id).delayed ∧ (c.get id).data[p]? = c.canon.data[p]?

theorem lt_of_released {c : Core} {id p : Nat} (h : p < (c.get id).delayed) : id < c.replays.length := by
  by_contra hge
  rw [Core.get_of_ge (not_lt.mp hge)] at h
  exact Nat.not_lt_zero _ h

/-- a member has what the quorum merged and did not yet show -/
def Quorum.Covers (q : Quorum) (id : Nat) : Prop :=
  id ∈ q.quorum ∧ AgreeOn (q.core.get id).data q.core.canon.data q.core.canon.delayed q.core.cl

structure Backed (m : State) : Prop where
  released : ∀ p < m.core.canon.delayed, m.core.Released p
  covered : ∀ q, m = .quorum q → ∃ id, q.Covers id

theorem new_backed (target dist : Nat) : Backed (State.new target dist) :=
  ⟨fun _ hp => absurd hp (Nat.not_lt_zero _), fun _ h => nomatch h⟩

theorem Core.Released.evolves {c c' : Core} (h : Evolves c c') {p : Nat} (hp : p < c.cl)
    (hr : c.Released p) : c'.Released p := by
  obtain ⟨id, h1, h2⟩ := hr
  have hlen : p < (c.get id).data.length := by
    rw [List.getElem?_eq_getElem (show p < c.canon.data.length from hp)] at h2
    exact (List.getElem?_eq_some_iff.mp h2).1
  refine ⟨id, lt_of_lt_of_le h1 (h.delayed id), ?_⟩
  rw [getElem?_of_isPrefix (h.data id) hlen, getElem?_of_isPrefix h.grow hp]
  exact h2

/-- the canonical data of a quorum grows with nothing, and its members with anything -/
theorem Quorum.Covers.evolves {q q' : Quorum} (h : Evolves q.core q'.core) (hw : q.WF) {id : Nat}
    (hc : q.Covers id) (hq : q'.quorum = q.quorum)
    (hd : q'.core.canon.data = q.core.canon.data) : q'.Covers id := by
  have hcl : q'.core.cl = q.core.cl := congrArg List.length hd
  refine ⟨hq ▸ hc.1, ?_⟩
  rw [hcl]
  exact (agree_evolves h le_rfl (hw.members id hc.1).2 hc.2).mono h.canonDelayed le_rfl

theorem Backed.of_evolves {m m' : State} (h : Backed m) (hw : m.WF) (hev : Evolves m.core m'.core)
    (hdel : m'.core.canon.delayed = m.core.canon.delayed)
    (hcov : ∀ q', m' = .quorum q' → ∃ id, q'.Covers id) : Backed m' := by
  refine ⟨fun p hp => ?_, hcov⟩
  rw [hdel] at hp
  exact (h.released p hp).evolves hev (lt_of_lt_of_le hp hw.core.delayed)

/-- the steps that leave the quorum and the canonical data alone -/
theorem Backed.of_same {m m' : State} (h : Backed m) (hw : m.WF) (hev : Evolves m.core m'.core)
    (hdel : m'.core.canon.delayed = m.core.canon.delayed)
    (hd : m'.core.canon.data = m.core.canon.data)
    (hq : ∀ q', m' = .quorum q' → ∃ q, m = .quorum q ∧ q'.quorum = q.quorum) : Backed m' := by
  refine h.of_evolves hw hev hdel (fun q' hq' => ?_)
  obtain ⟨q, rfl, hquorum⟩ := hq q' hq'
  obtain ⟨id, hc⟩ := h.covered q rfl
  subst hq'
  exact ⟨id, hc.evolves hev hw hquorum hd⟩

theorem quorum_mapCore {m : State} {f : Core → Core} {q' : Quorum} (h : m.mapCore f = .quorum q') :
    ∃ q, m = .quorum q ∧ q'.quorum = q.quorum := by
  cases m with
  | quorum q =>
    cases h
    exact ⟨q, rfl, rfl⟩
  | stalemate t => cases h

theorem quorum_addReplay {m : State} {q' : Quorum} (h : m.addReplay = .quorum q') :
    ∃ q, m = .quorum q ∧ q'.quorum = q.quorum := by
  cases m with
  | quorum q =>
    cases h
    exact ⟨q, rfl, rfl⟩
  | stalemate t => cases h

/-- **what a quorum shows next, the member that covers it has released** -/
theorem Backed.update {q : Quorum} (h : Backed (.quorum q)) (hw : q.WF) (ord : IterOrder) :
    Backed (.quorum (q.update ord)) := by
  have hev := evolves_update q ord
  obtain ⟨id, hc⟩ := h.covered q rfl
  have hd : (q.update ord).core.canon.data = q.core.canon.data := Core.advance_data _
  refine ⟨fun p hp => ?_, fun q' hq' => ?_⟩
  · by_cases hold : p < q.core.canon.delayed
    · exact (h.released p hold).evolves hev (lt_of_lt_of_le hold hw.core.delayed)
    · change p < (q.core.advance _).canon.delayed at hp
      rw [Core.advance_delayed] at hp
      have hpos := position_le ord hc.1
      have hrel : p < (q.core.get id).delayed ∧
          (q.core.get id).data[p]? = q.core.canon.data[p]? :=
        ⟨by omega, hc.2 p (by omega) (by omega)⟩
      exact Core.Released.evolves hev (by omega) ⟨id, hrel⟩
  · cases hq'
    exact ⟨id, hc.evolves hev hw rfl hd⟩

/-- a new quorum has a member with the bytes that resolve the stalemate -/
theorem Backed.exit {t : Stalemate} (h : Backed (.stalemate t)) (ht : t.WF) {ord : IterOrder}
    (hc : t.canExit ord = true) : Backed (.quorum (t.exit ord)) := by
  have hev := evolves_exit ht hc
  have hr := resolved ht ord (canExit_iff.mp hc).2.1
  have hm := Quorum.merge_spec hr.base ord
  obtain ⟨id, hid, hag⟩ := exit_source ht hc
  have hag' : AgreeOn ((t.exit ord).core.get id).data (t.exit ord).core.canon.data t.core.cl
      (t.exit ord).core.cl := by
    rw [exit_data ht hc]
    exact hag
  have hle : t.core.cl ≤ (t.exit ord).core.canon.delayed := ht.delayed.ge.trans hev.canonDelayed
  refine ⟨fun p hp => ?_, fun q' hq' => ?_⟩
  · by_cases hold : p < t.core.cl
    · refine (h.released p ?_).evolves hev hold
      exact lt_of_lt_of_le hold ht.delayed.ge
    · have hdel : (t.exit ord).core.canon.delayed =
          max t.core.canon.delayed (min ((t.chosen ord).position ord) (t.exit ord).core.cl) := by
        rw [show (t.exit ord).core.canon.delayed = _ from hm.delayed, hr.selected.core]
        rfl
      change p < (t.exit ord).core.canon.delayed at hp
      have hp' := hp
      rw [hdel, ht.delayed] at hp'
      have hid' : id ∈ (t.chosen ord).quorum := hm.quorum ▸ hid
      have hpos := position_le ord hid'
      have hsame : ((t.chosen ord).core.get id).delayed = ((t.exit ord).core.get id).delayed :=
        (hm.frame.delayed id).symm
      exact ⟨id, show p < ((t.exit ord).core.get id).delayed by omega, hag' p (by omega) (by omega)⟩
  · cases hq'
    exact ⟨id, hid, hag'.mono hle le_rfl⟩

theorem micro_backed {m m' : State} (hw : m.WF) (h : Backed m) (hs : Micro joins exits m m') :
    Backed m' := by
  have hev := micro_evolves hw hs
  cases hs with
  | added _ hj hf =>
    have hcore := addReplay_core m
    exact h.of_same hw hev (by rw [hcore]) (by rw [hcore]) (fun _ hq => quorum_addReplay hq)
  | header _ id x hl hh =>
    obtain ⟨_, _, _, he⟩ := addHeader_eq (m.core.modify id (fun r => { r with header := some x })) x
    have hcore := mapCore_core (m.modify id (fun r => { r with header := some x }))
      (fun c => State.addHeader c x)
    rw [modify_core, he] at hcore
    refine h.of_same hw hev (by rw [hcore]; rfl) (by rw [hcore]; rfl) (fun q' hq => ?_)
    obtain ⟨q1, hq1, h1⟩ := quorum_mapCore hq
    obtain ⟨q, hq, h2⟩ := quorum_mapCore hq1
    exact ⟨q, hq, h1.trans h2⟩
  | data _ id buf hl hh =>
    have hcore := modify_core m id (fun r => { r with data := r.data ++ buf })
    exact h.of_same hw hev (by rw [hcore]; rfl) (by rw [hcore]; rfl) (fun _ hq => quorum_mapCore hq)
  | delayed _ id n hl h1 h2 =>
    have hcore := modify_core m id (fun r => { r with delayed := n })
    exact h.of_same hw hev (by rw [hcore]; rfl) (by rw [hcore]; rfl) (fun _ hq => quorum_mapCore hq)
  | ended _ id hl hd =>
    have hcore := modify_core m id (fun r => { r with finished := true })
    exact h.of_same hw hev (by rw [hcore]; rfl) (by rw [hcore]; rfl) (fun _ hq => quorum_mapCore hq)
  | evaluate t id hid =>
    have hcanon := (evaluate_canon t id).1
    exact h.of_evolves hw hev (congrArg Canon.delayed hcanon) (fun _ hq => nomatch hq)
  | started t id hd => exact h.of_evolves hw hev rfl (fun _ hq => nomatch hq)
  | update q ord => exact h.update hw ord
  | enter q hd => exact h.of_evolves hw hev rfl (fun _ hq => nomatch hq)
  | exit t ord hc hx => exact h.exit hw hc
  | finish _ hall =>
    have hcore := mapCore_core m State.finishCanon
    exact h.of_same hw hev (by rw [hcore]; rfl) (by rw [hcore]; rfl) (fun _ hq => quorum_mapCore hq)

/-- **every byte that is shown was released by a writer that has it** -/
theorem Micros.backed {m m' : State} (hs : Micros joins exits m m') (hw : m.WF) (h : Backed m) :
    Backed m' :=
  Micros.invariant hs (fun _ _ hw h hst => micro_backed hw h hst) hw h

/-! ## what is shown at least -/

/-- what a reserve replay of a stalemate released is canonical already -/
def Rested (m : State) : Prop := ∀ t, m = .stalemate t → ∀ id ∈ t.reserve,
  (t.core.get id).delayed ≤ t.core.cl

theorem new_rested (target dist : Nat) : Rested (State.new target dist) := by
  intro t ht id hid
  cases ht
  exact absurd hid (Finset.notMem_empty _)

/-- a replay that the strategy just looked at is short, and otherwise it released nothing new -/
theorem step_rested {m : State} (hi : m.Inv) (hst : Stream m) (h : Rested m) {a : Action}
    (ha : m.allowed a) (ords : Nat → IterOrder) : Rested (m.step ords a) := by
  intro t' ht' id hid
  have hle : (t'.core.get id).delayed ≤ t'.core.len id := by
    have hd := (State.step_inv hi ords ha).delayed id
    rw [ht'] at hd
    exact hd
  have of_waits : Waits (m.step ords a) id → (t'.core.get id).delayed ≤ t'.core.cl :=
    fun hw => hle.trans (hw t' ht' hid).1
  by_cases he : Entered m (m.step ords a)
  · exact of_waits (step_entered hi hst ha ords he)
  · rcases step_stays hi hst ha ords he ht' hid with hc | ⟨t, rfl, hres, hcl⟩
    · exact of_waits (step_waits hi hst ha ords hc)
    · rcases step_delayed hi.wf ords ha id with hsame | hnow
      · rw [ht'] at hsame
        change (t'.core.get id).delayed = (t.core.get id).delayed at hsame
        rw [hsame, hcl]
        exact h t rfl id hres
      · refine of_waits (step_waits hi hst ha ords ?_)
        rw [hnow]
        exact rfl

theorem started_of_released {m : State} (hi : m.Inv) {id : Nat} (h : 0 < (m.core.get id).delayed) :
    m.core.started = true := by
  by_contra hns
  exact h.ne' (hi.waiting (by simpa using hns) id)

/-- **what all tracked replays released is shown** -/
theorem shown_of_released {m : State} (hi : m.Inv) (hr : Rested m) {n : Nat}
    (htr : ∃ id, m.Tracked id)
    (hall : ∀ id, m.Tracked id → (m.core.get id).finished = true ∨ n ≤ (m.core.get id).delayed) :
    n ≤ m.core.canon.delayed := by
  cases m with
  | quorum q =>
    have hwf : q.WF := hi.wf
    have hcu := hi.caughtUp q rfl (min n q.core.cl) (min_le_right _ _) (fun id hid => by
      rcases hall id (Or.inl hid) with hf | hn
      · obtain ⟨-, hlen⟩ := hwf.members id hid
        have hend : (q.core.get id).delayed = q.core.len id := hi.ended id hf
        exact (min_le_right _ _).trans (hlen.trans hend.ge)
      · exact (min_le_left _ _).trans hn)
    have hstable : ¬ q.core.canon.delayed ≥ q.core.cl := of_decide_eq_false (hi.stable default)
    show n ≤ q.core.canon.delayed
    omega
  | stalemate t =>
    have hwf : t.WF := hi.wf
    show n ≤ t.core.canon.delayed
    rw [hwf.delayed]
    by_contra hlt
    -- nobody waits, and so there are candidates that wait for the start only
    have hres : t.reserve = ∅ := by
      rw [Finset.eq_empty_iff_forall_notMem]
      intro id hid
      rcases hall id (Or.inl hid) with hf | hn
      · exact Bool.false_ne_true ((hi.unfinished t rfl id hid).symm.trans hf)
      · exact hlt (hn.trans (hr t rfl id hid))
    obtain ⟨id, hid | ⟨b, hcand⟩⟩ := htr
    · rw [hres] at hid
      exact Finset.notMem_empty _ hid
    · obtain ⟨-, -, hb, -⟩ := hwf.cand b id hcand
      have hlen : t.core.cl < t.core.len id := (List.getElem?_eq_some_iff.mp hb).1
      have hkeys : t.cand.keys ≠ ∅ := by
        intro hk
        obtain ⟨l, hl, -⟩ := hcand
        rw [keys_eq_empty_iff.mp hk b] at hl
        cases hl
      have hpos : 0 < (t.core.get id).delayed := by
        rcases hall id (Or.inr ⟨b, hcand⟩) with hf | hn
        · have hend : (t.core.get id).delayed = t.core.len id := hi.ended id hf
          omega
        · have hn' : n ≤ (t.core.get id).delayed := hn
          omega
      have hstarted : t.core.started = true := started_of_released hi hpos
      have hc : t.canExit default = true := canExit_iff.mpr ⟨hstarted, hkeys, Or.inl hres⟩
      exact Bool.false_ne_true ((hi.stable default).symm.trans hc)

/-! ## replays that agree -/

/-- all replays are parts of `D` -/
def Core.Honest (c : Core) (D : List UInt8) : Prop := ∀ id, (c.get id).data <+: D

theorem canon_of_honest {m : State} {D : List UInt8} (hst : Stream m) (hD : m.core.Honest D) :
    m.core.canon.data <+: D := by
  refine List.prefix_iff_getElem?.mpr (fun i hi => ?_)
  obtain ⟨id, hlt, hget⟩ := hst.bytes i hi
  rw [getElem?_of_isPrefix (hD id) hlt, hget]
  exact List.getElem?_eq_getElem hi

/-- so no replay is dropped for its data -/
theorem dead_of_honest {m : State} {D : List UInt8} (hst : Stream m) (hD : m.core.Honest D) {id : Nat}
    (hd : DeadAt (m.core.get id) m.core.canon.data m.core.cl) :
    (m.core.get id).finished = true ∧ (m.core.get id).data <+: m.core.canon.data := by
  rcases hd with ⟨hf, hlen⟩ | ⟨i, hi, hlt, hne⟩
  · exact ⟨hf, List.prefix_of_prefix_length_le (hD id) (canon_of_honest hst hD) hlen⟩
  · refine absurd ?_ hne
    rw [← getElem?_of_isPrefix (hD id) hlt, getElem?_of_isPrefix (canon_of_honest hst hD) hi]

/-! ## who could go on -/

/-- **where all data is released, less than the target go on with the same byte** -/
theorem few_same_byte {m : State} (hi : m.Inv) (hdrop : Dropped m) (hr : Rested m)
    (hpos : 0 < m.core.target) (hrel : ∀ id, m.Tracked id → (m.core.get id).delayed = m.core.len id)
    (b : UInt8) (s : Finset Nat) (hs : ∀ id ∈ s, m.core.canon.data ++ [b] <+: (m.core.get id).data) :
    m.core.canon.delayed = m.core.cl ∧ s.card < m.core.target := by
  have hlonger : ∀ id ∈ s, m.core.cl < m.core.len id ∧ (m.core.get id).data[m.core.cl]? = some b := by
    intro id hid
    obtain ⟨l, hl⟩ := hs id hid
    refine ⟨?_, ?_⟩
    · rw [Core.len, ← hl, List.length_append, List.length_append]
      exact Nat.lt_of_lt_of_le (Nat.lt_succ_self _) (Nat.le_add_right _ _)
    · rw [← hl, List.append_assoc, Core.cl, List.getElem?_append_right le_rfl, Nat.sub_self]
      rfl
  have htr : ∀ id ∈ s, m.Tracked id := by
    intro id hid
    obtain ⟨hlen, -⟩ := hlonger id hid
    have hlt : id < m.core.replays.length := by
      by_contra hge
      rw [Core.len, Core.get_of_ge (not_lt.mp hge)] at hlen
      exact Nat.not_lt_zero _ hlen
    by_contra hno
    have hpre : m.core.canon.data.take m.core.cl <+: (m.core.get id).data := by
      rw [Core.cl, List.take_length]
      exact (List.prefix_append _ _).trans (hs id hid)
    exact absurd ((hdrop id hlt hno).not_extends le_rfl hpre) (not_le.mpr hlen)
  cases m with
  | quorum q =>
    have hwf : q.WF := hi.wf
    have hcu := hi.caughtUp q rfl q.core.cl le_rfl (fun id hid => by
      have hall : (q.core.get id).delayed = q.core.len id := hrel id (Or.inl hid)
      exact (hwf.members id hid).2.trans hall.ge)
    exact absurd hcu (of_decide_eq_false (hi.stable default))
  | stalemate t =>
    have hwf : t.WF := hi.wf
    refine ⟨hwf.delayed, ?_⟩
    have hcand : ∀ id ∈ s, IsCand t.cand b id := by
      intro id hid
      obtain ⟨hlen, hbyte⟩ := hlonger id hid
      rcases htr id hid with hres | ⟨b', hb'⟩
      · have hall : (t.core.get id).delayed = t.core.len id := hrel id (Or.inl hres)
        have hrest := hr t rfl id hres
        change t.core.cl < t.core.len id at hlen
        omega
      · obtain ⟨-, -, hbyte', -⟩ := hwf.cand b' id hb'
        cases hbyte'.symm.trans hbyte
        exact hb'
    by_contra hge
    obtain ⟨id, hid⟩ := Finset.card_pos.mp (lt_of_lt_of_le hpos (not_lt.mp hge))
    obtain ⟨l, hl, -⟩ := hcand id hid
    have hsub : s ⊆ l.toFinset := by
      intro j hj
      obtain ⟨l', hl', hjl⟩ := hcand j hj
      cases hl.symm.trans hl'
      exact List.mem_toFinset.mpr hjl
    have hcard : t.core.target ≤ l.length :=
      (not_lt.mp hge).trans ((Finset.card_le_card hsub).trans l.toFinset_card_le)
    have hkeys : t.cand.keys ≠ ∅ := by
      intro hk
      rw [keys_eq_empty_iff.mp hk b] at hl
      cases hl
    have hreleased : 0 < (t.core.get id).delayed := by
      have hall : (t.core.get id).delayed = t.core.len id := hrel id (htr id hid)
      have hlen : t.core.cl < t.core.len id := (hlonger id hid).1
      omega
    have hc : t.canExit default = true :=
      canExit_iff.mpr ⟨started_of_released hi hreleased, hkeys, Or.inr ⟨b, l, hl, hcard⟩⟩
    exact Bool.false_ne_true ((hi.stable default).symm.trans hc)

end Merge

end ReplayServer
