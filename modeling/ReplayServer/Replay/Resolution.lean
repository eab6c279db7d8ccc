import ReplayServer.Replay.MergeWindow
import ReplayServer.Replay.Safety

/-!
# replay: how a stalemate is resolved

A new quorum is meant to merge what all its members have in common, which is the ground for the
second claim of `quorum_merge_strategy.rs`: the merged replay is one that somebody sent.
`common_prefix_from_to` feels its bound only at a chunk edge, so this is so under a condition on
the data of the members, `Session.MergesExactly`.

* `Session.merges_common_iff`      a quorum merges what its members have in common iff it holds;
* `Session.canon_is_sent`          if it always holds, the merged replay is one that was sent;
* `Session.Conforming.exact`       which it does for a quorum of at most two;
* `Session.merges_common_fails`    a quorum of three that merges a byte that two members deny;
* `Session.canon_is_sent_fails`    a merged replay that nobody sent.
-/

set_option linter.unusedSectionVars false

namespace ReplayServer
open Fallible Agree Merge Relation

/-! ## the members of a new quorum -/

/-- the members of the quorum that `exit_stalemate` forms, in the order of its comparisons -/
def MergeStalemateState.chosen (self : MergeStalemateState) (ord : IterOrder) : Res (List Nat) := do
  let goodReplays ← unwrap (self.candidates.lookup (← self.bestByte ord))
  let keyed ← self.s.withLens goodReplays
  let goodReplays := ((ord.sort keyed).map Prod.fst).reverse
  return ord.ids (goodReplays.take (min goodReplays.length self.s.targetQuorumSize)).toFinset

def MergeQuorumState.canon (self : MergeQuorumState) : List UInt8 :=
  self.s.canonicalStream.data.contents

theorem MergeStalemateState.Rel.chosen {u : MergeStalemateState} {t : Stalemate} (h : u.Rel t)
    (hw : t.WF) (hpos : 0 < t.core.target) {ord : IterOrder} (hc : t.canExit ord = true) :
    u.chosen ord = .ok (ord.ids (t.chosen ord).quorum) := by
  have hne := (canExit_iff.mp hc).2.1
  have hr := resolved hw ord hne
  unfold MergeStalemateState.chosen
  rw [h.bestByte hw ord hne, ok_bind, h.candidates, hr.lookup, unwrap_some, ok_bind,
    h.shared.withLens (fun id hid => (hw.cand _ id (hr.cand id hid)).1), ok_bind, h.shared.target,
    ← max_eq_right (show 1 ≤ t.core.target from hpos)]
  rfl

namespace Session

/-- the comparisons of the new quorum end where its members stop to agree -/
def MergesExactly (s : Session) (t : MergeStalemateState) (ord : IterOrder) : Prop :=
  ∀ members, t.chosen ord = .ok members → ExactMerge s.sent (s.canon.length + 1) members

/-- the canonical data grew to the longest common prefix of the members -/
structure MergesCommon (s : Session) (q : MergeQuorumState) : Prop where
  grows : s.canon <+: q.canon
  agrees : ∀ id ∈ q.quorum, ∀ p, s.canon.length ≤ p → p < q.canon.length →
    (s.sent id)[p]? = q.canon[p]?
  ends : (∃ id ∈ q.quorum, (s.sent id).length = q.canon.length) ∨
    ∃ i ∈ q.quorum, ∃ j ∈ q.quorum, (s.sent i)[q.canon.length]? ≠ (s.sent j)[q.canon.length]?

/-! ## exact merges -/

section
variable {s : Session} {u : MergeStalemateState} {t : Stalemate} {ord : IterOrder}
  (h : s.Rel (.stalemate t)) (hw : t.WF) (hc : t.canExit ord = true)
include h hw hc

theorem mergesExactly_iff (hpos : 0 < t.core.target) (hu : u.Rel t) :
    s.MergesExactly u ord ↔ ExactExit t ord := by
  have hr := resolved hw ord (canExit_iff.mp hc).2.1
  have hlen : s.canon.length + 1 = (t.chosen ord).core.cl := by
    rw [hr.selected.core, hr.cl, h.canon_eq]
    rfl
  have hdata : s.sent = fun id => ((t.chosen ord).core.get id).data := by
    rw [h.sent_funext, hr.selected.core]
    rfl
  unfold MergesExactly
  rw [hu.chosen hw hpos hc, hlen, hdata]
  constructor
  · exact fun hx => hx _ rfl
  · rintro hx members hm
    cases hm
    exact hx

/-- the members of the new quorum that match the canonical data also match the byte that resolves
the stalemate -/
theorem agree_resolved {id : Nat} (hid : id ∈ (t.exit ord).quorum)
    (hag : s.canon <+: s.sent id) :
    AgreeOn ((t.chosen ord).core.get id).data (t.chosen ord).core.canon.data 0
      (t.chosen ord).core.cl := by
  have hr := resolved hw ord (canExit_iff.mp hc).2.1
  rw [h.canon_eq, h.sent_eq] at hag
  have hcand := (hw.cand _ id (exit_member hw hc hid)).2.2.1
  rw [hr.selected.core, hr.cl, hr.data]
  intro i _ hi
  by_cases hlt : i < t.core.cl
  · rw [List.getElem?_append_left hlt]
    exact AgreeOn.of_prefix hag 0 le_rfl i (Nat.zero_le _) hlt
  · have hi' : i = t.core.canon.data.length := by
      have : t.core.cl = t.core.canon.data.length := rfl
      omega
    rw [hi', List.getElem?_concat_length]
    exact hcand

theorem mergesCommon_iff {q : MergeQuorumState} (hq : q.Rel (t.exit ord))
    (hag : ∀ id ∈ q.quorum, s.canon <+: s.sent id) : s.MergesCommon q ↔ ExactExit t ord := by
  have hr := resolved hw ord (canExit_iff.mp hc).2.1
  have hm := Quorum.merge_spec hr.base ord
  have hquorum : q.quorum = (t.chosen ord).quorum := hq.quorum.trans hm.quorum
  have hcont : q.canon = (t.exit ord).core.canon.data := hq.shared.canon.contents
  have hlen : q.canon.length = (t.exit ord).core.cl := congrArg List.length hcont
  have hsent : ∀ id, s.sent id = ((t.chosen ord).core.get id).data := by
    intro id
    rw [h.sent_eq, hr.selected.core]
    rfl
  have hgrow := (evolves_exit hw hc).grow
  have hag' : ∀ id ∈ (t.chosen ord).quorum, AgreeOn ((t.chosen ord).core.get id).data
      (t.chosen ord).core.canon.data 0 (t.chosen ord).core.cl := by
    intro id hid
    rw [← hquorum] at hid
    exact agree_resolved h hw hc (hq.quorum ▸ hid) (hag id hid)
  have hpre : ∀ id ∈ q.quorum, ((t.exit ord).core.canon.data <+: s.sent id ↔
      ∀ p, s.canon.length ≤ p → p < (t.exit ord).core.cl →
        (s.sent id)[p]? = (t.exit ord).core.canon.data[p]?) := fun id hid =>
    prefix_iff_agreeOn (h.canon_eq ▸ hgrow) (hag id hid)
  have key := Quorum.merge_common_iff ord hr.base hag'
  rw [← hquorum] at key
  refine Iff.trans ?_ key
  constructor
  · rintro ⟨-, hagr, hends⟩
    refine ⟨fun id hid => ?_, ?_⟩
    · rw [← hsent]
      refine (hpre id hid).mpr (fun p h1 h2 => ?_)
      rw [← hcont]
      exact hagr id hid p h1 (hlen.symm ▸ h2)
    · rw [hlen] at hends
      refine hends.imp ?_ ?_
      · rintro ⟨id, hid, he⟩
        exact ⟨id, hid, (congrArg List.length (hsent id)).symm.trans he⟩
      · rintro ⟨i, hi, j, hj, hne⟩
        rw [hsent, hsent] at hne
        exact ⟨i, hi, j, hj, hne⟩
  · rintro ⟨hagr, hends⟩
    refine ⟨?_, fun id hid => ?_, ?_⟩
    · rw [hcont, h.canon_eq]
      exact hgrow
    · rw [hcont]
      refine (hpre id hid).mp ?_
      rw [hsent]
      exact hagr id hid
    · rw [hlen]
      refine hends.imp ?_ ?_
      · rintro ⟨id, hid, he⟩
        exact ⟨id, hid, (congrArg List.length (hsent id)).trans he⟩
      · rintro ⟨i, hi, j, hj, hne⟩
        rw [← hsent, ← hsent] at hne
        exact ⟨i, hi, j, hj, hne⟩

end

/-- **when a quorum merges exactly what its members have in common** -/
theorem merges_common_iff {target dist : Nat} (hN : 0 < target) {s : Session}
    (hv : Visits target dist s) {u : MergeStalemateState} (hs : s.strategy = .stalemate u)
    {ord : IterOrder} (hc : u.canExitStalemate ord = .ok true) {q : MergeQuorumState}
    (hq : u.exitStalemate ord = .ok q) (hag : ∀ id ∈ q.quorum, s.canon <+: s.sent id) :
    s.MergesCommon q ↔ s.MergesExactly u ord := by
  obtain ⟨m, hrel, hw, hnf, htar, -⟩ := hv.related
  have hσ := hrel.strategy
  rw [hs] at hσ
  cases hσ with
  | @stalemate _ t ht =>
    rw [ht.canExitStalemate hw] at hc
    have hc' := Except.ok.inj hc
    have hq' := (ht.exitStalemate hw hc' hnf).spec _ hq
    exact (mergesCommon_iff hrel hw hc' hq' hag).trans (mergesExactly_iff hrel hw hc' (htar.symm ▸ hN) ht).symm

/-- the stalemate of a session and the quorum that resolves it -/
def resolve (s : Session) (ord : IterOrder) : Option (MergeStalemateState × MergeQuorumState) :=
  match s.strategy with
  | .stalemate u =>
    match u.canExitStalemate ord, u.exitStalemate ord with
    | .ok true, .ok q => some (u, q)
    | _, _ => none
  | _ => none

theorem resolve_eq_some {s : Session} {ord : IterOrder} {u : MergeStalemateState}
    {q : MergeQuorumState} (h : s.resolve ord = some (u, q)) : s.strategy = .stalemate u ∧
      u.canExitStalemate ord = .ok true ∧ u.exitStalemate ord = .ok q := by
  unfold resolve at h
  split at h
  · rename_i v hv
    split at h
    · rename_i q' hc hq
      obtain ⟨rfl, rfl⟩ := Prod.mk.inj (Option.some.inj h)
      exact ⟨hv, hc, hq⟩
    · cases h
  · cases h

/-- three replays that agree on two bytes, the first of them on no more -/
def deniedRun : List Action :=
  [.added, .added, .added, .header 0 ⟨[7]⟩, .header 1 ⟨[7]⟩, .header 2 ⟨[7]⟩,
    .data 0 [1, 1, 2, 9, 9], .data 1 [1, 1, 1, 1], .data 2 [1, 1, 1, 1], .delayed 0 1, .updated 1]

/-- what the resolution of a stalemate shows: the canonical data before and after it, and replay 1,
if that is in the quorum -/
def resolution (s : Session) (ord : IterOrder) : Option (List (List UInt8)) := do
  let x ← s.resolve ord
  if 1 ∈ x.2.quorum then return [s.canon, x.2.canon, s.sent 1]
  none

/-- the stalemate of `deniedRun` is resolved with four bytes, two of which only replay 0 has -/
theorem denied_resolve : ∃ s u q, Visits 3 100 s ∧ s.resolve default = some (u, q) ∧
    1 ∈ q.quorum ∧ s.canon = [] ∧ q.canon = [1, 1, 2, 9] ∧ s.sent 1 = [1, 1, 1, 1] := by
  obtain ⟨s, hs, hf⟩ := run_of_exec_map (fun _ => default) deniedRun (.new 3 100)
    (fun s => (s.allowed (.updated 2),
      (s.direct default (.updated 2)).toOption.bind (fun t => t.resolution default)))
    (b := (true, some [[], [1, 1, 2, 9], [1, 1, 1, 1]])) (by decide +kernel)
  obtain ⟨ha, hf⟩ := Prod.mk.inj hf
  obtain ⟨t, ht, hf⟩ := Option.bind_eq_some_iff.mp hf
  obtain ⟨⟨u, q⟩, hx, hf⟩ := Option.bind_eq_some_iff.mp hf
  by_cases hmem : 1 ∈ q.quorum
  · rw [if_pos hmem] at hf
    obtain ⟨h1, hf⟩ := List.cons.inj (Option.some.inj hf)
    obtain ⟨h2, hf⟩ := List.cons.inj hf
    obtain ⟨h3, -⟩ := List.cons.inj hf
    exact ⟨t, u, q, .called hs ha rfl (eq_ok_of_toOption ht), hx, hmem, h1, h2, h3⟩
  · rw [if_neg hmem] at hf
    cases hf

/-- **a quorum can merge bytes that its members do not have** -/
theorem merges_common_fails : ∃ s u q, Visits 3 100 s ∧ s.strategy = .stalemate u ∧
    u.canExitStalemate default = .ok true ∧ u.exitStalemate default = .ok q ∧
    (∀ id ∈ q.quorum, s.canon <+: s.sent id) ∧ ¬ s.MergesCommon q := by
  obtain ⟨s, u, q, hv, hx, hmem, hcanon, hdata, hsent⟩ := denied_resolve
  obtain ⟨h1, h2, h3⟩ := resolve_eq_some hx
  refine ⟨s, u, q, hv, h1, h2, h3, fun id _ => ?_, fun hm => ?_⟩
  · rw [hcanon]
    exact List.nil_prefix
  · have h := hm.agrees 1 hmem 2
    rw [hcanon, hsent, hdata] at h
    exact absurd (h (Nat.zero_le 2) (by decide)) (by decide)

theorem merges_common_iff_denied : ∃ s u q, Visits 3 100 s ∧ u.exitStalemate default = .ok q ∧
    (s.MergesCommon q ↔ s.MergesExactly u default) := by
  obtain ⟨s, u, q, hv, hx, -, hcanon, -, -⟩ := denied_resolve
  obtain ⟨h1, h2, h3⟩ := resolve_eq_some hx
  refine ⟨s, u, q, hv, h3, merges_common_iff (by decide) hv h1 h2 h3 (fun id _ => ?_)⟩
  rw [hcanon]
  exact List.nil_prefix

/-! ## runs in which all merges are exact -/

/-- the loop resolves stalemates exactly from here on -/
def loopExact (ords : Nat → IterOrder) : Nat → Session → Prop
  | 0, _ => True
  | fuel + 1, s => s.strategy.shouldChangeState (ords (fuel + 1)) = .ok true →
    (∀ u, s.strategy = .stalemate u → s.MergesExactly u (ords (fuel + 1))) ∧
      ∀ σ, s.strategy.changeState (ords (fuel + 1)) = .ok σ →
        loopExact ords fuel { s with strategy := σ }

/-- a step whose callback resolves all stalemates exactly -/
def ExactStep (s : Session) (a : Action) (s' : Session) : Prop :=
  s.allowed a = true ∧ ∃ ords, s.step ords a = .ok s' ∧
    (settles a = true → ∀ u, s.direct (ords 0) a = .ok u → loopExact ords u.strategy.loopFuel u)

theorem loopExact_iff {s : Session} {m : State} (h : s.Rel m) (hw : m.WF)
    (hpos : 0 < m.core.target) (hnf : m.core.canon.finished = false) (ords : Nat → IterOrder) (fuel : Nat) :
    loopExact ords fuel s ↔ Passes ExactExit ords fuel m := by
  induction fuel generalizing s m with
  | zero => exact Iff.rfl
  | succ fuel ih =>
    unfold loopExact Passes
    rw [h.strategy.shouldChangeState hw, Except.ok.injEq]
    refine forall_congr' (fun hc => and_congr ?_ ?_)
    · cases m with
      | quorum q =>
        refine iff_of_true (fun u hu => ?_) (fun t ht => by cases ht)
        have hrel := h.strategy
        rw [hu] at hrel
        cases hrel
      | stalemate t =>
        obtain ⟨u, hu, ht⟩ := h.strategy.of_stalemate
        constructor
        · intro hx t' ht'
          cases ht'
          exact (mergesExactly_iff h hw hc hpos ht).mp (hx u hu)
        · intro hx v hv
          rw [hu] at hv
          cases hv
          exact (mergesExactly_iff h hw hc hpos ht).mpr (hx t rfl)
    · obtain ⟨σ, hσ, hrel⟩ := (h.change hw hnf hc).returns hpos
      have hfr := (State.change_frame hw hc).1
      rw [← ih hrel (State.change_wf hw hc) (hfr.target.symm ▸ hpos) (hfr.canonFinished.trans hnf), hσ]
      constructor
      · exact fun hx => hx σ rfl
      · intro hx σ' hσ'
        cases hσ'
        exact hx

theorem Tracks.exact {s s' : Session} {m : State} (h : s.Tracks m) (hpos : 0 < m.core.target)
    {a : Action} (hs : ExactStep s a s') : ∃ m', Micros (fun _ => True) ExactExit m m' ∧ s'.Tracks m' := by
  obtain ⟨ha, ords, hok, hx⟩ := hs
  obtain ⟨hma, hr⟩ := h.step ha ords
  refine ⟨_, step_micros h.sound.wf ords hma (fun _ => trivial) (fun hset => ?_), hr.spec _ hok⟩
  obtain ⟨u, hu, hrel⟩ := h.rel.direct h.sound.toInv h.sound.stream hma (ords 0)
  have hm : Micros (fun _ => True) (fun _ _ => True) m (m.direct (ords 0) a) :=
    direct_micros (ords 0) hma (fun _ => trivial)
  have hnf := h.rel.not_finished_direct h.sound.toEarly hma hset (ords 0)
  have hp := (loopExact_iff hrel (Micros.wf h.sound.wf hm)
    ((Micros.evolves hm h.sound.wf).target.symm ▸ hpos) hnf ords _).mp (hx hset u hu)
  rwa [hrel.strategy.loopFuel] at hp

/-- **with a quorum of at most two, all merges of a run are exact** -/
theorem Conforming.exact {target dist : Nat} (hN : 0 < target) (h2 : target ≤ 2)
    {acts : List Action} {s : Session} (h : Conforming target dist acts s) :
    Lts.Run ExactStep (new target dist) acts s := by
  induction h with
  | nil => exact .nil _
  | @snoc s s' acts a h hs ih =>
    refine .snoc ih ?_
    obtain ⟨ha, ords, hok⟩ := hs
    refine ⟨ha, ords, hok, fun hset u hu => ?_⟩
    obtain ⟨m, hrun, ht⟩ := Conforming.tracks h
    have hma := (ht.rel.allowed_iff a).mp ha
    have hm : Micros (fun _ => True) (fun _ _ => True) m (m.direct (ords 0) a) :=
      direct_micros (ords 0) hma (fun _ => trivial)
    have hrel := (ht.rel.direct ht.sound.toInv ht.sound.stream hma (ords 0)).of_eq hu
    have htar : (m.direct (ords 0) a).core.target = target :=
      (Micros.evolves hm ht.sound.wf).target.trans (State.run_target hrun)
    exact (loopExact_iff hrel (Micros.wf ht.sound.wf hm) (htar.symm ▸ hN)
      (ht.rel.not_finished_direct ht.sound.toEarly hma hset (ords 0)) ords _).mpr
        (passes_of_target (Micros.wf ht.sound.wf hm) (htar.symm ▸ h2) ords _)

/-- a session whose merged data has the windows of `MergeWindow` -/
structure Joined (s : Session) (m : State) : Prop where
  tracks : s.Tracks m
  window : Window m
  sources : Sources m
  ends : Ends m

theorem Joined.of_micros {s s' : Session} {m m' : State} (h : s.Joined m) (ht : s'.Tracks m')
    (hm : Micros (fun _ => True) ExactExit m m') : s'.Joined m' := by
  obtain ⟨h1, h2, h3⟩ := Micros.windows hm h.tracks.sound.wf ⟨h.window, h.sources, h.ends⟩
  exact ⟨ht, h1, h2, h3⟩

theorem Joined.new (target dist : Nat) :
    (Session.new target dist).Joined (State.new target dist) := by
  obtain ⟨h1, h2, h3⟩ := new_windows target dist
  exact ⟨Tracks.new target dist, h1, h2, h3⟩

/-- some replay ends with the merged data of a finished session -/
theorem Joined.finished_end {s : Session} {m : State} (h : s.Joined m) (hf : s.finished = true)
    (hne : s.canon ≠ []) : ∃ id, (s.sent id).length = s.canon.length ∧
      AgreeOn (s.sent id) s.canon (s.canon.length - m.core.dist) s.canon.length := by
  rw [h.tracks.rel.canon_eq] at hne ⊢
  obtain ⟨id, hag, hor⟩ := h.ends (List.length_pos_iff.mpr hne)
  refine ⟨id, ?_, ?_⟩
  · rcases hor with ⟨htr, -⟩ | ⟨-, hl⟩
    · exact absurd htr (h.tracks.not_tracked hf)
    · rw [h.tracks.rel.sent_eq]
      exact hl
  · rw [h.tracks.rel.sent_eq]
    exact hag

theorem joined_of_exact {target dist : Nat} (hN : 0 < target) {acts : List Action} {s : Session}
    (h : Lts.Run ExactStep (new target dist) acts s) : ∃ m, s.Joined m ∧ m.core.dist = dist := by
  have key : ∃ m, s.Joined m ∧ m.core.dist = dist ∧ m.core.target = target := by
    refine h.invariant (I := fun s => ∃ m, s.Joined m ∧ m.core.dist = dist ∧ m.core.target = target)
      ?_ ⟨_, Joined.new target dist, rfl, rfl⟩
    rintro s a s' ⟨m, hj, hd, ht⟩ hs
    obtain ⟨m', hm, ht'⟩ := hj.tracks.exact (ht ▸ hN) hs
    have hev := Micros.evolves hm hj.tracks.sound.wf
    exact ⟨m', hj.of_micros ht' hm, hev.dist.trans hd, hev.target.trans ht⟩
  obtain ⟨m, hj, hd, _⟩ := key
  exact ⟨m, hj, hd⟩

/-- a session whose merged data is empty was sent nothing -/
theorem Tracks.sent_nil {s : Session} {m : State} (h : s.Tracks m) (hf : s.finished = true)
    (hc : s.canon = []) (id : Nat) : s.sent id = [] := by
  rw [h.rel.canon_eq] at hc
  rw [h.rel.sent_eq]
  by_cases hid : id < m.core.replays.length
  · have hle := (dead_of_finished h hf hid).not_extends le_rfl (by
      rw [hc, List.take_nil]
      exact List.nil_prefix)
    have hcl : m.core.cl = 0 := congrArg List.length hc
    exact List.length_eq_zero_iff.mp (by omega)
  · rw [Core.get_of_ge (not_lt.mp hid)]
    rfl

/-- **if all merges are exact, the merged replay is one that somebody sent** -/
theorem canon_is_sent {target dist : Nat} (hN : 0 < target) {acts : List Action} {s : Session}
    (h : Lts.Run ExactStep (new target dist) acts s) (hf : s.finished = true)
    (hlen : ∀ c ∈ s.conns, c.sent.length ≤ dist) :
    (s.conns = [] → s.canon = []) ∧ (s.conns ≠ [] → ∃ c ∈ s.conns, c.sent = s.canon) := by
  obtain ⟨m, hj, hd⟩ := joined_of_exact hN h
  have hsent : s.canon ≠ [] → ∃ c ∈ s.conns, c.sent = s.canon := by
    intro hne
    obtain ⟨id, hl, hag⟩ := hj.finished_end hf hne
    have hle := sent_length_le hlen id
    rw [hd, ← hl, Nat.sub_eq_zero_of_le hle] at hag
    have heq : s.canon = s.sent id := by
      refine (agreeOn_zero_iff.mpr ⟨hl.ge, ?_⟩).eq_of_length hl.symm
      rw [← hl]
      exact hag
    rw [heq] at hne ⊢
    exact exists_conn hne
  refine ⟨fun hnil => ?_, fun hne => ?_⟩
  · by_contra hc
    obtain ⟨c, hmem, _⟩ := hsent hc
    rw [hnil] at hmem
    exact List.not_mem_nil hmem
  · by_cases hc : s.canon = []
    · obtain ⟨c, hmem⟩ := List.exists_mem_of_ne_nil _ hne
      refine ⟨c, hmem, ?_⟩
      obtain ⟨id, hid⟩ := List.mem_iff_getElem?.mp hmem
      have hs := hj.tracks.sent_nil hf hc id
      unfold sent at hs
      rw [hid] at hs
      rw [hc]
      exact hs
    · exact hsent hc

theorem canon_is_sent_contested : ∃ s,
    Lts.Run ExactStep (new 2 3) (contestedRun ++ (contestedRest ++ [.finish])) s ∧
    s.finished = true ∧ s.conns ≠ [] ∧ ∃ c ∈ s.conns, c.sent = s.canon := by
  obtain ⟨s, hs, hf⟩ := run_of_exec_map (fun _ => default)
    (contestedRun ++ (contestedRest ++ [.finish])) (.new 2 3)
    (fun s => (s.finished, decide (∀ c ∈ s.conns, c.sent.length ≤ 3), decide (s.conns ≠ [])))
    (b := (true, true, true)) (by decide +kernel)
  obtain ⟨h1, hf⟩ := Prod.mk.inj hf
  obtain ⟨h2, h3⟩ := Prod.mk.inj hf
  have hx := Conforming.exact (by decide) le_rfl hs
  exact ⟨s, hx, h1, of_decide_eq_true h3,
    (canon_is_sent (by decide) hx h1 (of_decide_eq_true h2)).2 (of_decide_eq_true h3)⟩

def deniedRest : List Action :=
  [.updated 2, .data 1 [5], .data 2 [5], .delayed 0 5, .delayed 1 5, .delayed 2 5, .ended 0, .ended 1,
    .ended 2, .finish]

/-- **the merged replay can be one that nobody sent** -/
theorem canon_is_sent_fails : ∃ s, Conforming 3 100 (deniedRun ++ deniedRest) s ∧
    s.finished = true ∧ (∀ c ∈ s.conns, c.sent.length ≤ 100) ∧ s.conns ≠ [] ∧
    ¬ ∃ c ∈ s.conns, c.sent = s.canon := by
  obtain ⟨s, hs, hf⟩ := run_of_exec_map (fun _ => default) (deniedRun ++ deniedRest) (.new 3 100)
    (fun s => (s.finished, decide (∀ c ∈ s.conns, c.sent.length ≤ 100), decide (s.conns ≠ []),
      decide (∃ c ∈ s.conns, c.sent = s.canon))) (b := (true, true, true, false)) (by decide +kernel)
  obtain ⟨h1, hf⟩ := Prod.mk.inj hf
  obtain ⟨h2, hf⟩ := Prod.mk.inj hf
  obtain ⟨h3, h4⟩ := Prod.mk.inj hf
  exact ⟨s, hs, h1, of_decide_eq_true h2, of_decide_eq_true h3, of_decide_eq_false h4⟩

end Session

end ReplayServer
