import ReplayServer.Replay.CanonicalStream
import ReplayServer.Replay.MergeTracking

/-!
# replay: where every replay is

`Session.tracked_once`: between callbacks every replay is in one place, a candidate list, the
quorum or the reserve, or it is dropped and holds no data.
-/

set_option linter.unusedSectionVars false

namespace ReplayServer
open Fallible Agree Merge

namespace Session

/-! ## evaluations -/

/-- the callback entered a stalemate: it comes from a quorum, or it merged on the way -/
def Enters (s s' : Session) : Prop :=
  (∃ t, s'.strategy = .stalemate t) ∧ ((∃ q, s.strategy = .quorum q) ∨ s.canon ≠ s'.canon)

/-- the callback is one for the replay, or enters a stalemate -/
def Evaluates (s : Session) (a : Action) (s' : Session) (id : Nat) : Prop :=
  a.Concerns s.conns.length id ∨ s.Enters s'

/-- `e` is the session right after the latest evaluation of `id` on the way to `s` -/
inductive LatestEvaluation (target dist id : Nat) : Session → Session → Prop where
  | now {acts : List Action} {s s' : Session} {a : Action} (h : Conforming target dist acts s)
      (hs : Step s a s') (he : s.Evaluates a s' id) : LatestEvaluation target dist id s' s'
  | later {s s' e : Session} {a : Action} (h : LatestEvaluation target dist id s e)
      (hs : Step s a s') (hn : ¬ s.Evaluates a s' id) : LatestEvaluation target dist id s' e

theorem exists_latestEvaluation {target dist : Nat} {acts : List Action} {s : Session}
    (h : Conforming target dist acts s) {id : Nat} (hid : id < s.conns.length) :
    ∃ e, LatestEvaluation target dist id s e := by
  induction h with
  | nil => exact absurd hid (Nat.not_lt_zero _)
  | @snoc s s' acts a h hs ih =>
    by_cases he : s.Evaluates a s' id
    · exact ⟨s', .now h hs he⟩
    · have hlt : id < s.conns.length := by
        obtain ⟨_, ords, hok⟩ := hs
        have hl := (step_rest hok).1
        by_cases ha : a = .added
        · subst ha
          rw [if_pos rfl] at hl
          have hne : id ≠ s.conns.length := fun h => he (Or.inl h)
          omega
        · rw [if_neg ha] at hl
          omega
      obtain ⟨e, hle⟩ := ih hlt
      exact ⟨e, .later hle hs he⟩

/-! ## the callbacks of the abstract model -/

theorem enters_iff {s s' : Session} {m m' : State} (h : s.Rel m) (h' : s'.Rel m') :
    s.Enters s' ↔ Entered m m' := by
  have hstale : (∃ t, s'.strategy = .stalemate t) ↔ ∃ t, m' = .stalemate t := by
    have hrel := h'.strategy
    revert hrel
    generalize s'.strategy = σ
    intro hrel
    cases hrel with
    | quorum _ => exact iff_of_false (fun ⟨_, h⟩ => nomatch h) (fun ⟨_, h⟩ => nomatch h)
    | stalemate _ => exact iff_of_true ⟨_, rfl⟩ ⟨_, rfl⟩
  have hquorum : (∃ q, s.strategy = .quorum q) ↔ ∃ q, m = .quorum q := by
    have hrel := h.strategy
    revert hrel
    generalize s.strategy = σ
    intro hrel
    cases hrel with
    | quorum _ => exact iff_of_true ⟨_, rfl⟩ ⟨_, rfl⟩
    | stalemate _ => exact iff_of_false (fun ⟨_, h⟩ => nomatch h) (fun ⟨_, h⟩ => nomatch h)
  unfold Enters Entered
  rw [hstale, hquorum, h.canon_eq, h'.canon_eq]

/-- what the latest evaluation found -/
theorem LatestEvaluation.waits {target dist id : Nat} {s e : Session}
    (h : LatestEvaluation target dist id s e) : ∃ m, s.Tracks m ∧
      ∀ t, m = .stalemate t → id ∈ t.reserve → (e.sent id).length ≤ t.core.cl ∧
        ∃ c, e.conns[id]? = some c ∧ c.ended = false := by
  induction h with
  | @now acts s s' a h hs he =>
    obtain ⟨m, _, ht⟩ := Conforming.tracks h
    obtain ⟨_, ⟨hma, ords, rfl⟩, ht'⟩ := ht.simulates hs
    refine ⟨_, ht', fun t hm hid => ?_⟩
    have hw : Waits (m.step ords a) id := by
      rcases he with hc | he
      · rw [ht.rel.length] at hc
        exact step_waits ht.sound.toInv ht.sound.stream hma ords hc
      · exact step_entered ht.sound.toInv ht.sound.stream hma ords ((enters_iff ht.rel ht'.rel).mp he)
    obtain ⟨h1, h2⟩ := hw t hm hid
    have hcore : (m.step ords a).core = t.core := by rw [hm]; rfl
    have hlt : id < (m.step ords a).core.replays.length :=
      State.tracked_lt ht'.sound.wf (by rw [hm]; exact Or.inl hid)
    rw [ht'.rel.sent_eq, hcore]
    refine ⟨h1, ?_⟩
    obtain ⟨c, hc, -, -, hfin⟩ := ht'.rel.conn_of_lt hlt
    refine ⟨c, hc, ?_⟩
    rw [hfin, hcore]
    exact h2
  | @later s s' e a _ hs hn ih =>
    obtain ⟨m, ht, hw⟩ := ih
    obtain ⟨_, ⟨hma, ords, rfl⟩, ht'⟩ := ht.simulates hs
    refine ⟨_, ht', fun t' hm hid => ?_⟩
    have hno : ¬ Entered m (m.step ords a) :=
      fun he => hn (Or.inr ((enters_iff ht.rel ht'.rel).mpr he))
    rcases step_stays ht.sound.toInv ht.sound.stream hma ords hno hm hid with hc | ⟨t, rfl, hres, hcl⟩
    · refine absurd (Or.inl ?_) hn
      rw [ht.rel.length]
      exact hc
    · rw [hcl]
      exact hw t rfl hres

end Session

/-! ## places -/

structure MergeStalemateState.Places (self : MergeStalemateState) (s : Session) : Prop where
  lists : ∀ b l, self.candidates.lookup b = some l → l ≠ [] ∧ l.Nodup
  disjoint : ∀ b l b' l', self.candidates.lookup b = some l → self.candidates.lookup b' = some l' →
    b ≠ b' → List.Disjoint l l'
  candidate : ∀ b l, self.candidates.lookup b = some l → ∀ id ∈ l, id ∉ self.reserve ∧
    s.canon.length < (s.sent id).length ∧ (s.sent id)[s.canon.length]? = some b ∧
    ∃ r, self.s.replays[id]? = some r ∧ r.dataMatchingCanon = s.canon.length
  delayed : self.s.canonDelayedDataLen = s.canon.length

structure MergeQuorumState.Places (self : MergeQuorumState) (target : Nat) (s : Session) : Prop where
  nonempty : self.quorum.Nonempty
  card : self.quorum.card ≤ target
  disjoint : Disjoint self.quorum self.reserve
  member : ∀ id ∈ self.quorum, s.canon.length ≤ (s.sent id).length
  delayed : self.s.canonDelayedDataLen < s.canon.length

/-- the replay is a candidate, in the quorum or in the reserve -/
def QuorumMergeStrategy.Holds (self : QuorumMergeStrategy) (id : Nat) : Prop :=
  match self with
  | .quorum q => id ∈ q.quorum ∨ id ∈ q.reserve
  | .stalemate t => id ∈ t.reserve ∨ ∃ b l, t.candidates.lookup b = some l ∧ id ∈ l
  | .swapping => False

theorem QuorumMergeStrategy.Rel.holds_iff {σ : QuorumMergeStrategy} {m : State} (h : σ.Rel m)
    (id : Nat) : σ.Holds id ↔ m.Tracked id := by
  cases h with
  | @quorum s q h =>
    show id ∈ s.quorum ∨ id ∈ s.reserve ↔ _
    rw [h.quorum, h.reserve]
    exact Iff.rfl
  | @stalemate s t h =>
    show id ∈ s.reserve ∨ (∃ b l, s.candidates.lookup b = some l ∧ id ∈ l) ↔ _
    rw [h.candidates, h.reserve]
    exact Iff.rfl

theorem MergeStalemateState.Rel.places {u : MergeStalemateState} {t : Stalemate} (h : u.Rel t)
    (hw : t.WF) {s : Session} (hs : s.Rel (.stalemate t)) : u.Places s := by
  have hcand := h.candidates
  have hcl : s.canon.length = t.core.cl := congrArg List.length hs.canon_eq
  refine ⟨fun b l hl => hw.lists b l (hcand ▸ hl), ?_, fun b l hl id hid => ?_, ?_⟩
  · rintro b l b' l' hl hl' hne id hid hid'
    have h1 := (hw.cand b id ⟨l, hcand ▸ hl, hid⟩).2.2.1
    have h2 := (hw.cand b' id ⟨l', hcand ▸ hl', hid'⟩).2.2.1
    rw [h1] at h2
    exact hne (Option.some.inj h2)
  · obtain ⟨h1, h2, h3, h4⟩ := hw.cand b id ⟨l, hcand ▸ hl, hid⟩
    obtain ⟨r, hr, _, hrel⟩ := h.shared.getReplay h1
    rw [hcl, hs.sent_eq, h.reserve]
    exact ⟨h2, (List.getElem?_eq_some_iff.mp h3).1, h3, r, hr, hrel.matching.trans h4⟩
  · rw [h.shared.canonDelayedDataLen, hcl]
    exact hw.delayed

theorem MergeQuorumState.Rel.places {u : MergeQuorumState} {q : Quorum} (h : u.Rel q)
    (hw : q.WF) (hst : (State.quorum q).Stable) {s : Session} (hs : s.Rel (.quorum q)) :
    u.Places (max 1 q.core.target) s := by
  have hcl : s.canon.length = q.core.cl := congrArg List.length hs.canon_eq
  refine ⟨h.quorum ▸ hw.nonempty, h.quorum ▸ hw.card, ?_, fun id hid => ?_, ?_⟩
  · rw [h.quorum, h.reserve]
    exact hw.disjoint
  · rw [hcl, hs.sent_eq]
    exact (hw.members id (h.quorum ▸ hid)).2
  · have hs : decide (q.core.canon.delayed ≥ q.core.cl) = false := hst default
    rw [h.shared.canonDelayedDataLen, hcl]
    exact not_le.mp (of_decide_eq_false hs)

/-! ## dropped replays -/

/-- a buffer that discarded all chunks a `usize` can count holds no data -/
theorem BufDeque.Repr.chunks_nil {b : BufDeque} {data : List UInt8} (h : b.Repr data)
    (hd : usizeMax / chunkSize ≤ b.discardedChunks)
    (hlen : data.length ≤ usizeMax / chunkSize * chunkSize) : b.chunks = [] := by
  have hc := h.chunks
  unfold chunkSize usizeMax at *
  exact List.length_eq_zero_iff.mp (by omega)

namespace Session

section
variable {target dist : Nat} {acts : List Action} {s : Session} (h : Conforming target dist acts s)
include h

/-- a reserve replay of a stalemate had nothing more to say when it was looked at last -/
theorem reserve_waits {u : MergeStalemateState} (hu : s.strategy = .stalemate u) {id : Nat}
    (hid : id ∈ u.reserve) : (∃ e, LatestEvaluation target dist id s e) ∧
      ∀ e, LatestEvaluation target dist id s e → (e.sent id).length ≤ s.canon.length ∧
        ∃ c, e.conns[id]? = some c ∧ c.ended = false := by
  obtain ⟨m, hrun, ht⟩ := h.tracks
  have hrel := ht.rel.strategy
  rw [hu] at hrel
  cases hrel with
  | @stalemate _ t hrel =>
    rw [hrel.reserve] at hid
    have hlt : id < s.conns.length := by
      rw [ht.rel.length]
      exact State.tracked_lt ht.sound.wf (Or.inl hid)
    refine ⟨exists_latestEvaluation h hlt, fun e he => ?_⟩
    obtain ⟨m', ht', hw⟩ := he.waits
    obtain ⟨u', hu', hrel'⟩ : ∃ t', m' = .stalemate t' ∧ u.Rel t' := by
      have hσ := ht'.rel.strategy
      rw [hu] at hσ
      cases hσ with
      | stalemate hσ => exact ⟨_, rfl, hσ⟩
    subst hu'
    have hres : id ∈ u'.reserve := by
      rw [← hrel'.reserve, hrel.reserve]
      exact hid
    rw [show s.canon.length = u'.core.cl from congrArg List.length ht'.rel.canon_eq]
    exact hw u' rfl hres

/-- a dropped replay never holds data again -/
theorem dropped_empty {id : Nat} (hid : id < s.conns.length) (hno : ¬ s.strategy.Holds id)
    {acts' : List Action} {s' : Session} (hrun' : Lts.Run Step s acts' s')
    (hlen : (s'.sent id).length ≤ usizeMax / chunkSize * chunkSize) :
    ∃ w, s'.writer id = some w ∧ w.data.chunks = [] := by
  obtain ⟨m, hrun, ht⟩ := h.tracks
  obtain ⟨m', hrun'', ht'⟩ := ht.run hrun'
  have hm := State.run_micros ht.sound hrun''
  rw [ht.rel.length] at hid
  have hlt : id < m'.core.replays.length :=
    lt_of_lt_of_le hid (Micros.evolves hm ht.sound.wf).length
  have hno' : ¬ m'.Tracked id :=
    fun htr => hno ((ht.rel.strategy.holds_iff id).mpr (Micros.tracked hm ht.sound.wf hid htr))
  obtain ⟨sh, hs, hrel⟩ := ht'.rel.strategy.shared
  obtain ⟨rs, hrs, _, hr⟩ := hrel.getReplay hlt
  refine ⟨rs.r, ?_, ?_⟩
  · unfold writer
    rw [hs]
    dsimp only
    rw [hrs]
    rfl
  · rw [ht'.rel.sent_eq] at hlen
    exact hr.data.chunks_nil (hr.dropped hno').2 hlen

end

/-- **every replay is tracked in one place, or it is dropped and holds no data** -/
theorem tracked_once {target dist : Nat} (hN : 0 < target) {acts : List Action} {s : Session}
    (h : Conforming target dist acts s) :
    ((∃ t, s.strategy = .stalemate t) ∨ ∃ q, s.strategy = .quorum q) ∧
    (∀ t, s.strategy = .stalemate t → t.Places s ∧ ∀ id ∈ t.reserve,
      (∃ e, LatestEvaluation target dist id s e) ∧
      ∀ e, LatestEvaluation target dist id s e → (e.sent id).length ≤ s.canon.length ∧
        ∃ c, e.conns[id]? = some c ∧ c.ended = false) ∧
    (∀ q, s.strategy = .quorum q → q.Places target s) ∧
    (∀ id < s.conns.length, ¬ s.strategy.Holds id → ∀ acts' s', Lts.Run Step s acts' s' →
      (s'.sent id).length ≤ usizeMax / chunkSize * chunkSize →
      ∃ w, s'.writer id = some w ∧ w.data.chunks = []) := by
  obtain ⟨m, hrun, ht⟩ := h.tracks
  refine ⟨?_, fun u hu => ?_, fun u hu => ?_,
    fun id hid hno acts' s' hrun' hlen => dropped_empty h hid hno hrun' hlen⟩
  · have hrel := ht.rel.strategy
    revert hrel
    generalize s.strategy = σ
    intro hrel
    cases hrel with
    | quorum _ => exact Or.inr ⟨_, rfl⟩
    | stalemate _ => exact Or.inl ⟨_, rfl⟩
  · refine ⟨?_, fun id hid => reserve_waits h hu hid⟩
    have hrel := ht.rel.strategy
    rw [hu] at hrel
    cases hrel with
    | stalemate hrel => exact hrel.places ht.sound.wf ht.rel
  · have hrel := ht.rel.strategy
    rw [hu] at hrel
    cases hrel with
    | @quorum _ q hrel =>
      have htar : max 1 q.core.target = target := by
        rw [show q.core.target = target from State.run_target hrun]
        exact max_eq_right hN
      rw [← htar]
      exact hrel.places ht.sound.wf ht.sound.stable ht.rel

/-- the quorum of a session, if it has one that is `{0}` and replay 1 is dropped -/
def loneQuorum (s : Session) : Option MergeQuorumState :=
  match s.strategy with
  | .quorum q => if q.quorum = {0} ∧ q.reserve = ∅ then some q else none
  | _ => none

theorem loneQuorum_eq_some {s : Session} {q : MergeQuorumState} (h : s.loneQuorum = some q) :
    s.strategy = .quorum q ∧ ¬ s.strategy.Holds 1 := by
  unfold loneQuorum at h
  split at h
  · rename_i q' hq
    split at h
    · rename_i hc
      cases h
      refine ⟨hq, ?_⟩
      rw [hq]
      rintro (h1 | h1)
      · rw [hc.1] at h1
        exact absurd h1 (by decide)
      · rw [hc.2] at h1
        exact Finset.notMem_empty _ h1
    · cases h
  · cases h

theorem tracked_once_contested : ∃ s s' q w, Conforming 2 3 contestedRun s ∧
    Lts.Run Step s contestedRest s' ∧ s.strategy = .quorum q ∧ q.Places 2 s ∧
    s'.sent 1 = [3, 4] ∧ s'.writer 1 = some w ∧ w.data.chunks = [] := by
  obtain ⟨s, hs, hf⟩ := run_of_exec_map (fun _ => default) contestedRun (.new 2 3)
    (fun s => (s.loneQuorum.isSome, s.conns.length,
      (s.exec (fun _ => default) contestedRest).toOption.map (fun s' => s'.sent 1)))
    (b := (true, 2, some [3, 4])) (by decide +kernel)
  obtain ⟨h1, hf⟩ := Prod.mk.inj hf
  obtain ⟨h2, hf⟩ := Prod.mk.inj hf
  obtain ⟨s', hs', hsent⟩ := run_of_exec_map _ _ s _ hf
  obtain ⟨q, hq⟩ := Option.isSome_iff_exists.mp h1
  obtain ⟨hq, hno⟩ := loneQuorum_eq_some hq
  obtain ⟨_, _, h3, h4⟩ := tracked_once (by decide) hs
  obtain ⟨w, hw, hc⟩ := h4 1 (by omega) hno _ s' hs' (by rw [hsent]; decide)
  exact ⟨s, s', q, w, hs, hs', hq, h3 q hq, hsent, hw, hc⟩

end Session

end ReplayServer
