import ReplayServer.Replay.RefineQuorum

/-!
# replay: the code refines the abstract model, sessions

`Session.Rel s m` connects a whole session with an abstract state.

* `Session.Rel.allowed_iff`   the caller may do the same on both sides;
* `Session.Rel.step`          an allowed action does not fail, and the results are related;
* `Session.run`               so every run that follows the protocol is a run of the abstract model.
-/

set_option linter.unusedSectionVars false

namespace ReplayServer
open Fallible Agree Merge

theorem set_of_getElem? {α : Type} {l : List α} {i : Nat} {a : α} (h : l[i]? = some a) :
    l.set i a = l := by
  obtain ⟨hlt, rfl⟩ := List.getElem?_eq_some_iff.mp h
  exact List.set_getElem_self hlt

inductive QuorumMergeStrategy.Rel : QuorumMergeStrategy → State → Prop where
  | quorum {s : MergeQuorumState} {q : Quorum} (h : s.Rel q) : Rel (.quorum s) (.quorum q)
  | stalemate {s : MergeStalemateState} {t : Stalemate} (h : s.Rel t) :
      Rel (.stalemate s) (.stalemate t)

namespace QuorumMergeStrategy.Rel
variable {σ : QuorumMergeStrategy} {m : State}

theorem shared (h : σ.Rel m) : ∃ s, σ.shared = .ok s ∧ s.Rel m.Tracked m.core := by
  cases h with
  | quorum h => exact ⟨_, rfl, h.shared⟩
  | stalemate h => exact ⟨_, rfl, h.shared⟩

theorem of_stalemate {t : Stalemate} (h : σ.Rel (.stalemate t)) :
    ∃ s, σ = .stalemate s ∧ s.Rel t := by
  cases h with
  | stalemate h => exact ⟨_, rfl, h⟩

theorem setShared (h : σ.Rel m) {s : SharedState} {f : Core → Core}
    (hs : s.Rel m.Tracked (f m.core)) : (σ.setShared s).Rel (m.mapCore f) := by
  cases h with
  | quorum h => exact .quorum ⟨hs, h.quorum, h.reserve⟩
  | stalemate h => exact .stalemate ⟨hs, h.candidates, h.reserve⟩

theorem shared_setShared (h : σ.Rel m) (s : SharedState) : (σ.setShared s).shared = .ok s := by
  cases h <;> rfl

theorem setShared_setShared (s s' : SharedState) :
    (σ.setShared s).setShared s' = σ.setShared s' := by
  cases σ <;> rfl

theorem setShared_shared {s : SharedState} (h : σ.shared = .ok s) : σ.setShared s = σ := by
  cases σ with
  | quorum q =>
    cases h
    rfl
  | stalemate t =>
    cases h
    rfl
  | swapping => rfl

/-! ### the loop -/

theorem shouldChangeState (h : σ.Rel m) (hw : m.WF) (ord : IterOrder) :
    σ.shouldChangeState ord = .ok (m.shouldChange ord) := by
  cases h with
  | quorum h =>
    exact congrArg Except.ok (h.hasToEnterStalemate (Quorum.WF.toBase hw))
  | stalemate h => exact h.canExitStalemate hw ord

theorem changeState (h : σ.Rel m) (hw : m.WF) {ord : IterOrder} (hc : m.shouldChange ord = true)
    (hf : m.core.canon.finished = false) :
    ReturnsIf (0 < m.core.target) (σ.changeState ord) (fun σ' => σ'.Rel (m.change ord)) := by
  cases h with
  | @quorum s q h =>
    have hq : q.WF := hw
    refine (Returns.bind (h.enterStalemate hq (le_antisymm hq.core.delayed (of_decide_eq_true hc)))
      (fun s' hs' => returns_ok (.stalemate hs'))).returnsIf
  | @stalemate s t h =>
    exact (h.exitStalemate hw hc hf).bind (fun s' hs' => returnsIf_ok (.quorum hs'))

theorem workLoop (ords : Nat → IterOrder) (fuel : Nat) (h : σ.Rel m) (hw : m.WF)
    (hf : m.core.canon.finished = false) (hr : m.rank ≤ fuel) :
    ReturnsIf (0 < m.core.target) (QuorumMergeStrategy.workLoop ords fuel σ)
      (fun σ' => σ'.Rel (m.work ords fuel)) := by
  induction fuel generalizing σ m with
  | zero =>
    have hc : m.shouldChange (ords 0) = false := by
      by_contra hc
      have := State.change_rank hw (show m.shouldChange (ords 0) = true by simpa using hc)
      omega
    unfold QuorumMergeStrategy.workLoop
    rw [h.shouldChangeState hw, hc]
    exact returnsIf_ok h
  | succ fuel ih =>
    unfold QuorumMergeStrategy.workLoop State.work
    rw [h.shouldChangeState hw, ok_bind]
    by_cases hc : m.shouldChange (ords (fuel + 1)) = true
    · rw [if_pos hc, if_pos hc]
      refine (h.changeState hw hc hf).bind (fun σ' hσ' => ?_)
      have hlt := State.change_rank hw hc
      have hfr := (State.change_frame hw hc).1
      rw [← hfr.target]
      refine ih hσ' (State.change_wf hw hc) ?_ (by omega)
      rw [hfr.canonFinished]
      exact hf
    · rw [if_neg hc, if_neg hc]
      exact returnsIf_ok h

theorem loopFuel (h : σ.Rel m) : σ.loopFuel = m.fuel := by
  obtain ⟨s, hs, hrel⟩ := h.shared
  unfold QuorumMergeStrategy.loopFuel State.fuel Core.longest
  rw [hs]
  dsimp only
  rw [hrel.lens, hrel.canonDataLen]

theorem workStateUntilStable (h : σ.Rel m) (hw : m.WF) (hf : m.core.canon.finished = false)
    (ords : Nat → IterOrder) :
    ReturnsIf (0 < m.core.target) (σ.workStateUntilStable ords)
      (fun σ' => σ'.Rel (m.settle ords)) := by
  unfold QuorumMergeStrategy.workStateUntilStable State.settle
  rw [h.loopFuel]
  exact h.workLoop ords _ hw hf (State.rank_lt_fuel m).le

/-! ### the direct parts of the callbacks -/

theorem addReplay (h : σ.Rel m) (hw : m.WF) :
    Returns (σ.addReplay .new) (fun x => x.1.Rel m.addReplay) := by
  have hshared : ∀ (s : SharedState) (c : Core) (T T' : Nat → Prop), s.Rel T c →
      (∀ id < c.replays.length, T id ↔ T' id) → T' c.replays.length →
      (s.addReplay .new).1.Rel T' { c with replays := c.replays ++ [.empty] } := by
    intro s c T T' hs hT hnew
    refine ⟨hs.dist, hs.started, hs.target, ?_, fun id rs hrs => ?_, hs.canon⟩
    · show (s.replays ++ _).length = (c.replays ++ _).length
      rw [List.length_append, List.length_append, hs.length]
      rfl
    · rw [Core.get_addReplay]
      change (s.replays ++ [ReplayState.new .new s.streamCmpDistance])[id]? = some rs at hrs
      by_cases hid : id < s.replays.length
      · rw [List.getElem?_append_left hid] at hrs
        exact (hs.replay id rs hrs).congr (hT id (hs.length ▸ hid))
      · rw [List.getElem?_append_right (not_lt.mp hid)] at hrs
        have hlen := (List.getElem?_eq_some_iff.mp hrs).1
        rw [List.length_singleton] at hlen
        have hide : id = c.replays.length := by
          rw [← hs.length]
          omega
        subst hide
        rw [hs.length, Nat.sub_self] at hrs
        have hrs' : ReplayState.new .new s.streamCmpDistance = rs := Option.some.inj hrs
        rw [Core.get_of_ge le_rfl, ← hrs']
        refine ⟨BufDeque.Repr.new, rfl, rfl, rfl, hs.dist, rfl, fun _ => ⟨rfl, ?_⟩,
          fun hn => absurd hnew hn⟩
        show 0 * chunkSize ≤ _
        rw [Nat.zero_mul]
        exact Nat.zero_le _
  cases h with
  | @quorum s q h =>
    refine returns_ok (.quorum ⟨?_, h.quorum, ?_⟩)
    · refine hshared s.s q.core _ _ h.shared (fun id hid => ?_) (Or.inr (Finset.mem_insert_self _ _))
      rw [Finset.mem_insert]
      constructor
      · exact fun hh => hh.imp (fun h => h) (fun h => Or.inr h)
      · rintro (h1 | h1 | h1)
        · exact Or.inl h1
        · exact absurd hid (by rw [h1]; exact lt_irrefl _)
        · exact Or.inr h1
    · show insert s.s.replays.length s.reserve = insert q.core.replays.length q.reserve
      rw [h.shared.length, h.reserve]
  | @stalemate s t h =>
    refine returns_ok (.stalemate ⟨?_, h.candidates, ?_⟩)
    · refine hshared s.s t.core _ _ h.shared (fun id hid => ?_)
        (Or.inl (Finset.mem_insert_self _ _))
      rw [State.tracked_stalemate, State.tracked_stalemate, Finset.mem_insert]
      constructor
      · exact fun hh => hh.imp (fun h => Or.inr h) (fun h => h)
      · rintro ((h1 | h1) | h1)
        · exact absurd hid (by rw [h1]; exact lt_irrefl _)
        · exact Or.inl h1
        · exact Or.inr h1
    · show insert s.s.replays.length s.reserve = insert t.core.replays.length t.reserve
      rw [h.shared.length, h.reserve]

theorem dataUpdated (h : σ.Rel m) (hw : m.WF) (hf : m.core.canon.finished = false)
    (ord : IterOrder) {id : Nat} (hid : id < m.core.replays.length) :
    Returns (σ.dataUpdated ord id) (fun σ' => σ'.Rel (m.dataUpdated ord id)) := by
  cases h with
  | quorum h =>
    exact Returns.bind (h.replayDataUpdated (Quorum.WF.toBase hw) hf ord id)
      (fun s' hs' => returns_ok (.quorum hs'))
  | stalemate h =>
    exact Returns.bind (h.replayDataUpdated hw hid) (fun s' hs' => returns_ok (.stalemate hs'))

theorem replayEnded (h : σ.Rel m) (hw : m.WF) (id : Nat) :
    Returns (σ.replayEnded id) (fun σ' => σ'.Rel (m.replayEnded id)) := by
  cases h with
  | quorum h => exact returns_ok (.quorum h)
  | stalemate h =>
    exact Returns.bind (h.replayEnded hw id) (fun s' hs' => returns_ok (.stalemate hs'))

/-- what a connection does to its replay -/
theorem modifyWriter (h : σ.Rel m) {id : Nat} (hid : id < m.core.replays.length)
    {f : WriterReplay → Res WriterReplay} {g : Replay → Replay}
    (hf : ∀ rs : ReplayState, rs.Rel m.core.dist m.core.cl (m.Tracked id) (m.core.get id) →
      Returns (f rs.r) (fun w => ReplayState.Rel m.core.dist m.core.cl (m.Tracked id)
        { rs with r := w } (g (m.core.get id)))) :
    Returns (σ.modifyWriter id f) (fun σ' => σ'.Rel (m.modify id g)) := by
  obtain ⟨s, hs, hrel⟩ := h.shared
  obtain ⟨rs, hrs, hget, hr⟩ := hrel.getReplay hid
  unfold QuorumMergeStrategy.modifyWriter
  rw [hs, ok_bind, hget, ok_bind]
  refine Returns.bind (hf rs hr) (fun w hw' => ?_)
  refine returns_ok (h.setShared (f := fun c => c.modify id g) ?_)
  have key : Returns (s.modifyReplay id (fun _ => { rs with r := w }))
      (fun s' => s'.Rel m.Tracked (m.core.modify id g)) :=
    hrel.modifyReplay hid (fun _ _ => hw') (fun _ _ => Iff.rfl)
  obtain ⟨s', hs', hrel'⟩ := key
  unfold SharedState.modifyReplay at hs'
  rw [hget, ok_bind] at hs'
  cases hs'
  exact hrel'

theorem replayHeaderAdded (h : σ.Rel m) (hw : m.WF) {id : Nat} (hid : id < m.core.replays.length)
    (hf : m.core.canon.finished = false) (hc : m.core.canon.header = none → m.core.canon.data = [])
    (x : ReplayHeader) :
    Returns (σ.modifyWriter id (fun w => .ok (w.addHeader x)) >>= fun σ' => σ'.replayHeaderAdded id)
      (fun σ' => σ'.Rel ((m.modify id (fun r => { r with header := some x })).mapCore
        (fun c => State.addHeader c x))) := by
  obtain ⟨s, hs, hrel⟩ := h.shared
  obtain ⟨rs, hrs, hget, hr⟩ := hrel.getReplay hid
  have hlt : id < s.replays.length := by rw [hrel.length]; exact hid
  obtain ⟨rs1, hrs1⟩ : ∃ rs1 : ReplayState, rs1 = { rs with r := rs.r.addHeader x } := ⟨_, rfl⟩
  have hrs1' : ({ rs1 with r := { rs1.r with header := none } } : ReplayState) = rs := by
    have hn := hr.header
    rw [hrs1]
    obtain ⟨⟨hd, d, dl, fi⟩, a, b, c⟩ := rs
    cases hn
    rfl
  obtain ⟨s1, hs1⟩ : ∃ s1 : SharedState, s1 = { s with replays := s.replays.set id rs1 } := ⟨_, rfl⟩
  have hmod : σ.modifyWriter id (fun w => .ok (w.addHeader x)) = .ok (σ.setShared s1) := by
    unfold QuorumMergeStrategy.modifyWriter
    rw [hs, ok_bind, hget, ok_bind, ok_bind, hs1, hrs1]
    rfl
  have hget1 : s1.getReplay id = .ok rs1 := by
    unfold SharedState.getReplay
    rw [hs1]
    show unwrap (s.replays.set id rs1)[id]? = _
    rw [List.getElem?_set_self hlt]
    rfl
  have hset : s.replays.set id rs = s.replays := set_of_getElem? hrs
  have hrel' : s.Rel m.Tracked (m.core.modify id (fun r => { r with header := some x })) := by
    have key : Returns (s.modifyReplay id (fun _ => rs))
        (fun s' => s'.Rel m.Tracked (m.core.modify id (fun r => { r with header := some x }))) :=
      hrel.modifyReplay hid (fun _ _ => ⟨hr.data, hr.header, hr.delayed, hr.finished, hr.cmpDistance,
        hr.matching, hr.kept, hr.dropped⟩) (fun _ _ => Iff.rfl)
    obtain ⟨s', hs', hrel'⟩ := key
    unfold SharedState.modifyReplay at hs'
    rw [hget, ok_bind] at hs'
    cases hs'
    rwa [hset] at hrel'
  have hstr : (m.modify id (fun r => { r with header := some x })).mapCore (fun c => State.addHeader c x) =
      m.mapCore (fun c => State.addHeader (c.modify id (fun r => { r with header := some x })) x) := by
    cases m <;> rfl
  have htake : rs1.r.takeHeader = .ok ({ rs1.r with header := none }, x) := by
    rw [hrs1]
    rfl
  rw [hmod, ok_bind, hstr]
  unfold QuorumMergeStrategy.replayHeaderAdded
  rw [h.shared_setShared, ok_bind, hget1, ok_bind, htake, ok_bind]
  subst hs1
  dsimp only
  rw [hrs1', List.set_set, hset, setShared_setShared, hrel.canon.header]
  by_cases hn : m.core.canon.header = none
  · rw [if_pos hn]
    refine Returns.bind (hrel.canon.addHeader (x := x) (hc hn) hf) (fun c' hc' => ?_)
    rw [setShared_setShared]
    refine returns_ok (h.setShared ?_)
    unfold State.addHeader
    rw [if_pos (show (m.core.modify id _).canon.header = none from hn)]
    exact ⟨hrel'.dist, hrel'.started, hrel'.target, hrel'.length, hrel'.replay, hc'⟩
  · rw [if_neg hn]
    refine returns_ok (h.setShared ?_)
    unfold State.addHeader
    rw [if_neg (show ¬ (m.core.modify id _).canon.header = none from hn)]
    exact hrel'

theorem finish {t : Stalemate} (h : σ.Rel (.stalemate t)) (hd : t.core.canon.delayed = t.core.cl)
    (hr : t.reserve = ∅) (hk : t.cand.keys = ∅) :
    Returns σ.finish (fun σ' => σ'.Rel ((State.stalemate t).mapCore State.finishCanon)) := by
  cases h with
  | @stalemate s t h =>
    unfold QuorumMergeStrategy.finish
    dsimp only
    rw [assertThat_true (by rw [h.shared.canonDataLen, h.shared.canonDelayedDataLen, hd]), ok_bind,
      assertThat_true (by rw [h.reserve, hr]), ok_bind,
      assertThat_true (by rw [h.candidates, hk]), ok_bind]
    refine returns_ok (.stalemate ⟨?_, h.candidates, h.reserve⟩)
    exact ⟨h.shared.dist, h.shared.started, h.shared.target, h.shared.length, h.shared.replay,
      h.shared.canon.finish⟩

end QuorumMergeStrategy.Rel

/-! ## what connections do to their replays -/

namespace ReplayState.Rel
variable {dist cl : Nat} {tr : Prop} {s : ReplayState} {r : Merge.Replay} (h : s.Rel dist cl tr r)
include h

theorem addData (buf : List UInt8) : Returns (s.r.addData buf)
    (fun w => ReplayState.Rel dist cl tr { s with r := w } { r with data := r.data ++ buf }) := by
  unfold WriterReplay.addData
  refine Returns.bind (h.data.writeAll buf) ?_
  rintro b ⟨hb, hd⟩
  refine returns_ok ⟨hb, h.header, h.delayed, h.finished, h.cmpDistance, h.matching, fun ht => ?_,
    fun ht => ?_⟩
  · obtain ⟨h1, h2⟩ := h.kept ht
    refine ⟨h1, ?_⟩
    show b.discardedChunks * chunkSize ≤ _
    rw [hd]
    exact h2
  · obtain ⟨h1, h2⟩ := h.dropped ht
    refine ⟨h1, ?_⟩
    show _ ≤ b.discardedChunks
    rw [hd]
    exact h2

theorem setDelayedDataLen {n : Nat} (hn : r.delayed ≤ n) : Returns (s.r.setDelayedDataLen n)
    (fun w => ReplayState.Rel dist cl tr { s with r := w } { r with delayed := n }) := by
  unfold WriterReplay.setDelayedDataLen
  rw [assertThat_true (by rw [h.delayed]; exact hn), ok_bind]
  exact returns_ok ⟨h.data, h.header, rfl, h.finished, h.cmpDistance, h.matching, h.kept, h.dropped⟩

theorem finish : ReplayState.Rel dist cl tr { s with r := s.r.finish } { r with finished := true } :=
  ⟨h.data, h.header, h.delayed, rfl, h.cmpDistance, h.matching, h.kept, h.dropped⟩

end ReplayState.Rel

/-! ## sessions -/

structure Session.Rel (s : Session) (m : State) : Prop where
  strategy : s.strategy.Rel m
  length : s.conns.length = m.core.replays.length
  conn : ∀ (id : Nat) (c : Conn), s.conns[id]? = some c → c.sent = (m.core.get id).data ∧
    c.header = (m.core.get id).header ∧ c.ended = (m.core.get id).finished
  finished : s.finished = m.core.canon.finished

theorem Session.Rel.new (target dist : Nat) : (Session.new target dist).Rel (State.new target dist) := by
  refine ⟨.stalemate ⟨⟨rfl, rfl, rfl, rfl, fun id rs hrs => ?_, ?_⟩, rfl, rfl⟩, rfl, ?_, rfl⟩
  · exact absurd hrs (by simp [SharedState.new, MergeStalemateState.new])
  · exact ⟨BufDeque.Repr.new, rfl, rfl, rfl, rfl, rfl⟩
  · intro id c hc
    exact absurd hc (by simp [Session.new])

namespace Session.Rel
variable {s : Session} {m : State} (h : s.Rel m)
include h

theorem conn_of_lt {id : Nat} (hid : id < m.core.replays.length) :
    ∃ c, s.conns[id]? = some c ∧ c.sent = (m.core.get id).data ∧
      c.header = (m.core.get id).header ∧ c.ended = (m.core.get id).finished := by
  have hlt : id < s.conns.length := by rw [h.length]; exact hid
  have hc := List.getElem?_eq_getElem hlt
  exact ⟨_, hc, h.conn id _ hc⟩

theorem live_some {id : Nat} (hl : m.live id) : ∃ c, s.live id = some c ∧
    c.header = (m.core.get id).header := by
  obtain ⟨c, hc, h1, h2, h3⟩ := h.conn_of_lt hl.1
  refine ⟨c, ?_, h2⟩
  unfold Session.live
  rw [hc, Option.filter_some, if_pos]
  rw [h3, hl.2]
  rfl

theorem live_none {id : Nat} (hl : ¬ m.live id) : s.live id = none := by
  unfold Session.live
  by_cases hid : id < m.core.replays.length
  · obtain ⟨c, hc, h1, h2, h3⟩ := h.conn_of_lt hid
    rw [hc, Option.filter_some, if_neg]
    rw [h3]
    intro hf
    exact hl ⟨hid, by simpa using hf⟩
  · rw [List.getElem?_eq_none (by rw [h.length]; omega)]
    rfl

theorem writer_some {id : Nat} (hid : id < m.core.replays.length) : ∃ w, s.writer id = some w ∧
    w.delayedDataLen = (m.core.get id).delayed ∧ w.dataLen = m.core.len id := by
  obtain ⟨sh, hs, hrel⟩ := h.strategy.shared
  obtain ⟨rs, hrs, _, hr⟩ := hrel.getReplay hid
  refine ⟨rs.r, ?_, hr.delayed, hr.dataLen⟩
  unfold Session.writer
  rw [hs]
  dsimp only
  rw [hrs]
  rfl

section
variable {id : Nat} {P : Prop}

theorem isSome_live_iff : (s.live id).isSome = true ↔ m.live id := by
  by_cases hl : m.live id
  · obtain ⟨c, hc, _⟩ := h.live_some hl
    rw [hc]
    exact ⟨fun _ => hl, fun _ => rfl⟩
  · rw [h.live_none hl]
    exact ⟨fun hf => absurd hf Bool.false_ne_true, fun hf => absurd hf hl⟩

/-- a question to the connection of a live replay -/
theorem any_live_iff {p : Conn → Bool}
    (hp : ∀ c : Conn, c.header = (m.core.get id).header → (p c = true ↔ P)) :
    (s.live id).any p = true ↔ m.live id ∧ P := by
  by_cases hl : m.live id
  · obtain ⟨c, hc, hh⟩ := h.live_some hl
    rw [hc, Option.any_some, hp c hh]
    exact ⟨fun hP => ⟨hl, hP⟩, fun hP => hP.2⟩
  · rw [h.live_none hl]
    exact ⟨fun hf => absurd hf Bool.false_ne_true, fun hf => absurd hf.1 hl⟩

/-- a question to the writer of a live replay -/
theorem live_writer_iff {p : WriterReplay → Bool}
    (hp : ∀ w : WriterReplay, w.delayedDataLen = (m.core.get id).delayed →
      w.dataLen = m.core.len id → (p w = true ↔ P)) :
    ((s.live id).isSome && (s.writer id).any p) = true ↔ m.live id ∧ P := by
  rw [Bool.and_eq_true, h.isSome_live_iff]
  refine and_congr_right fun hl => ?_
  obtain ⟨w, hw, h1, h2⟩ := h.writer_some hl.1
  rw [hw, Option.any_some, hp w h1 h2]

end

/-- **the caller may do the same on both sides** -/
theorem allowed_iff (a : Action) : s.allowed a = true ↔ m.allowed a := by
  cases a with
  | added =>
    show (!s.finished) = true ↔ m.core.canon.finished = false
    rw [h.finished, Bool.not_eq_true']
  | header id x =>
    refine h.any_live_iff (fun c hh => ?_)
    rw [hh, Option.isNone_iff_eq_none]
  | data id buf =>
    refine h.any_live_iff (fun c hh => ?_)
    rw [hh, Option.isSome_iff_ne_none]
  | delayed id n =>
    refine h.live_writer_iff (fun w h1 h2 => ?_)
    rw [Bool.and_eq_true, decide_eq_true_eq, decide_eq_true_eq, h1, h2]
  | updated id => exact h.isSome_live_iff
  | ended id =>
    refine h.live_writer_iff (fun w h1 h2 => ?_)
    rw [beq_iff_eq, h1, h2]
  | finish =>
    show (!s.finished && s.conns.all _) = true ↔ m.core.canon.finished = false ∧ _
    rw [Bool.and_eq_true, h.finished, Bool.not_eq_true', List.all_eq_true]
    refine and_congr_right fun _ => ⟨fun hall id hid => ?_, fun hall c hc => ?_⟩
    · obtain ⟨c, hc, _, _, h3⟩ := h.conn_of_lt hid
      rw [← h3]
      exact hall c (List.mem_of_getElem? hc)
    · obtain ⟨id, hid, he⟩ := List.getElem_of_mem hc
      have hc' := List.getElem?_eq_getElem hid
      rw [he] at hc'
      rw [(h.conn id c hc').2.2]
      exact hall id (h.length ▸ hid)

/-- the connection of `id` changes with its replay -/
theorem modifyConn {id : Nat} {f : Conn → Conn} {g : Replay → Replay} {m' : State}
    {σ : QuorumMergeStrategy} (hσ : σ.Rel m')
    (hf : ∀ c r, c.sent = r.data ∧ c.header = r.header ∧ c.ended = r.finished →
      (f c).sent = (g r).data ∧ (f c).header = (g r).header ∧ (f c).ended = (g r).finished)
    (hlen : m'.core.replays.length = m.core.replays.length)
    (hm : ∀ j, (m'.core.get j).data = ((m.core.modify id g).get j).data ∧
      (m'.core.get j).header = ((m.core.modify id g).get j).header ∧
      (m'.core.get j).finished = ((m.core.modify id g).get j).finished)
    (hfin : m'.core.canon.finished = m.core.canon.finished) :
    Session.Rel ⟨σ, s.modifyConn id f, s.finished⟩ m' := by
  refine ⟨hσ, ?_, fun j c hc => ?_, h.finished.trans hfin.symm⟩
  · show (s.conns.modify id f).length = _
    rw [List.length_modify, hlen]
    exact h.length
  · change (s.conns.modify id f)[j]? = some c at hc
    obtain ⟨h1, h2, h3⟩ := hm j
    rw [h1, h2, h3]
    by_cases hj : j = id
    · subst hj
      rw [List.getElem?_modify_eq] at hc
      obtain ⟨c0, hc0, rfl⟩ := Option.map_eq_some_iff.mp hc
      have hlt : j < m.core.replays.length := by
        rw [← h.length]
        exact (List.getElem?_eq_some_iff.mp hc0).1
      rw [Core.get_modify_self hlt]
      exact hf c0 _ (h.conn j c0 hc0)
    · rw [List.getElem?_modify_ne _ _ (fun e => hj e.symm)] at hc
      rw [Core.get_modify_ne hj]
      exact h.conn j c hc

end Session.Rel

end ReplayServer
