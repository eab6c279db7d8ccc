import ReplayServer.Replay.RefineSession
import ReplayServer.Replay.MergeReports

/-!
# replay: the code refines the abstract model, runs

* `Session.Rel.step`   the results of an allowed action are related;
* `Session.Tracks`     a session, the abstract state it implements, and what holds of that state;
* `Conforming.tracks`  every run that follows the protocol is a run of the abstract model.
-/

set_option linter.unusedSectionVars false

namespace ReplayServer
open Fallible Agree Merge Relation

/-- a replay that has not ended can only exist before `finish` -/
theorem not_finished_of_live {m : State} (h : m.Early) {id : Nat} (hl : m.live id) :
    m.core.canon.finished = false := by
  by_contra hf
  have hf' : m.core.canon.finished = true := by simpa using hf
  exact Bool.false_ne_true (hl.2.symm.trans (h.closed hf' id hl.1))

namespace Session.Rel
variable {s : Session} {m : State} (h : s.Rel m)
include h

/-- the strategy works, the connections stay -/
theorem reframe {m' : State} {σ : QuorumMergeStrategy} (hσ : σ.Rel m')
    (hfr : Core.Frame m.core m'.core) : Session.Rel { s with strategy := σ } m' := by
  refine ⟨hσ, h.length.trans hfr.length.symm, fun id c hc => ?_, h.finished.trans hfr.canonFinished.symm⟩
  rw [hfr.data, hfr.header, hfr.finished]
  exact h.conn id c hc

theorem settle (hw : m.WF) (hnf : m.core.canon.finished = false) (ords : Nat → IterOrder) :
    ReturnsIf (0 < m.core.target) (s.settle ords) (fun s' => s'.Rel (m.settle ords)) :=
  (h.strategy.workStateUntilStable hw hnf ords).bind
    (fun _ hσ => returnsIf_ok (h.reframe hσ (State.work_frame hw ords m.fuel).1))

theorem change (hw : m.WF) (hnf : m.core.canon.finished = false) {ord : IterOrder}
    (hc : m.shouldChange ord = true) : ReturnsIf (0 < m.core.target) (s.strategy.changeState ord)
      (fun σ => Session.Rel { s with strategy := σ } (m.change ord)) :=
  (h.strategy.changeState hw hc hnf).mono (fun _ hσ => h.reframe hσ (State.change_frame hw hc).1)

theorem modifyConn_self (id : Nat) {σ : QuorumMergeStrategy} {m' : State} {b : Bool}
    (hr : Session.Rel ⟨σ, s.modifyConn id (fun c => c), b⟩ m') : Session.Rel ⟨σ, s.conns, b⟩ m' := by
  have e : s.modifyConn id (fun c => c) = s.conns := List.modify_id id s.conns
  rwa [e] at hr

/-- the strategy and the connections after the direct part of a change to one replay -/
theorem changed {id : Nat} {f : Conn → Conn} {g : Replay → Replay} {m1 : State}
    {σ : QuorumMergeStrategy} (hσ : σ.Rel m1)
    (hf : ∀ c r, c.sent = r.data ∧ c.header = r.header ∧ c.ended = r.finished →
      (f c).sent = (g r).data ∧ (f c).header = (g r).header ∧ (f c).ended = (g r).finished)
    (hfr : Core.Frame (m.core.modify id g) m1.core) :
    Session.Rel ⟨σ, s.modifyConn id f, s.finished⟩ m1 :=
  h.modifyConn hσ hf (hfr.length.trans (Core.modify_length _ _ _))
    (fun j => ⟨hfr.data j, hfr.header j, hfr.finished j⟩) hfr.canonFinished

theorem added {σ : QuorumMergeStrategy} (hσ : σ.Rel m.addReplay) :
    Session.Rel ⟨σ, s.conns ++ [⟨[], none, false⟩], s.finished⟩ m.addReplay := by
  have hcore := addReplay_core m
  refine ⟨hσ, ?_, fun j c hc => ?_, ?_⟩
  · show (s.conns ++ [(⟨[], none, false⟩ : Conn)]).length = m.addReplay.core.replays.length
    rw [hcore, List.length_append, h.length]
    simp
  · rw [hcore, Core.get_addReplay]
    change (s.conns ++ [(⟨[], none, false⟩ : Conn)])[j]? = some c at hc
    by_cases hj : j < s.conns.length
    · rw [List.getElem?_append_left hj] at hc
      exact h.conn j c hc
    · rw [List.getElem?_append_right (not_lt.mp hj)] at hc
      have hj0 := (List.getElem?_eq_some_iff.mp hc).1
      rw [List.length_singleton] at hj0
      have hj1 : j - s.conns.length = 0 := by omega
      rw [hj1] at hc
      cases hc
      rw [Core.get_of_ge (by rw [← h.length]; omega)]
      exact ⟨rfl, rfl, rfl⟩
  · rw [hcore]
    exact h.finished

/-- the direct part of an allowed action does not fail -/
theorem direct (hi : m.Inv) (hst : Stream m) {a : Action} (ha : m.allowed a) (ord : IterOrder) :
    Returns (s.direct ord a) (fun s' => s'.Rel (m.direct ord a)) := by
  cases a with
  | added =>
    refine Returns.bind (h.strategy.addReplay hi.wf) ?_
    rintro ⟨σ, token⟩ hσ
    exact returns_ok (h.added hσ)
  | header id x =>
    have hnf := not_finished_of_live hi.toEarly ha.1
    have key := h.strategy.replayHeaderAdded hi.wf ha.1.1 hnf hst.header x
    show Returns (s.strategy.modifyWriter id _ >>= fun σ => σ.replayHeaderAdded id >>= _) _
    rw [← bind_assoc]
    refine Returns.bind key (fun σ hσ => returns_ok ?_)
    obtain ⟨_, _, _, he⟩ := addHeader_eq (m.core.modify id (fun r => { r with header := some x })) x
    have hcore : (m.direct ord (.header id x)).core =
        State.addHeader (m.core.modify id (fun r => { r with header := some x })) x :=
      (mapCore_core (m.modify id (fun r => { r with header := some x }))
        (fun c => State.addHeader c x)).trans
        (congrArg (fun c => State.addHeader c x) (modify_core _ _ _))
    refine h.modifyConn (g := fun r => { r with header := some x }) hσ
      (fun c r hcr => ⟨hcr.1, rfl, hcr.2.2⟩) ?_ (fun j => ?_) ?_
    · rw [hcore, he]
      exact Core.modify_length _ _ _
    · rw [hcore, he]
      exact ⟨rfl, rfl, rfl⟩
    · rw [hcore]
      unfold State.addHeader
      split <;> rfl
  | data id buf =>
    have key := h.strategy.modifyWriter ha.1.1 (f := fun w => w.addData buf)
      (g := fun r => { r with data := r.data ++ buf }) (fun rs hrs => hrs.addData buf)
    refine Returns.bind key (fun σ hσ => returns_ok ?_)
    refine h.changed (g := fun r => { r with data := r.data ++ buf }) hσ
      (fun c r hcr => ⟨by rw [hcr.1], hcr.2⟩) ?_
    rw [← modify_core]
    exact Core.Frame.refl _
  | delayed id n =>
    have hnf := not_finished_of_live hi.toEarly ha.1
    have key := h.strategy.modifyWriter ha.1.1 (f := fun w => w.setDelayedDataLen n)
      (g := fun r => { r with delayed := n }) (fun rs hrs => hrs.setDelayedDataLen ha.2.1)
    have hw1 : (m.modify id (fun r => { r with delayed := n })).WF := wf_modify hi.wf (grows_delayed n)
    refine Returns.bind key (fun σ hσ => ?_)
    refine Returns.bind (hσ.dataUpdated hw1 (by rw [modify_core]; exact hnf) ord
      (by rw [modify_core, Core.modify_length]; exact ha.1.1)) (fun σ' hσ' => returns_ok ?_)
    refine h.modifyConn_self id (h.changed (g := fun r => { r with delayed := n }) hσ'
      (fun c r hcr => hcr) ?_)
    rw [← modify_core]
    exact frame_dataUpdated _ ord id
  | updated id =>
    have ha' : m.live id := ha
    have hnf := not_finished_of_live hi.toEarly ha'
    refine Returns.bind (h.strategy.dataUpdated hi.wf hnf ord ha'.1) (fun σ hσ => returns_ok ?_)
    refine h.modifyConn_self id (h.changed (g := fun r => r) hσ (fun c r hcr => hcr) ?_)
    have e : m.core.modify id (fun r => r) = m.core := by
      unfold Core.modify
      rw [show m.core.replays.modify id (fun r => r) = _ from List.modify_id id _]
    rw [e]
    exact frame_dataUpdated m ord id
  | ended id =>
    have key := h.strategy.modifyWriter ha.1.1 (f := fun w => .ok w.finish)
      (g := fun r => { r with finished := true }) (fun rs hrs => returns_ok hrs.finish)
    have hw1 : (m.modify id (fun r => { r with finished := true })).WF := wf_modify hi.wf grows_finished
    refine Returns.bind key (fun σ hσ => ?_)
    refine Returns.bind (hσ.replayEnded hw1 id) (fun σ' hσ' => returns_ok ?_)
    refine h.changed (g := fun r => { r with finished := true }) hσ'
      (fun c r hcr => ⟨hcr.1, hcr.2.1, rfl⟩) ?_
    rw [← modify_core]
    exact frame_replayEnded _ id
  | finish =>
    obtain ⟨t, rfl, hr, hk, hd⟩ := State.finish_clean hi ha.2
    exact Returns.bind (h.strategy.finish hd hr hk)
      (fun σ hσ => returns_ok ⟨hσ, h.length, h.conn, rfl⟩)

/-- after the direct part of an action that settles, the session is not finished -/
theorem not_finished_direct (hi : m.Early) {a : Action} (ha : m.allowed a)
    (hs : Session.settles a = true) (ord : IterOrder) :
    (m.direct ord a).core.canon.finished = false := by
  cases a with
  | added =>
    show m.addReplay.core.canon.finished = false
    rw [addReplay_core]
    exact ha
  | delayed id n =>
    have hf := frame_dataUpdated (m.modify id (fun r => { r with delayed := n })) ord id
    refine hf.canonFinished.trans ?_
    rw [modify_core]
    exact not_finished_of_live hi ha.1
  | updated id => exact (frame_dataUpdated m ord id).canonFinished.trans (not_finished_of_live hi ha)
  | ended id =>
    have hf := frame_replayEnded (m.modify id (fun r => { r with finished := true })) id
    refine hf.canonFinished.trans ?_
    rw [modify_core]
    exact not_finished_of_live hi ha.1
  | header id x => cases hs
  | data id buf => cases hs
  | finish => cases hs

theorem modifyWriter_same {id : Nat} (hid : id < m.core.replays.length) :
    s.strategy.modifyWriter id (fun w => w.setDelayedDataLen (m.core.get id).delayed) =
      .ok s.strategy := by
  obtain ⟨sh, hs, hrel⟩ := h.strategy.shared
  obtain ⟨rs, hrs, hget, hr⟩ := hrel.getReplay hid
  have hset : rs.r.setDelayedDataLen (m.core.get id).delayed = .ok rs.r := by
    rw [← hr.delayed, WriterReplay.setDelayedDataLen, assertThat_true le_rfl]
    rfl
  unfold QuorumMergeStrategy.modifyWriter
  rw [hs, ok_bind, hget, ok_bind]
  dsimp only
  rw [hset, ok_bind]
  show Except.ok (s.strategy.setShared { sh with replays := sh.replays.set id rs }) = _
  rw [set_of_getElem? hrs]
  exact congrArg Except.ok (QuorumMergeStrategy.Rel.setShared_shared hs)

/-- **an allowed action is one of the abstract model, and does not fail with a positive target** -/
theorem step (hi : m.Inv) (hst : Stream m) {a : Action} (ha : m.allowed a)
    (ords : Nat → IterOrder) :
    ReturnsIf (0 < m.core.target) (s.step ords a) (fun s' => s'.Rel (m.step ords a)) := by
  rw [Session.step_eq]
  refine Returns.bindIf (h.direct hi hst ha (ords 0)) (fun t ht => ?_)
  unfold State.step
  by_cases hs : Session.settles a = true
  · rw [if_pos hs, if_pos hs]
    have hm : Micros (fun _ => True) (fun _ _ => True) m (m.direct (ords 0) a) :=
      direct_micros (ords 0) ha (fun _ => trivial)
    rw [← (Micros.evolves hm hi.wf).target]
    exact ht.settle (Micros.wf hi.wf hm) (h.not_finished_direct hi.toEarly ha hs (ords 0)) ords
  · rw [if_neg hs, if_neg hs]
    exact returnsIf_ok ht

end Session.Rel

/-! ## reading the abstract state off a session -/

namespace Session.Rel
variable {s : Session} {m : State} (h : s.Rel m)
include h

theorem merged_rel : s.merged.Rel m.core.canon := by
  obtain ⟨sh, hs, hrel⟩ := h.strategy.shared
  unfold Session.merged
  rw [hs]
  exact hrel.canon

theorem canon_eq : s.canon = m.core.canon.data := h.merged_rel.contents

theorem sent_eq (id : Nat) : s.sent id = (m.core.get id).data := by
  unfold Session.sent
  cases hc : s.conns[id]? with
  | some c => exact (h.conn id c hc).1
  | none =>
    rw [List.getElem?_eq_none_iff, h.length] at hc
    rw [Core.get_of_ge hc]
    rfl

theorem sent_funext : s.sent = fun id => (m.core.get id).data := funext h.sent_eq

theorem diverged_iff {id : Nat} (hid : id < m.core.replays.length) :
    s.diverged id = true ↔ ¬ m.Tracked id := by
  obtain ⟨sh, hs, hrel⟩ := h.strategy.shared
  obtain ⟨rs, hrs, _, hr⟩ := hrel.getReplay hid
  have e : s.diverged id = rs.diverged := by
    unfold Session.diverged
    rw [hs]
    dsimp only
    rw [hrs]
    rfl
  rw [e]
  constructor
  · intro hd ht
    exact Bool.false_ne_true ((hr.kept ht).1.symm.trans hd)
  · exact fun ht => (hr.dropped ht).1

theorem lt_of_diverged {id : Nat} (hd : s.diverged id = true) : id < m.core.replays.length := by
  obtain ⟨sh, hs, hrel⟩ := h.strategy.shared
  unfold Session.diverged at hd
  rw [hs] at hd
  dsimp only at hd
  rw [← hrel.length]
  by_contra hlt
  rw [List.getElem?_eq_none (not_lt.mp hlt)] at hd
  exact Bool.false_ne_true hd

theorem ended (hi : m.Inv) (hf : s.finished = true) : ∃ t, m = .stalemate t ∧ t.reserve = ∅ ∧
    t.cand.keys = ∅ ∧ t.core.canon.delayed = t.core.cl := by
  rw [h.finished] at hf
  exact State.finish_clean hi (hi.closed hf)

end Session.Rel

/-! ## runs -/

/-- what holds of the abstract states of all runs -/
structure Merge.State.Sound (m : State) : Prop extends m.Inv where
  dropped : Dropped m
  stream : Stream m

theorem Merge.State.step_sound {m : State} (h : m.Sound) {a : Action} (ords : Nat → IterOrder)
    (ha : m.allowed a) : (m.step ords a).Sound := by
  have hm := State.step_micros_true h.wf ords ha
  exact ⟨State.step_inv h.toInv ords ha, Micros.dropped hm h.wf h.dropped,
    Micros.stream hm h.wf h.stream⟩

/-- a session and the abstract state that it implements -/
structure Session.Tracks (s : Session) (m : State) : Prop where
  rel : s.Rel m
  sound : m.Sound

theorem Session.Tracks.new (target dist : Nat) :
    (Session.new target dist).Tracks (State.new target dist) :=
  ⟨Session.Rel.new target dist, State.new_inv target dist, new_dropped target dist, new_stream target dist⟩

/-- the simulation: the same iteration orders on both sides -/
theorem Session.Tracks.step {s : Session} {m : State} (h : s.Tracks m) {a : Action}
    (ha : s.allowed a = true) (ords : Nat → IterOrder) :
    m.allowed a ∧
      ReturnsIf (0 < m.core.target) (s.step ords a) (fun s' => s'.Tracks (m.step ords a)) := by
  have hma := (h.rel.allowed_iff a).mp ha
  refine ⟨hma, (h.rel.step h.sound.toInv h.sound.stream hma ords).mono (fun s' hs' => ?_)⟩
  exact ⟨hs', State.step_sound h.sound ords hma⟩

theorem Session.Tracks.simulates {s s' : Session} {m : State} (h : s.Tracks m) {a : Action}
    (hs : Session.Step s a s') : ∃ m', State.Step m a m' ∧ s'.Tracks m' := by
  obtain ⟨ha, ords, hok⟩ := hs
  obtain ⟨hma, hr⟩ := h.step ha ords
  exact ⟨_, ⟨hma, ords, rfl⟩, hr.spec _ hok⟩

/-- **every run of the code is a run of the abstract model** -/
theorem Session.Conforming.tracks {target dist : Nat} {acts : List Action} {s : Session}
    (hc : Session.Conforming target dist acts s) :
    ∃ m, Lts.Run State.Step (State.new target dist) acts m ∧ s.Tracks m :=
  hc.simulation (fun _ _ _ _ hr hs => hr.simulates hs) (Session.Tracks.new target dist)

/-- a run from any state of a run -/
theorem Session.Tracks.run {s s' : Session} {m : State} (h : s.Tracks m) {acts : List Action}
    (hr : Lts.Run Session.Step s acts s') :
    ∃ m', Lts.Run State.Step m acts m' ∧ s'.Tracks m' :=
  hr.simulation (fun _ _ _ _ hr hs => hr.simulates hs) h

/-- a run of the abstract model is a sequence of small steps -/
theorem Merge.State.run_micros {m m' : State} (h : m.Sound) {acts : List Action}
    (hr : Lts.Run State.Step m acts m') : Micros (fun _ => True) (fun _ _ => True) m m' := by
  have hinv : ∀ (m : State) (a : Action) (m' : State), m.Sound → State.Step m a m' → m'.Sound := by
    rintro m a _ hm ⟨ha, ords, rfl⟩
    exact State.step_sound hm ords ha
  refine hr.closed hinv (fun _ => ReflTransGen.refl) (fun _ _ _ => ReflTransGen.trans) ?_ h
  rintro m a _ hm ⟨ha, ords, rfl⟩
  exact State.step_micros_true hm.wf ords ha

theorem Merge.State.run_target {target dist : Nat} {acts : List Action} {m : State}
    (hr : Lts.Run State.Step (State.new target dist) acts m) : m.core.target = target := by
  have hs := (Session.Tracks.new target dist).sound
  exact (Micros.evolves (State.run_micros hs hr) hs.wf).target

/-- the abstract state shows what the actions of the run said -/
theorem Merge.State.run_reports {target dist : Nat} {acts : List Action} {m : State}
    (hr : Lts.Run State.Step (State.new target dist) acts m) : Reports acts m := by
  have key : m.Sound ∧ Reports acts m := by
    induction hr with
    | nil => exact ⟨(Session.Tracks.new target dist).sound, new_reports target dist⟩
    | snoc _ hs ih =>
      obtain ⟨ha, ords, rfl⟩ := hs
      exact ⟨State.step_sound ih.1 ords ha, ih.2.step ih.1.wf ords ha⟩
  exact key.2

end ReplayServer
