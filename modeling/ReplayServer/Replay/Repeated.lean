import ReplayServer.Replay.Tracking

/-!
# replay: repeated notifications

`replay_data_updated` may be called without a change.  A replay that is in the reserve of a
stalemate was looked at before, so looking again finds what was found then.

* `run_waits`                  a replay that does not change is found waiting;
* `Rel.replayDataUpdated_same` to look at it again changes nothing;
* `Session.updated_again`      this holds in every run, whatever the others did in between.
-/

namespace ReplayServer
open Fallible Merge

/-! ## waiting replays -/

namespace Merge
variable {m m' : State} {id : Nat}

/-- what the strategy can find out about a replay did not change -/
structure Unchanged (id : Nat) (c c' : Core) : Prop where
  len : c'.len id = c.len id
  finished : (c'.get id).finished = (c.get id).finished

/-- a replay that is the same at both ends was the same in between -/
theorem Unchanged.split {c c' c'' : Core} (h : Unchanged id c c'') (he : Evolves c c')
    (he' : Evolves c' c'') : Unchanged id c c' ∧ Unchanged id c' c'' := by
  have h1 := he.len id
  have h2 := he'.len id
  have hlen : c'.len id = c.len id := by
    have h3 := h.len
    omega
  have hfin : (c'.get id).finished = (c.get id).finished := by
    cases hc : (c.get id).finished with
    | true => exact (he.finished id hc).1
    | false =>
      by_contra hne
      have hf : (c'.get id).finished = true := by simpa using hne
      have hf' := h.finished
      rw [(he'.finished id hf).1, hc] at hf'
      cases hf'
  exact ⟨⟨hlen, hfin⟩, ⟨h.len.trans hlen.symm, h.finished.trans hfin.symm⟩⟩

/-- a callback is for a replay that is there after it -/
theorem step_concerned (hw : m.WF) {a : Action} (ha : m.allowed a) (ords : Nat → IterOrder)
    (hc : a.Concerns m.core.replays.length id) : id < (m.step ords a).core.replays.length := by
  have hev := Micros.evolves (State.step_micros_true hw ords ha) hw
  have of_live : m.live id → id < (m.step ords a).core.replays.length :=
    fun hl => hl.1.trans_le hev.length
  cases a with
  | added =>
    have hid : id = m.core.replays.length := hc
    have hd : State.WF m.addReplay := wf_addReplay hw
    have hf := (State.work_frame hd ords m.addReplay.fuel).1
    show id < (m.addReplay.work ords m.addReplay.fuel).core.replays.length
    rw [hf.length, addReplay_core, hid]
    simp
  | header i x =>
    obtain rfl : id = i := hc
    exact of_live ha.1
  | data i buf => exact hc.elim
  | delayed i n =>
    obtain rfl : id = i := hc
    exact of_live ha.1
  | updated i =>
    obtain rfl : id = i := hc
    exact of_live ha
  | ended i =>
    obtain rfl : id = i := hc
    exact of_live ha.1
  | finish => exact hc.elim

theorem Waits.step (h : Waits m id) (hm : m.Sound) {a : Action} (ords : Nat → IterOrder)
    (ha : m.allowed a) (hu : Unchanged id m.core (m.step ords a).core) :
    Waits (m.step ords a) id := by
  by_cases he : Entered m (m.step ords a)
  · exact step_entered hm.toInv hm.stream ha ords he
  · intro t' ht' hid
    cases step_stays hm.toInv hm.stream ha ords he ht' hid with
    | inl hc => exact step_waits hm.toInv hm.stream ha ords hc t' ht' hid
    | inr hstay =>
      obtain ⟨t, rfl, hres, hcl⟩ := hstay
      obtain ⟨h1, h2⟩ := h t rfl hres
      obtain ⟨h3, h4⟩ := hu
      rw [ht'] at h3 h4
      refine ⟨?_, h4.trans h2⟩
      rw [hcl]
      exact h3.trans_le h1

/-- the replay may be overtaken by the others, and is looked at whenever that matters -/
theorem run_waits (hm : m.Sound) {acts : List Action} (hr : Lts.Run State.Step m acts m')
    (hu : Unchanged id m.core m'.core) (h : Waits m id) : Waits m' id := by
  have key : Evolves m.core m'.core ∧ (Unchanged id m.core m'.core → Waits m id → Waits m' id) := by
    refine hr.closed (I := State.Sound)
      (R := fun m m' => Evolves m.core m'.core ∧
        (Unchanged id m.core m'.core → Waits m id → Waits m' id)) ?_ ?_ ?_ ?_ hm
    · rintro m a _ hm ⟨ha, ords, rfl⟩
      exact State.step_sound hm ords ha
    · intro m
      exact ⟨Evolves.refl _, fun _ h => h⟩
    · rintro m m1 m2 ⟨he, h⟩ ⟨he', h'⟩
      refine ⟨he.trans he', fun hu hw => ?_⟩
      obtain ⟨h1, h2⟩ := hu.split he he'
      exact h' h2 (h h1 hw)
    · rintro m a _ hm ⟨ha, ords, rfl⟩
      exact ⟨Micros.evolves (State.step_micros_true hm.wf ords ha) hm.wf,
        fun hu hw => hw.step hm ords ha hu⟩
  exact key.2 hu h

end Merge

/-! ## looking again -/

/-- the delayed position of a quorum that caught up stays -/
theorem MergeQuorumState.Rel.updateDelayedPosition_same {s : MergeQuorumState} {q : Quorum}
    (h : s.Rel q) (hb : q.Base) (hc : q.CaughtUp) (ord : IterOrder) :
    s.updateDelayedPosition ord = .ok s := by
  have hle : min (q.position ord) q.core.cl ≤ q.core.canon.delayed := by
    apply hc _ (min_le_right _ _)
    intro id hid
    exact (min_le_left _ _).trans (position_le ord hid)
  unfold MergeQuorumState.updateDelayedPosition SharedState.updateCanonDelayedDataLen
  rw [h.quorumDelayedPosition hb, ok_bind, h.shared.canonDataLen, h.shared.canonDelayedDataLen]
  simp only [hle, if_true]
  rfl

theorem MergeStalemateState.Rel.replayDataUpdated_same {s : MergeStalemateState} {t : Stalemate}
    (h : s.Rel t) {id : Nat} (hid : id < t.core.replays.length) (hw : Waits (.stalemate t) id)
    (hd : t.core.started = false → (t.core.get id).delayed = 0) :
    s.replayDataUpdated id = .ok s := by
  obtain ⟨rs, _, hget, hrel⟩ := h.shared.getReplay hid
  have hsame : (if id ∈ s.reserve then s.tryMoveReplayToCandidates id else .ok s) = .ok s := by
    split
    · rename_i hin
      rw [h.reserve] at hin
      obtain ⟨hlen, hfin⟩ := hw t rfl hin
      unfold MergeStalemateState.tryMoveReplayToCandidates
      rw [hget, ok_bind, h.shared.canonDataLen, if_pos (hrel.dataLen.trans_le hlen), hrel.finished,
        hfin]
      rfl
    · rfl
  have hno : (!s.s.delayedDataStarted && decide (rs.r.delayedDataLen > 0)) = false := by
    rw [h.shared.started, hrel.delayed]
    cases hs : t.core.started with
    | true => rfl
    | false => simp [hd hs]
  rw [MergeStalemateState.replayDataUpdated_eq, hsame]
  simp only [ok_bind, hget, hno]
  rfl

namespace QuorumMergeStrategy.Rel
variable {σ : QuorumMergeStrategy} {m : State}

theorem dataUpdated_same (h : σ.Rel m) (hi : m.Inv) (ord : IterOrder) {id : Nat}
    (hid : id < m.core.replays.length) (hw : Waits m id) : σ.dataUpdated ord id = .ok σ := by
  cases h with
  | @quorum s q h =>
    have hq : q.WF := hi.wf
    have hsame : s.replayDataUpdated ord id = .ok s := by
      unfold MergeQuorumState.replayDataUpdated
      split
      · exact h.updateDelayedPosition_same hq.toBase (hi.caughtUp q rfl) ord
      · rfl
    unfold QuorumMergeStrategy.dataUpdated
    simp only [hsame, ok_bind]
    rfl
  | @stalemate s t h =>
    have hsame := h.replayDataUpdated_same hid hw (fun hs => hi.waiting hs id)
    unfold QuorumMergeStrategy.dataUpdated
    simp only [hsame, ok_bind]
    rfl

theorem workStateUntilStable_same (h : σ.Rel m) (hi : m.Inv) (ords : Nat → IterOrder) :
    σ.workStateUntilStable ords = .ok σ := by
  have hs : ∀ ord, σ.shouldChangeState ord = .ok false := by
    intro ord
    rw [h.shouldChangeState hi.wf, hi.stable ord]
  unfold QuorumMergeStrategy.workStateUntilStable
  cases σ.loopFuel with
  | zero => simp [QuorumMergeStrategy.workLoop, hs]
  | succ fuel => simp [QuorumMergeStrategy.workLoop, hs]

theorem replayDataUpdated_same (h : σ.Rel m) (hi : m.Inv) (ords : Nat → IterOrder) {id : Nat}
    (hid : id < m.core.replays.length) (hw : Waits m id) : σ.replayDataUpdated ords id = .ok σ := by
  unfold QuorumMergeStrategy.replayDataUpdated
  rw [h.dataUpdated_same hi (ords 0) hid hw, ok_bind]
  exact h.workStateUntilStable_same hi ords

end QuorumMergeStrategy.Rel

/-! ## in every run -/

namespace Session

/-- what a callback can find out about a writer replay: how long it is, its delayed position and
whether it is finished -/
def progress (s : Session) (id : Nat) : Option (Nat × Nat × Bool) :=
  (s.writer id).map (fun w => (w.dataLen, w.delayedDataLen, w.finished))

theorem Rel.progress_eq {s : Session} {m : State} (h : s.Rel m) {id : Nat}
    (hid : id < m.core.replays.length) : s.progress id =
      some (m.core.len id, (m.core.get id).delayed, (m.core.get id).finished) := by
  obtain ⟨sh, hs, hrel⟩ := h.strategy.shared
  obtain ⟨rs, hrs, _, hr⟩ := hrel.getReplay hid
  unfold progress writer
  rw [hs]
  simp only [hrs, Option.map_some, hr.dataLen, hr.delayed, hr.finished]
  rfl

/-- **a notification that repeats one changes nothing**: `cb` is a callback for `id`, since then
the replay `id` did not change, and the others did whatever the protocol allows -/
theorem updated_again {target dist : Nat} {acts acts' : List Action} {s₀ s₁ s : Session}
    {cb : Action} {id : Nat} (h₀ : Conforming target dist acts s₀) (hcb : Step s₀ cb s₁)
    (hc : cb.Concerns s₀.conns.length id) (h : Lts.Run Step s₁ acts' s)
    (hsame : s.progress id = s₁.progress id) (ords : Nat → IterOrder) :
    s.strategy.replayDataUpdated ords id = .ok s.strategy := by
  obtain ⟨m₀, -, ht₀⟩ := h₀.tracks
  obtain ⟨_, ⟨ha, ords₁, rfl⟩, ht₁⟩ := ht₀.simulates hcb
  obtain ⟨m, hrun, ht⟩ := ht₁.run h
  rw [ht₀.rel.length] at hc
  have hw := step_waits ht₀.sound.toInv ht₀.sound.stream ha ords₁ hc
  have hlt₁ : id < (m₀.step ords₁ cb).core.replays.length :=
    step_concerned ht₀.sound.wf ha ords₁ hc
  have hlt : id < m.core.replays.length :=
    hlt₁.trans_le (Micros.evolves (State.run_micros ht₁.sound hrun) ht₁.sound.wf).length
  have hu : Unchanged id (m₀.step ords₁ cb).core m.core := by
    rw [ht.rel.progress_eq hlt, ht₁.rel.progress_eq hlt₁] at hsame
    simp only [Option.some.injEq, Prod.mk.injEq] at hsame
    exact ⟨hsame.1, hsame.2.2⟩
  exact ht.rel.strategy.replayDataUpdated_same ht.sound.toInv ords hlt
    (run_waits ht₁.sound hrun hu hw)

/-- since replay 0 was looked at the stalemate was resolved and replay 1 got new data -/
theorem updated_again_contested : ∃ s₀ s₁ s, Conforming 2 3 (contestedRun.take 6) s₀ ∧
    Step s₀ (.delayed 0 1) s₁ ∧ Lts.Run Step s₁ [.delayed 1 1, .data 1 [4]] s ∧
    s.progress 0 = s₁.progress 0 ∧
    ∀ ords, s.strategy.replayDataUpdated ords 0 = .ok s.strategy := by
  obtain ⟨s₀, h₀, hf⟩ := run_of_exec_map (fun _ => default) (contestedRun.take 6) (.new 2 3)
    (fun s₀ => (s₀.exec (fun _ => default) [.delayed 0 1]).toOption.map (fun s₁ =>
      (s₁.exec (fun _ => default) [.delayed 1 1, .data 1 [4]]).toOption.map
        (fun s => decide (s.progress 0 = s₁.progress 0))))
    (b := some (some true)) (by decide +kernel)
  obtain ⟨s₁, hr₁, hf⟩ := run_of_exec_map _ _ s₀ _ hf
  obtain ⟨s, hr, hp⟩ := run_of_exec_map _ _ s₁ _ hf
  have hcb := Lts.Run.single_iff.mp hr₁
  have hsame := of_decide_eq_true hp
  exact ⟨s₀, s₁, s, h₀, hcb, hr, hsame, updated_again h₀ hcb rfl hr hsame⟩

end Session

end ReplayServer
