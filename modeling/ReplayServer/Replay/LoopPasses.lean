import ReplayServer.Replay.MergeTerms
import ReplayServer.Replay.NoSpoilers

/-!
# replay: how often the loop between quorum and stalemate runs

The loop in `work_state_until_stable` is walked once more, with a count of its iterations.

* `Session.Tracks.passes`   the abstract loop runs as often;
* `ReplayLife.passes`       the iterations of all loops that one wake-up of a task runs;
* `ReplayLife.Sound.row`    the callbacks of a wake-up: none, one, or the two of a writer that stops;
* `Session.Row.books`       they add their terms to the books, which count the iterations.
-/

set_option linter.unusedSectionVars false

namespace ReplayServer
open Fallible Merge

namespace QuorumMergeStrategy

def loopPasses (ords : Nat → IterOrder) : Nat → QuorumMergeStrategy → Nat
  | 0, _ => 0
  | fuel + 1, self =>
    match self.shouldChangeState (ords (fuel + 1)), self.changeState (ords (fuel + 1)) with
    | .ok true, .ok next => loopPasses ords fuel next + 1
    | _, _ => 0

/-- the iterations of the loop in `work_state_until_stable` -/
def passes (self : QuorumMergeStrategy) (ords : Nat → IterOrder) : Nat :=
  loopPasses ords self.loopFuel self

theorem Rel.loopPasses {σ : QuorumMergeStrategy} {m : State} (h : σ.Rel m) (hw : m.WF)
    (hf : m.core.canon.finished = false) (hN : 0 < m.core.target) (ords : Nat → IterOrder)
    (fuel : Nat) : σ.loopPasses ords fuel = m.passes ords fuel := by
  induction fuel generalizing σ m with
  | zero => rfl
  | succ fuel ih =>
    unfold QuorumMergeStrategy.loopPasses State.passes
    rw [h.shouldChangeState hw]
    by_cases hc : m.shouldChange (ords (fuel + 1)) = true
    · obtain ⟨τ, hτ⟩ := (h.changeState hw hc hf).ok hN
      have hrel := (h.changeState hw hc hf).spec τ hτ
      have hframe := (State.change_frame hw hc).1
      rw [hτ, hc, if_pos rfl]
      dsimp only
      rw [ih hrel (State.change_wf hw hc) (hframe.canonFinished.trans hf) (by rw [hframe.target]; exact hN)]
    · rw [if_neg hc, Bool.eq_false_of_not_eq_true hc]

end QuorumMergeStrategy

namespace Session

def passes (ords : Nat → IterOrder) (s : Session) (a : Action) : Nat :=
  if settles a then
    match s.direct (ords 0) a with
    | .ok t => t.strategy.passes ords
    | .error _ => 0
  else 0

/-- the iterations of all loops in a row of callbacks, the first of which is the `k`-th -/
def rowPasses (ords : Nat → Nat → IterOrder) : Nat → Session → List Action → Nat
  | _, _, [] => 0
  | k, s, a :: as => s.passes (ords k) a +
    match s.step (ords k) a with
    | .ok t => rowPasses ords (k + 1) t as
    | .error _ => 0

/-- **the abstract loop runs as often** -/
theorem Tracks.passes {s : Session} {m : State} (h : s.Tracks m) {a : Action} (ha : m.allowed a)
    (hN : 0 < m.core.target) (ords : Nat → IterOrder) : s.passes ords a = m.stepPasses ords a := by
  unfold Session.passes State.stepPasses
  by_cases hs : settles a = true
  · obtain ⟨t, ht, hrel⟩ := h.rel.direct h.sound.toInv h.sound.stream ha (ords 0)
    have hk := direct_keeps h.sound.wf ha (ords 0)
    have hm : Micros (fun _ => True) (fun _ _ => True) m (m.direct (ords 0) a) :=
      direct_micros (ords 0) ha (fun _ => trivial)
    rw [if_pos hs, if_pos hs, ht]
    dsimp only
    unfold QuorumMergeStrategy.passes
    rw [hrel.strategy.loopFuel]
    refine hrel.strategy.loopPasses (Micros.wf h.sound.wf hm) ?_ ?_ ords _
    · exact h.rel.not_finished_direct h.sound.toEarly ha hs (ords 0)
    · rw [hk.evolves.target]
      exact hN
  · rw [if_neg hs, if_neg hs]

end Session

/-- the callbacks of one wake-up -/
inductive Session.Row (ords : Nat → Nat → IterOrder) (s : Session) : List Action → Session → Prop where
  | none : Row ords s [] s
  | one {a : Action} {t : Session} (ha : s.allowed a = true) (hs : s.step (ords 0) a = .ok t) :
      Row ords s [a] t
  | two {id n : Nat} {t u : Session} (ha : s.allowed (.delayed id n) = true)
      (hs : s.step (ords 0) (.delayed id n) = .ok t) (hb : t.allowed (.ended id) = true)
      (ht : t.step (ords 1) (.ended id) = .ok u) : Row ords s [.delayed id n, .ended id] u

namespace ReplayLife

def callbacks (l l' : ReplayLife) : List Action :=
  (l'.log.drop l.log.length).filterMap Call.action

/-- the iterations of all loops in one wake-up -/
def passes (ords : Nat → Nat → IterOrder) (l l' : ReplayLife) : Nat :=
  l.session.rowPasses ords 0 (l.callbacks l')

section
variable {target dist : Nat} {l l' : ReplayLife} {m : State}

theorem callbacks_eq {calls : List Call} (h : l'.log = l.log ++ calls) :
    l.callbacks l' = calls.filterMap Call.action := by
  unfold callbacks
  rw [h, List.drop_left]

theorem row_of_quiet {ords : Nat → Nat → IterOrder} (hs : l'.session = l.session) (hl : l'.log = l.log) :
    l.session.Row ords (l.callbacks l') l'.session := by
  rw [callbacks_eq (hl.trans (List.append_nil _).symm), hs]
  exact .none

theorem row_of_call {ords : Nat → Nat → IterOrder} (h : l.session.Tracks m) {id : Nat} {a : Action}
    (ha : m.allowed a) (hc : l.call (ords 0) id a = .ok l') :
    l.session.Row ords (l.callbacks l') l'.session := by
  obtain ⟨s, hs, hc⟩ := bind_eq_ok.mp hc
  cases hc
  rw [callbacks_eq rfl]
  exact .one ((h.rel.allowed_iff a).mpr ha) hs

namespace Sound
variable (h : l.Sound target dist m)
include h

theorem handleConnection_row {ords : Nat → Nat → IterOrder} {type : ConnectionType}
    (hx : l.handleConnection (ords 0) type = .ok l') :
    l.session.Row ords (l.callbacks l') l'.session := by
  unfold ReplayLife.handleConnection at hx
  split at hx
  · cases hx
    exact row_of_quiet rfl rfl
  · rename_i hstop
    cases type with
    | reader =>
      cases hx
      exact row_of_quiet rfl rfl
    | writer =>
      have hm : l.lifetime.merged = false := by
        have hacc := h.accepting
        cases hl : l.lifetime <;> rw [hl] at hacc <;> first | rfl | exact absurd hacc hstop
      have hadded : m.allowed .added := h.finished.trans hm
      exact row_of_call (l := { l with
        writerConnectionCount := l.writerConnectionCount.inc
        writers := l.writers ++ [WriterTask.header] }) h.tracks hadded hx

theorem updateReplayTimestamp_row {ords : Nat → Nat → IterOrder} {id : Nat} {t : TimestampLoop}
    (ht : l.writers[id]? = some (.data t)) (hx : l.updateReplayTimestamp (ords 0) id t = .ok l') :
    l.session.Row ords (l.callbacks l') l'.session := by
  have hat := h.writers id
  rw [ht] at hat
  obtain ⟨hl, -, -⟩ := h.live ht rfl
  obtain ⟨-, hprev, hq⟩ := hat.timestamp
  obtain ⟨w, hw, -, hwl⟩ := h.tracks.rel.writer_some hl.1
  have hle : (m.core.get id).delayed ≤ (m.core.get id).data.length :=
    h.tracks.sound.toInv.toEarly.delayed id
  obtain ⟨w', hw', hx⟩ := bind_eq_ok.mp hx
  rw [hw, unwrap_some] at hw'
  cases hw'
  obtain ⟨⟨q, d⟩, hd, hx⟩ := bind_eq_ok.mp hx
  rw [hwl] at hd
  obtain ⟨hlo, hhi, -⟩ := (PositionHistory.pushAndGetDelayed_returns hq hle le_rfl).spec _ hd
  dsimp only at hx
  split at hx
  · obtain ⟨l1, h1, hx⟩ := bind_eq_ok.mp hx
    cases hx
    have ha : m.allowed (.delayed id d) := ⟨hl, hlo, hhi⟩
    have hrow : l.session.Row ords (l.callbacks l1) l1.session := row_of_call h.tracks ha h1
    exact hrow
  · -- the delayed position is set to where it was
    rename_i hsame
    obtain ⟨-, hcur⟩ := Prod.mk.inj (not_not.mp hsame)
    obtain ⟨σ, hσ, hx⟩ := bind_eq_ok.mp hx
    rw [hcur, hprev] at hσ
    have hmod : l.session.strategy.modifyWriter id
        (fun w => w.setDelayedDataLen (m.core.get id).shown.delayed) = .ok l.session.strategy :=
      h.tracks.rel.modifyWriter_same hl.1
    rw [hmod] at hσ
    cases hσ
    cases hx
    exact row_of_quiet rfl rfl

theorem writerStopped_row {ords : Nat → Nat → IterOrder} {id : Nat} {task : WriterTask}
    (ht : l.writers[id]? = some task) (ha : task.active = true)
    (hx : l.writerStopped ords id = .ok l') : l.session.Row ords (l.callbacks l') l'.session := by
  obtain ⟨hl, -, -⟩ := h.live ht ha
  obtain ⟨w, hw, -, hwl⟩ := h.tracks.rel.writer_some hl.1
  have hle : (m.core.get id).delayed ≤ m.core.len id := h.tracks.sound.toInv.toEarly.delayed id
  have hma : m.allowed (.delayed id (m.core.len id)) := ⟨hl, hle, le_rfl⟩
  obtain ⟨w', hw', hx⟩ := bind_eq_ok.mp hx
  rw [hw, unwrap_some] at hw'
  cases hw'
  rw [hwl] at hx
  obtain ⟨l1, h1, hx⟩ := bind_eq_ok.mp hx
  obtain ⟨l2, h2, hx⟩ := bind_eq_ok.mp hx
  obtain ⟨count, -, hx⟩ := bind_eq_ok.mp hx
  cases hx
  obtain ⟨s1, hs1, h1⟩ := bind_eq_ok.mp h1
  cases h1
  obtain ⟨s2, hs2, h2⟩ := bind_eq_ok.mp h2
  cases h2
  have hsa := (h.tracks.rel.allowed_iff _).mpr hma
  have ht1 := (h.tracks.step hsa (ords 0)).2.spec _ hs1
  -- it shows all that it has
  have hs : ((m.step (ords 0) (.delayed id (m.core.len id))).core.get id).shown = _ :=
    step_shown h.tracks.sound.wf (ords 0) hma id
  rw [Shown.report, if_pos rfl] at hs
  have hlen := (Session.step_rest hs1).1
  rw [ht1.rel.length, h.tracks.rel.length] at hlen
  have hended : (m.step (ords 0) (.delayed id (m.core.len id))).allowed (.ended id) := by
    refine ⟨⟨?_, (congrArg Shown.finished hs).trans hl.2⟩, (congrArg Shown.delayed hs).trans ?_⟩
    · rw [hlen]
      exact Nat.lt_add_right _ hl.1
    · exact (congrArg (fun r => r.data.length) hs).symm
  rw [callbacks_eq (List.append_assoc _ _ _)]
  exact .two hsa hs1 ((ht1.rel.allowed_iff _).mpr hended) hs2

/-- without writers the strategy can finish -/
theorem allowed_finish (hm : l.lifetime.merged = false) (hz : l.writerConnectionCount.count = 0) :
    m.allowed .finish := by
  refine ⟨h.finished.trans hm, fun id hid => ?_⟩
  have hlt : id < l.writers.length := h.length.symm ▸ hid
  have hat := h.writers id
  rw [List.getElem?_eq_getElem hlt] at hat
  cases ht : l.writers[id] with
  | done =>
    rw [ht] at hat
    exact hat.finished
  | header | data =>
    have hna := List.countP_eq_zero.mp (h.writerCount.symm.trans hz) _ (List.getElem_mem hlt)
    rw [ht] at hna
    exact absurd rfl hna

theorem waited_row {ords : Nat → Nat → IterOrder}
    (hw : ∀ w, l.lifetime = .noWriters w → l.writerConnectionCount.count = 0)
    (hx : l.waited (ords 0) = .ok l') : l.session.Row ords (l.callbacks l') l'.session := by
  unfold ReplayLife.waited at hx
  split at hx
  · cases hx
    exact row_of_quiet rfl rfl
  · rename_i w hl
    obtain ⟨s, hs, hx⟩ := bind_eq_ok.mp hx
    cases hx
    rw [callbacks_eq rfl]
    exact .one ((h.tracks.rel.allowed_iff _).mpr (h.allowed_finish (by rw [hl]; rfl) (hw w hl))) hs
  · cases hx
    exact row_of_quiet rfl rfl
  · cases hx
    exact row_of_quiet rfl rfl

/-- **the callbacks of a wake-up** -/
theorem row {ords : Nat → Nat → IterOrder} {e : LifeEvent} (hx : l.next ords e = some (.ok l')) :
    l.session.Row ords (l.callbacks l') l'.session := by
  generalize hy : Except.ok l' = x at hx
  cases wakes_of_next hx with
  | connection type => exact h.handleConnection_row hy.symm
  | @header id ht y =>
    have hat := h.writers id
    rw [ht] at hat
    obtain ⟨l1, h1, hy⟩ := bind_eq_ok.mp hy.symm
    cases hy
    have ha : m.allowed (.header id y) := ⟨(h.live ht rfl).1, hat.no_header⟩
    have hrow : l.session.Row ords (l.callbacks l1) l1.session := row_of_call h.tracks ha h1
    exact hrow
  | @data id t ht buf hbuf =>
    have hat := h.writers id
    rw [ht] at hat
    have ha : m.allowed (.data id buf) := ⟨(h.live ht rfl).1, hat.timestamp.1⟩
    exact row_of_call h.tracks ha hy.symm
  | cycle ht => exact h.updateReplayTimestamp_row ht hy.symm
  | writerStops ht ha hs => exact h.writerStopped_row ht ha hy.symm
  | readerStops hr hs =>
    obtain ⟨count, -, hy⟩ := bind_eq_ok.mp hy.symm
    cases hy
    exact row_of_quiet rfl rfl
  | timerOver hwait ht =>
    refine h.waited_row (fun w hl => ?_) hy.symm
    rw [ReplayLife.wait, hl] at hwait
    cases hwait
    exact CountWait.timer_over ht
  | waitCancelled hl hc => exact h.waited_row (fun w hl' => by rw [hl] at hl'; cases hl') hy.symm
  | lifetime | newCount | timer | saved | timeout | timeoutCancelled | shutdown =>
    cases hy
    exact row_of_quiet rfl rfl

end Sound

end

end ReplayLife

/-! ## the callbacks of a wake-up -/

/-- two abstract states of one session know the same delayed positions -/
theorem Session.Tracks.delayed_eq {s : Session} {m m' : State} (h : s.Tracks m) (h' : s.Tracks m')
    (id : Nat) : (m.core.get id).delayed = (m'.core.get id).delayed := by
  have hlen : m.core.replays.length = m'.core.replays.length :=
    h.rel.length.symm.trans h'.rel.length
  by_cases hid : id < m.core.replays.length
  · obtain ⟨w, hw, hd, -⟩ := h.rel.writer_some hid
    obtain ⟨w', hw', hd', -⟩ := h'.rel.writer_some (hlen ▸ hid)
    rw [hw] at hw'
    cases hw'
    exact hd.symm.trans hd'
  · rw [Core.get_of_ge (not_lt.mp hid), Core.get_of_ge (hlen ▸ not_lt.mp hid)]

theorem Session.Tracks.evolves {s : Session} {m : State} (h : s.Tracks m) {a : Action} (ha : m.allowed a)
    (ords : Nat → IterOrder) : Evolves m.core (m.step ords a).core :=
  Micros.evolves (State.step_micros_true h.sound.wf ords ha) h.sound.wf

section
variable {P : Opening → Prop} {Q : Term → Prop} {k : Nat} {lens delays : Nat → Nat}
  {past : List Term} {cur : Option Opening} {m : State}

theorem Session.Tracks.books {s t : Session} (h : s.Tracks m) {ords : Nat → IterOrder} {a : Action}
    (ha : s.allowed a = true) (hs : s.step ords a = .ok t) (hN : 0 < m.core.target)
    (htar : m.core.target ≤ 2) (hst : Stamps P Q k lens delays) (hb : Books P Q m past cur)
    (hlens : ∀ id, (t.sent id).length = lens id)
    (hdel : ∀ id, ((m.step ords a).core.get id).delayed ≤ delays id) :
    ∃ past' cur', Books P Q (m.step ords a) past' cur' ∧
      tally past' cur' = tally past cur + s.passes ords a := by
  obtain ⟨hma, hr⟩ := h.step ha ords
  have ht := hr.spec t hs
  rw [h.passes hma hN]
  refine step_books hst h.sound.wf hb htar hma ords (fun id => ?_) hdel
  rw [← hlens, ht.rel.sent_eq]
  rfl

/-- **the callbacks of a wake-up add their terms to the books** -/
theorem Session.Row.books {s s' : Session} {ords : Nat → Nat → IterOrder} {as : List Action}
    (h : s.Row ords as s') (ht : s.Tracks m) (hN : 0 < m.core.target) (htar : m.core.target ≤ 2)
    (hst : Stamps P Q k lens delays) (hb : Books P Q m past cur)
    (hlens : ∀ id, (s'.sent id).length = lens id)
    (hdel : ∀ m' : State, s'.Tracks m' → ∀ id, (m'.core.get id).delayed ≤ delays id) :
    ∃ m' past' cur', s'.Tracks m' ∧ m'.core.target = m.core.target ∧ Books P Q m' past' cur' ∧
      tally past' cur' = tally past cur + s.rowPasses ords 0 as := by
  cases h with
  | none => exact ⟨m, past, cur, ht, rfl, hb, rfl⟩
  | one ha hs =>
    obtain ⟨hma, hr⟩ := ht.step ha (ords 0)
    have ht' := hr.spec _ hs
    obtain ⟨past', cur', hb', he⟩ := ht.books ha hs hN htar hst hb hlens (hdel _ ht')
    refine ⟨_, past', cur', ht', (ht.evolves hma (ords 0)).target, hb', ?_⟩
    rw [he]
    unfold Session.rowPasses Session.rowPasses
    rw [hs]
    rfl
  | @two id n t _ ha hs hb1 hs1 =>
    obtain ⟨hma, hr⟩ := ht.step ha (ords 0)
    have ht1 := hr.spec _ hs
    obtain ⟨hma1, hr1⟩ := ht1.step hb1 (ords 1)
    have ht2 := hr1.spec _ hs1
    have hev := ht.evolves hma (ords 0)
    have hev1 := ht1.evolves hma1 (ords 1)
    -- a writer that stops gets no more data
    have hsent : ∀ j, (t.sent j).length = lens j := by
      intro j
      rw [← hlens, Session.step_sent hs1 (fun _ _ he => by cases he)]
      exact congrArg List.length (List.append_nil _).symm
    obtain ⟨past1, cur1, h1, he1⟩ := ht.books ha hs hN htar hst hb hsent
      (fun j => (hev1.delayed j).trans (hdel _ ht2 j))
    obtain ⟨past2, cur2, h2, he2⟩ := ht1.books hb1 hs1 (by rw [hev.target]; exact hN)
      (by rw [hev.target]; exact htar) hst h1 hlens (hdel _ ht2)
    refine ⟨_, past2, cur2, ht2, hev1.target.trans hev.target, h2, ?_⟩
    rw [he2, he1]
    unfold Session.rowPasses
    rw [hs]
    dsimp only
    unfold Session.rowPasses
    rw [hs1]
    dsimp only
    unfold Session.rowPasses
    rw [Nat.add_zero, Nat.add_assoc]

end

end ReplayServer
