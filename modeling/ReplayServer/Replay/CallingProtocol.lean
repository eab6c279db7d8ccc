import ReplayServer.Replay.WriterDelay

/-!
# replay: the life of one replay follows the protocol of the strategy

`ReplayLife.honours_protocol`: however the connections, the timers and the token interleave, the
strategy is called the way `merge_strategy.rs` says, and the replay is saved once at most.
-/

namespace ReplayServer
open Fallible Merge

/-- the strategy gives the next token -/
theorem Session.Rel.token {s : Session} {m : State} (h : s.Rel m) {ords : Nat → IterOrder}
    {r : WriterReplay} {σ : QuorumMergeStrategy} {token : Nat}
    (hok : s.strategy.replayAdded ords r = .ok (σ, token)) : token = s.conns.length := by
  obtain ⟨sh, hs, hrel⟩ := h.strategy.shared
  obtain ⟨⟨τ, t⟩, hadd, hok⟩ := bind_eq_ok.mp hok
  obtain ⟨_, _, hok⟩ := bind_eq_ok.mp hok
  cases hok
  have hlen : sh.replays.length = s.conns.length := hrel.length.trans h.length.symm
  rw [← hlen]
  revert hadd hs
  cases s.strategy with
  | quorum q =>
    intro hs hadd
    cases hs
    cases hadd
    rfl
  | stalemate q =>
    intro hs hadd
    cases hs
    cases hadd
    rfl
  | swapping =>
    intro hs
    cases hs

namespace ReplayLife

/-- **the life of a replay honours the calling protocol of the merge strategy** -/
theorem honours_protocol {target dist cycles : Nat} {evs : List LifeEvent} {l : ReplayLife}
    (h : Lts.Run Step (new target dist cycles) evs l) :
    (0 < target → ∀ ords e x, l.next ords e = some x → ∃ l', x = .ok l') ∧
    Session.Conforming target dist (l.log.filterMap Call.action) l.session ∧
    (∀ ords σ token, l.session.strategy.replayAdded ords .new = .ok (σ, token) →
      token = l.writers.length) ∧
    (∀ id task, l.writers[id]? = some task → WriterCalls id task (callsOf id l.log)) ∧
    (∀ id, l.writers.length ≤ id → callsOf id l.log = []) ∧
    (∃ calls, (∀ c ∈ calls, ∃ id a, c = .writer id a) ∧
      (l.log = calls ∨ l.log = calls ++ [.finish, .save] ∧ ∀ t ∈ l.writers, t = .done)) ∧
    l.writerConnectionCount.count = l.writers.countP WriterTask.active ∧
    l.readerConnectionCount.count = l.readers.countP id ∧
    (l.lifetime = .ended → l.writerConnectionCount.count = 0 ∧ l.readerConnectionCount.count = 0) := by
  obtain ⟨m, hm⟩ := sound_of_run h
  have hroom := hasRoom_of_run (Nat.succ_pos cycles) h
  refine ⟨fun hN ords e x hx => (hm.next ords hx).ok ⟨hN, hroom e⟩, hm.conforming,
    fun ords σ token hok => ?_, fun id task ht => ?_, fun id hid => ?_, ?_, hm.writerCount, hm.readerCount, fun hl => ⟨?_, ?_⟩⟩
  · rw [hm.tracks.rel.token hok, hm.tracks.rel.length, hm.length]
  · have hat := hm.writers id
    rw [ht] at hat
    exact hat.writerCalls
  · have hat := hm.writers id
    rw [List.getElem?_eq_none hid] at hat
    exact hat.no_calls
  · obtain ⟨calls, hc, hl⟩ := hm.log
    refine ⟨calls, hc, ?_⟩
    cases hmerged : l.lifetime.merged with
    | false =>
      rw [hmerged] at hl
      exact Or.inl (hl.trans (List.append_nil _))
    | true =>
      rw [hmerged] at hl
      exact Or.inr ⟨hl, hm.drained hmerged⟩
  · have hmerged : l.lifetime.merged = true := by rw [hl]; rfl
    rw [hm.writerCount]
    refine List.countP_eq_zero.mpr (fun t ht => ?_)
    rw [hm.drained hmerged t ht]
    exact Bool.false_ne_true
  · rw [hm.readerCount]
    refine List.countP_eq_zero.mpr (fun b hb => ?_)
    rintro rfl
    exact hm.left hl hb

/-! ## an execution -/

/-- a wake-up that does not fail, for one iteration order -/
def wake (self : ReplayLife) (e : LifeEvent) : Option ReplayLife :=
  (self.next (fun _ _ => default) e).bind Except.toOption

theorem step_of_wake {l l' : ReplayLife} {e : LifeEvent} (h : l.wake e = some l') : Step l e l' := by
  obtain ⟨x, hx, hok⟩ := Option.bind_eq_some_iff.mp h
  exact ⟨_, hx.trans (congrArg some (eq_ok_of_toOption hok))⟩

/-- a writer whose header breaks, one that is cut off with a reader, and one that comes too late -/
def cutOffRun : List LifeEvent :=
  [.lifetime, .connection .writer, .connection .reader, .connection .writer, .header 0 ⟨[7]⟩,
    .data 0 [1, 2, 3], .cycle 0, .cycle 0, .writerStops 1 .connection, .data 0 [4], .timeout,
    .waitCancelled, .connection .writer, .newCount, .writerStops 0 .token, .newCount, .timer, .saved,
    .readerStops 0 .token, .newCount, .timer]

theorem honours_protocol_cutOff : ∃ l, Lts.Run Step (new 1 3 1) cutOffRun l ∧
    l.lifetime = .ended ∧ l.writerConnectionCount.count = 0 ∧ l.readerConnectionCount.count = 0 ∧
    callsOf 0 l.log = [.added, .header 0 ⟨[7]⟩, .data 0 [1, 2, 3], .delayed 0 3, .data 0 [4],
      .delayed 0 4, .ended 0] ∧ WriterCalls 0 .done (callsOf 0 l.log) ∧
    callsOf 1 l.log = [.added, .delayed 1 0, .ended 1] ∧ WriterCalls 1 .done (callsOf 1 l.log) := by
  have hsome : (cutOffRun.foldlM wake (new 1 3 1)).map
      (fun l => (l.lifetime, l.writers, callsOf 0 l.log, callsOf 1 l.log)) =
      some (Lifetime.ended, [WriterTask.done, .done], [Action.added, .header 0 ⟨[7]⟩,
        .data 0 [1, 2, 3], .delayed 0 3, .data 0 [4], .delayed 0 4, .ended 0],
        [Action.added, .delayed 1 0, .ended 1]) := by
    decide +kernel
  obtain ⟨l, hl, hf⟩ := Option.map_eq_some_iff.mp hsome
  obtain ⟨h1, hf⟩ := Prod.mk.inj hf
  obtain ⟨h2, hf⟩ := Prod.mk.inj hf
  obtain ⟨h3, h4⟩ := Prod.mk.inj hf
  have hrun := Lts.Run.of_foldlM (fun _ _ _ => step_of_wake) hl
  obtain ⟨_, _, _, hw, _, _, _, _, hended⟩ := honours_protocol hrun
  obtain ⟨h5, h6⟩ := hended h1
  exact ⟨l, hrun, h1, h5, h6, h3, hw 0 .done (by rw [h2]; rfl), h4, hw 1 .done (by rw [h2]; rfl)⟩

end ReplayLife

end ReplayServer
