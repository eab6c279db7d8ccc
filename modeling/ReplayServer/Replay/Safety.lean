import ReplayServer.Replay.RefineRun

/-!
# replay: sessions are safe

* `Session.never_panics`            no callback of a run that follows the protocol fails, and a
                                    session is finished in a stalemate that has nothing left;
* `Session.Visits`                  the states between two passes of the loop;
* `Session.diverged_never_extends`  a replay is dropped only when it cannot extend the merged data.
-/

namespace ReplayServer
open Fallible Agree Merge

namespace Session

/-- **the merge strategy never panics and finishes cleanly** -/
theorem never_panics {target dist : Nat} (hN : 0 < target) {acts : List Action} {s : Session}
    (h : Conforming target dist acts s) :
    (∀ a, s.allowed a = true → ∀ ords, ∃ t, s.step ords a = .ok t) ∧
    (s.allowed .finish = true → ∃ t, s.strategy = .stalemate t ∧ t.reserve = ∅ ∧
      t.candidates.keys = ∅ ∧ t.s.canonDelayedDataLen = t.s.canonDataLen) := by
  obtain ⟨m, hrun, ht⟩ := h.tracks
  refine ⟨fun a ha ords => ?_, fun ha => ?_⟩
  · refine (ht.step ha ords).2.ok ?_
    rw [State.run_target hrun]
    exact hN
  · have hma := (ht.rel.allowed_iff .finish).mp ha
    obtain ⟨t, rfl, hr, hk, hd⟩ := State.finish_clean ht.sound.toInv hma.2
    obtain ⟨u, hu, hrel⟩ := ht.rel.strategy.of_stalemate
    refine ⟨u, hu, hrel.reserve.trans hr, ?_, ?_⟩
    · rw [hrel.candidates]
      exact hk
    · rw [hrel.shared.canonDelayedDataLen, hrel.shared.canonDataLen]
      exact hd

/-- two replays whose first bytes differ, up to the choice of the longer one -/
def contestedRun : List Action :=
  [.added, .added, .header 0 ⟨[7]⟩, .header 1 ⟨[8]⟩, .data 0 [1, 2], .data 1 [3], .delayed 0 1,
    .delayed 1 1]

/-- and what comes after it -/
def contestedRest : List Action :=
  [.data 1 [4], .delayed 0 2, .delayed 1 2, .ended 0, .ended 1]

theorem never_panics_contested : ∃ s, Conforming 2 3 (contestedRun ++ contestedRest) s ∧
    s.allowed .finish = true ∧ (∀ ords, ∃ t, s.step ords .finish = .ok t) ∧
    ∃ t, s.strategy = .stalemate t ∧ t.reserve = ∅ ∧ t.candidates.keys = ∅ ∧
      t.s.canonDelayedDataLen = t.s.canonDataLen := by
  obtain ⟨s, hs, ha⟩ := run_of_exec_map (fun _ => default) (contestedRun ++ contestedRest)
    (.new 2 3) (fun s => s.allowed .finish) (b := true) (by decide +kernel)
  obtain ⟨h1, h2⟩ := never_panics (by decide) hs
  exact ⟨s, hs, ha, h1 _ ha, h2 ha⟩

/-- the states between two passes of the loop -/
inductive Visits (target dist : Nat) : Session → Prop where
  | called {acts : List Action} {s u : Session} {ord : IterOrder} {a : Action}
      (h : Conforming target dist acts s) (ha : s.allowed a = true) (hs : settles a = true)
      (hu : s.direct ord a = .ok u) : Visits target dist u
  | passed {s : Session} {ord : IterOrder} {σ : QuorumMergeStrategy} (h : Visits target dist s)
      (hc : s.strategy.shouldChangeState ord = .ok true)
      (hσ : s.strategy.changeState ord = .ok σ) : Visits target dist { s with strategy := σ }

theorem Visits.related {target dist : Nat} {s : Session} (h : Visits target dist s) :
    ∃ m, s.Rel m ∧ m.WF ∧ m.core.canon.finished = false ∧ m.core.target = target ∧ Dropped m := by
  induction h with
  | @called acts s u ord a h ha hs hu =>
    obtain ⟨m, hrun, ht⟩ := h.tracks
    have hma := (ht.rel.allowed_iff a).mp ha
    have hm : Micros (fun _ => True) (fun _ _ => True) m (m.direct ord a) :=
      direct_micros ord hma (fun _ => trivial)
    exact ⟨_, (ht.rel.direct ht.sound.toInv ht.sound.stream hma ord).of_eq hu,
      Micros.wf ht.sound.wf hm, ht.rel.not_finished_direct ht.sound.toEarly hma hs ord,
      (Micros.evolves hm ht.sound.wf).target.trans (State.run_target hrun),
      Micros.dropped hm ht.sound.wf ht.sound.dropped⟩
  | @passed s ord σ h hc hσ ih =>
    obtain ⟨m, hrel, hw, hnf, htar, hdrop⟩ := ih
    have hc' : m.shouldChange ord = true := by
      rw [hrel.strategy.shouldChangeState hw] at hc
      exact Except.ok.inj hc
    have hfr := (State.change_frame hw hc').1
    have hm : Micros (fun _ => True) (fun _ _ => True) m (m.change ord) :=
      change_micros hw hc' (fun _ _ => trivial)
    exact ⟨_, (hrel.change hw hnf hc').spec _ hσ, State.change_wf hw hc',
      hfr.canonFinished.trans hnf, hfr.target.trans htar, Micros.dropped hm hw hdrop⟩

/-- what is dropped is dead -/
theorem dead_of_diverged {s : Session} {m : State} (ht : s.Tracks m) {id : Nat}
    (hd : s.diverged id = true) : DeadAt (m.core.get id) m.core.canon.data m.core.cl := by
  have hid := ht.rel.lt_of_diverged hd
  exact ht.sound.dropped id hid ((ht.rel.diverged_iff hid).mp hd)

theorem Tracks.not_tracked {s : Session} {m : State} (ht : s.Tracks m) (hf : s.finished = true)
    {id : Nat} : ¬ m.Tracked id := by
  intro htr
  obtain ⟨t, rfl, hr, hk, -⟩ := ht.rel.ended ht.sound.toInv hf
  rcases htr with hres | ⟨b, l, hl, _⟩
  · rw [hr] at hres
    exact Finset.notMem_empty _ hres
  · rw [keys_eq_empty_iff.mp hk b] at hl
    cases hl

theorem dead_of_finished {s : Session} {m : State} (ht : s.Tracks m) (hf : s.finished = true)
    {id : Nat} (hid : id < m.core.replays.length) :
    DeadAt (m.core.get id) m.core.canon.data m.core.cl :=
  ht.sound.dropped id hid (ht.not_tracked hf)

/-- the dead never extend what they were compared with -/
theorem not_extends_of_dead {c c' : Core} (hev : Evolves c c') {id : Nat}
    (hd : DeadAt (c.get id) c.canon.data c.cl) :
    ¬ (c.canon.data <+: (c'.get id).data ∧ c.canon.data ≠ (c'.get id).data) := by
  rintro ⟨hpre, hne⟩
  have hd' := hd.evolves hev le_rfl
  have htake : c'.canon.data.take c.cl = c.canon.data := by
    obtain ⟨l, hl⟩ := hev.grow
    rw [← hl]
    exact List.take_left' rfl
  have hle := hd'.not_extends hev.cl (by rw [htake]; exact hpre)
  exact hne (hpre.eq_of_length_le hle)

/-- **no replay that could still extend the merged data is dropped**, neither by a callback nor by a
pass of the loop in it -/
theorem diverged_never_extends {target dist : Nat} {acts acts' : List Action}
    {s s' : Session} (h : Conforming target dist acts s) (h' : Lts.Run Step s acts' s') (id : Nat) :
    (s.diverged id = true → ¬ (s.canon <+: s'.sent id ∧ s.canon ≠ s'.sent id)) ∧
    (s'.finished = true → ¬ (s'.canon <+: s'.sent id ∧ s'.canon ≠ s'.sent id)) ∧
    (∀ v, Visits target dist v → v.diverged id = true → ∀ data, v.sent id <+: data →
      (∀ c, v.conns[id]? = some c → c.ended = true → data = v.sent id) →
      ¬ (v.canon <+: data ∧ v.canon ≠ data)) := by
  obtain ⟨m, _, ht⟩ := h.tracks
  obtain ⟨m', hrun, ht'⟩ := ht.run h'
  have hev := Micros.evolves (State.run_micros ht.sound hrun) ht.sound.wf
  refine ⟨fun hd => ?_, fun hf => ?_, fun v hv hd data hpre hended => ?_⟩
  · rw [ht.rel.canon_eq, ht'.rel.sent_eq]
    exact not_extends_of_dead hev (dead_of_diverged ht hd)
  · rw [ht'.rel.canon_eq, ht'.rel.sent_eq]
    by_cases hid : id < m'.core.replays.length
    · exact not_extends_of_dead (Evolves.refl _) (dead_of_finished ht' hf hid)
    · rw [Core.get_of_ge (not_lt.mp hid)]
      rintro ⟨hpre, hne⟩
      exact hne (List.prefix_nil.mp hpre)
  · obtain ⟨u, hrel, -, -, -, hdrop⟩ := hv.related
    have hid := hrel.lt_of_diverged hd
    rw [hrel.sent_eq] at hpre hended
    rw [hrel.canon_eq]
    refine (hdrop id hid ((hrel.diverged_iff hid).mp hd)).not_extended hpre (fun hf => ?_)
    have hc := List.getElem?_eq_getElem (show id < v.conns.length from hrel.length ▸ hid)
    exact hended _ hc ((hrel.conn id _ hc).2.2.trans hf)

theorem diverged_never_extends_contested : ∃ s s', Conforming 2 3 contestedRun s ∧
    Lts.Run Step s (contestedRest ++ [.finish]) s' ∧ s.diverged 1 = true ∧ s'.sent 1 = [3, 4] ∧
    ¬ (s.canon <+: s'.sent 1 ∧ s.canon ≠ s'.sent 1) ∧ s'.finished = true ∧
    ¬ (s'.canon <+: s'.sent 0 ∧ s'.canon ≠ s'.sent 0) := by
  obtain ⟨s, hs, hf⟩ := run_of_exec_map (fun _ => default) contestedRun (.new 2 3)
    (fun s => (s.diverged 1, (s.exec (fun _ => default) (contestedRest ++ [.finish])).toOption.map
      (fun s' => (s'.finished, s'.sent 1)))) (b := (true, some (true, [3, 4]))) (by decide +kernel)
  obtain ⟨hd, hf⟩ := Prod.mk.inj hf
  obtain ⟨s', hs', hf'⟩ := run_of_exec_map _ _ s _ hf
  obtain ⟨hfin, hsent⟩ := Prod.mk.inj hf'
  exact ⟨s, s', hs, hs', hd, hsent, (diverged_never_extends hs hs' 1).1 hd, hfin,
    (diverged_never_extends hs hs' 0).2.1 hfin⟩

end Session

end ReplayServer
