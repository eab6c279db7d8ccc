import ReplayServer.Replay.MergeReleased
import ReplayServer.Replay.CanonicalStream

/-!
# replay: what readers see and what the writers released

* `Session.shown_was_released`   a byte that readers see was released by a writer that sent it;
* `Session.released_is_shown`    what every writer that still counts released, readers see;
* `Session.few_go_on`            once all data is released, merging goes as far as the target lets it;
* `Session.honest_game`          where the writers agree, the merged replay is the longest of theirs.
-/

set_option linter.unusedSectionVars false

namespace ReplayServer
open Fallible Agree Merge

theorem Merge.State.run_released {target dist : Nat} {acts : List Action} {m : State}
    (hr : Lts.Run State.Step (State.new target dist) acts m) : Backed m ∧ Rested m := by
  have key : m.Sound ∧ Backed m ∧ Rested m := by
    induction hr with
    | nil =>
      exact ⟨(Session.Tracks.new target dist).sound, new_backed target dist, new_rested target dist⟩
    | snoc _ hs ih =>
      obtain ⟨hm, hb, hr⟩ := ih
      obtain ⟨ha, ords, rfl⟩ := hs
      exact ⟨State.step_sound hm ords ha, Micros.backed (State.step_micros_true hm.wf ords ha) hm.wf hb,
        step_rested hm.toInv hm.stream hr ha ords⟩
  exact key.2

namespace Session

theorem Conforming.released {target dist : Nat} {acts : List Action} {s : Session}
    (h : Conforming target dist acts s) {p : Nat} (hp : p < s.merged.delayedDataLen) :
    ∃ m, s.Tracks m ∧ m.core.Released p := by
  obtain ⟨m, hrun, ht⟩ := h.tracks
  obtain ⟨hb, -⟩ := State.run_released hrun
  rw [ht.rel.merged_delayed] at hp
  exact ⟨m, ht, hb.released p hp⟩

/-- **a byte that readers see was released by a writer that sent it** -/
theorem shown_was_released {target dist : Nat} {acts : List Action} {s : Session}
    (h : Conforming target dist acts s) {p : Nat} (hp : p < s.merged.delayedDataLen) :
    ∃ id w, s.writer id = some w ∧ p < w.delayedDataLen ∧ w.delayedDataLen ≤ (s.sent id).length ∧
      (s.sent id)[p]? = s.canon[p]? := by
  obtain ⟨m, ht, id, hrel, hget⟩ := h.released hp
  obtain ⟨w, hw, hd, -⟩ := ht.rel.writer_some (lt_of_released hrel)
  refine ⟨id, w, hw, ?_, ?_, ?_⟩
  · rw [hd]
    exact hrel
  · rw [hd, ht.rel.sent_eq]
    exact ht.sound.delayed id
  · rw [ht.rel.sent_eq, ht.rel.canon_eq]
    exact hget

theorem shown_was_released_contested : ∃ s, Conforming 2 3 contestedRun s ∧
    0 < s.merged.delayedDataLen ∧ ∃ id w, s.writer id = some w ∧ 0 < w.delayedDataLen ∧
      w.delayedDataLen ≤ (s.sent id).length ∧ (s.sent id)[0]? = s.canon[0]? := by
  obtain ⟨s, hs, hf⟩ := run_of_exec_map (fun _ => default) contestedRun (.new 2 3)
    (fun s => decide (0 < s.merged.delayedDataLen)) (b := true) (by decide +kernel)
  have hpos := of_decide_eq_true hf
  exact ⟨s, hs, hpos, shown_was_released hs hpos⟩

/-! ## writers that still count -/

section
variable {s : Session} {m : State} (h : s.Rel m)
include h

theorem Rel.tracked_iff {id : Nat} (hid : id < s.conns.length) :
    m.Tracked id ↔ s.diverged id = false := by
  rw [h.length] at hid
  rw [← Bool.not_eq_true, h.diverged_iff hid, not_not]

theorem Rel.lt_of_tracked (hw : m.WF) {id : Nat} (ht : m.Tracked id) : id < s.conns.length := by
  rw [h.length]
  exact State.tracked_lt hw ht

/-- what is asked of the writer of a replay -/
theorem Rel.any_writer {id : Nat} (hid : id < s.conns.length) {p : WriterReplay → Bool}
    (hp : (s.writer id).any p = true) : ∃ w, p w = true ∧
      w.delayedDataLen = (m.core.get id).delayed ∧ w.dataLen = m.core.len id := by
  rw [h.length] at hid
  obtain ⟨w, hw, h1, h2⟩ := h.writer_some hid
  rw [hw] at hp
  exact ⟨w, hp, h1, h2⟩

end

/-- **what every writer that was not dropped released is shown** -/
theorem released_is_shown {target dist : Nat} {acts : List Action} {s : Session}
    (h : Conforming target dist acts s) {n : Nat}
    (hall : ∀ id < s.conns.length, s.diverged id = true ∨
      (s.conns[id]?.any fun c => c.ended) = true ∨
      ((s.writer id).any fun w => n ≤ w.delayedDataLen) = true)
    (hsome : ∃ id < s.conns.length, s.diverged id = false) : n ≤ s.merged.delayedDataLen := by
  obtain ⟨m, hrun, ht⟩ := h.tracks
  obtain ⟨-, hr⟩ := State.run_released hrun
  rw [ht.rel.merged_delayed]
  obtain ⟨id, hid, hd⟩ := hsome
  refine shown_of_released ht.sound.toInv hr ⟨id, (ht.rel.tracked_iff hid).mpr hd⟩ (fun j hj => ?_)
  have hlt := ht.rel.lt_of_tracked ht.sound.wf hj
  rcases hall j hlt with hdiv | hend | hrel
  · rw [(ht.rel.tracked_iff hlt).mp hj] at hdiv
    exact absurd hdiv Bool.false_ne_true
  · obtain ⟨c, hc, he⟩ := (Option.any_eq_true _ _).mp hend
    exact Or.inl ((ht.rel.conn j c hc).2.2.symm.trans he)
  · obtain ⟨w, hw, h1, -⟩ := ht.rel.any_writer hlt hrel
    exact Or.inr (h1 ▸ of_decide_eq_true hw)

/-- two writers, one of which is ahead of the other -/
def aheadRun : List Action :=
  [.added, .added, .header 0 ⟨[7]⟩, .header 1 ⟨[7]⟩, .data 0 [1, 2, 3], .delayed 0 3,
    .data 1 [1, 2, 9], .delayed 1 2]

theorem released_is_shown_ahead : ∃ s, Conforming 2 3 aheadRun s ∧ 2 ≤ s.merged.delayedDataLen := by
  obtain ⟨s, hs, hf⟩ := run_of_exec_map (fun _ => default) aheadRun (.new 2 3)
    (fun s => decide ((∀ id < s.conns.length, s.diverged id = true ∨
      (s.conns[id]?.any fun c => c.ended) = true ∨
      ((s.writer id).any fun w => 2 ≤ w.delayedDataLen) = true) ∧
      ∃ id < s.conns.length, s.diverged id = false)) (b := true) (by decide +kernel)
  obtain ⟨hall, hsome⟩ := of_decide_eq_true hf
  exact ⟨s, hs, released_is_shown hs hall hsome⟩

/-- **once all data is released, fewer replays than the target go on with the same byte** -/
theorem few_go_on {target dist : Nat} (hN : 0 < target) {acts : List Action} {s : Session}
    (h : Conforming target dist acts s)
    (hall : ∀ id < s.conns.length, s.diverged id = true ∨
      ((s.writer id).any fun w => w.delayedDataLen == w.dataLen) = true) (b : UInt8) :
    s.merged.delayedDataLen = s.canon.length ∧
      ((Finset.range s.conns.length).filter fun id => s.canon ++ [b] <+: s.sent id).card < target := by
  obtain ⟨m, hrun, ht⟩ := h.tracks
  obtain ⟨-, hr⟩ := State.run_released hrun
  have htar := State.run_target hrun
  have hrel : ∀ id, m.Tracked id → (m.core.get id).delayed = m.core.len id := by
    intro id hid
    have hlt := ht.rel.lt_of_tracked ht.sound.wf hid
    rcases hall id hlt with hdiv | hany
    · rw [(ht.rel.tracked_iff hlt).mp hid] at hdiv
      exact absurd hdiv Bool.false_ne_true
    · obtain ⟨w, hw, h1, h2⟩ := ht.rel.any_writer hlt hany
      rw [← h1, ← h2]
      exact beq_iff_eq.mp hw
  rw [ht.rel.merged_delayed, ht.rel.canon_eq, ht.rel.sent_funext, ← htar]
  refine few_same_byte ht.sound.toInv ht.sound.dropped hr (htar ▸ hN) hrel b _ (fun id hid => ?_)
  exact (Finset.mem_filter.mp hid).2

/-- three writers that released all they have, two of which agree -/
def releasedRun : List Action :=
  [.added, .added, .added, .header 0 ⟨[7]⟩, .header 1 ⟨[7]⟩, .header 2 ⟨[7]⟩, .data 0 [1, 2, 3],
    .data 1 [1, 9], .data 2 [1, 2], .delayed 0 3, .delayed 1 2, .delayed 2 2]

theorem few_go_on_released : ∃ s, Conforming 2 3 releasedRun s ∧ s.canon = [1, 2] ∧
    s.merged.delayedDataLen = s.canon.length ∧
    ((Finset.range s.conns.length).filter fun id => s.canon ++ [3] <+: s.sent id).card < 2 := by
  obtain ⟨s, hs, hf⟩ := run_of_exec_map (fun _ => default) releasedRun (.new 2 3)
    (fun s => (s.canon, decide (∀ id < s.conns.length, s.diverged id = true ∨
      ((s.writer id).any fun w => w.delayedDataLen == w.dataLen) = true)))
    (b := ([1, 2], true)) (by decide +kernel)
  obtain ⟨hc, hall⟩ := Prod.mk.inj hf
  exact ⟨s, hs, hc, few_go_on (by decide) hs (of_decide_eq_true hall) 3⟩

/-! ## writers that agree -/

theorem Rel.honest {s : Session} {m : State} (h : s.Rel m) {D : List UInt8}
    (hD : ∀ c ∈ s.conns, c.sent <+: D) : m.core.Honest D := by
  intro id
  rw [← h.sent_eq]
  by_cases hs : s.sent id = []
  · rw [hs]
    exact List.nil_prefix
  · obtain ⟨c, hc, he⟩ := exists_conn hs
    exact he ▸ hD c hc

/-- at the end all that the writers sent is merged -/
theorem Tracks.all_merged {s : Session} {m : State} (ht : s.Tracks m) {D : List UInt8}
    (hD : ∀ c ∈ s.conns, c.sent <+: D) (hf : s.finished = true) (id : Nat) :
    s.sent id <+: s.canon := by
  rw [ht.rel.sent_eq, ht.rel.canon_eq]
  by_cases hid : id < m.core.replays.length
  · exact (dead_of_honest ht.sound.stream (ht.rel.honest hD) (dead_of_finished ht hf hid)).2
  · rw [Core.get_of_ge (not_lt.mp hid)]
    exact List.nil_prefix

/-- **where the writers agree, nobody is dropped for what it sent, and in the end the merged replay is
the longest of theirs**, whatever the target and the comparison distance -/
theorem honest_game {target dist : Nat} {acts : List Action} {s : Session}
    (h : Conforming target dist acts s) {D : List UInt8} (hD : ∀ c ∈ s.conns, c.sent <+: D) :
    s.canon <+: D ∧
    (∀ id, s.diverged id = true → ∃ c, s.conns[id]? = some c ∧ c.ended = true ∧ c.sent <+: s.canon) ∧
    (s.finished = true → (∀ c ∈ s.conns, c.sent <+: s.canon) ∧
      (s.canon = [] ∨ ∃ c ∈ s.conns, c.sent = s.canon)) := by
  obtain ⟨m, hrun, ht⟩ := h.tracks
  have hhon := ht.rel.honest hD
  have hcanon := canon_of_honest ht.sound.stream hhon
  rw [ht.rel.canon_eq]
  have hdead : ∀ id c, s.conns[id]? = some c →
      DeadAt (m.core.get id) m.core.canon.data m.core.cl →
      c.ended = true ∧ c.sent <+: m.core.canon.data := by
    intro id c hc hd
    obtain ⟨hf, hpre⟩ := dead_of_honest ht.sound.stream hhon hd
    obtain ⟨h1, -, h3⟩ := ht.rel.conn id c hc
    exact ⟨h3.trans hf, h1 ▸ hpre⟩
  refine ⟨hcanon, fun id hd => ?_, fun hf => ?_⟩
  · have hid := ht.rel.lt_of_diverged hd
    obtain ⟨c, hc, -⟩ := ht.rel.conn_of_lt hid
    exact ⟨c, hc, hdead id c hc (dead_of_diverged ht hd)⟩
  · have hall : ∀ c ∈ s.conns, c.sent <+: m.core.canon.data := by
      intro c hc
      obtain ⟨id, hid⟩ := List.getElem?_of_mem hc
      have hall := ht.all_merged hD hf id
      rw [sent, hid, ht.rel.canon_eq] at hall
      exact hall
    refine ⟨hall, ?_⟩
    by_cases hnil : m.core.canon.data = []
    · exact Or.inl hnil
    · -- the writer of the last byte is as long as the merged data
      have hpos : 0 < m.core.cl := List.length_pos_iff.mpr hnil
      obtain ⟨id, hlt, -⟩ := ht.sound.stream.bytes (m.core.cl - 1) (by omega)
      have hne : s.sent id ≠ [] := by
        rw [ht.rel.sent_eq]
        exact List.length_pos_iff.mp (Nat.zero_lt_of_lt hlt)
      obtain ⟨c, hc, he⟩ := exists_conn hne
      refine Or.inr ⟨c, hc, (hall c hc).eq_of_length_le ?_⟩
      rw [he, ht.rel.sent_eq]
      change m.core.cl - 1 < m.core.len id at hlt
      show m.core.cl ≤ m.core.len id
      omega

/-- the shorter of two replays is added late -/
def lateRun : List Action :=
  [.added, .header 0 ⟨[7]⟩, .data 0 [1, 2, 3], .delayed 0 3, .added, .header 1 ⟨[8]⟩, .data 1 [1, 2],
    .ended 0, .delayed 1 2, .ended 1, .finish]

theorem honest_game_late : ∃ s, Conforming 3 0 lateRun s ∧
    s.diverged 1 = true ∧ (∃ c, s.conns[1]? = some c ∧ c.ended = true ∧ c.sent <+: s.canon) ∧
    ∃ c ∈ s.conns, c.sent = s.canon := by
  obtain ⟨s, hs, hf⟩ := run_of_exec_map (fun _ => default) lateRun (.new 3 0)
    (fun s => (s.finished, s.diverged 1, decide (s.canon ≠ []),
      decide (∀ c ∈ s.conns, c.sent <+: [1, 2, 3]))) (b := (true, true, true, true)) (by decide +kernel)
  obtain ⟨hfin, hf⟩ := Prod.mk.inj hf
  obtain ⟨hdiv, hf⟩ := Prod.mk.inj hf
  obtain ⟨hne, hD⟩ := Prod.mk.inj hf
  obtain ⟨-, h2, h3⟩ := honest_game hs (of_decide_eq_true hD)
  exact ⟨s, hs, hdiv, h2 1 hdiv, (h3 hfin).2.resolve_left (of_decide_eq_true hne)⟩

end Session

end ReplayServer
