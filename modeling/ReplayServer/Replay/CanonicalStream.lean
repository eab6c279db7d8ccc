import ReplayServer.Replay.Agreement

/-!
# replay: the canonical stream

`Session.canonical_stream`: where the header, the bytes and the delayed position of the merged
replay come from, and that none of them is ever taken back.
-/

namespace ReplayServer
open Fallible Agree Merge

namespace Session.Rel
variable {s : Session} {m : State} (h : s.Rel m)
include h

theorem merged_header : s.merged.header = m.core.canon.header := h.merged_rel.header

theorem merged_delayed : s.merged.delayedDataLen = m.core.canon.delayed := h.merged_rel.delayed

theorem merged_dataLen : s.merged.dataLen = s.canon.length :=
  h.merged_rel.dataLen.trans (congrArg List.length h.canon_eq).symm

end Session.Rel

namespace Session

/-- **the canonical stream in every run** -/
theorem canonical_stream {target dist : Nat} {acts acts' : List Action}
    {s s' : Session} (h : Conforming target dist acts s) (h' : Lts.Run Step s acts' s') :
    (s.canon ≠ [] → s.merged.header ≠ none) ∧
    s.merged.header = acts.findSome? Action.reportedHeader ∧
    (∀ x, s.merged.header = some x → s'.merged.header = some x) ∧
    s.canon <+: s'.canon ∧
    (∀ p < s.canon.length, ∃ c ∈ s.conns, p < c.sent.length ∧ c.sent[p]? = s.canon[p]?) ∧
    s.merged.delayedDataLen ≤ s'.merged.delayedDataLen ∧
    s.merged.delayedDataLen ≤ s.merged.dataLen ∧ s.merged.dataLen = s.canon.length ∧
    (0 < s.merged.delayedDataLen → ∃ id n, .delayed id n ∈ acts ∧ s.merged.delayedDataLen ≤ n) := by
  obtain ⟨m, hrun, ht⟩ := h.tracks
  obtain ⟨m', hrun', ht'⟩ := ht.run h'
  have hev := Micros.evolves (State.run_micros ht.sound hrun') ht.sound.wf
  have hrep := State.run_reports hrun
  rw [ht.rel.merged_dataLen, ht.rel.merged_header, ht'.rel.merged_header, ht.rel.merged_delayed,
    ht'.rel.merged_delayed, ht.rel.canon_eq, ht'.rel.canon_eq]
  refine ⟨fun hne hn => hne (ht.sound.stream.header hn), hrep.header, hev.header, hev.grow,
    fun p hp => ?_, hev.canonDelayed, ht.sound.wf.core.delayed, rfl, fun hpos => ?_⟩
  · obtain ⟨id, hlt, hbyte⟩ := ht.sound.stream.bytes p hp
    have hsent := ht.rel.sent_eq id
    have hlt' : p < (s.sent id).length := by
      rw [hsent]
      exact hlt
    obtain ⟨c, hc, he⟩ := exists_conn (List.length_pos_iff.mp (Nat.zero_lt_of_lt hlt'))
    rw [← hsent, ← he] at hbyte
    rw [← he] at hlt'
    exact ⟨c, hc, hlt', hbyte⟩
  · obtain ⟨id, hle⟩ := ht.sound.stream.reported hpos
    rcases hrep.delayed id with h0 | hmem
    · omega
    · exact ⟨id, _, hmem, hle⟩

theorem canonical_stream_contested : ∃ s s', Conforming 2 3 contestedRun s ∧
    Lts.Run Step s contestedRest s' ∧ s.merged.header = some ⟨[7]⟩ ∧ s'.merged.header = some ⟨[7]⟩ ∧
    s.canon ≠ [] ∧ s.canon <+: s'.canon ∧ 0 < s.merged.delayedDataLen ∧
    ∃ id n, .delayed id n ∈ contestedRun ∧ s.merged.delayedDataLen ≤ n := by
  obtain ⟨s, hs, hf⟩ := run_of_exec_map (fun _ => default) contestedRun (.new 2 3)
    (fun s => (decide (s.canon ≠ []), decide (0 < s.merged.delayedDataLen),
      (s.exec (fun _ => default) contestedRest).toOption.map (fun _ => true)))
    (b := (true, true, some true)) (by decide +kernel)
  obtain ⟨h1, hf⟩ := Prod.mk.inj hf
  obtain ⟨h2, hf⟩ := Prod.mk.inj hf
  obtain ⟨s', hs', -⟩ := run_of_exec_map _ _ s _ hf
  obtain ⟨_, h4, h5, h6, _, _, _, _, h10⟩ := canonical_stream hs hs'
  have hpos := of_decide_eq_true h2
  exact ⟨s, s', hs, hs', h4, h5 _ h4, of_decide_eq_true h1, h6, hpos, h10 hpos⟩

end Session

end ReplayServer
