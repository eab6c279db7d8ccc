import ReplayServer.Replay.Refine

/-!
# replay: reading the merged replay

* `MergedReplay.Rel.getChunk`    a chunk of the merged replay is a piece of header and data that
                                 the delayed position allows;
* `MergedReplay.Rel.pollRead`    what a poll does;
* `MergedReplay.Rel.readToEnd`   a cursor over a finished replay yields the rest of it;
* `MergedReplay.Rel.readFrom`    and so does a reader, which is what a save takes for granted.
-/

set_option linter.unusedSectionVars false

namespace ReplayServer
open Fallible Agree Merge

/-- the outcome of a poll -/
inductive MReplayReader.Polled (self : MReplayReader) (m : MergedReplay) (w : Waker) :
    MReplayReader × MergedReplay × Poll → Prop where
  | ended (h : ChunkedBuf.len m ≤ self.position) (hf : m.finished = true) :
      Polled self m w (self, m, .ready [])
  | pending (h : ChunkedBuf.len m ≤ self.position) (hf : m.finished = false) :
      Polled self m w (self, m.waitForReadEvent w, .pending)
  | bytes (l : List UInt8) (hne : l ≠ []) (hl : l <+: m.stream.drop self.position)
      (hle : self.position + l.length ≤ ChunkedBuf.len m) :
      Polled self m w (⟨self.position + l.length⟩, m, .ready l)

namespace MergedReplay.Rel
variable {m : MergedReplay} {c : Merge.Canon} (h : m.Rel c) (hd : c.delayed ≤ c.data.length)
include h hd

theorem len_eq : ChunkedBuf.len m = c.delayed + m.headerLen := by
  show m.delayedDataLen + m.headerLen = _
  rw [h.delayed]

theorem stream_eq : ∃ x : List UInt8, x.length = m.headerLen ∧ m.stream = x ++ c.data ∧
    ∀ y, m.header = some y → y.data = x := by
  unfold stream headerLen
  rw [h.contents]
  cases m.header with
  | none => exact ⟨[], rfl, rfl, fun _ hy => nomatch hy⟩
  | some y =>
    refine ⟨y.data, rfl, rfl, fun z hz => ?_⟩
    cases hz
    rfl

theorem len_le_stream : ChunkedBuf.len m ≤ m.stream.length := by
  obtain ⟨x, hx, hs, -⟩ := h.stream_eq hd
  rw [h.len_eq hd, hs, List.length_append, hx]
  omega

theorem getChunk {start : Nat} (hs : start < ChunkedBuf.len m) : ∃ l,
    ChunkedBuf.getChunk m start = .ok l ∧ l ≠ [] ∧ l <+: m.stream.drop start ∧
      start + l.length ≤ ChunkedBuf.len m := by
  obtain ⟨x, hx, hstream, hhead⟩ := h.stream_eq hd
  rw [h.len_eq hd] at hs ⊢
  show ∃ l, MergedReplay.getChunk m start = .ok l ∧ _
  unfold MergedReplay.getChunk
  rw [hstream]
  by_cases hlt : start < m.headerLen
  · have hsome : ∃ y, m.header = some y := by
      cases hm : m.header with
      | some y => exact ⟨y, rfl⟩
      | none =>
        unfold headerLen at hlt
        rw [hm] at hlt
        exact absurd hlt (Nat.not_lt_zero _)
    obtain ⟨y, hy⟩ := hsome
    rw [if_pos hlt, hy, unwrap_some, ok_bind, hhead y hy]
    refine ⟨_, rfl, ?_, ?_, ?_⟩
    · rw [ne_eq, List.drop_eq_nil_iff]
      omega
    · rw [List.drop_append_of_le_length (by omega)]
      exact List.prefix_append _ _
    · rw [List.length_drop]
      omega
  · have hle : start - m.headerLen ≤ m.delayedDataLen := by
      rw [h.delayed]
      omega
    have hin : start - m.headerLen < c.data.length := by omega
    have hedge := lt_chunkEdge (start - m.headerLen)
    have hchunk : ChunkedBuf.getChunk m.data (start - m.headerLen) = _ :=
      BufDeque.Repr.getChunk h.data (by rw [h.windowStart]; exact Nat.zero_le _) hin
    rw [if_neg hlt]
    dsimp only
    rw [checkedSub_of_le hle, ok_bind, hchunk, ok_bind, h.delayed]
    refine ⟨_, rfl, ?_, ?_, ?_⟩
    · rw [← List.length_pos_iff, List.length_take, List.length_take, List.length_drop]
      omega
    · rw [show (x ++ c.data).drop start = c.data.drop (start - m.headerLen) by
        rw [List.drop_append, List.drop_eq_nil_of_le (by omega), hx, List.nil_append]]
      exact (List.take_prefix _ _).trans (List.take_prefix _ _)
    · rw [List.length_take]
      omega

theorem pollRead (self : MReplayReader) (w : Waker) {size : Nat} (hsize : 0 < size) :
    Returns (self.pollRead m w size) (self.Polled m w) := by
  unfold MReplayReader.pollRead
  by_cases hle : ChunkedBuf.len m ≤ self.position
  · rw [if_pos hle]
    cases hf : m.finished with
    | true => exact returns_ok (.ended hle hf)
    | false => exact returns_ok (.pending hle hf)
  · obtain ⟨l, hl, hne, hpre, hlen⟩ := h.getChunk hd (not_le.mp hle)
    rw [if_neg hle, hl, ok_bind]
    have hpos := List.length_pos_iff.mpr hne
    have htake : (l.take (min l.length size)).length = min l.length size := by
      rw [List.length_take]
      omega
    have hbytes : MReplayReader.Polled self m w _ :=
      MReplayReader.Polled.bytes (l.take (min l.length size)) (by
        rw [← List.length_pos_iff, htake]
        omega)
      ((List.take_prefix _ _).trans hpre) (by
        rw [htake]
        omega)
    rw [htake] at hbytes
    exact returns_ok hbytes

/-- **a cursor over a replay that is shown in full yields the rest of it** -/
theorem readToEnd (hfull : ChunkedBuf.len m = m.stream.length) {sizes : Nat → Nat}
    (hsizes : ∀ k, 0 < sizes k) {fuel start : Nat} (hfuel : m.stream.length - start < fuel) :
    ReadAtCursor.readToEnd m sizes fuel ⟨start⟩ = .ok (m.stream.drop start) := by
  induction fuel generalizing start with
  | zero => exact absurd hfuel (Nat.not_lt_zero _)
  | succ fuel ih =>
    unfold ReadAtCursor.readToEnd ReadAtCursor.read ChunkedBuf.readAt
    by_cases hle : start ≥ ChunkedBuf.len m
    · rw [if_pos hle, List.drop_eq_nil_of_le (by omega)]
      rfl
    · obtain ⟨l, hl, hne, hpre, hlen⟩ := h.getChunk hd (not_le.mp hle)
      have hpos := List.length_pos_iff.mpr hne
      have hsz := hsizes fuel
      have htake : (l.take (sizes fuel)).length = min (sizes fuel) l.length := List.length_take
      have hempty : (l.take (sizes fuel)).isEmpty = false := by
        rw [List.isEmpty_eq_false_iff, ← List.length_pos_iff, htake]
        omega
      rw [if_neg hle]
      dsimp only
      rw [hl]
      simp only [ok_bind, pure_eq_ok]
      rw [hempty, if_neg Bool.false_ne_true, ih (by omega), ok_bind]
      obtain ⟨k, hk⟩ := (List.take_prefix (sizes fuel) l).trans hpre
      rw [← List.drop_drop, ← hk, List.drop_left]

/-- a reader of a finished replay that is shown in full gets the rest of it, and never waits -/
theorem copyToEnd (hfull : ChunkedBuf.len m = m.stream.length) (hf : m.finished = true)
    {sizes : Nat → Nat} (hsizes : ∀ k, 0 < sizes k) {fuel : Nat} {self : MReplayReader}
    (hfuel : m.stream.length - self.position < fuel) :
    MReplayReader.readToEnd m sizes fuel self = .ok (m.stream.drop self.position) := by
  induction fuel generalizing self with
  | zero => exact absurd hfuel (Nat.not_lt_zero _)
  | succ fuel ih =>
    obtain ⟨res, hpoll, hdone⟩ := h.pollRead hd self 0 (hsizes fuel)
    unfold MReplayReader.readToEnd
    rw [hpoll, ok_bind]
    cases hdone with
    | ended hle _ =>
      rw [List.drop_eq_nil_of_le (hfull ▸ hle)]
      rfl
    | pending _ hnot =>
      rw [hf] at hnot
      cases hnot
    | bytes l hne hl hle =>
      have hpos := List.length_pos_iff.mpr hne
      obtain ⟨k, hk⟩ := hl
      have hrest : MReplayReader.readToEnd m sizes fuel ⟨self.position + l.length⟩ =
          .ok (m.stream.drop (self.position + l.length)) := ih (by dsimp only; omega)
      dsimp only
      rw [List.isEmpty_eq_false_iff.mpr hne, if_neg Bool.false_ne_true, hrest, ok_bind,
        ← List.drop_drop, ← hk, List.drop_left]
      rfl

/-- **what a save and the count of ticks read**: the copy to the file and the cursor for the ticks -/
theorem readFrom (hfull : ChunkedBuf.len m = m.stream.length) (hf : m.finished = true)
    {sizes : Nat → Nat} (hsizes : ∀ k, 0 < sizes k) {fuel : Nat} (position : Nat)
    (hfuel : m.stream.length - position < fuel) :
    MReplayReader.readToEnd m sizes fuel ⟨position⟩ = .ok (m.readFrom position) ∧
    ReadAtCursor.readToEnd m sizes fuel ⟨position⟩ = .ok (m.readFrom position) := by
  have heq : m.readFrom position = m.stream.drop position := by
    unfold MergedReplay.readFrom
    rw [hfull, List.take_length]
  rw [heq]
  exact ⟨h.copyToEnd hd hfull hf hsizes hfuel, h.readToEnd hd hfull hsizes hfuel⟩

end MergedReplay.Rel

end ReplayServer
