import ReplayServer.Replay.Streams
import ReplayServer.Util.BufDequeLog

/-!
# replay: what the merged replay copies from a writer

`add_data` walks over the chunks of the writer replay, from the end of the canonical data on, and
writes each of them, which may fill several chunks of its own.

* `windowStart_of_run`   without discards the whole deque is kept;
* `addData_copies`       exactly the requested range is copied.
-/

namespace ReplayServer
open Fallible BufDeque

namespace BufDeque

theorem Log.run_mark {ops : List Op} (hops : ∀ u, Op.discard u ∉ ops) (l : Log) :
    (l.run ops).mark = l.mark := by
  induction ops generalizing l with
  | nil => rfl
  | cons op ops ih =>
    show ((l.step op).run ops).mark = _
    rw [ih (fun u hu => hops u (List.mem_cons_of_mem _ hu))]
    cases op with
    | write buf => rfl
    | writeAll buf => rfl
    | discard u => exact absurd List.mem_cons_self (hops u)

/-- a deque that was never discarded keeps everything -/
theorem windowStart_of_run {b : BufDeque} {ops : List Op} {counts : List Nat}
    (h : new.run ops = .ok (b, counts)) (hops : ∀ u, Op.discard u ∉ ops) : b.windowStart = 0 := by
  rw [(holds_of_run h).windowStart, Log.start, Log.run_mark hops]
  rfl

end BufDeque

/-- **`add_data` copies exactly the requested range.**  The canonical data is a deque that was never
discarded, the writer's one has any history that left what is to be copied. -/
theorem addData_copies {m : MergedReplay} {w : WriterReplay} {mops wops : List Op}
    {mcounts wcounts : List Nat} (hm : new.run mops = .ok (m.data, mcounts))
    (hkeep : ∀ u, Op.discard u ∉ mops) (hw : new.run wops = .ok (w.data, wcounts))
    (hfin : m.finished = false) {until_ : Nat} (hstart : w.data.windowStart ≤ m.dataLen)
    (hlo : m.dataLen ≤ until_) (hhi : until_ ≤ w.dataLen) :
    (∃ cs, ChunkedBuf.iterChunks w.data m.dataLen until_ = .ok cs ∧ (∀ c ∈ cs, c ≠ []) ∧
      cs.flatten = ((Log.new.run wops).written.drop m.dataLen).take (until_ - m.dataLen)) ∧
    ∃ m', m.addData w until_ = .ok m' ∧ m'.dataLen = until_ ∧
      (∀ p, p < m.dataLen →
        ∃ x, ChunkedBuf.at m.data p = .ok x ∧ ChunkedBuf.at m'.data p = .ok x) ∧
      ∀ p, m.dataLen ≤ p → p < until_ →
        ∃ x, ChunkedBuf.at w.data p = .ok x ∧ ChunkedBuf.at m'.data p = .ok x := by
  have hx := (holds_of_run hm).repr
  have hy := (holds_of_run hw).repr
  obtain ⟨x, hxe⟩ : ∃ x, x = (Log.new.run mops).written := ⟨_, rfl⟩
  obtain ⟨y, hye⟩ : ∃ y, y = (Log.new.run wops).written := ⟨_, rfl⟩
  rw [← hxe] at hx
  rw [← hye] at hy ⊢
  have hm0 := windowStart_of_run hm hkeep
  have hxlen : m.dataLen = x.length := hx.len
  have hylen : w.dataLen = y.length := hy.len
  obtain ⟨cs, hcs, hflat, hne⟩ := iterChunks_eq hy hstart hlo (by omega)
  obtain ⟨b, hb, hr, hd⟩ := hx.writeChunks cs
  have hb0 : b.windowStart = 0 := by
    show b.discardedChunks * chunkSize = 0
    rw [hd]
    exact hm0
  have hlen : (x ++ cs.flatten).length = until_ := by
    rw [hflat, List.length_append, List.length_take, List.length_drop]
    omega
  refine ⟨⟨cs, hcs, hne, hflat⟩, { m with data := b }, ?_, hr.len.trans hlen, ?_, ?_⟩
  · unfold MergedReplay.addData
    rw [assertThat_true hfin, ok_bind, assertThat_true hhi, ok_bind, hcs, ok_bind, hb]
    rfl
  · intro p hp
    have hpx : x[p]? = some x[p] := List.getElem?_eq_getElem (by omega)
    refine ⟨x[p], at_eq hx (by omega) hpx, at_eq hr (by omega) ?_⟩
    rw [List.getElem?_append_left (by omega), hpx]
  · intro p hp hp'
    have hpy : y[p]? = some y[p] := List.getElem?_eq_getElem (by omega)
    refine ⟨y[p], at_eq hy (by omega) hpy, at_eq hr (by omega) ?_⟩
    rw [List.getElem?_append_right (by omega), hflat, List.getElem?_take, if_pos (by omega),
      List.getElem?_drop, hxlen, Nat.add_sub_cancel' (by omega), hpy]

/-- bytes after the first chunk, of a writer that discarded it -/
theorem addData_copies_discarded :
    ∃ (m : MergedReplay) (w : WriterReplay) (mcounts wcounts : List Nat),
      new.run [.writeAll (List.replicate 4097 7)] = .ok (m.data, mcounts) ∧
      new.run [.writeAll (List.replicate 5000 7), .discard 4096] = .ok (w.data, wcounts) ∧
      m.dataLen = 4097 ∧ w.data.windowStart = 4096 ∧
      ∃ m', m.addData w 4999 = .ok m' ∧ m'.dataLen = 4999 ∧ ∀ p, 4097 ≤ p → p < 4999 →
        ∃ x, ChunkedBuf.at w.data p = .ok x ∧ ChunkedBuf.at m'.data p = .ok x := by
  have hx : (List.replicate 4097 (7 : UInt8)).length = 4097 := List.length_replicate
  have hy : (List.replicate 5000 (7 : UInt8)).length = 5000 := List.length_replicate
  generalize List.replicate 4097 (7 : UInt8) = xs at *
  generalize List.replicate 5000 (7 : UInt8) = ys at *
  obtain ⟨⟨c, mcounts⟩, hmrun, hm, -⟩ := new_holds.run [.writeAll xs]
  obtain ⟨⟨b, wcounts⟩, hwrun, hw, -⟩ := new_holds.run [.writeAll ys, .discard 4096]
  have hlen : ∀ bytes : List UInt8, (Log.new.run [.writeAll bytes]).written.length = bytes.length := by
    intro bytes
    show ([] ++ bytes.take bytes.length).length = _
    rw [List.nil_append, List.take_length]
  have hmlen : c.windowEnd = 4097 := hm.repr.len.trans ((hlen xs).trans hx)
  have hwlen : b.windowEnd = 5000 := hw.repr.len.trans ((hlen ys).trans hy)
  have hws : b.windowStart = 4096 :=
    hw.windowStart.trans (show chunkSize * (max 0 4096 / chunkSize) = 4096 by decide)
  obtain ⟨-, m', hm', hend, -, hcopied⟩ := addData_copies (m := { MergedReplay.new with data := c })
    (w := { WriterReplay.new with data := b }) hmrun (by simp) hwrun rfl
    (show b.windowStart ≤ c.windowEnd by omega) (show c.windowEnd ≤ 4999 by omega)
    (show 4999 ≤ b.windowEnd by omega)
  refine ⟨{ MergedReplay.new with data := c }, { WriterReplay.new with data := b }, mcounts, wcounts,
    hmrun, hwrun, hmlen, hws, m', hm', hend, fun p hp => ?_⟩
  exact hcopied p (show c.windowEnd ≤ p by omega)

end ReplayServer
