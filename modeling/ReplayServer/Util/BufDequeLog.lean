import Mathlib.Data.List.Forall2
import ReplayServer.Util.BufDequeUsize

/-!
# util: a `BufDeque` is an append-only log with a low-water mark

`Log` says what the deque is for: the bytes that were taken so far, and the largest discard point.
A run of the checked deque does what the same calls do to the log.

* `Log.step`, `Log.taken`   one call of the log, and how much of a buffer one write takes;
* `Holds.step`, `Holds.run`  one call and every sequence of calls, next to the log;
* `Checked.run_eq`          nothing overflows on the way;
* `refines_log`             what the deque answers after any sequence of calls.
-/

namespace ReplayServer
open Fallible

namespace BufDeque

/-- the calls that change a deque -/
inductive Op where
  | write (buf : List UInt8)
  | writeAll (buf : List UInt8)
  | discard (until_ : Nat)

namespace Op

/-- the argument is a `usize` -/
def InRange : Op → Prop
  | .discard u => u ≤ usizeMax
  | _ => True

/-- the bytes of which a call took `n` -/
def part : Op → Nat → List UInt8
  | .write buf, n => buf.take n
  | .writeAll buf, n => buf.take n
  | .discard _, _ => []

/-- a write takes at least one byte of what it is given, `write_all` takes all of it -/
def Takes : Op → Nat → Prop
  | .write buf, n => n ≤ buf.length ∧ (buf ≠ [] → 0 < n)
  | .writeAll buf, n => n = buf.length
  | .discard _, n => n = 0

end Op

/-- one call, and the number of bytes it took -/
def step (b : BufDeque) : Op → Res (BufDeque × Nat)
  | .write buf => b.appendSome buf
  | .writeAll buf => do return (← b.writeAll buf, buf.length)
  | .discard until_ => .ok (b.discard until_, 0)

/-- a sequence of calls, and the number of bytes each of them took -/
def run : BufDeque → List Op → Res (BufDeque × List Nat)
  | b, [] => .ok (b, [])
  | b, op :: ops => do
    let (b, n) ← b.step op
    let (b, counts) ← run b ops
    return (b, n :: counts)

namespace Checked

def step (b : BufDeque) : Op → Res (BufDeque × Nat)
  | .write buf => appendSome b buf
  | .writeAll buf => do return (← writeAll b buf, buf.length)
  | .discard until_ => do return (← discard b until_, 0)

def run : BufDeque → List Op → Res (BufDeque × List Nat)
  | b, [] => .ok (b, [])
  | b, op :: ops => do
    let (b, n) ← step b op
    let (b, counts) ← run b ops
    return (b, n :: counts)

end Checked

/-! ## the log -/

structure Log where
  written : List UInt8
  mark : Nat

namespace Log

def new : Log := ⟨[], 0⟩

/-- the first position that is kept: the start of the chunk of the mark -/
def start (l : Log) : Nat := chunkSize * (l.mark / chunkSize)

/-- a write goes on to the end of the first chunk that is kept -/
def taken (l : Log) (buf : List UInt8) : Nat :=
  min buf.length (chunkEdge (max l.written.length l.start) - l.written.length)

def count (l : Log) : Op → Nat
  | .write buf => l.taken buf
  | .writeAll buf => buf.length
  | .discard _ => 0

def step (l : Log) (op : Op) : Log :=
  match op with
  | .discard u => { l with mark := max l.mark u }
  | _ => { l with written := l.written ++ op.part (l.count op) }

def run (l : Log) (ops : List Op) : Log := ops.foldl step l

def counts (l : Log) : List Op → List Nat
  | [] => []
  | op :: ops => l.count op :: (l.step op).counts ops

theorem taken_pos (l : Log) {buf : List UInt8} (h : buf ≠ []) : 0 < l.taken buf := by
  have hpos := List.length_pos_of_ne_nil h
  have hedge := lt_chunkEdge (max l.written.length l.start)
  unfold taken
  omega

theorem count_takes (l : Log) (op : Op) : op.Takes (l.count op) := by
  cases op with
  | write buf => exact ⟨min_le_left _ _, l.taken_pos⟩
  | writeAll buf => rfl
  | discard u => rfl

theorem step_written (l : Log) (op : Op) :
    (l.step op).written = l.written ++ op.part (l.count op) := by
  cases op with
  | write buf => rfl
  | writeAll buf => rfl
  | discard u => exact (List.append_nil _).symm

theorem step_length (l : Log) (op : Op) :
    (l.step op).written.length = l.written.length + l.count op := by
  rw [step_written, List.length_append]
  cases op with
  | write buf => simp [Op.part, count, taken]
  | writeAll buf => simp [Op.part, count]
  | discard u => rfl

theorem counts_takes (l : Log) (ops : List Op) : List.Forall₂ Op.Takes ops (l.counts ops) := by
  induction ops generalizing l with
  | nil => exact .nil
  | cons op ops ih => exact .cons (l.count_takes op) (ih (l.step op))

/-- **the log is what the calls took, one after the other** -/
theorem run_written (l : Log) (ops : List Op) :
    (l.run ops).written = l.written ++ (List.zipWith Op.part ops (l.counts ops)).flatten := by
  induction ops generalizing l with
  | nil => exact (List.append_nil _).symm
  | cons op ops ih =>
    show ((l.step op).run ops).written = _
    rw [ih, step_written]
    simp [counts]

theorem run_length (l : Log) (ops : List Op) :
    (l.run ops).written.length = l.written.length + (l.counts ops).sum := by
  induction ops generalizing l with
  | nil => rfl
  | cons op ops ih =>
    show ((l.step op).run ops).written.length = _
    rw [ih, step_length]
    simp only [counts, List.sum_cons]
    omega

theorem step_mark_le {l : Log} {op : Op} (hl : l.mark ≤ usizeMax) (hop : op.InRange) :
    (l.step op).mark ≤ usizeMax := by
  cases op with
  | write buf => exact hl
  | writeAll buf => exact hl
  | discard u => exact max_le hl hop

theorem run_mark_le {l : Log} (hl : l.mark ≤ usizeMax) {ops : List Op}
    (hops : ∀ op ∈ ops, op.InRange) : (l.run ops).mark ≤ usizeMax := by
  induction ops generalizing l with
  | nil => exact hl
  | cons op ops ih =>
    apply ih (step_mark_le hl (hops op List.mem_cons_self))
    exact fun o ho => hops o (List.mem_cons_of_mem _ ho)

end Log

/-! ## the deque follows the log -/

/-- `b` is what the calls made of the deque, `l` what they made of the log -/
structure Holds (b : BufDeque) (l : Log) : Prop where
  repr : b.Repr l.written
  discarded : b.discardedChunks = l.mark / chunkSize

theorem Holds.windowStart {b : BufDeque} {l : Log} (h : b.Holds l) : b.windowStart = l.start := by
  unfold BufDeque.windowStart Log.start
  rw [h.discarded, Nat.mul_comm]

theorem Holds.fits {b : BufDeque} {l : Log} (h : b.Holds l) (hmark : l.mark ≤ usizeMax)
    (hlen : l.written.length + chunkSize ≤ usizeMax) : b.Fits := by
  apply h.repr.fits hlen
  rw [h.discarded]
  exact Nat.div_le_div_right hmark

/-- a write takes what the log says -/
theorem Holds.count {b b' : BufDeque} {l : Log} (h : b.Holds l) {buf : List UInt8} {n : Nat}
    (he : b.appendSome buf = .ok (b', n)) : n = l.taken buf := by
  have hws : b.windowStart = b.discardedChunks * chunkSize := rfl
  unfold Log.taken
  rw [← h.windowStart, ← h.repr.len]
  by_cases hb : b.windowEnd < b.windowStart
  · have hskip : b.skip buf = min (b.windowStart - b.windowEnd) buf.length := if_pos hb
    rw [max_eq_right hb.le]
    rcases appendSome_cases he with ⟨hnil, rfl, -⟩ | ⟨hlt, b1, c, -, -, rfl, -⟩
    · have hedge := lt_chunkEdge b.windowStart
      omega
    · rw [List.length_drop]
      unfold chunkEdge chunkSize at *
      omega
  · have hskip : b.skip buf = 0 := if_neg hb
    rw [max_eq_left (not_lt.mp hb)]
    rcases appendSome_cases he with ⟨hnil, rfl, -⟩ | ⟨hlt, b1, c, -, -, rfl, -⟩
    · omega
    · rw [List.length_drop, hskip]
      unfold chunkEdge chunkSize
      omega

/-- **one call** -/
theorem Holds.step {b : BufDeque} {l : Log} (h : b.Holds l) (op : Op) :
    Returns (b.step op) (fun r => r.1.Holds (l.step op) ∧ r.2 = l.count op) := by
  cases op with
  | write buf =>
    show Returns (b.appendSome buf) _
    by_cases hnil : buf = []
    · have he : b.appendSome buf = .ok (b, 0) := by
        subst hnil
        simp [appendSome]
      rw [he]
      refine returns_ok ⟨⟨?_, h.discarded⟩, h.count he⟩
      rw [l.step_written, hnil]
      simpa [Op.part] using h.repr
    · obtain ⟨b', n, he, -, -, hr, hd⟩ := h.repr.appendSome hnil
      have hn := h.count he
      rw [he]
      refine returns_ok ⟨⟨?_, hd.trans h.discarded⟩, hn⟩
      rw [l.step_written]
      show b'.Repr (l.written ++ buf.take (l.taken buf))
      rw [← hn]
      exact hr
  | writeAll buf =>
    show Returns (do return (← b.writeAll buf, buf.length)) _
    refine (h.repr.writeAll buf).bind (fun b' hb' => returns_ok ⟨⟨?_, ?_⟩, rfl⟩)
    · rw [l.step_written]
      show b'.Repr (l.written ++ buf.take buf.length)
      rw [List.take_length]
      exact hb'.1
    · exact hb'.2.trans h.discarded
  | discard u =>
    refine returns_ok ⟨⟨h.repr.discard u, ?_⟩, rfl⟩
    show (b.discard u).discardedChunks = max l.mark u / chunkSize
    rw [discard_discardedChunks, h.discarded]
    unfold chunkSize
    omega

/-- **every sequence of calls** -/
theorem Holds.run {b : BufDeque} {l : Log} (h : b.Holds l) (ops : List Op) :
    Returns (b.run ops) (fun r => r.1.Holds (l.run ops) ∧ r.2 = l.counts ops) := by
  induction ops generalizing b l with
  | nil => exact returns_ok ⟨h, rfl⟩
  | cons op ops ih =>
    unfold BufDeque.run
    refine (h.step op).bind (fun r hr => (ih hr.1).bind (fun r' hr' => returns_ok ⟨hr'.1, ?_⟩))
    rw [hr.2, hr'.2]
    rfl

theorem new_holds : new.Holds Log.new := ⟨Repr.new, rfl⟩

theorem holds_of_run {b : BufDeque} {ops : List Op} {counts : List Nat}
    (h : new.run ops = .ok (b, counts)) : b.Holds (Log.new.run ops) :=
  ((new_holds.run ops).of_eq h).1

namespace Checked

/-- as long as the end of the data stays in range, `write_all` overflows nowhere -/
theorem writeAllLoop_eq (fuel : Nat) {b : BufDeque} {data : List UInt8} (h : b.Repr data)
    (hd : b.discardedChunks ≤ usizeMax / chunkSize) (buf : List UInt8) (hf : buf.length ≤ fuel)
    (hlen : data.length + buf.length + chunkSize ≤ usizeMax) :
    writeAllLoop fuel b buf = b.writeAllLoop fuel buf := by
  induction fuel generalizing b data buf with
  | zero => rfl
  | succ fuel ih =>
    unfold writeAllLoop BufDeque.writeAllLoop
    by_cases hnil : buf = []
    · simp [hnil]
    · obtain ⟨b', n, he, hn0, hn, hr, hdd⟩ := h.appendSome hnil
      have hend : b.windowEnd + n ≤ usizeMax := by
        rw [h.len]
        omega
      have hlen' : (data ++ buf.take n).length + (buf.drop n).length + chunkSize ≤ usizeMax := by
        rw [List.length_append, List.length_take, List.length_drop]
        omega
      rw [appendSome_eq (h.fits (by omega) hd) he hend, he]
      simp only [ok_bind, if_neg (show ¬ n = 0 by omega)]
      rw [ih hr (hdd.trans_le hd) (buf.drop n) (by rw [List.length_drop]; omega) hlen']

section
variable {b : BufDeque} {l : Log} (h : b.Holds l) (hmark : l.mark ≤ usizeMax)
include h hmark

theorem step_eq {op : Op} (hop : op.InRange)
    (hlen : (l.step op).written.length + chunkSize ≤ usizeMax) : step b op = b.step op := by
  rw [l.step_length] at hlen
  have hfits := h.fits hmark (by omega)
  cases op with
  | write buf =>
    obtain ⟨⟨b', n⟩, he, -, hn⟩ := h.step (.write buf)
    have hend : b.windowEnd + n ≤ usizeMax := by
      rw [h.repr.len, show n = l.count (.write buf) from hn]
      omega
    exact (appendSome_eq hfits he hend).trans he.symm
  | writeAll buf =>
    have hd : b.discardedChunks ≤ usizeMax / chunkSize := by
      rw [h.discarded]
      exact Nat.div_le_div_right hmark
    show (do return (← writeAll b buf, buf.length)) = (do return (← b.writeAll buf, buf.length))
    rw [show writeAll b buf = b.writeAll buf from writeAllLoop_eq _ h.repr hd buf le_rfl hlen]
  | discard u =>
    show (do return (← discard b u, 0)) = _
    rw [discard_eq b hop]
    rfl

end

/-- **as long as the end of the data stays in range, nothing overflows** -/
theorem run_eq {b : BufDeque} {l : Log} (h : b.Holds l) (hmark : l.mark ≤ usizeMax)
    (ops : List Op) (hops : ∀ op ∈ ops, op.InRange)
    (hlen : (l.run ops).written.length + chunkSize ≤ usizeMax) : run b ops = b.run ops := by
  induction ops generalizing b l with
  | nil => rfl
  | cons op ops ih =>
    have hop := hops op List.mem_cons_self
    have hrest := (l.step op).run_length ops
    change ((l.step op).run ops).written.length + _ ≤ _ at hlen
    obtain ⟨⟨b', n⟩, he, hb', -⟩ := h.step op
    unfold run BufDeque.run
    rw [step_eq h hmark hop (by omega), he]
    simp only [ok_bind]
    rw [ih hb' (Log.step_mark_le hmark hop) (fun o ho => hops o (List.mem_cons_of_mem _ ho)) hlen]

end Checked

/-- **A deque is the log of its calls.**  After any calls nothing overflowed or panicked, every
write took a byte, the length is what was taken, the positions below the chunk of the largest
discard point are gone, and every other position reads a run of the log. -/
theorem refines_log (ops : List Op) (hops : ∀ op ∈ ops, op.InRange)
    (hlen : (Log.new.run ops).written.length + chunkSize ≤ usizeMax) :
    ∃ b counts, Checked.run BufDeque.new ops = .ok (b, counts) ∧
      List.Forall₂ Op.Takes ops counts ∧
      (Log.new.run ops).written = (List.zipWith Op.part ops counts).flatten ∧
      ChunkedBuf.len b = counts.sum ∧ ChunkedBuf.len b = (Log.new.run ops).written.length ∧
      Checked.windowStart b = .ok (chunkSize * ((Log.new.run ops).mark / chunkSize)) ∧
      b.chunks.length = (ChunkedBuf.len b + chunkSize - 1) / chunkSize
        - (Log.new.run ops).mark / chunkSize ∧
      (∀ p, p < chunkSize * ((Log.new.run ops).mark / chunkSize) →
        Checked.getChunk b p = .error .assertion) ∧
      ∀ p, chunkSize * ((Log.new.run ops).mark / chunkSize) ≤ p → p < ChunkedBuf.len b →
        ∃ c, Checked.getChunk b p = .ok c ∧ c ≠ [] ∧ c <+: (Log.new.run ops).written.drop p := by
  obtain ⟨⟨b, counts⟩, hrun, hb, rfl⟩ := new_holds.run ops
  rw [← Checked.run_eq new_holds (Nat.zero_le _) ops hops hlen] at hrun
  obtain ⟨l, hl⟩ : ∃ l, l = Log.new.run ops := ⟨_, rfl⟩
  have hmark : l.mark ≤ usizeMax := by
    rw [hl]
    exact Log.run_mark_le (Nat.zero_le _) hops
  rw [← hl] at hb hlen
  have hfits := hb.fits hmark hlen
  have hend : ChunkedBuf.len b = l.written.length := hb.repr.len
  have hstart := hb.windowStart
  have hget := Checked.getChunk_eq hfits (show ChunkedBuf.len b ≤ usizeMax by omega)
  refine ⟨b, _, hrun, Log.counts_takes _ _, Log.run_written _ _, ?_, ?_, ?_, ?_, ?_, ?_⟩
  · rw [hend, hl, Log.run_length]
    exact Nat.zero_add _
  · rw [← hl]
    exact hend
  · rw [← hl, Checked.windowStart_eq hfits, hstart]
    rfl
  · rw [← hl, hend, hb.repr.chunks, hb.discarded]
  · intro p hp
    rw [← hl] at hp
    change p < l.start at hp
    rw [hget, BufDeque.getChunk]
    simp [assertThat, hstart, show ¬ l.start ≤ p by omega]
  · intro p hlo hp
    rw [← hl] at hlo ⊢
    change l.start ≤ p at hlo
    have hedge := lt_chunkEdge p
    refine ⟨_, (hget p).trans (hb.repr.getChunk (by omega) (by omega)), ?_, List.take_prefix _ _⟩
    apply List.ne_nil_of_length_pos
    rw [List.length_take, List.length_drop]
    omega

/-- a write, a discard beyond the end, and a write that is skipped -/
theorem refines_log_skipped :
    ∃ b counts, Checked.run BufDeque.new [.write [1, 2], .discard 5000, .writeAll [3]]
        = .ok (b, counts) ∧ ChunkedBuf.len b = counts.sum := by
  have h := refines_log [.write [1, 2], .discard 5000, .writeAll [3]]
    (by simp [Op.InRange, usizeMax]) (by decide)
  obtain ⟨b, counts, hrun, -, -, hsum, -⟩ := h
  exact ⟨b, counts, hrun, hsum⟩

end BufDeque

end ReplayServer
