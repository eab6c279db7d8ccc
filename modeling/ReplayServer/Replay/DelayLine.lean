import ReplayServer.Replay.ReplayDelay
import ReplayServer.Replay.Streams

/-!
# replay: the position history is a delay line

A schedule is a list of appends to one writer replay and of cycles of `update_replay_timestamp`,
each with its time.  No result of this module asks about the times.

* `lastN_push`   a bounded queue holds the last lengths that were pushed;
* `History`      what holds between the events of a schedule: the delayed position of a cycle is
                 the length of some cycles before, or of the first one;
* `run_history`  every schedule keeps it, and no event panics when the history has room;
* `delay_line`   so the delayed positions go up and stay within the data, the final one included.
-/

namespace ReplayServer
open Fallible

/-! ## the last entries of a list -/

/-- the last `n` entries -/
def lastN (n : Nat) (l : List Nat) : List Nat := l.drop (l.length - n)

/-- pushing onto a queue of at most `n` entries -/
theorem lastN_push (n x : Nat) (l : List Nat) :
    (if (lastN n l ++ [x]).length > n then (lastN n l ++ [x]).tail else lastN n l ++ [x])
      = lastN n (l ++ [x]) := by
  have hlen : (lastN n l ++ [x]).length = l.length - (l.length - n) + 1 := by
    simp [lastN]
  rw [hlen]
  unfold lastN
  rw [List.length_append, List.length_singleton]
  by_cases h : n ≤ l.length
  · rw [if_pos (by omega), ← List.drop_append_of_le_length (by omega), List.tail_drop]
    congr 1
    omega
  · rw [if_neg (by omega), ← List.drop_append_of_le_length (by omega)]
    congr 1
    omega

theorem head?_lastN (n : Nat) (l : List Nat) : (lastN n l).head? = l[l.length - n]? :=
  List.head?_drop

theorem le_of_sorted {l : List Nat} (h : l.Pairwise (· ≤ ·)) {i j a b : Nat} (hij : i ≤ j)
    (ha : l[i]? = some a) (hb : l[j]? = some b) : a ≤ b := by
  obtain ⟨hi, rfl⟩ := List.getElem?_eq_some_iff.mp ha
  obtain ⟨hj, rfl⟩ := List.getElem?_eq_some_iff.mp hb
  rcases Nat.lt_or_eq_of_le hij with hlt | rfl
  · exact List.pairwise_iff_getElem.mp h i j hi hj hlt
  · exact le_rfl

/-! ## one writer and its timestamp loop -/

/-- durations in nanoseconds -/
structure StreamDelay where
  delayS : Nat
  sleepS : Nat
  deriving DecidableEq, Repr

/-- `ceil(delay_s / sleep_s)` in exact arithmetic, the history without the current position -/
def StreamDelay.cycles (d : StreamDelay) : Nat := (d.delayS + d.sleepS - 1) / d.sleepS

inductive DelayEvent where
  | append (buf : List UInt8)
  | tick
  deriving DecidableEq, Repr

/-- one cycle of `update_replay_timestamp`: when it was, the data length it saw, the delayed position
it set, and whether it called `on_update` -/
structure Tick where
  time : Nat
  len : Nat
  delayed : Nat
  updated : Bool
  deriving DecidableEq, Repr

structure DelayRun where
  loop : TimestampLoop
  replay : WriterReplay
  ticks : List Tick

/-- a run with a history of any size that nothing happened to -/
def DelayRun.new (historySize : Nat) : DelayRun := ⟨.new historySize, .new, []⟩

namespace StreamDelay

def start (d : StreamDelay) : DelayRun := .new (d.cycles + 1)

def next (s : DelayRun) : Nat × DelayEvent → Res DelayRun
  | (_, .append buf) => do return { s with replay := ← s.replay.addData buf }
  | (now, .tick) => do
    let current := s.replay.dataLen
    let (posQueue, delayed) ← s.loop.posQueue.pushAndGetDelayed current
    let replay ← s.replay.setDelayedDataLen delayed
    let updated := (current, delayed) ≠ (s.loop.prevCurrent, s.loop.prevDelayed)
    return ⟨⟨posQueue, current, delayed⟩, replay, s.ticks ++ [⟨now, current, delayed, updated⟩]⟩

def run (d : StreamDelay) (sched : List (Nat × DelayEvent)) : Res DelayRun :=
  sched.foldlM next d.start

end StreamDelay

namespace DelayEvent

def bytes : DelayEvent → List UInt8
  | .append buf => buf
  | .tick => []

/-- all bytes of a schedule -/
def appended (sched : List (Nat × DelayEvent)) : List UInt8 := sched.flatMap (fun e => e.2.bytes)

def tickTimes (sched : List (Nat × DelayEvent)) : List Nat :=
  sched.filterMap (fun e => if e.2 = .tick then some e.1 else none)

/-- for each tick, how much data there is, with `len` bytes before the schedule -/
def lensFrom : Nat → List (Nat × DelayEvent) → List Nat
  | _, [] => []
  | len, (_, .append buf) :: sched => lensFrom (len + buf.length) sched
  | len, (_, .tick) :: sched => len :: lensFrom len sched

def tickLens (sched : List (Nat × DelayEvent)) : List Nat := lensFrom 0 sched

theorem lensFrom_append (len : Nat) (sched l : List (Nat × DelayEvent)) : lensFrom len (sched ++ l)
    = lensFrom len sched ++ lensFrom (len + (appended sched).length) l := by
  induction sched generalizing len with
  | nil => rfl
  | cons e sched ih =>
    obtain ⟨now, ev⟩ := e
    cases ev with
    | append buf =>
      show lensFrom (len + buf.length) (sched ++ l) = lensFrom (len + buf.length) sched ++ _
      rw [ih, Nat.add_assoc]
      simp [appended, bytes]
    | tick =>
      show len :: lensFrom len (sched ++ l) = len :: (lensFrom len sched ++ _)
      rw [ih]
      simp [appended, bytes]

/-- the data goes up -/
theorem lensFrom_bounds (len : Nat) (sched : List (Nat × DelayEvent)) :
    ∀ x ∈ lensFrom len sched, len ≤ x ∧ x ≤ len + (appended sched).length := by
  induction sched generalizing len with
  | nil => simp [lensFrom]
  | cons e sched ih =>
    obtain ⟨now, ev⟩ := e
    cases ev with
    | append buf =>
      intro x hx
      have hx' := ih (len + buf.length) x hx
      simp only [appended, bytes, List.flatMap_cons, List.length_append] at hx' ⊢
      omega
    | tick =>
      intro x hx
      simp only [appended, bytes, List.flatMap_cons, List.nil_append]
      rcases List.mem_cons.mp hx with rfl | hx
      · omega
      · exact ih len x hx

theorem lensFrom_sorted (len : Nat) (sched : List (Nat × DelayEvent)) :
    (lensFrom len sched).Pairwise (· ≤ ·) := by
  induction sched generalizing len with
  | nil => exact .nil
  | cons e sched ih =>
    obtain ⟨now, ev⟩ := e
    cases ev with
    | append buf => exact ih (len + buf.length)
    | tick => exact .cons (fun x hx => (lensFrom_bounds len sched x hx).1) (ih len)

theorem tickLens_le {sched : List (Nat × DelayEvent)} {x : Nat} (h : x ∈ tickLens sched) :
    x ≤ (appended sched).length := by
  have hx := (lensFrom_bounds 0 sched x h).2
  omega

end DelayEvent

open DelayEvent

/-! ## what holds between the events -/

/-- what `update_replay_timestamp` compares with the cycle before -/
def Tick.pair (k : Tick) : Nat × Nat := (k.len, k.delayed)

/-- what a cycle after `ticks` is compared with -/
def prevPair (ticks : List Tick) : Nat × Nat := (ticks.getLast?.map Tick.pair).getD (0, 0)

/-- the run after a tick, when `delayed` came out of the queue -/
def DelayRun.ticked (s : DelayRun) (now : Nat) (posQueue : PositionHistory) (delayed : Nat) : DelayRun where
  loop := ⟨posQueue, s.replay.dataLen, delayed⟩
  replay := { s.replay with delayedDataLen := delayed }
  ticks := s.ticks ++ [⟨now, s.replay.dataLen, delayed,
    (s.replay.dataLen, delayed) ≠ (s.loop.prevCurrent, s.loop.prevDelayed)⟩]

/-- the run `s` of the events `sched` so far, when the history holds `historySize` positions, the
current one among them -/
structure History (historySize : Nat) (sched : List (Nat × DelayEvent)) (s : DelayRun) : Prop where
  times : s.ticks.map Tick.time = tickTimes sched
  lens : s.ticks.map Tick.len = tickLens sched
  size : s.loop.posQueue.historySize = historySize
  room : s.ticks ≠ [] → 0 < historySize
  queue : s.loop.posQueue.queue = lastN historySize (s.ticks.map Tick.len)
  data : s.replay.data.Repr (appended sched)
  delayed : ∀ (i : Nat) (k : Tick), s.ticks[i]? = some k →
    (s.ticks.map Tick.len)[i - (historySize - 1)]? = some k.delayed
  prev : (s.loop.prevCurrent, s.loop.prevDelayed) = prevPair s.ticks
  last : s.replay.delayedDataLen = (prevPair s.ticks).2
  updated : ∀ (i : Nat) (k : Tick), s.ticks[i]? = some k →
    k.updated = decide (k.pair ≠ prevPair (s.ticks.take i))

theorem prevPair_concat (ticks : List Tick) (k : Tick) : prevPair (ticks ++ [k]) = k.pair := by
  simp [prevPair]

/-- what an index of a longer list stands for -/
theorem getElem?_concat {α : Type*} {l : List α} {x k : α} {i : Nat} (h : (l ++ [x])[i]? = some k) :
    (i < l.length ∧ l[i]? = some k) ∨ (i = l.length ∧ k = x) := by
  rcases Nat.lt_trichotomy i l.length with hi | rfl | hi
  · rw [List.getElem?_append_left hi] at h
    exact Or.inl ⟨hi, h⟩
  · rw [List.getElem?_concat_length] at h
    exact Or.inr ⟨rfl, (Option.some.inj h).symm⟩
  · rw [List.getElem?_eq_none (by simp; omega)] at h
    cases h

namespace History
variable {historySize : Nat}

theorem new : History historySize [] (.new historySize) where
  times := rfl
  lens := rfl
  size := rfl
  room := fun h => absurd rfl h
  queue := by simp [DelayRun.new, TimestampLoop.new, PositionHistory.new, lastN]
  data := BufDeque.Repr.new
  delayed := by simp [DelayRun.new]
  prev := rfl
  last := rfl
  updated := by simp [DelayRun.new]

variable {sched : List (Nat × DelayEvent)} {s : DelayRun} (h : History historySize sched s)
include h

theorem sorted : (s.ticks.map Tick.len).Pairwise (· ≤ ·) := by
  rw [h.lens]
  exact lensFrom_sorted 0 sched

theorem len_le {k : Tick} (hk : k ∈ s.ticks) : k.len ≤ (appended sched).length := by
  apply tickLens_le
  rw [← h.lens]
  exact List.mem_map_of_mem hk

theorem dataLen : s.replay.dataLen = (appended sched).length := h.data.len

theorem sorted_dataLen : (s.ticks.map Tick.len ++ [s.replay.dataLen]).Pairwise (· ≤ ·) := by
  refine List.pairwise_append.mpr ⟨h.sorted, List.pairwise_singleton _ _, ?_⟩
  intro x hx y hy
  obtain ⟨k, hk, rfl⟩ := List.mem_map.mp hx
  rw [List.mem_singleton.mp hy, h.dataLen]
  exact h.len_le hk

theorem next_append (now : Nat) (buf : List UInt8) : ∃ b, b.Repr (appended sched ++ buf) ∧
    StreamDelay.next s (now, .append buf) = .ok { s with replay := { s.replay with data := b } } := by
  obtain ⟨b, hb, hr, -⟩ := h.data.writeAll buf
  refine ⟨b, hr, ?_⟩
  simp [StreamDelay.next, WriterReplay.addData, hb]

theorem append (now : Nat) (buf : List UInt8) : Returns (StreamDelay.next s (now, .append buf))
    (History historySize (sched ++ [(now, .append buf)])) := by
  obtain ⟨b, hr, hnext⟩ := h.next_append now buf
  rw [hnext]
  apply returns_ok
  refine { h with times := ?_, lens := ?_, data := ?_ }
  · rw [h.times]
    simp [tickTimes]
  · rw [h.lens, tickLens, tickLens, lensFrom_append]
    simp [lensFrom]
  · have hbytes : appended (sched ++ [(now, .append buf)]) = appended sched ++ buf := by
      simp [appended, bytes]
    rw [hbytes]
    exact hr

/-- the delayed position of the next tick, and the queue after it -/
theorem push (current : Nat) : ReturnsIf (0 < historySize)
    (s.loop.posQueue.pushAndGetDelayed current) (fun r => 0 < historySize ∧
      r.1 = ⟨historySize, lastN historySize (s.ticks.map Tick.len ++ [current])⟩ ∧
      (s.ticks.map Tick.len ++ [current])[s.ticks.length - (historySize - 1)]? = some r.2) := by
  have hlen : (s.ticks.map Tick.len ++ [current]).length = s.ticks.length + 1 := by simp
  unfold PositionHistory.pushAndGetDelayed
  rw [h.queue, h.size]
  simp only [lastN_push, head?_lastN, hlen]
  rcases Nat.eq_zero_or_pos historySize with rfl | hpos
  · -- what was pushed falls out at once
    rw [List.getElem?_eq_none (by omega)]
    exact returnsIf_error (lt_irrefl 0)
  · have hindex : s.ticks.length + 1 - historySize = s.ticks.length - (historySize - 1) := by omega
    rw [hindex]
    obtain ⟨delayed, hd⟩ : ∃ delayed,
        (s.ticks.map Tick.len ++ [current])[s.ticks.length - (historySize - 1)]? = some delayed :=
      ⟨_, List.getElem?_eq_getElem (by omega)⟩
    rw [hd, unwrap_some, ok_bind, pure_eq_ok]
    exact returnsIf_ok ⟨hpos, rfl, rfl⟩

/-- the delayed position goes up -/
theorem last_le {current delayed : Nat}
    (hsorted : (s.ticks.map Tick.len ++ [current]).Pairwise (· ≤ ·))
    (hd : (s.ticks.map Tick.len ++ [current])[s.ticks.length - (historySize - 1)]? = some delayed) :
    s.replay.delayedDataLen ≤ delayed := by
  rw [h.last]
  unfold prevPair
  cases hk : s.ticks.getLast? with
  | none => exact Nat.zero_le _
  | some k =>
    rw [List.getLast?_eq_getElem?] at hk
    have hlast := h.delayed _ k hk
    have hlast' : (s.ticks.map Tick.len ++ [current])[s.ticks.length - 1 - (historySize - 1)]?
        = some k.delayed := by
      rw [List.getElem?_append_left (List.getElem?_eq_some_iff.mp hlast).1]
      exact hlast
    exact le_of_sorted hsorted (by omega) hlast' hd

theorem next_tick (now : Nat) {posQueue : PositionHistory} {delayed : Nat}
    (hpush : s.loop.posQueue.pushAndGetDelayed s.replay.dataLen = .ok (posQueue, delayed)) :
    StreamDelay.next s (now, .tick) = .ok (s.ticked now posQueue delayed) := by
  obtain ⟨-, -, hd⟩ := (h.push s.replay.dataLen).spec _ hpush
  have hle := h.last_le h.sorted_dataLen hd
  unfold StreamDelay.next
  simp only [hpush, ok_bind, WriterReplay.setDelayedDataLen, assertThat_true hle, pure_eq_ok]
  rfl

theorem ticked (now : Nat) {posQueue : PositionHistory} {delayed : Nat}
    (hpush : s.loop.posQueue.pushAndGetDelayed s.replay.dataLen = .ok (posQueue, delayed)) :
    History historySize (sched ++ [(now, .tick)]) (s.ticked now posQueue delayed) := by
  have hbytes : appended (sched ++ [(now, .tick)]) = appended sched := by simp [appended, bytes]
  obtain ⟨hpos, rfl, hd⟩ := (h.push s.replay.dataLen).spec _ hpush
  unfold DelayRun.ticked
  constructor
  case times =>
    rw [List.map_append, h.times]
    simp [tickTimes]
  case lens =>
    rw [List.map_append, h.lens, tickLens, tickLens, lensFrom_append, Nat.zero_add, ← h.dataLen]
    rfl
  case size => rfl
  case room => exact fun _ => hpos
  case queue =>
    rw [List.map_append]
    rfl
  case data =>
    rw [hbytes]
    exact h.data
  case delayed =>
    intro i k hk
    rw [List.map_append]
    rcases getElem?_concat hk with ⟨-, hk⟩ | ⟨rfl, rfl⟩
    · have hold := h.delayed i k hk
      rw [List.getElem?_append_left (List.getElem?_eq_some_iff.mp hold).1]
      exact hold
    · exact hd
  case prev =>
    rw [prevPair_concat]
    rfl
  case last =>
    rw [prevPair_concat]
    rfl
  case updated =>
    intro i k hk
    rcases getElem?_concat hk with ⟨hi, hk⟩ | ⟨rfl, rfl⟩
    · rw [List.take_append_of_le_length hi.le]
      exact h.updated i k hk
    · rw [List.take_left, ← h.prev]
      rfl

theorem tick (now : Nat) : ReturnsIf (0 < historySize) (StreamDelay.next s (now, .tick))
    (History historySize (sched ++ [(now, .tick)])) := by
  cases hpush : s.loop.posQueue.pushAndGetDelayed s.replay.dataLen with
  | error e =>
    have hnext : StreamDelay.next s (now, .tick) = .error e := by
      unfold StreamDelay.next
      simp only [hpush, error_bind]
    rw [hnext]
    refine returnsIf_error (fun hpos => ?_)
    obtain ⟨r, hr⟩ := (h.push s.replay.dataLen).ok hpos
    rw [hpush] at hr
    cases hr
  | ok r =>
    rw [h.next_tick now hpush]
    exact returnsIf_ok (h.ticked now hpush)

theorem next (e : Nat × DelayEvent) : ReturnsIf (0 < historySize) (StreamDelay.next s e)
    (History historySize (sched ++ [e])) := by
  obtain ⟨now, ev⟩ := e
  cases ev with
  | append buf => exact (h.append now buf).returnsIf
  | tick => exact h.tick now

end History

/-- **the events of a whole schedule**, with a history of any size -/
theorem run_history (historySize : Nat) (sched : List (Nat × DelayEvent)) :
    ReturnsIf (0 < historySize) (sched.foldlM StreamDelay.next (.new historySize))
      (History historySize sched) := by
  induction sched using List.reverseRecOn with
  | nil => exact returnsIf_ok History.new
  | append_singleton sched e ih =>
    rw [List.foldlM_append]
    apply ih.bind
    intro s h
    rw [List.foldlM_cons]
    apply (h.next e).bind
    exact fun s' h' => returnsIf_ok h'

/-! ## the contract of the delayed position -/

namespace StreamDelay

def setFinalReplayTimestamp (replay : WriterReplay) : Res WriterReplay :=
  replay.setDelayedDataLen replay.dataLen

/-- what a history of `historySize` positions promises for the run `s` of a schedule, after which
`set_final_replay_timestamp` leaves the replay `w` -/
structure Contract (historySize : Nat) (sched : List (Nat × DelayEvent)) (s : DelayRun)
    (w : WriterReplay) : Prop where
  /-- every tick records how much data there is -/
  recorded : s.ticks.map Tick.len = tickLens sched
  /-- a delay line: the first position for a while, then the one of `historySize - 1` ticks ago -/
  delayed : ∀ (i : Nat) (k : Tick), s.ticks[i]? = some k →
    ∃ j, s.ticks[i - (historySize - 1)]? = some j ∧ k.delayed = j.len
  rising : (s.ticks.map Tick.delayed ++ [w.delayedDataLen]).Pairwise (· ≤ ·)
  within : ∀ k ∈ s.ticks, k.delayed ≤ k.len
  final : w.delayedDataLen = w.dataLen ∧ w.dataLen = (appended sched).length
  /-- `on_update` is called iff the lengths are not the ones of the tick before -/
  updated : ∀ (i : Nat) (j k : Tick), s.ticks[i]? = some j → s.ticks[i + 1]? = some k →
    (k.updated = true ↔ (k.len, k.delayed) ≠ (j.len, j.delayed))
  updatedFirst : ∀ k, s.ticks[0]? = some k → (k.updated = true ↔ (k.len, k.delayed) ≠ (0, 0))

end StreamDelay

namespace History
variable {historySize : Nat} {sched : List (Nat × DelayEvent)} {s : DelayRun}
  (h : History historySize sched s)
include h

theorem delayed_eq {i : Nat} {k : Tick} (hk : s.ticks[i]? = some k) :
    ∃ j, s.ticks[i - (historySize - 1)]? = some j ∧ k.delayed = j.len := by
  have hlen := h.delayed i k hk
  rw [List.getElem?_map] at hlen
  obtain ⟨j, hj, hjk⟩ := Option.map_eq_some_iff.mp hlen
  exact ⟨j, hj, hjk.symm⟩

theorem within {k : Tick} (hk : k ∈ s.ticks) : k.delayed ≤ k.len := by
  obtain ⟨i, hi⟩ := List.getElem?_of_mem hk
  have hlen : (s.ticks.map Tick.len)[i]? = some k.len := by
    rw [List.getElem?_map, hi]
    rfl
  exact le_of_sorted h.sorted (Nat.sub_le i _) (h.delayed i k hi) hlen

/-- the delayed positions go up, because the lengths do -/
theorem rising : (s.ticks.map Tick.delayed).Pairwise (· ≤ ·) := by
  rw [List.pairwise_iff_getElem]
  intro i j hi hj hij
  rw [List.length_map] at hi hj
  rw [List.getElem_map, List.getElem_map]
  have hdi := h.delayed i _ (List.getElem?_eq_getElem hi)
  have hdj := h.delayed j _ (List.getElem?_eq_getElem hj)
  exact le_of_sorted h.sorted (by omega) hdi hdj

theorem last_le_dataLen : s.replay.delayedDataLen ≤ s.replay.dataLen := by
  rw [h.last, h.dataLen]
  unfold prevPair
  cases hk : s.ticks.getLast? with
  | none => exact Nat.zero_le _
  | some k =>
    have hmem := List.mem_of_getLast? hk
    exact (h.within hmem).trans (h.len_le hmem)

theorem updated_succ {i : Nat} {j k : Tick} (hj : s.ticks[i]? = some j)
    (hk : s.ticks[i + 1]? = some k) : k.updated = true ↔ k.pair ≠ j.pair := by
  have hprev : prevPair (s.ticks.take (i + 1)) = j.pair := by
    rw [List.take_add_one, hj]
    exact prevPair_concat _ j
  rw [h.updated _ k hk, hprev, decide_eq_true_iff]

theorem updated_zero {k : Tick} (hk : s.ticks[0]? = some k) :
    k.updated = true ↔ k.pair ≠ (0, 0) := by
  rw [h.updated 0 k hk, decide_eq_true_iff]
  rfl

end History

/-- **the position history is an exact delay line**: whatever is appended and whenever the ticks come
and the connection ends, no event panics, `debug_assert!` of `set_delayed_data_len` included -/
theorem StreamDelay.delay_line {historySize : Nat} (h : 1 ≤ historySize)
    (sched : List (Nat × DelayEvent)) :
    ∃ s w, sched.foldlM next (.new historySize) = .ok s ∧ setFinalReplayTimestamp s.replay = .ok w ∧
      Contract historySize sched s w := by
  obtain ⟨s, hrun, hs⟩ := (run_history historySize sched).returns h
  have hle := hs.last_le_dataLen
  refine ⟨s, { s.replay with delayedDataLen := s.replay.dataLen }, hrun, ?_, ?_⟩
  · unfold setFinalReplayTimestamp WriterReplay.setDelayedDataLen
    rw [assertThat_true hle]
    rfl
  · constructor
    case recorded => exact hs.lens
    case delayed => exact fun i k hk => hs.delayed_eq hk
    case rising =>
      refine List.pairwise_append.mpr ⟨hs.rising, List.pairwise_singleton _ _, ?_⟩
      intro x hx y hy
      obtain ⟨k, hk, rfl⟩ := List.mem_map.mp hx
      rw [List.mem_singleton.mp hy]
      exact (hs.within hk).trans ((hs.len_le hk).trans hs.dataLen.ge)
    case within => exact fun k hk => hs.within hk
    case final => exact ⟨rfl, hs.dataLen⟩
    case updated => exact fun i j k hj hk => hs.updated_succ hj hk
    case updatedFirst => exact fun k hk => hs.updated_zero hk

/-- a history of two positions -/
theorem StreamDelay.delay_line_two :
    ∃ s w, [(0, .append [7]), (1, .tick), (1, .append [8, 9]), (2, .tick), (3, .tick)].foldlM next
        (.new 2) = .ok s ∧ setFinalReplayTimestamp s.replay = .ok w ∧
      Contract 2 [(0, .append [7]), (1, .tick), (1, .append [8, 9]), (2, .tick), (3, .tick)] s w :=
  delay_line (by decide) _

end ReplayServer
