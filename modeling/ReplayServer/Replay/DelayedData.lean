import ReplayServer.Replay.DelayLine

/-!
# replay: how far the delayed position of a writer stays behind

What `History` says of the run of a schedule, when its events are in order of time.

* `arrived_of_mem`  the bytes that a cycle sees were appended before it;
* `Kept`            what a run in order of time keeps, with a history of any size: the bytes that a
                    cycle sees are as old as the cycle;
* `delayed_iff`     so it stays behind by the delay iff the first cycle finds no data.
-/

namespace ReplayServer
open Fallible

/-! ## schedules -/

namespace DelayEvent

/-- for each byte, when it was appended -/
def arrivals (sched : List (Nat × DelayEvent)) : List Nat :=
  sched.flatMap (fun e => e.2.bytes.map (fun _ => e.1))

def beforeFirstTick (sched : List (Nat × DelayEvent)) : List (Nat × DelayEvent) :=
  sched.takeWhile (fun e => e.2 ≠ .tick)

def EmptyAtFirstTick (sched : List (Nat × DelayEvent)) : Prop :=
  tickTimes sched = [] ∨ appended (beforeFirstTick sched) = []

end DelayEvent

open DelayEvent

namespace StreamDelay

/-- the events are in order, and two ticks after each other at least `sleep_s` apart -/
structure Schedule (d : StreamDelay) (sched : List (Nat × DelayEvent)) : Prop where
  ordered : sched.Pairwise (fun e e' => e.1 ≤ e'.1)
  apart : (tickTimes sched).IsChain (fun t t' => t + d.sleepS ≤ t')

/-- the delayed position of a tick is within what some tick saw at least `delay_s` before, and zero
as long as there is no such tick -/
def Delayed (d : StreamDelay) (ticks : List Tick) (k : Tick) : Prop :=
  (∃ j ∈ ticks, j.time + d.delayS ≤ k.time ∧ k.delayed ≤ j.len) ∨
    ((∀ j ∈ ticks, ¬ j.time + d.delayS ≤ k.time) ∧ k.delayed = 0)

/-- the delayed position covers no byte that was appended less than `delay_s` before the tick -/
def CoversOld (d : StreamDelay) (arrivals : List Nat) (k : Tick) : Prop :=
  ∀ i < k.delayed, ∃ t, arrivals[i]? = some t ∧ t + d.delayS ≤ k.time

theorem delayS_le (d : StreamDelay) (h : 0 < d.sleepS) : d.delayS ≤ d.cycles * d.sleepS := by
  have hdiv := Nat.div_add_mod (d.delayS + d.sleepS - 1) d.sleepS
  have hmod := Nat.mod_lt (d.delayS + d.sleepS - 1) h
  unfold cycles
  rw [Nat.mul_comm]
  omega

theorem apart_le {sleep : Nat} {times : List Nat} (h : times.IsChain (fun t t' => t + sleep ≤ t'))
    {i n a b : Nat} (ha : times[i]? = some a) (hb : times[i + n]? = some b) : a + n * sleep ≤ b := by
  induction n generalizing b with
  | zero =>
    rw [Nat.add_zero, ha] at hb
    cases hb
    omega
  | succ n ih =>
    obtain ⟨hlt, hb⟩ := List.getElem?_eq_some_iff.mp hb
    have hprev := ih (List.getElem?_eq_getElem (show i + n < times.length by omega))
    have hstep := List.isChain_iff_getElem.mp h (i + n) hlt
    have hmul : (n + 1) * sleep = n * sleep + sleep := Nat.succ_mul n sleep
    change times[i + n] + sleep ≤ times[i + (n + 1)] at hstep
    omega

/-! ## what holds between the events -/

/-- the run `s` of the events `sched` so far, which are in order of time -/
structure Kept (historySize : Nat) (sched : List (Nat × DelayEvent)) (s : DelayRun) : Prop
    extends History historySize sched s where
  arrived : ∀ k ∈ s.ticks, ∀ i < k.len, ∃ t, (arrivals sched)[i]? = some t ∧ t ≤ k.time
  first : ∀ k, s.ticks.head? = some k → k.len = (appended (beforeFirstTick sched)).length

theorem length_arrivals (sched : List (Nat × DelayEvent)) :
    (arrivals sched).length = (appended sched).length := by
  unfold arrivals appended
  simp

theorem mem_arrivals {sched : List (Nat × DelayEvent)} {t : Nat} (h : t ∈ arrivals sched) :
    ∃ e ∈ sched, e.1 = t := by
  obtain ⟨e, he, ht⟩ := List.mem_flatMap.mp h
  obtain ⟨_, -, rfl⟩ := List.mem_map.mp ht
  exact ⟨e, he, rfl⟩

theorem length_tickLens (sched : List (Nat × DelayEvent)) :
    (tickTimes sched).length = (tickLens sched).length := by
  induction sched using List.reverseRecOn with
  | nil => rfl
  | append_singleton sched e ih =>
    obtain ⟨now, ev⟩ := e
    rw [tickLens, lensFrom_append, List.length_append, ← tickLens, ← ih]
    cases ev with
    | append buf => simp [tickTimes, lensFrom]
    | tick => simp [tickTimes, lensFrom]

theorem arrived_of_mem {sched : List (Nat × DelayEvent)} (hs : sched.Pairwise (fun e e' => e.1 ≤ e'.1))
    {t len : Nat} (h : (t, len) ∈ (tickTimes sched).zip (tickLens sched)) {i : Nat} (hi : i < len) :
    ∃ a, (arrivals sched)[i]? = some a ∧ a ≤ t := by
  induction sched using List.reverseRecOn with
  | nil => cases h
  | append_singleton sched e ih =>
    obtain ⟨hpre, -, hlast⟩ := List.pairwise_append.mp hs
    obtain ⟨now, ev⟩ := e
    have hmore : ∀ a, (arrivals sched)[i]? = some a →
        (arrivals (sched ++ [(now, ev)]))[i]? = some a := by
      intro a ha
      unfold arrivals at ha ⊢
      rw [List.flatMap_append, List.getElem?_append_left (List.getElem?_eq_some_iff.mp ha).1]
      exact ha
    have hold : (t, len) ∈ (tickTimes sched).zip (tickLens sched) →
        ∃ a, (arrivals (sched ++ [(now, ev)]))[i]? = some a ∧ a ≤ t := by
      intro h
      obtain ⟨a, ha, hat⟩ := ih hpre h
      exact ⟨a, hmore a ha, hat⟩
    cases ev with
    | append buf =>
      have htimes : tickTimes (sched ++ [(now, .append buf)]) = tickTimes sched := by
        simp [tickTimes]
      have hlens : tickLens (sched ++ [(now, .append buf)]) = tickLens sched := by
        rw [tickLens, tickLens, lensFrom_append]
        exact List.append_nil _
      rw [htimes, hlens] at h
      exact hold h
    | tick =>
      have htimes : tickTimes (sched ++ [(now, .tick)]) = tickTimes sched ++ [now] := by
        simp [tickTimes]
      have hlens : tickLens (sched ++ [(now, .tick)])
          = tickLens sched ++ [(appended sched).length] := by
        rw [tickLens, tickLens, lensFrom_append, Nat.zero_add]
        rfl
      rw [htimes, hlens, List.zip_append (length_tickLens sched)] at h
      rcases List.mem_append.mp h with h | h
      · exact hold h
      · obtain ⟨rfl, rfl⟩ := Prod.mk.inj (List.mem_singleton.mp h)
        have hin : i < (arrivals sched).length := by
          rw [length_arrivals]
          exact hi
        obtain ⟨e, he, hte⟩ := mem_arrivals (List.getElem_mem hin)
        refine ⟨_, hmore _ (List.getElem?_eq_getElem hin), ?_⟩
        rw [← hte]
        exact hlast e he _ (List.mem_singleton_self _)

theorem head?_lensFrom {len x : Nat} {sched : List (Nat × DelayEvent)}
    (h : (lensFrom len sched).head? = some x) :
    x = len + (appended (beforeFirstTick sched)).length := by
  induction sched generalizing len with
  | nil => cases h
  | cons e sched ih =>
    obtain ⟨now, ev⟩ := e
    cases ev with
    | append buf =>
      rw [ih h]
      simp [beforeFirstTick, appended, bytes]
      omega
    | tick =>
      cases h
      simp [beforeFirstTick, appended]

/-- in order of time, the run of a schedule is what its history says -/
theorem Kept.of_history {historySize : Nat} {sched : List (Nat × DelayEvent)} {s : DelayRun}
    (h : History historySize sched s) (hs : sched.Pairwise (fun e e' => e.1 ≤ e'.1)) :
    Kept historySize sched s where
  toHistory := h
  arrived := by
    intro k hk i hi
    have hmem : (k.time, k.len) ∈ (tickTimes sched).zip (tickLens sched) := by
      rw [← h.times, ← h.lens, List.zip_map']
      exact List.mem_map_of_mem hk
    exact arrived_of_mem hs hmem hi
  first := by
    intro k hk
    have hhead : (tickLens sched).head? = some k.len := by
      rw [← h.lens, List.head?_map, hk]
      rfl
    rw [head?_lensFrom hhead, Nat.zero_add]

/-- **the events of a whole schedule** -/
theorem run_kept (d : StreamDelay) (sched : List (Nat × DelayEvent))
    (hs : sched.Pairwise (fun e e' => e.1 ≤ e'.1)) :
    Returns (d.run sched) (Kept (d.cycles + 1) sched) :=
  ((run_history (d.cycles + 1) sched).returns (Nat.succ_pos _)).mono (fun _ h => Kept.of_history h hs)

/-! ## the delay -/

section
variable {d : StreamDelay} {historySize : Nat} {sched : List (Nat × DelayEvent)} {s : DelayRun}
  (h : Kept historySize sched s)
include h

/-- what lies below the length that an old tick saw is old -/
theorem Kept.coversOld {k : Tick} (hk : d.Delayed s.ticks k) : d.CoversOld (arrivals sched) k := by
  intro i hi
  rcases hk with ⟨j, hj, hold, hle⟩ | ⟨-, hzero⟩
  · obtain ⟨t, ht, htj⟩ := h.arrived j hj i (by omega)
    exact ⟨t, ht, by omega⟩
  · omega

theorem Kept.time_eq {i : Nat} {k : Tick} (hk : s.ticks[i]? = some k) :
    (tickTimes sched)[i]? = some k.time := by
  rw [← h.times, List.getElem?_map, hk]
  rfl

/-- from the moment on when the queue is full, the delayed position is old enough -/
theorem Kept.delayed_of_full (hdelay : d.delayS ≤ (historySize - 1) * d.sleepS)
    (happ : (tickTimes sched).IsChain (fun t t' => t + d.sleepS ≤ t')) {i : Nat} {k : Tick}
    (hk : s.ticks[i]? = some k) (hi : historySize - 1 ≤ i) : d.Delayed s.ticks k := by
  have hlen := h.delayed i k hk
  rw [List.getElem?_map] at hlen
  obtain ⟨j, hj, hjk⟩ := Option.map_eq_some_iff.mp hlen
  refine Or.inl ⟨j, List.mem_of_getElem? hj, ?_, hjk.ge⟩
  have hsum : i - (historySize - 1) + (historySize - 1) = i := by omega
  have hapart := apart_le happ (n := historySize - 1) (h.time_eq hj)
    (by rw [hsum]; exact h.time_eq hk)
  omega

/-- until then it is the length that the first tick saw -/
theorem Kept.delayed_of_warmup {first : Tick} (hfirst : s.ticks[0]? = some first) {i : Nat}
    {k : Tick} (hk : s.ticks[i]? = some k) (hi : i ≤ historySize - 1) : k.delayed = first.len := by
  have hlen := h.delayed i k hk
  rw [show i - (historySize - 1) = 0 by omega, List.getElem?_map, hfirst] at hlen
  exact (Option.some.inj hlen).symm

/-- nothing is shown too early when the first tick found nothing -/
theorem Kept.delayed_of_empty (hdelay : d.delayS ≤ (historySize - 1) * d.sleepS)
    (happ : (tickTimes sched).IsChain (fun t t' => t + d.sleepS ≤ t')) {first : Tick}
    (hfirst : s.ticks[0]? = some first) (h0 : first.len = 0) {k : Tick} (hk : k ∈ s.ticks) :
    d.Delayed s.ticks k := by
  obtain ⟨i, hi⟩ := List.getElem?_of_mem hk
  by_cases hfull : historySize - 1 ≤ i
  · exact h.delayed_of_full hdelay happ hi hfull
  · have hk0 : k.delayed = 0 := (h.delayed_of_warmup hfirst hi (by omega)).trans h0
    by_cases hold : ∃ j ∈ s.ticks, j.time + d.delayS ≤ k.time
    · obtain ⟨j, hj, hjk⟩ := hold
      exact Or.inl ⟨j, hj, hjk, by omega⟩
    · exact Or.inr ⟨fun j hj hjk => hold ⟨j, hj, hjk⟩, hk0⟩

/-- the first tick shows all that it finds, so it must find nothing -/
theorem Kept.empty_of_delayed (hdelay : 0 < d.delayS)
    (happ : (tickTimes sched).IsChain (fun t t' => t + d.sleepS ≤ t')) {first : Tick}
    (hfirst : s.ticks[0]? = some first) (hdel : d.Delayed s.ticks first) : first.len = 0 := by
  have hall : first.delayed = first.len := h.delayed_of_warmup hfirst hfirst (Nat.zero_le _)
  rcases hdel with ⟨j, hj, hold, -⟩ | ⟨-, h0⟩
  · -- no tick is older than the first one
    obtain ⟨n, hn⟩ := List.getElem?_of_mem hj
    have hle := apart_le happ (i := 0) (n := n) (h.time_eq hfirst)
      (by rw [Nat.zero_add]; exact h.time_eq hn)
    omega
  · omega

end

/-- **Delayed data is really delayed iff the first tick finds no data.**  Then the delayed position of
every tick is within what some tick saw at least `delay_s` before, so it covers old bytes only. -/
theorem delayed_iff (d : StreamDelay) (hdelay : 0 < d.delayS) (hsleep : 0 < d.sleepS)
    {sched : List (Nat × DelayEvent)} (hs : d.Schedule sched) :
    ∃ s, d.run sched = .ok s ∧
      ((∀ k ∈ s.ticks, d.Delayed s.ticks k ∧ d.CoversOld (arrivals sched) k) ↔
        EmptyAtFirstTick sched) := by
  obtain ⟨s, hrun, h⟩ := d.run_kept sched hs.ordered
  refine ⟨s, hrun, ?_⟩
  cases hticks : s.ticks with
  | nil =>
    have hno : tickTimes sched = [] := by
      rw [← h.times, hticks]
      rfl
    simp [EmptyAtFirstTick, hno]
  | cons first ticks =>
    have hsome : tickTimes sched ≠ [] := by
      rw [← h.times, hticks]
      exact List.cons_ne_nil _ _
    have hfirst : s.ticks[0]? = some first := by
      rw [hticks]
      rfl
    have hlen : first.len = (appended (beforeFirstTick sched)).length :=
      h.first first (by rw [hticks]; rfl)
    have hempty : EmptyAtFirstTick sched ↔ first.len = 0 := by
      rw [hlen, List.length_eq_zero_iff]
      exact or_iff_right hsome
    rw [hempty, ← hticks]
    constructor
    · intro hall
      exact h.empty_of_delayed hdelay hs.apart hfirst (hall first (List.mem_of_getElem? hfirst)).1
    · intro h0 k hk
      have hdel := h.delayed_of_empty (d.delayS_le hsleep) hs.apart hfirst h0 hk
      exact ⟨hdel, h.coversOld hdel⟩

/-- a byte between two ticks -/
theorem delayed_iff_late :
    ∃ s, (StreamDelay.mk 2 1).run [(0, .tick), (0, .append [7]), (1, .tick)] = .ok s ∧
      ((∀ k ∈ s.ticks, (StreamDelay.mk 2 1).Delayed s.ticks k ∧
        (StreamDelay.mk 2 1).CoversOld (arrivals [(0, .tick), (0, .append [7]), (1, .tick)]) k) ↔
        EmptyAtFirstTick [(0, .tick), (0, .append [7]), (1, .tick)]) :=
  delayed_iff ⟨2, 1⟩ (by decide) (by decide) ⟨by decide, by decide⟩

/-- a byte that is there when the first tick comes is released at once -/
theorem delayed_fails :
    ∃ s k, (StreamDelay.mk 300 1).run [(0, .append [7]), (0, .tick)] = .ok s ∧
      (StreamDelay.mk 300 1).Schedule [(0, .append [7]), (0, .tick)] ∧
      s.ticks = [k] ∧ k.time = 0 ∧ k.delayed = 1 ∧
      ¬ (StreamDelay.mk 300 1).Delayed s.ticks k ∧
      ¬ (StreamDelay.mk 300 1).CoversOld (arrivals [(0, .append [7]), (0, .tick)]) k := by
  obtain ⟨s, hrun, h⟩ := (StreamDelay.mk 300 1).run_kept [(0, .append [7]), (0, .tick)] (by decide)
  have htimes : s.ticks.map Tick.time = [0] := h.times
  obtain ⟨k, hk⟩ := List.length_eq_one_iff.mp (by simpa using congrArg List.length htimes)
  have htime : k.time = 0 := by simpa [hk] using htimes
  have hlen : k.len = 1 := h.first k (by rw [hk]; rfl)
  have hdel : k.delayed = 1 := by
    have hl := h.delayed 0 k (by rw [hk]; rfl)
    rw [hk] at hl
    exact (Option.some.inj hl).symm.trans hlen
  refine ⟨s, k, hrun, ⟨by decide, by decide⟩, hk, htime, hdel, ?_, ?_⟩
  · rintro (⟨j, -, hj, -⟩ | ⟨-, h0⟩)
    · change j.time + 300 ≤ k.time at hj
      omega
    · omega
  · intro hcov
    obtain ⟨t, -, ht⟩ := hcov 0 (by omega)
    change t + 300 ≤ k.time at ht
    omega

end StreamDelay

end ReplayServer
