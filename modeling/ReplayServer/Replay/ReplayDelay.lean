import ReplayServer.Util.BufDeque

/-!
# replay: the delayed position of a writer

`update_replay_timestamp` pushes the length of a replay into a queue once per cycle, and what
falls out is the length of some cycles ago.

* `CeilQuotient.historySize`                   the length of the queue, which overflows when the
                                               delay has too many cycles;
* `PositionHistory.pushAndGetDelayed_returns`  the delayed position goes up and stays within the
                                               data, if the queue has room.
-/

namespace ReplayServer
open Fallible

/-- what `ceil` makes of the quotient of two durations, which is an `f64` -/
inductive CeilQuotient where
  | finite (n : Nat)
  /-- by a duration of zero -/
  | infinite
  /-- zero by zero -/
  | nan
  deriving DecidableEq, Repr

/-- `as usize` -/
def CeilQuotient.toUsize : CeilQuotient → Nat
  | .finite n => min n usizeMax
  | .infinite => usizeMax
  | .nan => 0

/-- `history_size`, with the sum of a release build, which wraps around.  Where overflows are checked
the panic comes with the sum and not with the first push, which is in the same poll. -/
def CeilQuotient.historySize (self : CeilQuotient) : Nat := (self.toUsize + 1) % (usizeMax + 1)

theorem CeilQuotient.historySize_eq {self : CeilQuotient} (h : self.toUsize < usizeMax) :
    self.historySize = self.toUsize + 1 :=
  Nat.mod_eq_of_lt (Nat.succ_lt_succ h)

structure PositionHistory where
  historySize : Nat
  queue : List Nat
  deriving DecidableEq, Repr

namespace PositionHistory

def new (historySize : Nat) : PositionHistory := ⟨historySize, []⟩

def pushAndGetDelayed (self : PositionHistory) (currentLen : Nat) : Res (PositionHistory × Nat) := do
  let queue := self.queue ++ [currentLen]
  let queue := if queue.length > self.historySize then queue.tail else queue
  return ({ self with queue }, ← unwrap queue.head?)

/-- the queued positions went up from `lo` to `hi` -/
structure Between (p : PositionHistory) (lo hi : Nat) : Prop where
  sorted : p.queue.Pairwise (· ≤ ·)
  lower : ∀ x ∈ p.queue, lo ≤ x
  upper : ∀ x ∈ p.queue, x ≤ hi

theorem new_between (historySize lo hi : Nat) : (new historySize).Between lo hi :=
  ⟨.nil, fun _ h => absurd h List.not_mem_nil, fun _ h => absurd h List.not_mem_nil⟩

theorem pushAndGetDelayed_returns {self : PositionHistory} {lo hi current : Nat}
    (h : self.Between lo hi) (hlo : lo ≤ current) (hhi : hi ≤ current) :
    ReturnsIf (0 < self.historySize) (self.pushAndGetDelayed current) (fun r =>
      lo ≤ r.2 ∧ r.2 ≤ current ∧ r.1.Between r.2 current) := by
  have hmem : ∀ x ∈ self.queue ++ [current], lo ≤ x ∧ x ≤ current := by
    intro x hx
    rcases List.mem_append.mp hx with hx | hx
    · exact ⟨h.lower x hx, (h.upper x hx).trans hhi⟩
    · rw [List.mem_singleton.mp hx]
      exact ⟨hlo, le_rfl⟩
  have hsorted : (self.queue ++ [current]).Pairwise (· ≤ ·) := by
    refine List.pairwise_append.mpr ⟨h.sorted, List.pairwise_singleton _ _, fun x hx y hy => ?_⟩
    rw [List.mem_singleton.mp hy]
    exact (h.upper x hx).trans hhi
  obtain ⟨queue, hq, hne, hsub⟩ : ∃ queue, (if (self.queue ++ [current]).length > self.historySize
      then (self.queue ++ [current]).tail else self.queue ++ [current]) = queue ∧
      (queue = [] → self.historySize = 0) ∧ queue.Sublist (self.queue ++ [current]) := by
    refine ⟨_, rfl, ?_, ?_⟩
    · split
      · rename_i hlen
        intro hnil
        have hzero := congrArg List.length hnil
        rw [List.length_tail, List.length_nil] at hzero
        omega
      · simp
    · split
      · exact List.tail_sublist _
      · exact List.Sublist.refl _
  unfold pushAndGetDelayed
  dsimp only
  rw [hq]
  cases queue with
  | nil => exact returnsIf_error (fun hpos => hpos.ne' (hne rfl))
  | cons d queue =>
    have hd := hmem d (hsub.subset List.mem_cons_self)
    refine returnsIf_ok ⟨hd.1, hd.2, hsorted.sublist hsub, fun x hx => ?_, fun x hx => ?_⟩
    · rcases List.mem_cons.mp hx with rfl | hx
      · exact le_rfl
      · exact (List.pairwise_cons.mp (hsorted.sublist hsub)).1 x hx
    · exact (hmem x (hsub.subset hx)).2

end PositionHistory

/-- what `update_replay_timestamp` keeps between two cycles -/
structure TimestampLoop where
  posQueue : PositionHistory
  prevCurrent : Nat
  prevDelayed : Nat
  deriving DecidableEq, Repr

def TimestampLoop.new (historySize : Nat) : TimestampLoop := ⟨.new historySize, 0, 0⟩

end ReplayServer
