import ReplayServer.Util.BufTraits

/-!
# util: counters that a task can wait on

`EmptyCounter` keeps its value in a watch channel, which delivers the latest value and tells a
watcher that something was sent since it looked.

* `EmptyCounter`          the value, and how often one was sent;
* `CountWait`             a task asleep in `wait_until_empty_for`, with one function for each of
                          the two things that wake it;
* `CountWait.timer_over`  a wait that ends has just seen an empty counter.
-/

namespace ReplayServer

structure EmptyCounter where
  count : Nat
  /-- how many values were sent on the channel -/
  version : Nat
  deriving DecidableEq, Repr

namespace EmptyCounter

def new : EmptyCounter := ⟨0, 0⟩

def inc (c : EmptyCounter) : EmptyCounter := ⟨c.count + 1, c.version + 1⟩

def dec (c : EmptyCounter) : Res EmptyCounter := do
  return ⟨← checkedSub c.count 1, c.version + 1⟩

theorem dec_eq {c : EmptyCounter} (h : 0 < c.count) : c.dec = .ok ⟨c.count - 1, c.version + 1⟩ := by
  unfold dec
  rw [checkedSub_of_le h]
  rfl

end EmptyCounter

structure CountWait where
  lastCount : Nat
  /-- the version that the watcher of the task has seen -/
  seen : Nat
  deriving DecidableEq, Repr

namespace CountWait

/-- the watcher is a clone of one that never looked -/
def start (c : EmptyCounter) : CountWait := ⟨c.count, 0⟩

/-- `await_new_count` is over; `none` while nothing was sent -/
def newCount (self : CountWait) (c : EmptyCounter) : Option CountWait :=
  if self.seen ≠ c.version then some ⟨c.count, c.version⟩ else none

/-- the sleep next to an empty count is over; the wait ends with `some none` -/
def timer (self : CountWait) (c : EmptyCounter) : Option (Option CountWait) :=
  if self.lastCount = 0 then
    some (if c.count = 0 then none else some { self with lastCount := c.count })
  else none

theorem timer_over {self : CountWait} {c : EmptyCounter} (h : self.timer c = some none) :
    c.count = 0 := by
  unfold timer at h
  split at h
  · by_contra hc
    rw [if_neg hc] at h
    cases h
  · cases h

end CountWait

end ReplayServer
