import ReplayServer.Replay.LifecycleTasks
import ReplayServer.Replay.CallingProtocol
import ReplayServer.Replay.Replays

/-!
# replay: a worker thread with its replays

`handle_replays` runs one worker.  Its assignments are the futures of `for_each_concurrent`, and what
a future does is a wake-up of the replay that it holds: the first poll calls `lifetime` or
`handle_connection`, and the future is dropped when that returns.

* `WorkerThread.next`        what a thread does next, for any order in which its tasks wake up;
* `WorkerThread.Inv`         each replay lives the life of a `ReplayLife`, and a task of a replay that
                             did not return is a future of its thread;
* `WorkerThread.Inv.alive`   a replay that is not over is alive.
-/

namespace ReplayServer
open Fallible

structure ReplaySettings where
  mergeQuorumSize : Nat
  streamComparisonDistanceB : Nat
  /-- `delay_s` by `update_interval_s`, rounded up -/
  delayCycles : CeilQuotient

structure Replay where
  id : Nat
  life : ReplayLife

def ReplaySettings.newLife (settings : ReplaySettings) : ReplayLife :=
  .withHistory settings.mergeQuorumSize settings.streamComparisonDistanceB
    settings.delayCycles.historySize

/-- without an overflow it is a life that the results about `ReplayLife.new` speak of -/
theorem ReplaySettings.newLife_eq {settings : ReplaySettings}
    (h : settings.delayCycles.toUsize < usizeMax) : settings.newLife =
      .new settings.mergeQuorumSize settings.streamComparisonDistanceB settings.delayCycles.toUsize := by
  unfold newLife ReplayLife.new
  rw [CeilQuotient.historySize_eq h]

/-- its token is a child of the token of the server, which may be cancelled already -/
def Replay.new (settings : ReplaySettings) (shutdownToken : Bool) (id : Nat) : Replay :=
  ⟨id, { settings.newLife with cancelled := shutdownToken }⟩

inductive Place where
  | fresh
  | lifetime
  | writer (i : Nat)
  | reader (i : Nat)
  /-- `handle_connection` returned an error at once -/
  | refused
  deriving DecidableEq, Repr

structure WorkerTask where
  assignment : Assignment
  place : Place

structure WorkerThread where
  worker : Worker
  /-- by their pointers; nobody may hold them any more -/
  replays : List Replay
  tasks : List WorkerTask

inductive ThreadEvent where
  | assign
  | start
  | poll (k : Nat)
  | wake (ptr : Nat) (e : LifeEvent)
  | done (k : Nat)

/-- what the first poll of an assignment calls -/
def Assignment.event : Assignment → LifeEvent
  | .connection c _ => .connection c.type
  | .newReplay _ => .lifetime

/-- where the first poll leaves an assignment -/
def ReplayTasks.firstPlace (t : ReplayTasks) : Assignment → Place
  | .newReplay _ => .lifetime
  | .connection c _ =>
    if t.shouldStopAcceptingConnections then .refused
    else match c.type with
      | .writer => .writer t.writers.length
      | .reader => .reader t.readers.length

def Place.returned (t : ReplayTasks) : Place → Bool
  | .fresh => false
  | .lifetime => t.lifetime = .ended && !t.timeout
  | .writer i => t.writers[i]? ≠ some true
  | .reader i => t.readers[i]? ≠ some true
  | .refused => true

/-- a wake-up that is not the first poll of an assignment; the token of the server is cancelled
once -/
def LifeEvent.wakes (shutdownToken : Bool) (l : ReplayLife) : LifeEvent → Bool
  | .connection _ | .lifetime => false
  | .shutdown => shutdownToken && !l.cancelled
  | _ => true

def Assignment.made : Assignment → Option ReplayRc
  | .newReplay r => some r
  | .connection _ _ => none

namespace WorkerThread

def new : WorkerThread := ⟨.new, [], []⟩

def setLife (self : WorkerThread) (ptr : Nat) (r : Replay) (life : ReplayLife) : WorkerThread :=
  { self with replays := self.replays.set ptr { r with life := life } }

def next (settings : ReplaySettings) (shutdownToken : Bool) (ords : Nat → Nat → IterOrder)
    (self : WorkerThread) : ThreadEvent → Option (Res WorkerThread)
  | .assign => do
    let worker ← self.worker.next .assign
    return .ok { self with
      worker := worker
      replays := self.replays ++
        (worker.assigned.filterMap Assignment.made).map (fun r => .new settings shutdownToken r.id) }
  | .start => do
    let a ← self.worker.assigned.head?
    let worker ← self.worker.next .start
    return .ok { self with worker := worker, tasks := self.tasks ++ [⟨a, .fresh⟩] }
  | .poll k => do
    let t ← self.tasks[k]?
    let r ← self.replays[t.assignment.replay.ptr]?
    if t.place = .fresh then
      let life ← r.life.next ords t.assignment.event
      return do
        return { self.setLife t.assignment.replay.ptr r (← life) with
          tasks := self.tasks.set k { t with place := r.life.tasks.firstPlace t.assignment } }
    else none
  | .wake ptr e => do
    let r ← self.replays[ptr]?
    if e.wakes shutdownToken r.life then
      let life ← r.life.next ords e
      return do return self.setLife ptr r (← life)
    else none
  | .done k => do
    let t ← self.tasks[k]?
    let r ← self.replays[t.assignment.replay.ptr]?
    if t.place.returned r.life.tasks then
      let worker ← self.worker.next (.done k)
      return .ok { self with worker := worker, tasks := self.tasks.eraseIdx k }
    else none

def Step (settings : ReplaySettings) (shutdownToken : Bool) (t : WorkerThread) (e : ThreadEvent)
    (t' : WorkerThread) : Prop :=
  ∃ ords, t.next settings shutdownToken ords e = some (.ok t')

inductive Does (settings : ReplaySettings) (shutdownToken : Bool) (ords : Nat → Nat → IterOrder)
    (t : WorkerThread) : ThreadEvent → Res WorkerThread → Prop where
  | assign {w : Worker} (h : t.worker.next .assign = some w) :
      Does settings shutdownToken ords t .assign (.ok { t with
        worker := w
        replays := t.replays ++
          (w.assigned.filterMap Assignment.made).map (fun r => .new settings shutdownToken r.id) })
  | start {a : Assignment} {rest : List Assignment} (h : t.worker.assigned = a :: rest) :
      Does settings shutdownToken ords t .start (.ok { t with
        worker := { t.worker with assigned := rest, running := t.worker.running ++ [a] }
        tasks := t.tasks ++ [⟨a, .fresh⟩] })
  | poll {k : Nat} {a : Assignment} {r : Replay} {life : Res ReplayLife}
      (ht : t.tasks[k]? = some ⟨a, .fresh⟩) (hr : t.replays[a.replay.ptr]? = some r)
      (h : r.life.next ords a.event = some life) :
      Does settings shutdownToken ords t (.poll k) (do
        return { t.setLife a.replay.ptr r (← life) with
          tasks := t.tasks.set k ⟨a, r.life.tasks.firstPlace a⟩ })
  | wake {ptr : Nat} {e : LifeEvent} {r : Replay} {life : Res ReplayLife}
      (hr : t.replays[ptr]? = some r) (he : e.wakes shutdownToken r.life = true)
      (h : r.life.next ords e = some life) :
      Does settings shutdownToken ords t (.wake ptr e) (do return t.setLife ptr r (← life))
  | done {k : Nat} {u : WorkerTask} {r : Replay} (hu : t.tasks[k]? = some u)
      (hr : t.replays[u.assignment.replay.ptr]? = some r) (hret : u.place.returned r.life.tasks = true)
      (hlt : k < t.worker.running.length) :
      Does settings shutdownToken ords t (.done k) (.ok { t with
        worker := { t.worker with running := t.worker.running.eraseIdx k }
        tasks := t.tasks.eraseIdx k })

section
variable {settings : ReplaySettings} {shutdownToken : Bool} {ords : Nat → Nat → IterOrder}
  {t : WorkerThread} {e : ThreadEvent} {x : Res WorkerThread}

theorem does_of_next (h : t.next settings shutdownToken ords e = some x) :
    t.Does settings shutdownToken ords e x := by
  cases e with
  | assign =>
    obtain ⟨w, hw, h⟩ := Option.bind_eq_some_iff.mp h
    cases h
    exact .assign hw
  | start =>
    obtain ⟨a, ha, h⟩ := Option.bind_eq_some_iff.mp h
    obtain ⟨w, hw, h⟩ := Option.bind_eq_some_iff.mp h
    obtain ⟨rest, hrest⟩ := List.head?_eq_some_iff.mp ha
    unfold Worker.next at hw
    rw [hrest] at hw
    cases hw
    cases h
    exact .start hrest
  | poll k =>
    obtain ⟨⟨a, p⟩, ht, h⟩ := Option.bind_eq_some_iff.mp h
    obtain ⟨r, hr, h⟩ := Option.bind_eq_some_iff.mp h
    dsimp only at h
    split at h
    · rename_i hp
      obtain ⟨life, hlife, h⟩ := Option.bind_eq_some_iff.mp h
      cases h
      cases hp
      exact .poll ht hr hlife
    · cases h
  | wake ptr e =>
    obtain ⟨r, hr, h⟩ := Option.bind_eq_some_iff.mp h
    split at h
    · rename_i he
      obtain ⟨life, hlife, h⟩ := Option.bind_eq_some_iff.mp h
      cases h
      exact .wake hr he hlife
    · cases h
  | done k =>
    obtain ⟨u, hu, h⟩ := Option.bind_eq_some_iff.mp h
    obtain ⟨r, hr, h⟩ := Option.bind_eq_some_iff.mp h
    split at h
    · rename_i hret
      obtain ⟨w, hw, h⟩ := Option.bind_eq_some_iff.mp h
      unfold Worker.next at hw
      dsimp only at hw
      split at hw
      · rename_i hlt
        cases hw
        cases h
        exact .done hu hr hret hlt
      · cases hw
    · cases h

end

end WorkerThread

/-! ## the tasks of a replay and the futures of its thread -/

/-- the future at this place was polled and did not return -/
def Place.Works (t : ReplayTasks) : Place → Prop
  | .fresh | .refused => False
  | .lifetime => t.lifetime ≠ .created ∧ (t.lifetime = .ended → t.timeout = true)
  | .writer i => t.writers[i]? = some true
  | .reader i => t.readers[i]? = some true

def LifeEvent.opens : LifeEvent → Bool
  | .connection _ | .lifetime => true
  | _ => false

theorem LifeEvent.not_opens {e : LifeEvent} {shutdownToken : Bool} {l : ReplayLife}
    (h : e.wakes shutdownToken l = true) : e.opens = false := by
  cases e <;> first | rfl | cases h

theorem getElem?_concat_true {ws : List Bool} {i : Nat} (h : (ws ++ [true])[i]? = some true) :
    ws[i]? = some true ∨ i = ws.length := by
  by_cases hi : i < ws.length
  · rw [List.getElem?_append_left hi] at h
    exact Or.inl h
  · have hlt := (List.getElem?_eq_some_iff.mp h).1
    rw [List.length_append, List.length_singleton] at hlt
    exact Or.inr (by omega)

theorem getElem?_set_false {ws : List Bool} {i j : Nat} (h : (ws.set j false)[i]? = some true) :
    ws[i]? = some true := by
  rw [List.getElem?_set] at h
  split at h
  · split at h <;> cases h
  · exact h

namespace ReplayTasks
variable {t t' : ReplayTasks} {e : LifeEvent} {p : Place}

theorem works_same (hp : p.Works t')
    (hw : ∀ i : Nat, t'.writers[i]? = some true → t.writers[i]? = some true)
    (hr : ∀ i : Nat, t'.readers[i]? = some true → t.readers[i]? = some true)
    (hl : Place.lifetime.Works t' → Place.lifetime.Works t) : p.Works t := by
  cases p with
  | fresh | refused => exact hp
  | lifetime => exact hl hp
  | writer i => exact hw i hp
  | reader i => exact hr i hp

theorem Waited.works (h : t.Waited t') (hp : p.Works t') : p.Works t := by
  cases h with
  | noWritersForAWhile h | noWriters h | noReaders h =>
    refine works_same hp (fun _ h => h) (fun _ h => h) (fun _ => ?_)
    constructor <;> rw [h] <;> intro h <;> cases h

theorem setWait_works {w : CountWait} (hp : p.Works (t.setWait w)) : p.Works t := by
  refine works_same hp (fun _ h => h) (fun _ h => h) (fun h => ?_)
  revert h
  unfold Place.Works setWait
  dsimp only
  cases t.lifetime with
  | created | saving | ended => exact id
  | noWritersForAWhile v | noWriters v | noReaders v =>
    intro _
    constructor <;> intro h <;> cases h

/-- **a future that works did so before, or was polled for the first time** -/
theorem works_step (h : t.Step e t') (hp : p.Works t') :
    p.Works t ∨ e.opens = true ∧ ∀ a : Assignment, a.event = e → p = t.firstPlace a := by
  cases h with
  | late type h => exact Or.inl hp
  | writer h =>
    cases p with
    | fresh | refused | lifetime | reader i => exact Or.inl hp
    | writer i =>
      rcases getElem?_concat_true hp with hp | rfl
      · exact Or.inl hp
      · refine Or.inr ⟨rfl, fun a ha => ?_⟩
        cases a with
        | newReplay r => cases ha
        | connection c r =>
          show _ = if _ then _ else _
          rw [if_neg (Bool.eq_false_iff.mp h), show c.type = _ from LifeEvent.connection.inj ha]
  | reader h =>
    cases p with
    | fresh | refused | lifetime | writer i => exact Or.inl hp
    | reader i =>
      rcases getElem?_concat_true hp with hp | rfl
      · exact Or.inl hp
      · refine Or.inr ⟨rfl, fun a ha => ?_⟩
        cases a with
        | newReplay r => cases ha
        | connection c r =>
          show _ = if _ then _ else _
          rw [if_neg (Bool.eq_false_iff.mp h), show c.type = _ from LifeEvent.connection.inj ha]
  | works he h => exact Or.inl hp
  | writerStops h hc =>
    exact Or.inl (works_same hp (fun _ h => getElem?_set_false h) (fun _ h => h) (fun h => h))
  | readerStops h hc =>
    exact Or.inl (works_same hp (fun _ h => h) (fun _ h => getElem?_set_false h) (fun h => h))
  | lifetime h =>
    cases p with
    | fresh | refused | writer i | reader i => exact Or.inl hp
    | lifetime =>
      refine Or.inr ⟨rfl, fun a ha => ?_⟩
      cases a with
      | newReplay r => rfl
      | connection c r => cases ha
  | newCount hw h => exact Or.inl (setWait_works hp)
  | timer hw h => exact Or.inl (setWait_works hp)
  | timerOver h => exact Or.inl (h.works hp)
  | waitCancelled hc h => exact Or.inl (h.works hp)
  | saved h =>
    refine Or.inl (works_same hp (fun _ h => h) (fun _ h => h) (fun _ => ?_))
    constructor <;> rw [h] <;> intro h <;> cases h
  | timeout h => exact Or.inl (works_same hp (fun _ h => h) (fun _ h => h) (fun hl => ⟨hl.1, fun _ => h⟩))
  | timeoutCancelled h hc =>
    exact Or.inl (works_same hp (fun _ h => h) (fun _ h => h) (fun hl => ⟨hl.1, fun _ => h⟩))
  | shutdown => exact Or.inl hp

/-- `lifetime` is called by its own wake-up only -/
theorem created_step (hs : t.Step e t') :
    t'.lifetime = .created ↔ t.lifetime = .created ∧ e ≠ .lifetime := by
  have waited : t.Waited t' → (t'.lifetime = .created ↔ t.lifetime = .created ∧ e ≠ .lifetime) := by
    intro h
    cases h with
    | noWritersForAWhile hl | noWriters hl | noReaders hl => simp [hl]
  have setWait : ∀ w, (t.setWait w).lifetime = .created ↔ t.lifetime = .created := by
    intro w
    unfold ReplayTasks.setWait
    dsimp only
    cases t.lifetime <;> simp [Lifetime.setWait]
  cases hs with
  | works he h =>
    have hne : e ≠ .lifetime := by
      rintro rfl
      cases he
    simp [hne]
  | lifetime h => simp
  | newCount hw h => simp [setWait]
  | timer hw h => simp [setWait]
  | timerOver h => exact waited h
  | waitCancelled hc h => exact waited h
  | saved h => simp [h]
  | late | writer | reader | writerStops | readerStops | timeout | timeoutCancelled | shutdown => simp

theorem firstPlace_ne (t : ReplayTasks) (a : Assignment) : t.firstPlace a ≠ .fresh := by
  unfold firstPlace
  cases a with
  | newReplay r => exact fun h => nomatch h
  | connection c r =>
    dsimp only
    split
    · exact fun h => nomatch h
    · cases c.type <;> exact fun h => nomatch h

theorem returned_of_not_works (hf : p ≠ .fresh) (hl : p = .lifetime → t.lifetime ≠ .created)
    (hp : ¬ p.Works t) : p.returned t = true := by
  cases p with
  | fresh => exact absurd rfl hf
  | refused => rfl
  | writer i =>
    have hne : t.writers[i]? ≠ some true := hp
    exact decide_eq_true hne
  | reader i =>
    have hne : t.readers[i]? ≠ some true := hp
    exact decide_eq_true hne
  | lifetime =>
    have hended : ¬ (t.lifetime = .ended → t.timeout = true) := fun h => hp ⟨hl rfl, h⟩
    obtain ⟨h1, h2⟩ := Classical.not_imp.mp hended
    show (decide (t.lifetime = .ended) && !t.timeout) = true
    rw [decide_eq_true h1, Bool.eq_false_iff.mpr h2]
    rfl

theorem not_works_of_returned (h : p.returned t = true) : ¬ p.Works t := by
  cases p with
  | fresh | refused => exact id
  | writer i =>
    have hne : t.writers[i]? ≠ some true := of_decide_eq_true h
    exact hne
  | reader i =>
    have hne : t.readers[i]? ≠ some true := of_decide_eq_true h
    exact hne
  | lifetime =>
    rintro ⟨-, h2⟩
    obtain ⟨h3, h4⟩ := Bool.and_eq_true_iff.mp h
    rw [h2 (of_decide_eq_true h3)] at h4
    cases h4

end ReplayTasks

end ReplayServer
