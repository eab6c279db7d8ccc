import ReplayServer.Replay.CallingProtocol
import ReplayServer.Replay.LifecycleTasks

/-!
# replay: a cancelled replay ends

The wake-ups of `lifetime` and the ends of the connections `close` a replay; what is left to be
closed is `todo`.

* `ReplayTasks.todo_step`     a wake-up that closes has less to do after it, and only a new connection
                              brings something to do;
* `ReplayTasks.Waiting`       a wait that is not over is about the latest count, or will hear of it;
* `ReplayLife.closes_or_over`  a cancelled replay is over or has a wake-up that closes;
* `ReplayLife.shutdown_ends`  so a cancelled replay ends, and how soon does not depend on the data.
-/

set_option linter.unusedSectionVars false

namespace ReplayServer
open Fallible Merge

/-! ## waits -/

namespace CountWait

/-- how often a wait can still wake up for this count -/
def load (w : CountWait) (c : EmptyCounter) : Nat :=
  (if w.seen = c.version then 0 else 2) + (if w.lastCount = 0 ∧ c.count ≠ 0 then 1 else 0)

theorem load_le (w : CountWait) (c : EmptyCounter) : w.load c ≤ 3 := by
  unfold load
  split <;> split <;> omega

theorem load_newCount {w w' : CountWait} {c : EmptyCounter} (h : w.newCount c = some w') :
    w'.load c < w.load c := by
  unfold newCount at h
  split at h
  · rename_i hne
    cases h
    have hlast : ¬ (c.count = 0 ∧ c.count ≠ 0) := fun h => h.2 h.1
    unfold load
    rw [if_pos rfl, if_neg hlast, if_neg hne]
    omega
  · cases h

theorem load_timer {w w' : CountWait} {c : EmptyCounter} (h : w.timer c = some (some w')) :
    w'.load c < w.load c := by
  unfold timer at h
  split at h
  · rename_i h0
    by_cases hc : c.count = 0
    · rw [if_pos hc] at h
      cases h
    · rw [if_neg hc] at h
      cases h
      unfold load
      rw [if_neg (show ¬ (c.count = 0 ∧ c.count ≠ 0) from fun h => h.2 h.1),
        if_pos (show w.lastCount = 0 ∧ c.count ≠ 0 from ⟨h0, hc⟩)]
      exact Nat.lt_succ_self _
  · cases h

theorem load_dec {c c' : EmptyCounter} (h : c.dec = .ok c') (w : CountWait) :
    w.load c' ≤ w.load c + 2 := by
  obtain ⟨n, hn, h⟩ := bind_eq_ok.mp h
  cases h
  have hle : n ≤ c.count := by
    unfold checkedSub at hn
    split at hn
    · cases hn
      omega
    · cases hn
  unfold load
  dsimp only
  split <;> split <;> split <;> split <;> omega

/-- the wait is about the latest count, or there is a newer one that it did not look at -/
def UpToDate (w : CountWait) (c : EmptyCounter) : Prop :=
  w.seen ≤ c.version ∧ (w.seen = c.version → w.lastCount = c.count)

theorem start_upToDate (c : EmptyCounter) : (start c).UpToDate c := ⟨Nat.zero_le _, fun _ => rfl⟩

theorem UpToDate.next {w : CountWait} {c c' : EmptyCounter} (h : w.UpToDate c)
    (hc : c'.version = c.version + 1) : w.UpToDate c' :=
  ⟨by rw [hc]; exact h.1.trans (Nat.le_succ _), fun he => absurd (he ▸ h.1) (by omega)⟩

theorem UpToDate.newCount {w w' : CountWait} {c : EmptyCounter} (h : w.newCount c = some w') :
    w'.UpToDate c := by
  unfold CountWait.newCount at h
  split at h
  · cases h
    exact ⟨le_rfl, fun _ => rfl⟩
  · cases h

theorem UpToDate.timer {w w' : CountWait} {c : EmptyCounter} (hw : w.UpToDate c)
    (h : w.timer c = some (some w')) : w'.UpToDate c := by
  unfold CountWait.timer at h
  split at h
  · by_cases hc : c.count = 0
    · rw [if_pos hc] at h
      cases h
    · rw [if_neg hc] at h
      cases h
      exact ⟨hw.1, fun _ => rfl⟩
  · cases h

/-- nobody is left, so the wait is over or is told so -/
theorem UpToDate.wakes {w : CountWait} {c : EmptyCounter} (h : w.UpToDate c) (hc : c.count = 0) :
    w.timer c = some none ∨ ∃ w', w.newCount c = some w' := by
  by_cases hl : w.lastCount = 0
  · left
    unfold CountWait.timer
    rw [if_pos hl, if_pos hc]
  · right
    have hne : w.seen ≠ c.version := fun he => hl ((h.2 he).trans hc)
    unfold CountWait.newCount
    rw [if_pos hne]
    exact ⟨_, rfl⟩

end CountWait

/-! ## what is left to be done -/

/-- the stages of `regular_lifetime` before its end -/
def Lifetime.left : Lifetime → Nat
  | .created => 5
  | .noWritersForAWhile _ => 4
  | .noWriters _ => 3
  | .saving => 2
  | .noReaders _ => 1
  | .ended => 0

/-- a wake-up that does not come from outside, other than those of a working connection -/
def LifeEvent.closes : LifeEvent → Bool
  | .writerStops _ _ | .readerStops _ _ | .lifetime | .newCount | .timer | .waitCancelled | .saved
  | .timeout | .timeoutCancelled => true
  | .connection _ | .header _ _ | .data _ _ | .cycle _ | .shutdown => false

def LifeEvent.closing (e : LifeEvent) : Nat := if e.closes then 1 else 0

/-- what a connection brings -/
def LifeEvent.brings : LifeEvent → Nat
  | .connection _ => 6
  | _ => 0

def LifeEvent.connects : LifeEvent → Bool
  | .connection _ => true
  | _ => false

theorem LifeEvent.brings_eq (e : LifeEvent) : e.brings = 6 * if e.connects = true then 1 else 0 := by
  cases e <;> rfl

namespace ReplayTasks

def load (t : ReplayTasks) : Nat :=
  match t.wait with
  | some (w, c) => w.load c
  | none => 0

def todo (t : ReplayTasks) : Nat :=
  5 * t.lifetime.left + t.load + 3 * t.writers.countP (fun w => w) +
    3 * t.readers.countP (fun r => r) + if t.timeout then 1 else 0

theorem load_le (t : ReplayTasks) : t.load ≤ 3 := by
  unfold load
  split
  · exact CountWait.load_le _ _
  · omega

section
variable {t t' : ReplayTasks}

/-- the wait of `regular_lifetime`, if a counter changed -/
theorem load_writers {c : EmptyCounter} {n : Nat} (hc : ∀ w : CountWait, w.load c ≤
    w.load t.writerConnectionCount + n) : ({ t with writerConnectionCount := c }).load ≤ t.load + n := by
  unfold load wait
  dsimp only
  cases t.lifetime with
  | noWritersForAWhile w => exact hc w
  | noWriters w => exact hc w
  | noReaders w => exact Nat.le_add_right _ _
  | created | saving | ended => exact Nat.zero_le _

theorem load_readers {c : EmptyCounter} {n : Nat} (hc : ∀ w : CountWait, w.load c ≤
    w.load t.readerConnectionCount + n) : ({ t with readerConnectionCount := c }).load ≤ t.load + n := by
  unfold load wait
  dsimp only
  cases t.lifetime with
  | noReaders w => exact hc w
  | noWritersForAWhile w => exact Nat.le_add_right _ _
  | noWriters w => exact Nat.le_add_right _ _
  | created | saving | ended => exact Nat.zero_le _

theorem load_inc (w : CountWait) (c : EmptyCounter) : w.load c.inc ≤ w.load c + 3 :=
  (CountWait.load_le w c.inc).trans (Nat.le_add_left _ _)

theorem todo_stage (hl : t'.lifetime.left + 1 ≤ t.lifetime.left) (hw : t'.writers = t.writers)
    (hr : t'.readers = t.readers) : t'.todo < t.todo := by
  have hload := load_le t'
  have htimeout : (if t'.timeout then 1 else 0) ≤ (if t.timeout then 1 else 0) + 1 := by
    split <;> omega
  unfold todo
  rw [hw, hr]
  omega

theorem todo_setWait {w w' : CountWait} {c : EmptyCounter} (hw : t.wait = some (w, c))
    (h : w'.load c < w.load c) : (t.setWait w').todo < t.todo := by
  have hload : (t.setWait w').load < t.load ∧ (t.setWait w').lifetime.left = t.lifetime.left := by
    unfold load setWait wait at *
    dsimp only at *
    cases hl : t.lifetime with
    | noWritersForAWhile v | noWriters v | noReaders v =>
      rw [hl] at hw
      cases hw
      exact ⟨h, rfl⟩
    | created | saving | ended =>
      rw [hl] at hw
      cases hw
  obtain ⟨h1, h2⟩ := hload
  have hrest : (t.setWait w').writers = t.writers ∧ (t.setWait w').readers = t.readers ∧
      (t.setWait w').timeout = t.timeout := ⟨rfl, rfl, rfl⟩
  unfold todo
  rw [h2, hrest.1, hrest.2.1, hrest.2.2]
  omega

theorem todo_waited (h : t.Waited t') : t'.todo < t.todo := by
  cases h with
  | noWritersForAWhile h | noWriters h | noReaders h =>
    refine todo_stage ?_ rfl rfl
    rw [h]
    exact le_rfl

theorem countP_stops {ws : List Bool} {id : Nat} (h : ws[id]? = some true) :
    (ws.set id false).countP (fun w => w) + 1 = ws.countP (fun w => w) :=
  countP_set_of_getElem? h rfl false

theorem closing_of_lt {e : LifeEvent} (h : t'.todo < t.todo) :
    e.closing + t'.todo ≤ t.todo + e.brings := by
  have hle : e.closing ≤ 1 := by
    unfold LifeEvent.closing
    split <;> omega
  omega

/-- **what is left to be done after a wake-up** -/
theorem todo_step {e : LifeEvent} (h : t.Step e t') : e.closing + t'.todo ≤ t.todo + e.brings := by
  cases h with
  | late type h =>
    show 0 + _ ≤ _
    omega
  | writer h =>
    have hload := load_writers (t := t) (load_inc · t.writerConnectionCount)
    show 0 + (5 * t.lifetime.left + load { t with writerConnectionCount := t.writerConnectionCount.inc } +
      3 * (t.writers ++ [true]).countP (fun w => w) + 3 * t.readers.countP (fun r => r) +
      if t.timeout then 1 else 0) ≤ t.todo + 6
    unfold todo
    rw [List.countP_append, List.countP_singleton, if_pos rfl]
    omega
  | reader h =>
    have hload := load_readers (t := t) (load_inc · t.readerConnectionCount)
    show 0 + (5 * t.lifetime.left + load { t with readerConnectionCount := t.readerConnectionCount.inc } +
      3 * t.writers.countP (fun w => w) + 3 * (t.readers ++ [true]).countP (fun r => r) +
      if t.timeout then 1 else 0) ≤ t.todo + 6
    unfold todo
    rw [List.countP_append, List.countP_singleton, if_pos rfl]
    omega
  | works he h =>
    have hclosing : e.closing = 0 := by
      revert he
      cases e <;> intro he <;> first | rfl | cases he
    omega
  | @writerStops id why count h hc =>
    have hload := load_writers (t := t) (CountWait.load_dec hc)
    have hcount := countP_stops h
    refine closing_of_lt ?_
    show 5 * t.lifetime.left + load { t with writerConnectionCount := count } +
      3 * (t.writers.set id false).countP (fun w => w) + 3 * t.readers.countP (fun r => r) +
      (if t.timeout then 1 else 0) < t.todo
    unfold todo
    omega
  | @readerStops id why count h hc =>
    have hload := load_readers (t := t) (CountWait.load_dec hc)
    have hcount := countP_stops h
    refine closing_of_lt ?_
    show 5 * t.lifetime.left + load { t with readerConnectionCount := count } +
      3 * t.writers.countP (fun w => w) + 3 * (t.readers.set id false).countP (fun r => r) +
      (if t.timeout then 1 else 0) < t.todo
    unfold todo
    omega
  | lifetime h =>
    refine closing_of_lt (todo_stage ?_ rfl rfl)
    rw [h]
    exact le_rfl
  | newCount hw h => exact closing_of_lt (todo_setWait hw (CountWait.load_newCount h))
  | timer hw h => exact closing_of_lt (todo_setWait hw (CountWait.load_timer h))
  | timerOver h => exact closing_of_lt (todo_waited h)
  | waitCancelled hc h => exact closing_of_lt (todo_waited h)
  | saved h =>
    refine closing_of_lt (todo_stage ?_ rfl rfl)
    rw [h]
    exact le_rfl
  | timeout ht | timeoutCancelled ht hc =>
    refine closing_of_lt ?_
    show 5 * t.lifetime.left + t.load + 3 * t.writers.countP (fun w => w) +
      3 * t.readers.countP (fun r => r) + 0 < _
    unfold todo
    rw [if_pos ht]
    exact Nat.lt_succ_self _
  | shutdown => exact (Nat.zero_add _).le

/-! ## waits go on -/

/-- the wait of `regular_lifetime` knows the latest count, or will hear of it -/
def Waiting (t : ReplayTasks) : Prop := ∀ w c, t.wait = some (w, c) → w.UpToDate c

theorem Waiting.counters (h : t.Waiting) (hl : t'.lifetime = t.lifetime)
    (hw : ∀ w : CountWait, w.UpToDate t.writerConnectionCount → w.UpToDate t'.writerConnectionCount)
    (hr : ∀ w : CountWait, w.UpToDate t.readerConnectionCount → w.UpToDate t'.readerConnectionCount) :
    t'.Waiting := by
  intro w d hwait
  unfold wait at hwait
  rw [hl] at hwait
  cases hlt : t.lifetime with
  | noWritersForAWhile v | noWriters v =>
    rw [hlt] at hwait
    cases hwait
    exact hw w (h w t.writerConnectionCount (by unfold wait; rw [hlt]; rfl))
  | noReaders v =>
    rw [hlt] at hwait
    cases hwait
    exact hr w (h w t.readerConnectionCount (by unfold wait; rw [hlt]; rfl))
  | created | saving | ended =>
    rw [hlt] at hwait
    cases hwait

theorem Waiting.setWait {w : CountWait} {c : EmptyCounter} (hw : t.wait = some (w, c)) {w' : CountWait}
    (h : w'.UpToDate c) : (t.setWait w').Waiting := by
  intro v d hwait
  unfold ReplayTasks.setWait wait at *
  dsimp only at *
  cases hl : t.lifetime with
  | noWritersForAWhile u | noWriters u | noReaders u =>
    rw [hl] at hw hwait
    cases hw
    cases hwait
    exact h
  | created | saving | ended =>
    rw [hl] at hw
    cases hw

theorem Waited.waiting (h : t.Waited t') : t'.Waiting := by
  cases h <;> intro w c hw <;> cases hw
  exact CountWait.start_upToDate _

theorem version_dec {c c' : EmptyCounter} (h : c.dec = .ok c') : c'.version = c.version + 1 := by
  obtain ⟨n, -, h⟩ := bind_eq_ok.mp h
  cases h
  rfl

/-- **no wait is forgotten** -/
theorem Waiting.step {e : LifeEvent} (h : t.Waiting) (hs : t.Step e t') : t'.Waiting := by
  cases hs with
  | late type hstop => exact h
  | writer hstop => exact h.counters rfl (fun w hw => hw.next rfl) (fun w hw => hw)
  | reader hstop => exact h.counters rfl (fun w hw => hw) (fun w hw => hw.next rfl)
  | works he ht => exact h
  | writerStops ht hc => exact h.counters rfl (fun w hw => hw.next (version_dec hc)) (fun w hw => hw)
  | readerStops ht hc => exact h.counters rfl (fun w hw => hw) (fun w hw => hw.next (version_dec hc))
  | lifetime hl | saved hl =>
    intro w c hw
    cases hw
    exact CountWait.start_upToDate _
  | newCount hw hn => exact .setWait hw (.newCount hn)
  | timer hw ht => exact .setWait hw ((h _ _ hw).timer ht)
  | timerOver hd => exact hd.waiting
  | waitCancelled hc hd => exact hd.waiting
  | timeout ht | timeoutCancelled ht hc | shutdown =>
    exact h.counters rfl (fun w hw => hw) (fun w hw => hw)

theorem cancelled_step {e : LifeEvent} (hs : t.Step e t') (h : t.cancelled = true) :
    t'.cancelled = true := by
  cases hs with
  | timerOver hd =>
    cases hd <;> first | exact h | rfl
  | waitCancelled hc hd =>
    cases hd <;> first | exact h | rfl
  | timeout ht => rfl
  | shutdown => rfl
  | late | writer | reader | works | writerStops | readerStops | lifetime | newCount | timer | saved
  | timeoutCancelled => exact h

end

end ReplayTasks

/-! ## the end -/

namespace ReplayLife

/-- `lifetime` returned, and every connection with it -/
structure Over (l : ReplayLife) : Prop where
  lifetime : l.lifetime = .ended
  timeout : l.timeout = false
  writers : ∀ t ∈ l.writers, t = .done
  readers : true ∉ l.readers

def CanClose (l : ReplayLife) : Prop := ∃ e l', e.closes = true ∧ Step l e l'

section
variable {target dist : Nat} {l l' : ReplayLife} {m : State}

theorem canClose_of_next (hN : 0 < target) (hm : l.Sound target dist m) {ords : Nat → Nat → IterOrder}
    {e : LifeEvent} (he : e.closes = true) {x : Res ReplayLife} (hx : l.next ords e = some x) :
    l.CanClose := by
  have hroom : l.HasRoom e := by
    rintro id t rfl
    cases he
  obtain ⟨l', rfl⟩ := (hm.next ords hx).ok ⟨hN, hroom⟩
  exact ⟨e, l', he, ords, hx⟩

theorem canClose_of_wait (hN : 0 < target) (hm : l.Sound target dist m) (hw : l.tasks.Waiting)
    {w : CountWait} {c : EmptyCounter} (hwait : l.wait = some (w, c)) (hc : c.count = 0) :
    l.CanClose := by
  rcases (hw w c hwait).wakes hc with ht | ⟨w', hn⟩
  · have hx : l.next (fun _ _ => default) .timer = some (l.waited (fun _ => default)) := by
      unfold next
      simp only [hwait, ht, Option.bind_eq_bind, Option.bind_some]
      rfl
    exact canClose_of_next hN hm rfl hx
  · have hx : l.next (fun _ _ => default) .newCount = some (.ok (l.setWait w')) := by
      unfold next
      simp only [hwait, hn, Option.bind_eq_bind, Option.bind_some]
      rfl
    exact canClose_of_next hN hm rfl hx

/-- **a cancelled replay is over or has a wake-up that closes** -/
theorem closes_or_over (hN : 0 < target) (hm : l.Sound target dist m) (hw : l.tasks.Waiting)
    (hc : l.cancelled = true) : l.CanClose ∨ l.Over := by
  have close : ∀ {e : LifeEvent}, e.closes = true →
      (l.next (fun _ _ => default) e).isSome = true → l.CanClose := by
    intro e he hx
    obtain ⟨x, hx⟩ := Option.isSome_iff_exists.mp hx
    exact canClose_of_next hN hm he hx
  by_cases hwriters : ∃ (id : Nat) (task : WriterTask), l.writers[id]? = some task ∧ task.active = true
  · obtain ⟨id, task, ht, ha⟩ := hwriters
    refine Or.inl (close (e := .writerStops id .token) rfl ?_)
    simp only [next, ht, Option.any_some, ha, canStop, hc, Bool.and_self, if_true, Option.isSome_some]
  · have hdone : ∀ t ∈ l.writers, t = .done := by
      intro t ht
      obtain ⟨id, hid⟩ := List.getElem?_of_mem ht
      cases t with
      | done => rfl
      | header => exact absurd ⟨id, _, hid, rfl⟩ hwriters
      | data _ => exact absurd ⟨id, _, hid, rfl⟩ hwriters
    have hnone : l.writerConnectionCount.count = 0 := by
      rw [hm.writerCount, List.countP_eq_zero]
      intro t ht
      rw [hdone t ht]
      exact Bool.false_ne_true
    by_cases hreaders : true ∈ l.readers
    · obtain ⟨id, hid⟩ := List.getElem?_of_mem hreaders
      refine Or.inl (close (e := .readerStops id .token) rfl ?_)
      simp only [next, hid, canStop, hc, decide_true, Bool.and_self, if_true, Option.isSome_some]
    · have hleft : l.readerConnectionCount.count = 0 := by
        rw [hm.readerCount, List.countP_eq_zero]
        rintro b hb rfl
        exact hreaders hb
      cases hl : l.lifetime with
      | created =>
        refine Or.inl (close (e := .lifetime) rfl ?_)
        unfold next
        rw [if_pos hl]
        rfl
      | noWritersForAWhile w =>
        refine Or.inl (close (e := .waitCancelled) rfl ?_)
        unfold next
        rw [hl]
        dsimp only
        rw [if_pos hc]
        rfl
      | noWriters w =>
        refine Or.inl (canClose_of_wait hN hm hw (w := w) (c := l.writerConnectionCount) ?_ hnone)
        unfold wait
        rw [hl]
        rfl
      | saving =>
        refine Or.inl (close (e := .saved) rfl ?_)
        unfold next
        rw [if_pos hl]
        rfl
      | noReaders w =>
        refine Or.inl (canClose_of_wait hN hm hw (w := w) (c := l.readerConnectionCount) ?_ hleft)
        unfold wait
        rw [hl]
        rfl
      | ended =>
        cases ht : l.timeout with
        | true =>
          refine Or.inl (close (e := .timeoutCancelled) rfl ?_)
          unfold next
          rw [ht, hc, Bool.true_and, if_pos rfl]
          rfl
        | false => exact Or.inr ⟨hl, ht, hdone, hreaders⟩

theorem waiting_of_run {historySize : Nat} {evs : List LifeEvent}
    (h : Lts.Run Step (withHistory target dist historySize) evs l) : l.tasks.Waiting := by
  refine h.invariant (I := fun l => l.tasks.Waiting) (fun _ _ _ hw hs => hw.step hs.tasks) ?_
  intro w c hw
  cases hw

theorem todo_le (l : ReplayLife) : l.tasks.todo ≤ 29 + 3 * l.writers.countP WriterTask.active +
    3 * l.readers.countP (fun r => r) := by
  have hload := ReplayTasks.load_le l.tasks
  have hleft : l.lifetime.left ≤ 5 := by
    cases l.lifetime <;> simp [Lifetime.left]
  have htimeout : (if l.timeout then 1 else 0) ≤ 1 := by
    split <;> omega
  have hcount : (l.writers.map WriterTask.active).countP (fun w => w) =
      l.writers.countP WriterTask.active := List.countP_map
  show 5 * l.lifetime.left + l.tasks.load + 3 * (l.writers.map WriterTask.active).countP (fun w => w) +
    3 * l.readers.countP (fun r => r) + (if l.timeout then 1 else 0) ≤ _
  omega

/-- **a cancelled replay ends**: whatever happens next, as long as the replay is not over there is a
wake-up that closes, and of these there are only so many -/
theorem shutdown_ends {cycles : Nat} (hN : 0 < target) {evs evs' : List LifeEvent}
    (h : Lts.Run Step (new target dist cycles) evs l) (hc : l.cancelled = true)
    (h' : Lts.Run Step l evs' l') :
    (l'.CanClose ∨ l'.Over) ∧ evs'.countP LifeEvent.closes ≤
      29 + 3 * l.writers.countP WriterTask.active + 3 * l.readers.countP (fun r => r) +
        6 * evs'.countP LifeEvent.connects := by
  have hall := h.append h'
  obtain ⟨m, hm⟩ := sound_of_run hall
  have hcancelled : l'.cancelled = true :=
    h'.invariant (I := fun l => l.cancelled = true)
      (fun _ _ _ hc hs => ReplayTasks.cancelled_step hs.tasks hc) hc
  refine ⟨closes_or_over hN hm (waiting_of_run hall) hcancelled, ?_⟩
  have hwork : evs'.countP LifeEvent.closes + l'.tasks.todo ≤
      l.tasks.todo + 6 * evs'.countP LifeEvent.connects := by
    refine h'.countP_le (I := fun _ => True) (r := fun l => l.tasks.todo) (fun _ _ _ _ _ => trivial)
      (fun l e l' _ hs => ?_) trivial
    rw [← LifeEvent.brings_eq]
    exact ReplayTasks.todo_step hs.tasks
  have htodo := todo_le l
  omega

/-- a writer and a reader that are there when the server is shut down, and how the replay ends -/
def shutdownRun : List LifeEvent := [.lifetime, .connection .writer, .connection .reader, .shutdown]

def shutdownRest : List LifeEvent :=
  [.waitCancelled, .header 0 ⟨[7]⟩, .writerStops 0 .token, .newCount, .timer, .saved,
    .readerStops 0 .token, .newCount, .timer, .timeoutCancelled]

theorem shutdown_ends_shutdown : ∃ l l', Lts.Run Step (new 1 3 1) shutdownRun l ∧ l.cancelled = true ∧
    Lts.Run Step l shutdownRest l' ∧ (l'.CanClose ∨ l'.Over) ∧ l'.lifetime = .ended ∧
    shutdownRest.countP LifeEvent.closes ≤ 29 + 3 * l.writers.countP WriterTask.active +
      3 * l.readers.countP (fun r => r) + 6 * shutdownRest.countP LifeEvent.connects := by
  have hsome : (shutdownRun.foldlM wake (new 1 3 1)).map
      (fun l => (l.cancelled, (shutdownRest.foldlM wake l).map (fun l' => l'.lifetime)))
      = some (true, some .ended) := by
    decide +kernel
  obtain ⟨l, hl, hf⟩ := Option.map_eq_some_iff.mp hsome
  obtain ⟨hc, hf⟩ := Prod.mk.inj hf
  obtain ⟨l', hl', hended⟩ := Option.map_eq_some_iff.mp hf
  have hrun := Lts.Run.of_foldlM (fun _ _ _ => step_of_wake) hl
  have hrun' := Lts.Run.of_foldlM (fun _ _ _ => step_of_wake) hl'
  obtain ⟨hover, hcount⟩ := shutdown_ends (by decide) hrun hc hrun'
  exact ⟨l, l', hrun, hc, hrun', hover, hended, hcount⟩

end

end ReplayLife

end ReplayServer
