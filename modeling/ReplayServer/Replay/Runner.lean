import ReplayServer.Lib.Run
import ReplayServer.Replay.Replays
import ReplayServer.Util.BufTraits

/-!
# replay: the workers

`runner.rs` sends a connection to the worker that its replay id picks.  The workers run on threads
of their own, so connections are accepted and the workers do one thing after another in any order.

* `ReplayRunner.step_inv`           every event keeps the invariants of all workers;
* `ReplayRunner.one_live_replay`    over all workers there is one live replay for an id at most,
                                    and connections are handed to no other.
-/

namespace ReplayServer
open Fallible

structure ReplayRunner where
  replayWorkers : List Worker
  /-- not in the source: the connections that were dispatched -/
  accepted : List ConnectionHeader

inductive RunnerEvent where
  | connection (c : ConnectionHeader)
  | worker (i : Nat) (e : WorkerEvent)

namespace ReplayRunner

def new (count : Nat) : ReplayRunner := ⟨List.replicate count .new, []⟩

/-- the remainder and the index panic where there are no workers -/
def dispatchConnection (self : ReplayRunner) (c : ConnectionHeader) : Res ReplayRunner := do
  assertThat (self.replayWorkers.length ≠ 0)
  let workerToPick := c.id % self.replayWorkers.length
  let worker ← unwrap self.replayWorkers[workerToPick]?
  return {
    replayWorkers := self.replayWorkers.set workerToPick
      { worker with incoming := worker.incoming ++ [c] }
    accepted := self.accepted ++ [c] }

inductive Step : ReplayRunner → RunnerEvent → ReplayRunner → Prop where
  | connection {s s' : ReplayRunner} {c : ConnectionHeader} (h : s.dispatchConnection c = .ok s') :
      Step s (.connection c) s'
  | worker {s : ReplayRunner} {i : Nat} {e : WorkerEvent} {w w' : Worker}
      (hw : s.replayWorkers[i]? = some w) (h : w.next e = some w') :
      Step s (.worker i e) { s with replayWorkers := s.replayWorkers.set i w' }

def Alive (s : ReplayRunner) (i : Nat) (r : ReplayRc) : Prop :=
  ∃ w, s.replayWorkers[i]? = some w ∧ w.alive r = true

def sentTo (s : ReplayRunner) (count i : Nat) : List ConnectionHeader :=
  s.accepted.filter (fun c => c.id % count = i)

structure Inv (count : Nat) (s : ReplayRunner) : Prop where
  length : s.replayWorkers.length = count
  worker : ∀ (i : Nat) (w : Worker), s.replayWorkers[i]? = some w →
    w.Inv (fun id => id % count = i)
  sent : ∀ (i : Nat) (w : Worker), s.replayWorkers[i]? = some w →
    w.served.map Prod.fst ++ w.incoming = s.sentTo count i

theorem new_inv (count : Nat) : Inv count (new count) := by
  have hnew : ∀ (i : Nat) (w : Worker), (new count).replayWorkers[i]? = some w → w = .new := by
    intro i w hw
    exact List.eq_of_mem_replicate (List.mem_of_getElem? hw)
  refine ⟨List.length_replicate, ?_, ?_⟩
  · intro i w hw
    rw [hnew i w hw]
    exact Worker.new_inv _
  · intro i w hw
    rw [hnew i w hw]
    rfl

section
variable {count : Nat} {s s' : ReplayRunner}

theorem dispatchConnection_ok (hn : 0 < count) (h : Inv count s) (c : ConnectionHeader) :
    ∃ w, s.replayWorkers[c.id % count]? = some w ∧
      s.dispatchConnection c = .ok {
        replayWorkers := s.replayWorkers.set (c.id % count)
          { w with incoming := w.incoming ++ [c] }
        accepted := s.accepted ++ [c] } := by
  have hlt : c.id % count < s.replayWorkers.length := by
    rw [h.length]
    exact Nat.mod_lt _ hn
  refine ⟨s.replayWorkers[c.id % count], List.getElem?_eq_getElem hlt, ?_⟩
  unfold dispatchConnection
  rw [assertThat_true (by rw [h.length]; omega), ok_bind]
  dsimp only
  rw [h.length, List.getElem?_eq_getElem hlt]
  rfl

theorem get_set {workers : List Worker} {i j : Nat} {w w' : Worker}
    (h : (workers.set i w')[j]? = some w) : (j = i ∧ w = w') ∨ (j ≠ i ∧ workers[j]? = some w) := by
  by_cases hij : j = i
  · left
    subst hij
    rw [List.getElem?_set, if_pos rfl] at h
    split at h
    · exact ⟨rfl, (Option.some.inj h).symm⟩
    · cases h
  · right
    rw [List.getElem?_set_ne (Ne.symm hij)] at h
    exact ⟨hij, h⟩

theorem Inv.set (h : Inv count s) {i : Nat} {w' : Worker} {accepted : List ConnectionHeader}
    (hw : w'.Inv (fun id => id % count = i))
    (hsent : w'.served.map Prod.fst ++ w'.incoming =
      sentTo ⟨s.replayWorkers, accepted⟩ count i)
    (hother : ∀ j ≠ i, sentTo ⟨s.replayWorkers, accepted⟩ count j = s.sentTo count j) :
    Inv count ⟨s.replayWorkers.set i w', accepted⟩ := by
  refine ⟨?_, ?_, ?_⟩
  · rw [List.length_set]
    exact h.length
  · intro j w hj
    cases get_set hj with
    | inl hj =>
      obtain ⟨rfl, rfl⟩ := hj
      exact hw
    | inr hj => exact h.worker j w hj.2
  · intro j w hj
    cases get_set hj with
    | inl hj =>
      obtain ⟨rfl, rfl⟩ := hj
      exact hsent
    | inr hj => exact (h.sent j w hj.2).trans (hother j hj.1).symm

/-- **every event keeps the invariants of all workers** -/
theorem step_inv (hn : 0 < count) (h : Inv count s) {e : RunnerEvent} (hs : Step s e s') :
    Inv count s' := by
  cases hs with
  | @connection _ c hok =>
    obtain ⟨w, hw, heq⟩ := dispatchConnection_ok hn h c
    rw [heq] at hok
    cases hok
    refine h.set ((h.worker _ w hw).dispatch rfl) ?_ ?_
    · have hsent := h.sent _ w hw
      unfold sentTo at hsent ⊢
      rw [List.filter_append, ← hsent]
      simp
    · intro j hj
      unfold sentTo
      rw [List.filter_append]
      simp [Ne.symm hj]
  | @worker i e w w' hw hnext =>
    refine h.set ((h.worker i w hw).next hnext) ?_ (fun _ _ => rfl)
    rw [Worker.next_sent hnext]
    exact h.sent i w hw

/-- only the worker that takes a step has other live replays after it -/
theorem alive_of_step {e : WorkerEvent} {i j : Nat} {r : ReplayRc}
    (hs : Step s (.worker i e) s') (hr : s'.Alive j r) : s.Alive j r ∨
      (j = i ∧ ∃ w w', s.replayWorkers[i]? = some w ∧ w.next e = some w' ∧ w'.alive r = true) := by
  obtain ⟨w'', hw'', hr⟩ := hr
  cases hs with
  | @worker _ _ w w' hw hnext =>
    cases get_set hw'' with
    | inl hj =>
      obtain ⟨rfl, rfl⟩ := hj
      exact Or.inr ⟨rfl, w, _, hw, hnext, hr⟩
    | inr hj => exact Or.inl ⟨w'', hj.2, hr⟩

theorem Inv.alive_home (h : Inv count s) {i : Nat} {r : ReplayRc} (hr : s.Alive i r) :
    r.id % count = i := by
  obtain ⟨w, hw, hr⟩ := hr
  exact (h.worker i w hw).home r hr

/-- a live replay that another worker would have to know -/
theorem Inv.alive_same (h : Inv count s) {i j : Nat} {w : Worker} {r : ReplayRc} {id : Nat}
    (hw : s.replayWorkers[i]? = some w) (hid : id % count = i) (hr : s.Alive j r)
    (hrid : r.id = id) : j = i ∧ w.alive r = true := by
  have hj : j = i := by
    rw [← h.alive_home hr, hrid, hid]
  subst hj
  obtain ⟨w', hw', hr⟩ := hr
  rw [hw] at hw'
  cases hw'
  exact ⟨rfl, hr⟩

end

/-! ## the whole server -/

structure OneLive (count : Nat) (s : ReplayRunner) : Prop where
  unique : ∀ i j r r', s.Alive i r → s.Alive j r' → r.id = r'.id → i = j ∧ r = r'
  handed : ∀ (i : Nat) (w : Worker), s.replayWorkers[i]? = some w → ∀ c r,
    .connection c r ∈ w.assigned ++ w.running → r.id = c.id ∧ s.Alive i r
  /-- every connection waits in the channel of its worker or was served -/
  sent : ∀ (i : Nat) (w : Worker), s.replayWorkers[i]? = some w →
    w.served.map Prod.fst ++ w.incoming = s.sentTo count i
  writers : ∀ (i : Nat) (w : Worker), s.replayWorkers[i]? = some w → ∀ c o, (c, o) ∈ w.served →
    c.type = .writer → ∃ r, o = some r ∧ r.id = c.id
  dispatch : ∀ c, ∃ s', s.dispatchConnection c = .ok s'
  /-- a replay is only made for a writer, and only where none with its id is alive -/
  made : ∀ e s', Step s e s' → ∀ i r, s'.Alive i r → s.Alive i r ∨ ∃ w c rest,
    e = .worker i .assign ∧ s.replayWorkers[i]? = some w ∧ w.incoming = c :: rest ∧
      c.type = .writer ∧ r.id = c.id ∧ ∀ j r', s.Alive j r' → r'.id ≠ c.id
  /-- a connection that leaves the channel is handed to the live replay with its id; only a reader
  is turned away, when there is none -/
  serves : ∀ i s', Step s (.worker i .assign) s' → ∃ w w' c rest o,
    s.replayWorkers[i]? = some w ∧ s'.replayWorkers[i]? = some w' ∧ w.incoming = c :: rest ∧
      w'.served = w.served ++ [(c, o)] ∧
      (∀ r, o = some r → r.id = c.id ∧ s'.Alive i r ∧
        ∀ j r', s.Alive j r' → r'.id = c.id → j = i ∧ r' = r) ∧
      (o = none → c.type = .reader ∧ ∀ j r', s.Alive j r' → r'.id ≠ c.id)

section
variable {count : Nat} {s s' : ReplayRunner} (h : Inv count s)
include h

/-- no live replay has the id of a connection whose worker found none -/
theorem Inv.none_alive {i : Nat} {w : Worker} (hw : s.replayWorkers[i]? = some w)
    {c : ConnectionHeader} {rest : List ConnectionHeader} (hin : w.incoming = c :: rest)
    (hnone : ∀ r, w.alive r = true → r.id ≠ c.id) {j : Nat} {r : ReplayRc} (hr : s.Alive j r) :
    r.id ≠ c.id := by
  intro hid
  have hc : c.id % count = i := (h.worker i w hw).incoming c (by rw [hin]; exact List.mem_cons_self)
  exact hnone r (h.alive_same hw hc hr hid).2 hid

theorem Inv.made (hn : 0 < count) {e : RunnerEvent} (hs : Step s e s') {i : Nat} {r : ReplayRc}
    (hr : s'.Alive i r) : s.Alive i r ∨ ∃ w c rest,
      e = .worker i .assign ∧ s.replayWorkers[i]? = some w ∧ w.incoming = c :: rest ∧
        c.type = .writer ∧ r.id = c.id ∧ ∀ j r', s.Alive j r' → r'.id ≠ c.id := by
  cases e with
  | connection c =>
    left
    obtain ⟨w', hw', hr⟩ := hr
    obtain ⟨w, hw, hok⟩ := dispatchConnection_ok hn h c
    cases hs with
    | connection hok' =>
      rw [hok] at hok'
      cases hok'
      cases get_set hw' with
      | inl hj =>
        obtain ⟨rfl, rfl⟩ := hj
        exact ⟨w, hw, hr⟩
      | inr hj => exact ⟨w', hj.2, hr⟩
  | worker k e =>
    cases alive_of_step hs hr with
    | inl hr => exact Or.inl hr
    | inr hr =>
      obtain ⟨rfl, w, w', hw, hnext, hr⟩ := hr
      cases Worker.next_alive hnext hr with
      | inl hr => exact Or.inl ⟨w, hw, hr⟩
      | inr hnew =>
        obtain ⟨c, rest, rfl, hin, ht, hid, hget⟩ := hnew
        refine Or.inr ⟨w, c, rest, rfl, hw, hin, ht, hid, fun j r' hr' => ?_⟩
        exact h.none_alive hw hin ((h.worker i w hw).ne_of_get hget) hr'

theorem Inv.serves {i : Nat} (hs : Step s (.worker i .assign) s') : ∃ w w' c rest o,
    s.replayWorkers[i]? = some w ∧ s'.replayWorkers[i]? = some w' ∧ w.incoming = c :: rest ∧
      w'.served = w.served ++ [(c, o)] ∧
      (∀ r, o = some r → r.id = c.id ∧ s'.Alive i r ∧
        ∀ j r', s.Alive j r' → r'.id = c.id → j = i ∧ r' = r) ∧
      (o = none → c.type = .reader ∧ ∀ j r', s.Alive j r' → r'.id ≠ c.id) := by
  cases hs with
  | @worker _ _ w w' hw hnext =>
    have hwi := h.worker i w hw
    have hset : (s.replayWorkers.set i w')[i]? = some w' :=
      List.getElem?_set_self (List.getElem?_eq_some_iff.mp hw).1
    obtain ⟨c, rest, o, hin, hserved, h1, h2⟩ := hwi.assign_served hnext
    refine ⟨w, w', c, rest, o, hw, hset, hin, hserved, ?_, ?_⟩
    · intro r hr
      obtain ⟨h3, h4, h5⟩ := h1 r hr
      refine ⟨h3, ⟨w', hset, h4⟩, ?_⟩
      intro j r' hr' hid'
      have hc : c.id % count = i := hwi.incoming c (by rw [hin]; exact List.mem_cons_self)
      obtain ⟨hj, hr'⟩ := h.alive_same hw hc hr' hid'
      exact ⟨hj, h5 r' hr' hid'⟩
    · intro ho
      obtain ⟨h3, h4⟩ := h2 ho
      exact ⟨h3, fun j r' hr' => h.none_alive hw hin h4 hr'⟩

theorem Inv.oneLive (hn : 0 < count) : OneLive count s where
  unique i j r r' hr hr' hid := by
    obtain ⟨w, hw, hr⟩ := hr
    have hhome := (h.worker i w hw).home r hr
    obtain ⟨rfl, hr'⟩ := h.alive_same hw hhome hr' hid.symm
    exact ⟨rfl, (h.worker j w hw).unique hr hr' hid⟩
  handed i w hw c r hcr :=
    ⟨(h.worker i w hw).connection c r hcr, w, hw, Worker.alive_of_mem hcr⟩
  sent := h.sent
  writers i w hw c o hco ht := by
    obtain ⟨h1, h2⟩ := (h.worker i w hw).served _ hco
    obtain ⟨r, hr⟩ := Option.isSome_iff_exists.mp (h2 ht)
    exact ⟨r, hr, h1 r hr⟩
  dispatch c := by
    obtain ⟨w, -, hok⟩ := dispatchConnection_ok hn h c
    exact ⟨_, hok⟩
  made _ _ hs _ _ hr := h.made hn hs hr
  serves _ _ hs := h.serves hs

end

/-- **one live replay for a game on the whole server** -/
theorem one_live_replay {count : Nat} (hn : 0 < count) {es : List RunnerEvent} {s : ReplayRunner}
    (h : Lts.Run Step (new count) es s) : OneLive count s :=
  (h.invariant (fun _ _ _ hi hs => step_inv hn hi hs) (new_inv count)).oneLive hn

def next (self : ReplayRunner) : RunnerEvent → Option ReplayRunner
  | .connection c => (self.dispatchConnection c).toOption
  | .worker i e => do
    let w ← self.replayWorkers[i]?
    let w' ← w.next e
    return { self with replayWorkers := self.replayWorkers.set i w' }

theorem step_of_next {s s' : ReplayRunner} {e : RunnerEvent} (h : s.next e = some s') :
    Step s e s' := by
  cases e with
  | connection c => exact .connection (eq_ok_of_toOption h)
  | worker i e =>
    obtain ⟨w, hw, h⟩ := Option.bind_eq_some_iff.mp h
    obtain ⟨w', hw', h⟩ := Option.bind_eq_some_iff.mp h
    cases h
    exact .worker hw hw'

/-- worker 1 makes a replay for a writer and hands it a second one after the replay's own task
ended; worker 0 turns a reader away -/
def twoWorkers : List RunnerEvent :=
  [.connection ⟨.writer, 5, "a"⟩, .connection ⟨.reader, 4, "b"⟩, .worker 1 .assign,
    .worker 0 .assign, .connection ⟨.writer, 5, "c"⟩, .worker 1 .start, .worker 1 .start,
    .worker 1 (.done 0), .worker 1 .assign]

theorem one_live_replay_twoWorkers : ∃ s, Lts.Run Step (new 2) twoWorkers s ∧
    s.Alive 1 ⟨0, 5⟩ ∧ OneLive 2 s := by
  have hex : ((twoWorkers.foldlM next (new 2)).map fun s =>
      s.replayWorkers[1]?.any (fun w => w.alive ⟨0, 5⟩)) = some true := by
    decide +kernel
  obtain ⟨s, hs, halive⟩ := Option.map_eq_some_iff.mp hex
  obtain ⟨w, hw, hr⟩ := (Option.any_eq_true _ _).mp halive
  have hrun : Lts.Run Step (new 2) twoWorkers s :=
    Lts.Run.of_foldlM (f := next) (fun _ _ _ h => step_of_next h) hs
  exact ⟨s, hrun, ⟨w, hw, hr⟩, one_live_replay (by decide) hrun⟩

end ReplayRunner

end ReplayServer
