import ReplayServer.Replay.ReadMerged
import ReplayServer.Replay.CanonicalStream

/-!
# replay: the readers of the merged replay

A `Readers` is a session together with the tasks that read its merged replay.  Callbacks of the
strategy, new readers and polls come in any order.  Every poll has a waker of its own, so that
`pending` can tell which registrations are still owed a wake-up.

* `Readers.reads_merged_replay`   every reader gets header and canonical data, as far as they are
                                  released, and nobody sleeps through an update.
-/

set_option linter.unusedSectionVars false

namespace ReplayServer
open Fallible Agree Merge

namespace Session

/-- the merged replay is shared: a poll changes it in place -/
def setMerged (s : Session) (merged : MergedReplay) : Session :=
  match s.strategy.shared with
  | .ok sh => { s with strategy := s.strategy.setShared { sh with canonicalStream := merged } }
  | .error _ => s

end Session

def Poll.bytes : Poll → List UInt8
  | .pending => []
  | .ready l => l

/-- a task that reads, and all it has received -/
structure ReadTask where
  reader : MReplayReader
  received : List UInt8

inductive ReadersAction where
  | call (a : Action)
  | create
  /-- reader `i` polls with room for `size` bytes -/
  | poll (i size : Nat)

structure Readers where
  session : Session
  tasks : List ReadTask
  /-- the number of polls so far, which is the waker of the next one -/
  polls : Nat
  /-- the polls that returned `Pending`, with the positions of their readers -/
  pending : List (Waker × Nat)

namespace Readers

def new (targetQuorumSize streamCmpDistance : Nat) : Readers :=
  ⟨.new targetQuorumSize streamCmpDistance, [], 0, []⟩

def polled (r : Readers) (i : Nat) (t : ReadTask) (reader : MReplayReader) (merged : MergedReplay)
    (res : Poll) : Readers where
  session := r.session.setMerged merged
  tasks := r.tasks.set i ⟨reader, t.received ++ res.bytes⟩
  polls := r.polls + 1
  pending := if res = .pending then r.pending ++ [(r.polls, t.reader.position)] else r.pending

inductive Step : Readers → ReadersAction → Readers → Prop where
  | call {r : Readers} {a : Action} {s : Session} (h : Session.Step r.session a s) :
      Step r (.call a) { r with session := s }
  | create (r : Readers) : Step r .create { r with tasks := r.tasks ++ [⟨.new, []⟩] }
  | poll {r : Readers} {i size : Nat} {t : ReadTask} {reader : MReplayReader}
      {merged : MergedReplay} {res : Poll} (ht : r.tasks[i]? = some t) (hs : 0 < size)
      (h : t.reader.pollRead r.session.merged r.polls size = .ok (reader, merged, res)) :
      Step r (.poll i size) (r.polled i t reader merged res)

end Readers

/-! ## a poll does not touch the strategy -/

namespace Merge

/-- the event gets another waker -/
def Core.wait (w : Waker) (c : Core) : Core :=
  { c with canon := { c.canon with event := c.canon.event.wait w } }

theorem Core.wait_eq (w : Waker) (c : Core) : ∃ h e fin, c.wait w =
    { c with canon := { c.canon with header := h, event := e, finished := fin } } :=
  ⟨_, _, _, rfl⟩

theorem State.Sound.wait {m : State} (h : m.Sound) (w : Waker) : (m.mapCore (Core.wait w)).Sound := by
  have hcore := mapCore_core m (Core.wait w)
  refine ⟨⟨early_mapCore h.toEarly (Core.wait_eq w) h.closed, ready_mapCore h.toReady (Core.wait_eq w),
    stable_mapCore h.stable (Core.wait_eq w)⟩, ?_, ?_⟩
  · intro id hid hno
    rw [hcore] at hid ⊢
    exact h.dropped id hid (fun ht => hno (State.tracked_mapCore.mpr ht))
  · refine ⟨?_, ?_, ?_, ?_⟩
    · rw [hcore]
      exact h.stream.headed
    · rw [hcore]
      exact h.stream.headless
    · rw [hcore]
      exact h.stream.bytes
    · rw [hcore]
      exact h.stream.reported

end Merge

namespace Session

theorem setMerged_self {s : Session} {m : State} (h : s.Rel m) : s.setMerged s.merged = s := by
  obtain ⟨sh, hs, -⟩ := h.strategy.shared
  have hrel := h.strategy
  unfold setMerged merged
  rw [hs]
  dsimp only
  obtain ⟨σ, conns, fin⟩ := s
  cases σ with
  | quorum q =>
    cases hs
    rfl
  | stalemate t =>
    cases hs
    rfl
  | swapping => cases hs

theorem Tracks.wait {s : Session} {m : State} (h : s.Tracks m) (w : Waker) :
    (s.setMerged (s.merged.waitForReadEvent w)).Tracks (m.mapCore (Core.wait w)) := by
  obtain ⟨sh, hs, hrel⟩ := h.rel.strategy.shared
  have hcore := mapCore_core m (Core.wait w)
  refine ⟨?_, h.sound.wait w⟩
  unfold setMerged merged
  rw [hs]
  dsimp only
  refine ⟨h.rel.strategy.setShared ?_, ?_, fun id c hc => ?_, ?_⟩
  · refine ⟨hrel.dist, hrel.started, hrel.target, hrel.length, hrel.replay, ?_⟩
    refine ⟨hrel.canon.data, hrel.canon.whole, hrel.canon.header, hrel.canon.delayed,
      hrel.canon.finished, ?_⟩
    show sh.canonicalStream.readEvent.wait w = _
    rw [hrel.canon.event]
    rfl
  · rw [hcore]
    exact h.rel.length
  · rw [hcore]
    exact h.rel.conn id c hc
  · rw [hcore]
    exact h.rel.finished

end Session

/-! ## what may be read -/

namespace Merge.Canon

def stream (c : Canon) : List UInt8 :=
  (match c.header with
    | some h => h.data
    | none => []) ++ c.data

/-- how much of it the readers may see -/
def readable (c : Canon) : Nat :=
  c.delayed + (match c.header with
    | some h => h.data.length
    | none => 0)

/-- no data without a header, and nothing is released that is not there -/
structure Released (c : Canon) : Prop where
  header : c.header = none → c.data = []
  delayed : c.delayed ≤ c.data.length

theorem Released.readable_le {c : Canon} (h : c.Released) : c.readable ≤ c.stream.length := by
  have hd := h.delayed
  unfold readable stream
  rw [List.length_append]
  cases c.header with
  | none =>
    show c.delayed + 0 ≤ 0 + _
    omega
  | some x =>
    show c.delayed + x.data.length ≤ x.data.length + _
    omega

/-- what was there stays there -/
theorem Released.grow {c c' : Canon} (h : c.Released) (hh : ∀ x, c.header = some x → c'.header = some x)
    (hdata : c.data <+: c'.data) (hdel : c.delayed ≤ c'.delayed) :
    c.stream <+: c'.stream ∧ c.readable ≤ c'.readable := by
  have hd := h.delayed
  unfold stream readable
  cases hx : c.header with
  | none =>
    rw [h.header hx] at hd ⊢
    exact ⟨List.nil_prefix, by
      show c.delayed + 0 ≤ _
      rw [Nat.le_zero.mp hd]
      exact Nat.zero_le _⟩
  | some x =>
    rw [hh x hx]
    exact ⟨(List.prefix_append_right_inj _).mpr hdata, Nat.add_le_add_right hdel _⟩

end Merge.Canon

theorem Merge.State.Sound.released {m : State} (h : m.Sound) : m.core.canon.Released :=
  ⟨h.stream.header, h.wf.core.delayed⟩

namespace MergedReplay.Rel
variable {m : MergedReplay} {c : Canon} (h : m.Rel c)
include h

theorem stream : m.stream = c.stream := by
  unfold MergedReplay.stream Canon.stream
  cases hc : c.header <;> simp [h.header, h.contents, hc]

theorem readable : ChunkedBuf.len m = c.readable := by
  show m.delayedDataLen + m.headerLen = _
  unfold Canon.readable MergedReplay.headerLen
  cases hc : c.header <;> simp [h.header, h.delayed, hc]

end MergedReplay.Rel

/-! ## the invariant -/

/-- a task has received what its position says -/
structure ReadTask.Reads (t : ReadTask) (c : Canon) : Prop where
  received : t.received = c.stream.take t.reader.position
  released : t.reader.position ≤ c.readable

theorem ReadTask.Reads.grow {t : ReadTask} {c c' : Canon} (h : t.Reads c) (hr : c.Released)
    (hs : c.stream <+: c'.stream) (hle : c.readable ≤ c'.readable) : t.Reads c' := by
  refine ⟨?_, h.released.trans hle⟩
  obtain ⟨l, hl⟩ := hs
  rw [h.received, ← hl, List.take_append_of_le_length (h.released.trans hr.readable_le)]

/-- a poll that returned `Pending` with waker `p.1` and position `p.2` is woken in time -/
structure Owed (p : Waker × Nat) (c : Canon) : Prop where
  known : p.1 ∈ c.event.waiting ∨ p.1 ∈ c.event.woken
  woken : p.2 < c.readable ∨ c.finished = true → p.1 ∈ c.event.woken

theorem Owed.wakes {p : Waker × Nat} {c c' : Canon} (h : Owed p c) (hw : Wakes c c') : Owed p c' := by
  refine ⟨?_, fun hor => ?_⟩
  · rcases h.known with hk | hk
    · exact hw.waiting _ hk
    · exact Or.inr (hw.woken _ hk)
  · rcases hw.notified with ⟨h1, h2, h3⟩ | hall
    · have hread : c'.readable = c.readable := by
        unfold Canon.readable
        rw [h1, h2]
      rw [hread, h3] at hor
      exact hw.woken _ (h.woken hor)
    · rcases h.known with hk | hk
      · exact hall _ hk
      · exact hw.woken _ hk

theorem Owed.wait {p : Waker × Nat} {c : Core} (h : Owed p c.canon) (w : Waker) :
    Owed p (c.wait w).canon :=
  ⟨h.known.imp_left (fun hk => List.mem_append_left _ hk), h.woken⟩

namespace Readers

structure Follows (r : Readers) (m : State) : Prop where
  tracks : r.session.Tracks m
  tasks : ∀ t ∈ r.tasks, t.Reads m.core.canon
  pending : ∀ p ∈ r.pending, Owed p m.core.canon

theorem Follows.call {r : Readers} {m : State} (h : r.Follows m) {a : Action} {s : Session}
    (hs : Session.Step r.session a s) : ∃ m', Follows { r with session := s } m' := by
  obtain ⟨_, ⟨hma, ords, rfl⟩, ht⟩ := h.tracks.simulates hs
  have hm := State.step_micros_true h.tracks.sound.wf ords hma
  have hev := Micros.evolves hm h.tracks.sound.wf
  have hr := h.tracks.sound.released
  obtain ⟨h1, h2⟩ := hr.grow hev.header hev.grow hev.canonDelayed
  exact ⟨_, ht, fun t htm => (h.tasks t htm).grow hr h1 h2,
    fun p hp => (h.pending p hp).wakes (Micros.wakes hm h.tracks.sound.wf)⟩

theorem Follows.create {r : Readers} {m : State} (h : r.Follows m) :
    Follows { r with tasks := r.tasks ++ [⟨.new, []⟩] } m := by
  refine ⟨h.tracks, fun t ht => ?_, h.pending⟩
  rcases List.mem_append.mp ht with ht | ht
  · exact h.tasks t ht
  · rw [List.mem_singleton.mp ht]
    exact ⟨rfl, Nat.zero_le _⟩

theorem Follows.polled {r : Readers} {m : State} (h : r.Follows m) {i size : Nat} {t : ReadTask}
    {reader : MReplayReader} {merged : MergedReplay} {res : Poll} (ht : r.tasks[i]? = some t)
    (hs : 0 < size)
    (hp : t.reader.pollRead r.session.merged r.polls size = .ok (reader, merged, res)) :
    ∃ m', Follows (r.polled i t reader merged res) m' := by
  have hrel := h.tracks.rel.merged_rel
  have hreads := h.tasks t (List.mem_of_getElem? ht)
  have hdone := (hrel.pollRead h.tracks.sound.released.delayed t.reader r.polls hs).of_eq hp
  have hset : ∀ {u : ReadTask} {c : Canon}, (∀ t ∈ r.tasks, t.Reads c) → u.Reads c →
      ∀ t ∈ r.tasks.set i u, t.Reads c := by
    intro u c hall hu t' ht'
    rcases List.mem_or_eq_of_mem_set ht' with ht' | rfl
    · exact hall t' ht'
    · exact hu
  cases hdone with
  | ended hle hf =>
    refine ⟨m, ?_, hset h.tasks ?_, h.pending⟩
    · show (r.session.setMerged r.session.merged).Tracks m
      rw [Session.setMerged_self h.tracks.rel]
      exact h.tracks
    · show ReadTask.Reads ⟨t.reader, t.received ++ []⟩ _
      rw [List.append_nil]
      exact hreads
  | pending hle hf =>
    have hcore := mapCore_core m (Core.wait r.polls)
    refine ⟨_, h.tracks.wait r.polls, ?_, ?_⟩
    · rw [hcore]
      refine hset (fun t ht => ⟨(h.tasks t ht).received, (h.tasks t ht).released⟩) ?_
      show ReadTask.Reads ⟨t.reader, t.received ++ []⟩ _
      rw [List.append_nil]
      exact ⟨hreads.received, hreads.released⟩
    · rw [hcore]
      intro p hpm
      change p ∈ r.pending ++ [(r.polls, t.reader.position)] at hpm
      rcases List.mem_append.mp hpm with hpm | hpm
      · exact (h.pending p hpm).wait r.polls
      · rw [List.mem_singleton.mp hpm]
        refine ⟨Or.inl (List.mem_append_right _ List.mem_cons_self), ?_⟩
        rw [hrel.readable] at hle
        rw [hrel.finished] at hf
        rintro (hlt | hfin)
        · exact absurd hle (not_le.mpr hlt)
        · exact absurd (hf.symm.trans hfin) Bool.false_ne_true
  | bytes l hne hl hle =>
    refine ⟨m, ?_, hset h.tasks ?_, h.pending⟩
    · show (r.session.setMerged r.session.merged).Tracks m
      rw [Session.setMerged_self h.tracks.rel]
      exact h.tracks
    · rw [hrel.readable] at hle
      rw [hrel.stream] at hl
      refine ⟨?_, hle⟩
      show t.received ++ l = m.core.canon.stream.take (t.reader.position + l.length)
      rw [List.take_add, ← hreads.received, ← List.prefix_iff_eq_take.mp hl]

theorem Follows.step {r r' : Readers} {m : State} (h : r.Follows m) {a : ReadersAction}
    (hs : Step r a r') : ∃ m', r'.Follows m' := by
  cases hs with
  | call hs => exact h.call hs
  | create => exact ⟨m, h.create⟩
  | poll ht hs hp => exact h.polled ht hs hp

theorem follows_of_run {target dist : Nat} {acts : List ReadersAction}
    {r : Readers} (h : Lts.Run Step (new target dist) acts r) : ∃ m, r.Follows m := by
  refine h.invariant (I := fun r => ∃ m, r.Follows m) ?_ ⟨_, Session.Tracks.new target dist, ?_, ?_⟩
  · rintro r a r' ⟨m, hm⟩ hs
    exact hm.step hs
  · exact fun t ht => absurd ht List.not_mem_nil
  · exact fun p hp => absurd hp List.not_mem_nil

/-- **every reader gets exactly the merged replay, and none sleeps through an update**; where there is
something to read a poll reads some of it -/
theorem reads_merged_replay {target dist : Nat} {acts : List ReadersAction}
    {r : Readers} (h : Lts.Run Step (new target dist) acts r) :
    (∀ t ∈ r.tasks, t.received = r.session.merged.stream.take t.reader.position ∧
      t.reader.position ≤ r.session.merged.headerLen + r.session.merged.delayedDataLen) ∧
    (∀ t ∈ r.tasks, ∀ w size, 0 < size → ∃ reader merged res,
      t.reader.pollRead r.session.merged w size = .ok (reader, merged, res) ∧
      (res = .ready [] → r.session.merged.finished = true ∧ t.received = r.session.merged.stream) ∧
      (r.session.merged.finished = true → t.received = r.session.merged.stream → res = .ready []) ∧
      (t.reader.position < r.session.merged.headerLen + r.session.merged.delayedDataLen →
        ∃ bytes, bytes ≠ [] ∧ res = .ready bytes ∧
          reader.position = t.reader.position + bytes.length)) ∧
    (∀ w p, (w, p) ∈ r.pending →
      p < r.session.merged.headerLen + r.session.merged.delayedDataLen ∨
        r.session.merged.finished = true → w ∈ r.session.merged.readEvent.woken) ∧
    (r.session.merged.finished = true → ∀ sizes : Nat → Nat, (∀ k, 0 < sizes k) → ∀ start fuel,
      r.session.merged.stream.length - start < fuel →
      ReadAtCursor.readToEnd r.session.merged sizes fuel ⟨start⟩ =
        .ok (r.session.merged.stream.drop start)) := by
  obtain ⟨m, hm⟩ := follows_of_run h
  have hrel := hm.tracks.rel.merged_rel
  have hr := hm.tracks.sound.released
  have hlen : r.session.merged.headerLen + r.session.merged.delayedDataLen = m.core.canon.readable :=
    (Nat.add_comm _ _).trans hrel.readable
  have hfull : r.session.merged.finished = true →
      ChunkedBuf.len r.session.merged = r.session.merged.stream.length := by
    intro hf
    obtain ⟨t, rfl, -, -, hd⟩ := hm.tracks.rel.ended hm.tracks.sound.toInv (by
      rw [hm.tracks.rel.finished, ← hrel.finished]
      exact hf)
    refine le_antisymm (hrel.len_le_stream hr.delayed) ?_
    obtain ⟨x, hx, hs, -⟩ := hrel.stream_eq hr.delayed
    rw [hrel.len_eq hr.delayed, hs, List.length_append, hx]
    have hd' : t.core.canon.delayed = t.core.canon.data.length := hd
    show r.session.merged.headerLen + t.core.canon.data.length ≤
      t.core.canon.delayed + r.session.merged.headerLen
    omega
  rw [hlen]
  refine ⟨fun t ht => ?_, fun t ht w size hs => ?_, fun w p hp hor => ?_,
    fun hf sizes hs start fuel hfuel => ?_⟩
  · rw [hrel.stream]
    exact ⟨(hm.tasks t ht).received, (hm.tasks t ht).released⟩
  · obtain ⟨⟨reader, merged, res⟩, hok, hdone⟩ := hrel.pollRead hr.delayed t.reader w hs
    have hreceived := (hm.tasks t ht).received
    rw [← hrel.stream] at hreceived
    refine ⟨reader, merged, res, hok, ?_⟩
    rw [← hrel.readable]
    cases hdone with
    | ended hle hf =>
      refine ⟨fun _ => ⟨hf, ?_⟩, fun _ _ => rfl, fun hlt => absurd hlt (not_lt.mpr hle)⟩
      rw [hreceived, List.take_of_length_le]
      rw [← hfull hf]
      exact hle
    | pending hle hnot =>
      refine ⟨fun hres => (nomatch hres), fun hf => ?_, fun hlt => absurd hlt (not_lt.mpr hle)⟩
      rw [hf] at hnot
      cases hnot
    | bytes l hne hl hle =>
      refine ⟨fun hres => absurd (Poll.ready.inj hres) hne, fun _ hall => ?_, fun _ => ⟨l, hne, rfl, rfl⟩⟩
      -- there was something left
      have hlen := congrArg List.length (hall.symm.trans hreceived)
      rw [List.length_take] at hlen
      have hwhole := hrel.len_le_stream hr.delayed
      have hpos := List.length_pos_iff.mpr hne
      omega
  · rw [hrel.finished] at hor
    rw [hrel.event]
    exact (hm.pending _ hp).woken hor
  · exact hrel.readToEnd hr.delayed (hfull hf) hs hfuel

/-! ## an execution -/

def next (ords : Nat → IterOrder) (r : Readers) : ReadersAction → Option Readers
  | .call a =>
    if r.session.allowed a then
      (r.session.step ords a).toOption.map (fun s => { r with session := s })
    else none
  | .create => some { r with tasks := r.tasks ++ [⟨.new, []⟩] }
  | .poll i size =>
    match r.tasks[i]? with
    | some t =>
      if 0 < size then
        (t.reader.pollRead r.session.merged r.polls size).toOption.map
          (fun x => r.polled i t x.1 x.2.1 x.2.2)
      else none
    | none => none

theorem step_of_next {ords : Nat → IterOrder} {r r' : Readers} {a : ReadersAction}
    (h : r.next ords a = some r') : Step r a r' := by
  cases a with
  | call a =>
    simp only [next] at h
    split at h
    · rename_i ha
      obtain ⟨s, hs, rfl⟩ := Option.map_eq_some_iff.mp h
      exact .call ⟨ha, ords, eq_ok_of_toOption hs⟩
    · cases h
  | create =>
    cases h
    exact .create r
  | poll i size =>
    simp only [next] at h
    split at h
    · rename_i t ht
      split at h
      · rename_i hs
        obtain ⟨⟨reader, merged, res⟩, hp, rfl⟩ := Option.map_eq_some_iff.mp h
        exact .poll ht hs (eq_ok_of_toOption hp)
      · cases h
    · cases h

/-- a reader that has to wait, and gets the replay of `contestedRun` in two polls -/
def waitingRun : List ReadersAction :=
  [.create, .poll 0 4] ++ (Session.contestedRun ++ (Session.contestedRest ++ [Action.finish])).map .call ++
    [.poll 0 4, .poll 0 4, .poll 0 4]

theorem reads_merged_replay_waiting : ∃ r, Lts.Run Step (new 2 3) waitingRun r ∧
    r.session.merged.finished = true ∧ 0 ∈ r.session.merged.readEvent.woken ∧
    r.session.merged.stream = [7, 1, 2] ∧ (∃ t, r.tasks = [t] ∧ t.received = [7, 1, 2]) ∧
    ReadAtCursor.readToEnd r.session.merged (fun _ => 1) 9 ⟨1⟩ =
      .ok (r.session.merged.stream.drop 1) := by
  have hsome : ((waitingRun.foldlM (next (fun _ => default)) (new 2 3)).map (fun r =>
      (r.session.merged.finished, decide ((0, 0) ∈ r.pending), r.session.merged.stream,
        r.tasks.map fun t => t.reader.position))) = some (true, true, [7, 1, 2], [3]) := by
    decide +kernel
  obtain ⟨r, hr, hf⟩ := Option.map_eq_some_iff.mp hsome
  obtain ⟨h1, hf⟩ := Prod.mk.inj hf
  obtain ⟨h2, hf⟩ := Prod.mk.inj hf
  obtain ⟨h3, hf⟩ := Prod.mk.inj hf
  obtain ⟨t, ht, hpos⟩ := List.map_eq_singleton_iff.mp hf
  have hrun := Lts.Run.of_foldlM (fun _ _ _ => step_of_next) hr
  obtain ⟨h4, _, h5, h6⟩ := reads_merged_replay hrun
  have hreceived := (h4 t (by rw [ht]; exact List.mem_singleton_self t)).1
  rw [h3, hpos] at hreceived
  refine ⟨r, hrun, h1, h5 0 0 (of_decide_eq_true h2) (Or.inr h1), h3, ⟨t, ht, hreceived⟩,
    h6 h1 (fun _ => 1) (fun _ => Nat.one_pos) 1 9 ?_⟩
  rw [h3]
  decide

end Readers

end ReplayServer
