import ReplayServer.Replay.Released
import ReplayServer.Replay.WriterDelay
import ReplayServer.Replay.CallingProtocol
import ReplayServer.Replay.DelayedData

/-!
# replay: readers see nothing too early

A life of a replay in which every wake-up has its time.  The wake-ups of one writer are then a
schedule of its delay line, and only bytes that a writer released are shown.

* `Session.step_sent`         what an action adds to the bytes of a connection;
* `sent_of_run`               so after a life these are the bytes of the schedule of the writer;
* `released_is_old`           what a working writer released is old, or was there before its first cycle;
* `ReplayLife.no_spoilers`    so each byte that readers can see is old, or its writer stopped, or it
                              was there before the first cycle of its writer.
-/

set_option linter.unusedSectionVars false

namespace ReplayServer
open Fallible Merge DelayEvent

/-! ## what the connections sent -/

/-- the bytes that an action gets from the connection of `id` -/
def Action.bytesFor (id : Nat) : Action → List UInt8
  | .data i buf => if i = id then buf else []
  | _ => []

namespace Session

theorem sent_of_conns {s t : Session} {id : Nat}
    (h : t.conns[id]?.map (fun c => c.sent) = s.conns[id]?.map (fun c => c.sent)) :
    t.sent id = s.sent id := by
  have key : ∀ u : Session, u.sent id = (u.conns[id]?.map (fun c => c.sent)).getD [] := by
    intro u
    unfold sent
    cases u.conns[id]? <;> rfl
  rw [key, key, h]

/-- what changes a connection but not what it sent -/
theorem sent_modifyConn {s : Session} {σ : QuorumMergeStrategy} {b : Bool} {i : Nat} (f : Conn → Conn)
    (hf : ∀ c, (f c).sent = c.sent) (id : Nat) :
    (⟨σ, s.modifyConn i f, b⟩ : Session).sent id = s.sent id := by
  apply sent_of_conns
  show (s.conns.modify i f)[id]?.map _ = _
  rw [List.getElem?_modify]
  cases s.conns[id]? with
  | none => rfl
  | some c =>
    by_cases hi : i = id
    · simp [hi, hf]
    · simp [hi]

theorem sent_added {s : Session} {σ : QuorumMergeStrategy} {b : Bool} (id : Nat) :
    (⟨σ, s.conns ++ [⟨[], none, false⟩], b⟩ : Session).sent id = s.sent id := by
  unfold sent
  dsimp only
  rcases Nat.lt_trichotomy id s.conns.length with hid | rfl | hid
  · rw [List.getElem?_append_left hid]
  · rw [List.getElem?_concat_length, List.getElem?_eq_none le_rfl]
  · rw [List.getElem?_eq_none (by simp; omega), List.getElem?_eq_none hid.le]

theorem sent_data {s : Session} {σ : QuorumMergeStrategy} {b : Bool} {i : Nat} {buf : List UInt8}
    (hi : i < s.conns.length) (id : Nat) :
    (⟨σ, s.modifyConn i (fun c => { c with sent := c.sent ++ buf }), b⟩ : Session).sent id
      = s.sent id ++ if i = id then buf else [] := by
  by_cases h : i = id
  · subst h
    unfold sent modifyConn
    dsimp only
    rw [if_pos rfl, List.getElem?_modify_eq, List.getElem?_eq_getElem hi]
    rfl
  · rw [if_neg h, List.append_nil]
    apply sent_of_conns
    show (s.conns.modify i _)[id]?.map _ = _
    rw [List.getElem?_modify_ne _ _ h]

/-- **what an action adds to the bytes of a connection** -/
theorem step_sent {ords : Nat → IterOrder} {s t : Session} {a : Action} (h : s.step ords a = .ok t)
    (hdata : ∀ i buf, a = .data i buf → i < s.conns.length) (id : Nat) :
    t.sent id = s.sent id ++ a.bytesFor id := by
  have same : t.sent id = s.sent id → a.bytesFor id = [] → t.sent id = s.sent id ++ a.bytesFor id := by
    intro ht ha
    rw [ht, ha, List.append_nil]
  cases a with
  | added =>
    obtain ⟨⟨σ, token⟩, -, h⟩ := bind_eq_ok.mp h
    cases h
    exact same (sent_added id) rfl
  | header i x =>
    obtain ⟨σ, -, h⟩ := bind_eq_ok.mp h
    obtain ⟨τ, -, h⟩ := bind_eq_ok.mp h
    cases h
    exact same (sent_modifyConn (fun c => { c with header := some x }) (fun _ => rfl) id) rfl
  | data i buf =>
    obtain ⟨σ, -, h⟩ := bind_eq_ok.mp h
    cases h
    exact sent_data (hdata i buf rfl) id
  | delayed i n =>
    obtain ⟨σ, -, h⟩ := bind_eq_ok.mp h
    obtain ⟨τ, -, h⟩ := bind_eq_ok.mp h
    cases h
    exact same rfl rfl
  | updated i =>
    obtain ⟨σ, -, h⟩ := bind_eq_ok.mp h
    cases h
    exact same rfl rfl
  | ended i =>
    obtain ⟨σ, -, h⟩ := bind_eq_ok.mp h
    obtain ⟨τ, -, h⟩ := bind_eq_ok.mp h
    cases h
    exact same (sent_modifyConn (fun c => { c with ended := true }) (fun _ => rfl) id) rfl
  | finish =>
    obtain ⟨σ, -, h⟩ := bind_eq_ok.mp h
    cases h
    exact same rfl rfl

end Session

/-- a writer that released something works on its data or stopped -/
theorem WriterAt.released {id : Nat} {task : Option WriterTask} {r : Shown} {calls : List Action}
    (h : WriterAt id task r calls) (hpos : 0 < r.delayed) :
    task = some .done ∨ ∃ t, task = some (.data t) ∧ t.prevDelayed = r.delayed := by
  cases h with
  | absent => exact absurd hpos (Nat.lt_irrefl 0)
  | header => exact absurd hpos (Nat.lt_irrefl 0)
  | data hu hlen hh hf hd hq => exact Or.inr ⟨_, rfl, hd⟩
  | done hc hf => exact Or.inl rfl

/-! ## the schedules of the writers -/

/-- the schedule of the writer `id`, each event at the time of its wake-up -/
def timedEvents (id : Nat) (sched : List (Nat × LifeEvent)) : List (Nat × DelayEvent) :=
  sched.flatMap (fun e => (e.2.delayEvents id).map (fun x => (e.1, x.2)))

theorem timedEvents_untimed (id : Nat) (sched : List (Nat × LifeEvent)) :
    (timedEvents id sched).map Prod.snd = (delayEvents id (sched.map Prod.snd)).map Prod.snd := by
  induction sched with
  | nil => rfl
  | cons e sched ih =>
    show ((e.2.delayEvents id).map _ ++ timedEvents id sched).map Prod.snd
      = (e.2.delayEvents id ++ delayEvents id (sched.map Prod.snd)).map Prod.snd
    rw [List.map_append, List.map_append, ih, List.map_map]
    rfl

theorem appended_eq (sched : List (Nat × DelayEvent)) :
    appended sched = (sched.map Prod.snd).flatMap DelayEvent.bytes := by
  rw [List.flatMap_map]
  rfl

theorem delayEvents_eq {id : Nat} {e : LifeEvent} {x : Nat × DelayEvent} (h : x ∈ e.delayEvents id) :
    e.delayEvents id = [x] ∧ (x.2 = .tick → e = .cycle id) := by
  cases e with
  | data i buf =>
    simp only [LifeEvent.delayEvents] at h ⊢
    split at h
    · rename_i hi
      rw [if_pos hi, List.mem_singleton.mp h]
      refine ⟨rfl, fun hx => ?_⟩
      cases hx
    · cases h
  | cycle i =>
    simp only [LifeEvent.delayEvents] at h ⊢
    split at h
    · rename_i hi
      rw [if_pos hi, List.mem_singleton.mp h, hi]
      exact ⟨rfl, fun _ => rfl⟩
    · cases h
  | _ => cases h

theorem mem_timedEvents {id : Nat} {sched : List (Nat × LifeEvent)} {x : Nat × DelayEvent}
    (h : x ∈ timedEvents id sched) : ∃ e ∈ sched, e.1 = x.1 ∧ (x.2 = .tick → e.2 = .cycle id) := by
  obtain ⟨e, he, hx⟩ := List.mem_flatMap.mp h
  obtain ⟨y, hy, rfl⟩ := List.mem_map.mp hx
  exact ⟨e, he, rfl, (delayEvents_eq hy).2⟩

theorem timedEvents_ordered {id : Nat} {sched : List (Nat × LifeEvent)}
    (h : sched.Pairwise (fun e e' => e.1 ≤ e'.1)) :
    (timedEvents id sched).Pairwise (fun e e' => e.1 ≤ e'.1) := by
  induction sched with
  | nil => exact .nil
  | cons e sched ih =>
    obtain ⟨he, hs⟩ := List.pairwise_cons.mp h
    refine List.pairwise_append.mpr ⟨?_, ih hs, fun x hx y hy => ?_⟩
    · rw [List.pairwise_map]
      exact List.pairwise_of_forall (fun _ _ => le_rfl)
    · obtain ⟨_, -, rfl⟩ := List.mem_map.mp hx
      obtain ⟨e', he', hy, -⟩ := mem_timedEvents hy
      exact hy ▸ he e' he'

/-! ## times do not matter for what happens -/

namespace StreamDelay

theorem next_untimed {s s' u : DelayRun} (hs : s.loop = s'.loop ∧ s.replay = s'.replay)
    {now : Nat} (now' : Nat) {ev : DelayEvent} (h : next s (now, ev) = .ok u) :
    ∃ u', next s' (now', ev) = .ok u' ∧ u.loop = u'.loop ∧ u.replay = u'.replay := by
  obtain ⟨loop, replay, ticks⟩ := s
  obtain ⟨loop', replay', ticks'⟩ := s'
  obtain ⟨rfl, rfl⟩ := hs
  cases ev with
  | append buf =>
    obtain ⟨w, hw, h⟩ := bind_eq_ok.mp h
    cases h
    refine ⟨⟨loop, w, ticks'⟩, ?_, rfl, rfl⟩
    unfold next
    dsimp only at hw ⊢
    rw [hw]
    rfl
  | tick =>
    obtain ⟨⟨q, d⟩, hq, h⟩ := bind_eq_ok.mp h
    obtain ⟨w, hw, h⟩ := bind_eq_ok.mp h
    cases h
    refine ⟨⟨⟨q, replay.dataLen, d⟩, w, ticks' ++ [⟨now', replay.dataLen, d,
      (replay.dataLen, d) ≠ (loop.prevCurrent, loop.prevDelayed)⟩]⟩, ?_, rfl, rfl⟩
    unfold next
    dsimp only at hq hw ⊢
    rw [hq, ok_bind, hw]
    rfl

theorem run_untimed {sched sched' : List (Nat × DelayEvent)}
    (h : sched.map Prod.snd = sched'.map Prod.snd) {s s' u : DelayRun}
    (hs : s.loop = s'.loop ∧ s.replay = s'.replay) (hrun : sched.foldlM next s = .ok u) :
    ∃ u', sched'.foldlM next s' = .ok u' ∧ u.loop = u'.loop ∧ u.replay = u'.replay := by
  induction sched generalizing s s' sched' with
  | nil =>
    rw [List.map_eq_nil_iff.mp h.symm]
    cases hrun
    exact ⟨s', rfl, hs⟩
  | cons e sched ih =>
    cases sched' with
    | nil => cases h
    | cons e' sched' =>
      obtain ⟨now, ev⟩ := e
      obtain ⟨now', ev'⟩ := e'
      obtain ⟨hev, htail⟩ := List.cons.inj h
      cases hev
      rw [List.foldlM_cons] at hrun
      obtain ⟨t, ht, hrun⟩ := bind_eq_ok.mp hrun
      obtain ⟨t', ht', hs'⟩ := next_untimed hs now' ht
      rw [List.foldlM_cons, ht', ok_bind]
      exact ih htail hs' hrun

/-- the wake-ups are in order, and two cycles of one writer at least `sleep_s` apart -/
structure LifeSchedule (d : StreamDelay) (sched : List (Nat × LifeEvent)) : Prop where
  ordered : sched.Pairwise (fun e e' => e.1 ≤ e'.1)
  apart : ∀ id, (tickTimes (timedEvents id sched)).IsChain (fun t t' => t + d.sleepS ≤ t')

/-- the byte `p` of the writer `id` was received at least `delay_s` before some cycle of it -/
def Old (d : StreamDelay) (sched : List (Nat × LifeEvent)) (id p : Nat) : Prop :=
  ∃ t k, (arrivals (timedEvents id sched))[p]? = some t ∧ (k, .cycle id) ∈ sched ∧ t + d.delayS ≤ k

/-- the byte `p` of the writer `id` was there before its first cycle -/
def Early (sched : List (Nat × LifeEvent)) (id p : Nat) : Prop :=
  p < (appended (beforeFirstTick (timedEvents id sched))).length

end StreamDelay

namespace ReplayLife

section
variable {l l' : ReplayLife}

theorem call_sent {ords : Nat → IterOrder} {i : Nat} {a : Action} (h : l.call ords i a = .ok l')
    (hdata : ∀ i buf, a = .data i buf → i < l.session.conns.length) (id : Nat) :
    l'.session.sent id = l.session.sent id ++ a.bytesFor id := by
  obtain ⟨s, hs, h⟩ := bind_eq_ok.mp h
  cases h
  exact Session.step_sent hs hdata id

theorem waited_sent {ords : Nat → IterOrder} (h : l.waited ords = .ok l') (id : Nat) :
    l'.session.sent id = l.session.sent id := by
  unfold waited at h
  split at h
  · cases h
    rfl
  · obtain ⟨s, hs, h⟩ := bind_eq_ok.mp h
    cases h
    exact (Session.step_sent hs (fun _ _ he => nomatch he) id).trans (List.append_nil _)
  · cases h
    rfl
  · cases h
    rfl

theorem Step.sent {e : LifeEvent} (h : Step l e l') (hlen : l.session.conns.length = l.writers.length)
    (id : Nat) : l'.session.sent id = l.session.sent id ++ appended (e.delayEvents id) := by
  obtain ⟨ords, h⟩ := h
  generalize hx : Except.ok l' = x at h
  have same : l'.session.sent id = l.session.sent id → appended (e.delayEvents id) = [] →
      l'.session.sent id = l.session.sent id ++ appended (e.delayEvents id) := by
    intro hl he
    rw [hl, he, List.append_nil]
  cases wakes_of_next h with
  | connection type =>
    refine same ?_ rfl
    unfold handleConnection at hx
    split at hx
    · cases hx
      rfl
    · cases type with
      | reader =>
        cases hx
        rfl
      | writer => exact (call_sent hx.symm (fun _ _ he => nomatch he) id).trans (List.append_nil _)
  | header ht y =>
    refine same ?_ rfl
    obtain ⟨l1, h1, h⟩ := bind_eq_ok.mp hx.symm
    cases h
    exact (call_sent h1 (fun _ _ he => nomatch he) id).trans (List.append_nil _)
  | @data i t ht buf hbuf =>
    have hi : i < l.session.conns.length := hlen ▸ lt_of_writer ht
    rw [call_sent hx.symm (fun _ _ he => by cases he; exact hi) id]
    congr 1
    show (if i = id then buf else []) = appended (if i = id then [(0, .append buf)] else [])
    split
    · exact (List.append_nil buf).symm
    · rfl
  | @cycle i t ht =>
    refine same ?_ ?_
    · obtain ⟨w, -, h⟩ := bind_eq_ok.mp hx.symm
      obtain ⟨⟨q, n⟩, -, h⟩ := bind_eq_ok.mp h
      dsimp only at h
      split at h
      · obtain ⟨l1, h1, h⟩ := bind_eq_ok.mp h
        cases h
        exact (call_sent h1 (fun _ _ he => nomatch he) id).trans (List.append_nil _)
      · obtain ⟨σ, -, h⟩ := bind_eq_ok.mp h
        cases h
        rfl
    · show appended (if i = id then [(0, .tick)] else []) = []
      split
      · rfl
      · rfl
  | writerStops ht ha hs =>
    refine same ?_ rfl
    obtain ⟨w, -, h⟩ := bind_eq_ok.mp hx.symm
    obtain ⟨l1, h1, h⟩ := bind_eq_ok.mp h
    obtain ⟨l2, h2, h⟩ := bind_eq_ok.mp h
    obtain ⟨count, -, h⟩ := bind_eq_ok.mp h
    cases h
    have e1 := (call_sent h1 (fun _ _ he => nomatch he) id).trans (List.append_nil _)
    have e2 := (call_sent h2 (fun _ _ he => nomatch he) id).trans (List.append_nil _)
    exact e2.trans e1
  | readerStops hr hs =>
    obtain ⟨count, -, h⟩ := bind_eq_ok.mp hx.symm
    cases h
    exact same rfl rfl
  | timerOver hw ht => exact same (waited_sent hx.symm id) rfl
  | waitCancelled hl hc => exact same (waited_sent hx.symm id) rfl
  | lifetime | newCount | timer | saved | timeout | timeoutCancelled | shutdown =>
    cases hx
    exact same rfl rfl

end

section
variable {target dist : Nat} {l : ReplayLife}

/-- **what the connection of a writer sent is what its schedule says** -/
theorem sent_of_run {cycles : Nat} {evs : List LifeEvent}
    (h : Lts.Run Step (new target dist cycles) evs l) (id : Nat) :
    l.session.sent id = appended (delayEvents id evs) := by
  induction h with
  | nil => rfl
  | @snoc t u evs e hr hs ih =>
    obtain ⟨m, hm⟩ := sound_of_run hr
    rw [hs.sent hm.length_conns id, ih, delayEvents_concat]
    exact List.flatMap_append.symm

variable {d : StreamDelay} {cycles : Nat} {sched : List (Nat × LifeEvent)}

/-- **what a working writer released is old, or was there before its first cycle** -/
theorem released_is_old (hdelay : d.delayS ≤ cycles * d.sleepS)
    (h : Lts.Run Step (new target dist cycles) (sched.map Prod.snd) l) (hs : d.LifeSchedule sched)
    {id : Nat} {t : TimestampLoop} (ht : l.writers[id]? = some (.data t)) {p : Nat}
    (hp : p < t.prevDelayed) : d.Old sched id p ∨ StreamDelay.Early sched id p := by
  have hf := writer_follows h id
  rw [ht] at hf
  obtain ⟨s, x, hrun, hloop, -⟩ := hf.of_data
  obtain ⟨u, hrun', hloop', -⟩ :=
    StreamDelay.run_untimed (timedEvents_untimed id sched).symm ⟨rfl, rfl⟩ hrun
  have hist := (run_history (cycles + 1) (timedEvents id sched)).spec _ hrun'
  have hk := StreamDelay.Kept.of_history hist (timedEvents_ordered hs.ordered)
  have hprev : t.prevDelayed = (prevPair u.ticks).2 := by
    rw [← hist.prev, ← hloop', hloop]
  rw [hprev] at hp
  unfold prevPair at hp
  cases hlast : u.ticks.getLast? with
  | none =>
    rw [hlast] at hp
    exact absurd hp (Nat.not_lt_zero _)
  | some k =>
    rw [hlast] at hp
    change p < k.delayed at hp
    rw [List.getLast?_eq_getElem?] at hlast
    have hlen := (List.getElem?_eq_some_iff.mp hlast).1
    by_cases hfull : cycles ≤ u.ticks.length - 1
    · obtain ⟨a, ha, hle⟩ := hk.coversOld (hk.delayed_of_full hdelay (hs.apart id) hlast hfull) p hp
      have hmem : k.time ∈ tickTimes (timedEvents id sched) := by
        rw [← hk.times]
        exact List.mem_map_of_mem (List.mem_of_getElem? hlast)
      obtain ⟨⟨now, ev⟩, hx, hev⟩ := List.mem_filterMap.mp hmem
      split at hev
      · rename_i htick
        cases hev
        obtain ⟨⟨now', e⟩, he, h1, h2⟩ := mem_timedEvents hx
        have he' := h2 htick
        cases he'
        cases h1
        exact Or.inl ⟨a, _, ha, he, hle⟩
      · cases hev
    · have hfirst := List.getElem?_eq_getElem (show 0 < u.ticks.length by omega)
      rw [hk.delayed_of_warmup hfirst hlast (by omega)] at hp
      have hfl := hk.first _ (List.head?_eq_getElem?.trans hfirst)
      rw [hfl] at hp
      exact Or.inr hp

/-- **readers see nothing too early**, with any number of cycles that last for the delay: each byte that
they can see is one of a writer that stopped, or was received at least `delay_s` ago, or was there
before the first cycle of its writer -/
theorem no_spoilers (hdelay : d.delayS ≤ cycles * d.sleepS)
    (h : Lts.Run Step (new target dist cycles) (sched.map Prod.snd) l) (hs : d.LifeSchedule sched)
    {p : Nat} (hp : p < l.session.merged.delayedDataLen) :
    ∃ id, p < (appended (timedEvents id sched)).length ∧
      (appended (timedEvents id sched))[p]? = l.session.canon[p]? ∧
      (l.writers[id]? = some .done ∨ d.Old sched id p ∨ StreamDelay.Early sched id p) := by
  obtain ⟨m, hm⟩ := sound_of_run h
  obtain ⟨m', ht, id, hrel, hget⟩ := hm.conforming.released hp
  have hsent : l.session.sent id = appended (timedEvents id sched) := by
    rw [sent_of_run h id, appended_eq, appended_eq, timedEvents_untimed]
  have hlen : p < (appended (timedEvents id sched)).length := by
    rw [← hsent, ht.rel.sent_eq]
    exact lt_of_lt_of_le hrel (ht.sound.delayed id)
  refine ⟨id, hlen, ?_, ?_⟩
  · rw [← hsent, ht.rel.sent_eq, ht.rel.canon_eq]
    exact hget
  · -- both abstract states know the delayed position of the writer
    have hdel : (m.core.get id).delayed = (m'.core.get id).delayed := by
      have hid := lt_of_released hrel
      obtain ⟨w, hw, h1, -⟩ := ht.rel.writer_some hid
      have hid' : id < m.core.replays.length :=
        hm.tracks.rel.length.symm.trans ht.rel.length ▸ hid
      obtain ⟨w', hw', h2, -⟩ := hm.tracks.rel.writer_some hid'
      rw [hw] at hw'
      cases hw'
      exact h2.symm.trans h1
    rw [← hdel] at hrel
    rcases (hm.writers id).released (Nat.zero_lt_of_lt hrel) with hdone | ⟨t, ht, hprev⟩
    · exact Or.inl hdone
    · change t.prevDelayed = (m.core.get id).delayed at hprev
      rw [← hprev] at hrel
      exact Or.inr (released_is_old hdelay h hs ht hrel)

/-- a byte that is received after the first cycle, and the cycles until it is shown -/
def delayedRun : List (Nat × LifeEvent) :=
  [(0, .lifetime), (0, .connection .writer), (0, .header 0 ⟨[7]⟩), (0, .cycle 0), (1, .data 0 [5]),
    (1, .cycle 0), (2, .cycle 0), (3, .cycle 0)]

theorem no_spoilers_delayed : ∃ l, Lts.Run Step (new 1 3 2) (delayedRun.map Prod.snd) l ∧
    0 < l.session.merged.delayedDataLen ∧
    ∃ id, 0 < (appended (timedEvents id delayedRun)).length ∧
      (appended (timedEvents id delayedRun))[0]? = l.session.canon[0]? ∧
      (l.writers[id]? = some .done ∨ (StreamDelay.mk 2 1).Old delayedRun id 0 ∨
        StreamDelay.Early delayedRun id 0) := by
  have hsome : ((delayedRun.map Prod.snd).foldlM wake (new 1 3 2)).map
      (fun l => decide (0 < l.session.merged.delayedDataLen)) = some true := by
    decide +kernel
  obtain ⟨l, hl, hf⟩ := Option.map_eq_some_iff.mp hsome
  have hpos := of_decide_eq_true hf
  have hrun : Lts.Run Step (new 1 3 2) (delayedRun.map Prod.snd) l :=
    Lts.Run.of_foldlM (fun _ _ _ => step_of_wake) hl
  have hs : (StreamDelay.mk 2 1).LifeSchedule delayedRun := by
    refine ⟨by decide, fun id => ?_⟩
    by_cases hid : 0 = id
    · subst hid
      decide
    · simp [delayedRun, timedEvents, LifeEvent.delayEvents, hid, tickTimes]
  exact ⟨l, hrun, hpos, no_spoilers (by decide) hrun hs hpos⟩

end

end ReplayLife

end ReplayServer
