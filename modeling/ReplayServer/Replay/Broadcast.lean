import ReplayServer.Replay.Send
import ReplayServer.Replay.Save.Available

/-!
# replay: one stream for all readers and for the file

* `SendTask.Sends`                what a copy wrote and what it still holds is a piece of the stream;
* `Broadcast.one_stream`          every reader gets the same stream from its start on, and the whole
                                  of it if its copy is not cut off;
* `Broadcast.file_is_the_stream`  which is also what a saved file holds;
* `Broadcast.drains`              after the merge every copy ends, in a bounded number of its steps.
-/

set_option linter.unusedSectionVars false

namespace ReplayServer
open Fallible Merge

/-! ## what is sent -/

theorem Merge.Canon.readable_whole {c : Canon} (hd : c.delayed = c.data.length) :
    c.readable = c.stream.length := by
  unfold Canon.readable Canon.stream
  rw [List.length_append, hd]
  cases c.header with
  | none => rw [List.length_nil, Nat.add_zero, Nat.zero_add]
  | some x => exact Nat.add_comm _ _

/-- a finished replay is shown in full -/
theorem Merge.State.Sound.whole {m : State} (h : m.Sound) (hf : m.core.canon.finished = true) :
    m.core.canon.readable = m.core.canon.stream.length := by
  obtain ⟨t, rfl, -, -, hd⟩ := State.finish_clean h.toInv (h.closed hf)
  exact Canon.readable_whole hd

/-- how far a copy is -/
structure SendTask.Sends (t : SendTask) (c : Canon) : Prop where
  received : t.written ++ t.buffer = c.stream.take t.reader.position
  released : t.reader.position ≤ c.readable
  readDone : t.readDone = true → c.finished = true ∧ c.stream.length ≤ t.reader.position
  copied : t.sending = .copied → t.readDone = true ∧ t.buffer = []

namespace SendTask.Sends
variable {t : SendTask} {c : Canon} (h : t.Sends c)
include h

theorem written (hr : c.Released) : t.written.length + t.buffer.length = t.reader.position := by
  rw [← List.length_append, h.received, List.length_take]
  exact Nat.min_eq_left (h.released.trans hr.readable_le)

theorem prefix_stream : t.written <+: c.stream :=
  (List.prefix_append _ _).trans (h.received ▸ List.take_prefix _ _)

theorem whole (hc : t.sending = .copied) :
    c.finished = true ∧ t.written = c.stream := by
  obtain ⟨hd, hb⟩ := h.copied hc
  obtain ⟨hf, hle⟩ := h.readDone hd
  have hrec := h.received
  rw [hb, List.append_nil, List.take_of_length_le hle] at hrec
  exact ⟨hf, hrec⟩

theorem grow {c' : Canon} (hr : c.Released) (hs : c.stream <+: c'.stream)
    (hle : c.readable ≤ c'.readable)
    (hf : c.finished = true → c'.finished = true ∧ c'.stream = c.stream) : t.Sends c' := by
  refine ⟨?_, h.released.trans hle, fun hd => ?_, h.copied⟩
  · obtain ⟨l, hl⟩ := hs
    rw [h.received, ← hl, List.take_append_of_le_length (h.released.trans hr.readable_le)]
  · obtain ⟨hfin, hlen⟩ := h.readDone hd
    obtain ⟨hfin', hst⟩ := hf hfin
    exact ⟨hfin', hst ▸ hlen⟩

theorem stop {sending : Sending} (hs : sending = .copied → t.readDone = true ∧ t.buffer = []) :
    (t.stop sending).Sends c :=
  ⟨h.received, h.released, h.readDone, hs⟩

theorem write (hc : t.copying = true) (n : Nat) : (t.write n).Sends c := by
  refine ⟨?_, h.released, h.readDone, fun hs => ?_⟩
  · show (t.written ++ t.buffer.take n) ++ t.buffer.drop n = _
    rw [List.append_assoc, List.take_append_drop, h.received]
    rfl
  · change t.sending = .copied at hs
    rw [copying, hs] at hc
    cases hc

end SendTask.Sends

namespace SendTask
variable {t : SendTask} {m : MergedReplay} {c : Canon}

/-- a read for the copy -/
theorem Sends.filled (h : t.Sends c) (hrel : m.Rel c) (hr : c.Released) (hc : t.copying = true)
    {w size : Nat} (hs : 0 < size) {reader : MReplayReader} {merged : MergedReplay} {l : List UInt8}
    (hp : t.reader.pollRead m w size = .ok (reader, merged, .ready l))
    (hwhole : c.finished = true → c.readable = c.stream.length) : (t.filled reader l).Sends c := by
  have hnot : (t.filled reader l).sending ≠ .copied := by
    show t.sending ≠ .copied
    rw [of_decide_eq_true hc]
    exact Sending.noConfusion
  cases (hrel.pollRead hr.delayed t.reader w hs).of_eq hp with
  | ended hle hf =>
    rw [hrel.finished] at hf
    rw [hrel.readable, hwhole hf] at hle
    refine ⟨?_, h.released, fun _ => ⟨hf, hle⟩, fun hs => absurd hs hnot⟩
    show t.written ++ (t.buffer ++ []) = _
    rw [List.append_nil, h.received]
    rfl
  | bytes l hne hl hle =>
    rw [hrel.readable] at hle
    rw [hrel.stream] at hl
    refine ⟨?_, hle, fun hd => absurd (List.isEmpty_iff.mp hd) hne, fun hs => absurd hs hnot⟩
    show t.written ++ (t.buffer ++ l) = c.stream.take (t.reader.position + l.length)
    rw [← List.append_assoc, h.received, List.take_add, ← List.prefix_iff_eq_take.mp hl]

end SendTask

namespace Broadcast

structure Follows (target dist : Nat) (b : Broadcast) (m : State) : Prop where
  sound : b.life.Sound target dist m
  readers : b.life.readers = b.tasks.map SendTask.copying
  tasks : ∀ t ∈ b.tasks, t.Sends m.core.canon

namespace Follows
variable {target dist : Nat} {b b' : Broadcast} {m : State} (h : b.Follows target dist m)
include h

theorem rel : b.life.session.merged.Rel m.core.canon := h.sound.tracks.rel.merged_rel

theorem released : m.core.canon.Released := h.sound.tracks.sound.released

theorem whole (hf : m.core.canon.finished = true) :
    m.core.canon.readable = m.core.canon.stream.length := h.sound.tracks.sound.whole hf

/-- the copies go on where the life does -/
theorem life {e : LifeEvent} {l : ReplayLife} (hs : ReplayLife.Step b.life e l) :
    ∃ m', l.Sound target dist m' ∧ ∀ t : SendTask, t.Sends m.core.canon → t.Sends m'.core.canon := by
  obtain ⟨ords, hx⟩ := id hs
  obtain ⟨m', hm', hev⟩ := (h.sound.next ords hx).spec _ rfl
  obtain ⟨h1, h2⟩ := h.released.grow hev.header hev.grow hev.canonDelayed
  refine ⟨m', hm', fun t ht => ht.grow h.released h1 h2 (fun hf => ⟨hev.canonFinished hf, ?_⟩)⟩
  rw [h.sound.finished] at hf
  rw [← hm'.tracks.rel.merged_rel.stream, (hs.merged h.sound hf).1, h.rel.stream]

theorem set {i : Nat} {t u : SendTask} (ht : b.tasks[i]? = some t) (hc : u.copying = t.copying)
    (hu : u.Sends m.core.canon) : Follows target dist { b with tasks := b.tasks.set i u } m := by
  refine ⟨h.sound, ?_, fun t' ht' => ?_⟩
  · show b.life.readers = (b.tasks.set i u).map _
    rw [List.map_set, h.readers, hc, set_of_getElem? (List.getElem?_map.trans (congrArg _ ht))]
  · rcases List.mem_or_eq_of_mem_set ht' with ht' | rfl
    · exact h.tasks t' ht'
    · exact hu

theorem tasksAfter_readers {e : LifeEvent} :
    (b.tasksAfter e).map SendTask.copying = b.life.readersAfter e := by
  unfold tasksAfter ReplayLife.readersAfter
  split
  · split
    · exact h.readers.symm
    · rw [List.map_append, h.readers]
      rfl
  · rename_i i why
    split
    · rw [List.map_set, h.readers]
      rfl
    · rename_i hnone
      rw [h.readers, List.set_eq_of_length_le]
      rw [List.length_map]
      exact List.getElem?_eq_none_iff.mp hnone
  · exact h.readers.symm

theorem tasksAfter_sends {e : LifeEvent} : ∀ t ∈ b.tasksAfter e, t.Sends m.core.canon := by
  unfold tasksAfter
  split
  · split
    · exact h.tasks
    · intro t ht
      rcases List.mem_append.mp ht with ht | ht
      · exact h.tasks t ht
      · rw [List.mem_singleton.mp ht]
        exact ⟨rfl, Nat.zero_le _, Bool.noConfusion, Sending.noConfusion⟩
  · split
    · rename_i u hu
      intro t ht
      rcases List.mem_or_eq_of_mem_set ht with ht | rfl
      · exact h.tasks t ht
      · exact (h.tasks u (List.mem_of_getElem? hu)).stop (fun hs => nomatch hs)
    · exact h.tasks
  · exact h.tasks

/-- **a step of the broadcast** -/
theorem step {e : BroadcastEvent} (hs : Step b e b') : ∃ m', b'.Follows target dist m' := by
  cases hs with
  | life hs =>
    obtain ⟨m', hm', hgrow⟩ := h.life hs
    refine ⟨m', hm', ?_, fun t ht => hgrow t (h.tasksAfter_sends t ht)⟩
    exact hs.readers.trans h.tasksAfter_readers.symm
  | fill ht hc hd hs hp =>
    have hsends := (h.tasks _ (List.mem_of_getElem? ht)).filled h.rel h.released hc hs hp h.whole
    exact ⟨m, h.set ht rfl hsends⟩
  | write ht hc hn hle =>
    exact ⟨m, h.set ht rfl ((h.tasks _ (List.mem_of_getElem? ht)).write hc _)⟩
  | @copied i t l ht hc hd hb hs =>
    obtain ⟨m', hm', hgrow⟩ := h.life hs
    refine ⟨m', hm', ?_, fun u hu => hgrow u ?_⟩
    · show l.readers = (b.tasks.set i (t.stop .copied)).map SendTask.copying
      rw [hs.readers, List.map_set]
      show b.life.readers.set i false = _
      rw [h.readers]
      rfl
    · rcases List.mem_or_eq_of_mem_set hu with hu | rfl
      · exact h.tasks u hu
      · exact (h.tasks t (List.mem_of_getElem? ht)).stop (fun _ => ⟨hd, hb⟩)

/-- **after the merge only the copies go on** -/
theorem merged_step {e : BroadcastEvent} (hs : Step b e b') (hl : b.life.lifetime.merged = true) :
    b'.life.session = b.life.session ∧ b'.life.lifetime.merged = true := by
  cases hs with
  | life hs => exact hs.merged h.sound hl
  | fill ht hc hd hs hp => exact ⟨rfl, hl⟩
  | write ht hc hn hle => exact ⟨rfl, hl⟩
  | copied ht hc hd hb hs => exact hs.merged h.sound hl

end Follows

section
variable {target dist cycles : Nat} {b b' : Broadcast} {evs evs' : List BroadcastEvent}

theorem follows_of_run (h : Lts.Run Step (new target dist cycles) evs b) :
    ∃ m, b.Follows target dist m := by
  refine h.invariant (I := fun b => ∃ m, b.Follows target dist m) ?_
    ⟨_, ReplayLife.new_sound target dist (cycles + 1), rfl, fun _ ht => absurd ht List.not_mem_nil⟩
  rintro b e b' ⟨m, hm⟩ hs
  exact hm.step hs

/-- what is merged stays as it is -/
theorem merged_of_run (h : Lts.Run Step (new target dist cycles) evs b)
    (hl : b.life.lifetime.merged = true) (h' : Lts.Run Step b evs' b') :
    b'.life.session = b.life.session ∧ b'.life.lifetime.merged = true := by
  induction h' with
  | nil => exact ⟨rfl, hl⟩
  | snoc hr hs ih =>
    obtain ⟨m, hm⟩ := follows_of_run (h.append hr)
    obtain ⟨h1, h2⟩ := ih
    obtain ⟨h3, h4⟩ := hm.merged_step hs h2
    exact ⟨h3.trans h1, h4⟩

end

/-! ## one stream for all -/

section
variable {target dist cycles : Nat} {b b' : Broadcast} {evs evs' : List BroadcastEvent}

/-- what was written stays written -/
theorem TaskStep.written {e : BroadcastEvent} {i : Nat} {t t' : SendTask} (h : TaskStep b i e t t') :
    t.written <+: t'.written := by
  cases h with
  | write => exact List.prefix_append _ _
  | other | cut | fill | copied => exact List.prefix_refl _

theorem written_of_run (h : Lts.Run Step b evs b') {i : Nat} {t : SendTask}
    (ht : b.tasks[i]? = some t) : ∃ t', b'.tasks[i]? = some t' ∧ t.written <+: t'.written := by
  induction h with
  | nil => exact ⟨t, ht, List.prefix_refl _⟩
  | snoc hr hs ih =>
    obtain ⟨t1, ht1, h1⟩ := ih
    obtain ⟨t2, ht2, h2⟩ := task_step hs ht1
    exact ⟨t2, ht2, h1.trans h2.written⟩

/-- a copy is only cut off by a wake-up of its `handle_connection` -/
theorem cut_of_run (h : Lts.Run Step (new target dist cycles) evs b) {i : Nat} {t : SendTask}
    (ht : b.tasks[i]? = some t) (hc : t.sending = .cut) :
    ∃ why, .life (.readerStops i why) ∈ evs := by
  induction h generalizing t with
  | nil => cases ht
  | @snoc b1 b2 evs e hr hs ih =>
    have hmem : (∃ why, .life (.readerStops i why) ∈ evs) →
        ∃ why, .life (.readerStops i why) ∈ evs ++ [e] :=
      fun ⟨why, h⟩ => ⟨why, List.mem_append_left _ h⟩
    cases hb : b1.tasks[i]? with
    | none =>
      rw [task_new hs hb ht] at hc
      cases hc
    | some u =>
      obtain ⟨t', ht', hstep⟩ := task_step hs hb
      rw [ht] at ht'
      cases ht'
      cases hstep with
      | other => exact hmem (ih hb hc)
      | cut why => exact ⟨why, List.mem_append_right _ List.mem_cons_self⟩
      | fill => exact hmem (ih hb hc)
      | write => exact hmem (ih hb hc)
      | copied => cases hc

/-- **every reader gets the same stream from its start on**, and the whole of it if its work is not
cut off -/
theorem one_stream (h : Lts.Run Step (new target dist cycles) evs b) (h' : Lts.Run Step b evs' b') :
    (∀ t ∈ b.tasks, t.written <+: b.life.session.merged.stream ∧ t.written.length ≤
      b.life.session.merged.headerLen + b.life.session.merged.delayedDataLen) ∧
    (∀ t ∈ b.tasks, ∀ t' ∈ b'.tasks, t.written <+: t'.written ∨ t'.written <+: t.written) ∧
    (∀ (i : Nat) t, b.tasks[i]? = some t → ∃ t', b'.tasks[i]? = some t' ∧ t.written <+: t'.written) ∧
    (∀ t ∈ b.tasks, t.sending = .copied →
      b.life.session.merged.finished = true ∧ t.written = b.life.session.merged.stream) ∧
    (b.life.lifetime = .ended → ∀ (i : Nat) t, b.tasks[i]? = some t →
      t.written = b.life.session.merged.stream ∨ ∃ why, .life (.readerStops i why) ∈ evs) := by
  obtain ⟨m, hm⟩ := follows_of_run h
  obtain ⟨m', hm'⟩ := follows_of_run (h.append h')
  have hwhole : ∀ t ∈ b.tasks, t.sending = .copied →
      b.life.session.merged.finished = true ∧ t.written = b.life.session.merged.stream := by
    intro t ht hc
    rw [hm.rel.finished, hm.rel.stream]
    exact (hm.tasks t ht).whole hc
  refine ⟨fun t ht => ⟨?_, ?_⟩, fun t ht t' ht' => ?_, fun i t ht => written_of_run h' ht, hwhole,
    fun hl i t ht => ?_⟩
  · rw [hm.rel.stream]
    exact (hm.tasks t ht).prefix_stream
  · have hlen := (hm.tasks t ht).written hm.released
    have hle := (hm.tasks t ht).released
    have hread : _ + _ = m.core.canon.readable := hm.rel.readable
    omega
  · obtain ⟨i, hi⟩ := List.getElem?_of_mem ht
    obtain ⟨u, hu, hpre⟩ := written_of_run h' hi
    exact List.prefix_or_prefix_of_prefix
      (hpre.trans (hm'.tasks u (List.mem_of_getElem? hu)).prefix_stream) (hm'.tasks t' ht').prefix_stream
  · cases hs : t.sending with
    | copying =>
      refine absurd ?_ (hm.sound.left hl)
      rw [hm.readers]
      exact List.mem_map.mpr ⟨t, List.mem_of_getElem? ht, decide_eq_true hs⟩
    | copied => exact Or.inl (hwhole t (List.mem_of_getElem? ht) hs).2
    | cut => exact Or.inr (cut_of_run h ht hs)

/-- a save that succeeds before the lifetime goes on leaves the json of the database row and the whole
stream, as a copy reads it -/
theorem saved_stream (h : Lts.Run Step (new target dist cycles) evs b)
    (hl : b.life.lifetime = .saving) {saver : InnerReplaySaver} {w w' : World} {s : Save}
    (hr : s.replay = b.life.session.merged) (hs : saver.saveReplayToDisk w s = .ok (w', true)) :
    (∃ p jsonHeader json, saver.saveDir.replayFile s.id = .ok p ∧
      ReplayJsonHeader.fromIdAndDb w.db s.answers s.id = .ok jsonHeader ∧
      saver.codecs.toJson jsonHeader = .ok json ∧ w'.vault.files p =
        some ⟨json ++ [10] ++ saver.codecs.zstd saver.compressionLevel s.replay.stream, true⟩) ∧
    (∀ sizes : Nat → Nat, (∀ k, 0 < sizes k) → ∀ fuel, s.replay.stream.length < fuel →
      MReplayReader.readToEnd s.replay sizes fuel .new = .ok s.replay.stream) ∧
    s.replay.header ≠ none := by
  obtain ⟨m, hm⟩ := follows_of_run h
  have hfin : m.core.canon.finished = true := by
    rw [hm.sound.finished, hl]
    rfl
  have hfull : ChunkedBuf.len s.replay = s.replay.stream.length := by
    rw [hr, hm.rel.readable, hm.whole hfin, hm.rel.stream]
  have hread : s.replay.readFrom 0 = s.replay.stream := by
    unfold MergedReplay.readFrom
    rw [hfull, List.take_length, List.drop_zero]
  obtain ⟨p, hp⟩ := saver.saveDir.replayFile_ok s.id
  cases (saver.saveReplayToDisk_spec w s hp).of_eq hs with
  | saved hheader hdb hjson hnew =>
    refine ⟨⟨p, _, _, hp, hdb, hjson, ?_⟩, fun sizes hsizes fuel hfuel => ?_, hheader⟩
    · rw [← hread]
      exact Vault.set_self _ _ _
    · have hrel := hm.rel
      rw [← hr] at hrel
      have hcopy := (hrel.readFrom hm.released.delayed hfull (hrel.finished.trans hfin) hsizes 0 hfuel).1
      rw [hread] at hcopy
      exact hcopy

/-- **a saved file holds the stream that the readers get**: all of it, where a copy is not cut off -/
theorem file_is_the_stream (h : Lts.Run Step (new target dist cycles) evs b)
    (hl : b.life.lifetime = .saving) (h' : Lts.Run Step b evs' b') {saver : InnerReplaySaver}
    {w w' : World} {s : Save} (hr : s.replay = b.life.session.merged)
    (hs : saver.saveReplayToDisk w s = .ok (w', true)) :
    ∃ p jsonHeader json data, saver.saveDir.replayFile s.id = .ok p ∧
      ReplayJsonHeader.fromIdAndDb w.db s.answers s.id = .ok jsonHeader ∧
      saver.codecs.toJson jsonHeader = .ok json ∧
      w'.vault.files p =
        some ⟨json ++ [10] ++ saver.codecs.zstd saver.compressionLevel data, true⟩ ∧
      (∀ sizes : Nat → Nat, (∀ k, 0 < sizes k) → ∀ fuel, data.length < fuel →
        MReplayReader.readToEnd s.replay sizes fuel .new = .ok data) ∧
      (∀ t ∈ b'.tasks, t.written <+: data) ∧
      (∀ t ∈ b'.tasks, t.sending = .copied → t.written = data) := by
  have hmerged : b.life.lifetime.merged = true := by rw [hl]; rfl
  obtain ⟨⟨p, jsonHeader, json, hp, hdb, hjson, hfile⟩, hcopy, -⟩ := saved_stream h hl hr hs
  obtain ⟨m', hm'⟩ := follows_of_run (h.append h')
  -- the readers read the same later
  have hstream : s.replay.stream = m'.core.canon.stream := by
    rw [hr, ← (merged_of_run h hmerged h').1, hm'.rel.stream]
  rw [hstream] at hfile hcopy
  exact ⟨p, jsonHeader, json, m'.core.canon.stream, hp, hdb, hjson, hfile, hcopy,
    fun t ht => (hm'.tasks t ht).prefix_stream, fun t ht hc => ((hm'.tasks t ht).whole hc).2⟩

/-! ## the copies end -/

/-- the steps that a copy can take at most -/
def rank (i : Nat) (b : Broadcast) : Nat :=
  match b.tasks[i]? with
  | some t =>
    if t.copying then
      2 * (b.life.session.merged.stream.length - t.reader.position) + t.buffer.length +
        (if t.readDone then 1 else 2)
    else 0
  | none => 0

theorem rank_eq {i : Nat} {t : SendTask} (ht : b.tasks[i]? = some t) : rank i b =
    if t.copying then
      2 * (b.life.session.merged.stream.length - t.reader.position) + t.buffer.length +
        (if t.readDone then 1 else 2)
    else 0 := by
  unfold rank
  rw [ht]

/-- a copy of the finished replay loses rank in each of its steps -/
theorem rank_step {m : State} (hm : b.Follows target dist m) (hl : b.life.lifetime.merged = true)
    {e : BroadcastEvent} (hs : Step b e b') {i : Nat} {t : SendTask} (ht : b.tasks[i]? = some t) :
    (if e.ofTask i then 1 else 0) + rank i b' ≤ rank i b := by
  obtain ⟨t', ht', hstep⟩ := task_step hs ht
  have hown : ∀ {e : BroadcastEvent}, (if e.ofTask i then 1 else 0) ≤ 1 := by
    intro e
    split <;> omega
  rw [rank_eq ht, rank_eq ht', (hm.merged_step hs hl).1]
  cases hstep with
  | other he => rw [he, if_neg Bool.false_ne_true, Nat.zero_add]
  | cut why => exact Nat.zero_le _
  | fill hc hd hsize hp =>
    refine (Nat.add_le_add_right hown _).trans ?_
    rw [if_pos hc, hd, if_neg Bool.false_ne_true]
    cases (hm.rel.pollRead hm.released.delayed t.reader i hsize).of_eq hp with
    | ended hle hf =>
      rw [if_pos (show (t.filled t.reader []).copying = true from hc)]
      show 1 + (2 * (_ - t.reader.position) + (t.buffer ++ []).length + 1) ≤ _
      rw [List.append_nil]
      omega
    | bytes _ hne hl hle =>
      rename_i l
      have hlen := List.length_pos_iff.mpr hne
      have hall := hle.trans (hm.rel.len_le_stream hm.released.delayed)
      rw [if_pos (show (t.filled ⟨t.reader.position + l.length⟩ l).copying = true from hc)]
      show 1 + (2 * (_ - (t.reader.position + l.length)) + (t.buffer ++ l).length +
        if l.isEmpty = true then 1 else 2) ≤ _
      rw [List.isEmpty_eq_false_iff.mpr hne, if_neg Bool.false_ne_true, List.length_append]
      omega
  | @write n _ hc hn hle =>
    refine (Nat.add_le_add_right hown _).trans ?_
    rw [if_pos hc, if_pos (show (t.write n).copying = true from hc)]
    show 1 + (2 * (_ - t.reader.position) + (t.buffer.drop n).length + _) ≤ _
    rw [List.length_drop]
    change 1 + (_ + _ + if t.readDone = true then 1 else 2) ≤ _
    omega
  | copied hc hd hb =>
    rw [if_pos hc, if_pos hd]
    exact (Nat.add_le_add_right hown _).trans (Nat.succ_le_succ (Nat.zero_le _))

/-- the work on a reader can stop where it is -/
theorem readerStops_step {l : ReplayLife} {m : State} (hm : l.Sound target dist m) {i : Nat}
    (hi : l.readers[i]? = some true) : ∃ l', ReplayLife.Step l (.readerStops i .connection) l' := by
  have hpos : 0 < l.readerConnectionCount.count := by
    rw [hm.readerCount]
    exact List.countP_pos_iff.mpr ⟨true, List.mem_of_getElem? hi, rfl⟩
  refine ⟨{ l with readers := l.readers.set i false, readerConnectionCount :=
    ⟨l.readerConnectionCount.count - 1, l.readerConnectionCount.version + 1⟩ }, fun _ => default, ?_⟩
  unfold ReplayLife.next ReplayLife.readerStopped
  dsimp only
  rw [EmptyCounter.dec_eq hpos, hi]
  rfl

/-- a copy of the finished replay does not wait -/
theorem can_go_on {m : State} (hm : b.Follows target dist m) (hl : b.life.lifetime.merged = true)
    {i : Nat} {t : SendTask} (ht : b.tasks[i]? = some t) (hc : t.copying = true) :
    ∃ e b', e.ofTask i = true ∧ Step b e b' := by
  by_cases hbuf : t.buffer = []
  · cases hd : t.readDone with
    | true =>
      have hi : b.life.readers[i]? = some true := by
        rw [hm.readers, List.getElem?_map, ht]
        exact congrArg some hc
      obtain ⟨l, hs⟩ := readerStops_step hm.sound hi
      exact ⟨.copied i, _, beq_self_eq_true i, .copied ht hc hd hbuf hs⟩
    | false =>
      obtain ⟨⟨reader, merged, res⟩, hok, hdone⟩ :=
        hm.rel.pollRead hm.released.delayed t.reader i Nat.one_pos
      cases res with
      | ready l => exact ⟨.fill i 1, _, beq_self_eq_true i, .fill ht hc hd Nat.one_pos hok⟩
      | pending =>
        cases hdone with
        | pending hle hf =>
          rw [hm.rel.finished, hm.sound.finished, hl] at hf
          cases hf
  · exact ⟨.write i 1, _, beq_self_eq_true i,
      .write ht hc Nat.one_pos (List.length_pos_iff.mpr hbuf)⟩

/-- **after the merge a copy never waits, and is over after a bounded number of its steps** -/
theorem drains (h : Lts.Run Step (new target dist cycles) evs b)
    (hl : b.life.lifetime.merged = true) {i : Nat} {t : SendTask} (ht : b.tasks[i]? = some t)
    (h' : Lts.Run Step b evs' b') :
    evs'.countP (BroadcastEvent.ofTask i) ≤
      2 * (b.life.session.merged.stream.length - t.written.length) + 2 ∧
    ∀ t', b'.tasks[i]? = some t' → t'.copying = true → ∃ e b'', e.ofTask i = true ∧ Step b' e b'' := by
  obtain ⟨m, hm⟩ := follows_of_run h
  refine ⟨?_, fun t' ht' hc => ?_⟩
  · have hcount : evs'.countP (BroadcastEvent.ofTask i) + rank i b' ≤ rank i b := by
      refine (h'.countP_le (I := fun b => (∃ m, b.Follows target dist m) ∧
        b.life.lifetime.merged = true ∧ ∃ t, b.tasks[i]? = some t) (q := fun _ => false) (k := 0)
        ?_ ?_ ⟨⟨m, hm⟩, hl, t, ht⟩).trans (by rw [Nat.zero_mul, Nat.add_zero])
      · rintro s e u ⟨⟨m, hm⟩, hl, t, ht⟩ hs
        obtain ⟨t', ht', -⟩ := task_step hs ht
        exact ⟨hm.step hs, (hm.merged_step hs hl).2, t', ht'⟩
      · rintro s e u ⟨⟨m, hm⟩, hl, t, ht⟩ hs
        exact rank_step hm hl hs ht
    have hsends := hm.tasks t (List.mem_of_getElem? ht)
    have hlen := hsends.written hm.released
    have hle := hsends.released.trans hm.released.readable_le
    rw [← hm.rel.stream] at hle
    rw [rank_eq ht] at hcount
    split at hcount
    · split at hcount <;> omega
    · omega
  · obtain ⟨m', hm'⟩ := follows_of_run (h.append h')
    exact can_go_on hm' (merged_of_run h hl h').2 ht' hc

end

/-! ## an execution -/

/-- two readers, one of which breaks, up to the save -/
def twoReadersRun : List BroadcastEvent :=
  ([.lifetime, .connection .writer, .connection .reader, .connection .reader, .header 0 ⟨[7]⟩,
    .data 0 [1, 2, 3], .cycle 0, .cycle 0].map .life) ++
  [.fill 0 4, .fill 1 4, .write 1 1, .write 0 1] ++
  ([.writerStops 0 .connection, .newCount, .timer, .newCount, .timer].map .life)

def twoReadersRest : List BroadcastEvent :=
  [.fill 0 2, .life (.readerStops 1 .connection), .fill 0 2, .write 0 3, .fill 0 4, .copied 0,
    .life .saved, .life .newCount, .life .timer]

theorem one_stream_twoReaders : ∃ b, Lts.Run Step (new 1 3 1) (twoReadersRun ++ twoReadersRest) b ∧
    b.life.lifetime = .ended ∧ b.life.session.merged.stream = [7, 1, 2, 3] ∧
    (∀ t ∈ b.tasks, t.written <+: b.life.session.merged.stream) ∧
    ∀ (i : Nat) t, b.tasks[i]? = some t → t.written = b.life.session.merged.stream ∨
      ∃ why, .life (.readerStops i why) ∈ twoReadersRun ++ twoReadersRest := by
  have hsome : ((twoReadersRun ++ twoReadersRest).foldlM next (new 1 3 1)).map
      (fun b => (b.life.lifetime, b.life.session.merged.stream)) = some (.ended, [7, 1, 2, 3]) := by
    decide +kernel
  obtain ⟨b, hb, hf⟩ := Option.map_eq_some_iff.mp hsome
  obtain ⟨hl, hs⟩ := Prod.mk.inj hf
  have hrun := Lts.Run.of_foldlM (fun _ _ _ => step_of_next) hb
  obtain ⟨h1, -, -, -, h2⟩ := one_stream hrun (.nil b)
  exact ⟨b, hrun, hl, hs, fun t ht => (h1 t ht).1, h2 hl⟩

/-- what is saved in `twoReadersRun` -/
def saveOf (b : Broadcast) : Save :=
  { InnerReplaySaver.saveOne with replay := b.life.session.merged }

theorem file_is_the_stream_twoReaders : ∃ b b' w', Lts.Run Step (new 1 3 1) twoReadersRun b ∧
    Lts.Run Step b twoReadersRest b' ∧
    InnerReplaySaver.plainSaver.saveReplayToDisk InnerReplaySaver.oneGame (saveOf b) = .ok (w', true) ∧
    ∃ p data, InnerReplaySaver.plainSaver.saveDir.replayFile 1 = .ok p ∧
      w'.vault.files p = some ⟨[123, 125] ++ [10] ++ data, true⟩ ∧ (∀ t ∈ b'.tasks, t.written <+: data) ∧
      ∀ t ∈ b'.tasks, t.sending = .copied → t.written = data := by
  have hsome : (twoReadersRun.foldlM next (new 1 3 1)).map (fun b => (b.life.lifetime,
      (twoReadersRest.foldlM next b).isSome,
      (InnerReplaySaver.plainSaver.saveReplayToDisk InnerReplaySaver.oneGame
        (saveOf b)).toOption.map Prod.snd)) = some (.saving, true, some true) := by
    decide +kernel
  obtain ⟨b, hb, hf⟩ := Option.map_eq_some_iff.mp hsome
  obtain ⟨hl, hf⟩ := Prod.mk.inj hf
  obtain ⟨hrest, hsave⟩ := Prod.mk.inj hf
  obtain ⟨b', hb'⟩ := Option.isSome_iff_exists.mp hrest
  obtain ⟨⟨w', saved⟩, hs, hsaved⟩ := Option.map_eq_some_iff.mp hsave
  cases hsaved
  have hrun := Lts.Run.of_foldlM (fun _ _ _ => step_of_next) hb
  have hrun' := Lts.Run.of_foldlM (fun _ _ _ => step_of_next) hb'
  have hok := eq_ok_of_toOption hs
  obtain ⟨p, jsonHeader, json, data, hp, -, hjson, hfile, -, hwritten, hcopied⟩ :=
    file_is_the_stream hrun hl hrun' rfl hok
  cases hjson
  exact ⟨b, b', w', hrun, hrun', hok, p, data, hp, hfile, hwritten, hcopied⟩

theorem drains_twoReaders : ∃ b t b', Lts.Run Step (new 1 3 1) twoReadersRun b ∧
    b.tasks[0]? = some t ∧ Lts.Run Step b twoReadersRest b' ∧
    twoReadersRest.countP (BroadcastEvent.ofTask 0) ≤
      2 * (b.life.session.merged.stream.length - t.written.length) + 2 := by
  have hsome : (twoReadersRun.foldlM next (new 1 3 1)).map (fun b => (b.life.lifetime.merged,
      b.tasks[0]?.isSome, (twoReadersRest.foldlM next b).isSome)) = some (true, true, true) := by
    decide +kernel
  obtain ⟨b, hb, hf⟩ := Option.map_eq_some_iff.mp hsome
  obtain ⟨hl, hf⟩ := Prod.mk.inj hf
  obtain ⟨htask, hrest⟩ := Prod.mk.inj hf
  obtain ⟨t, ht⟩ := Option.isSome_iff_exists.mp htask
  obtain ⟨b', hb'⟩ := Option.isSome_iff_exists.mp hrest
  have hrun := Lts.Run.of_foldlM (fun _ _ _ => step_of_next) hb
  have hrun' := Lts.Run.of_foldlM (fun _ _ _ => step_of_next) hb'
  exact ⟨b, t, b', hrun, ht, hrun', (drains hrun hl ht hrun').1⟩

end Broadcast

end ReplayServer
