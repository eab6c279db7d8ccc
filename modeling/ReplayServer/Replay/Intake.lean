import ReplayServer.Accept.HeaderReader
import ReplayServer.Lib.InMemory
import ReplayServer.Replay.Broadcast
import ReplayServer.Replay.NoSpoilers
import ReplayServer.Replay.Released
import ReplayServer.Replay.Streams.Header

/-!
# replay: from the wire of the writers to the vault

The life of a replay where what the writers read comes from their connections: first the header of
the connection, then the header of the replay, then data in pieces of any size.

* `Intake.intake`     what a task reads when it wakes up;
* `Intake.At`         where a writer is in its stream;
* `Intake.Follows`    what the strategy got is what the connections sent after their headers;
* `Intake.whole_way`  so a saved file and all readers have a stream that the writers sent.
-/

set_option linter.unusedSectionVars false

namespace ReplayServer
open Fallible Merge AsyncIo AsyncIo.AsyncBufRead AsyncIo.Tokio

structure WriterConnection (R : Type) where
  connection : Connection R
  /-- not in the source: the stream as it came -/
  wire : R
  /-- not in the source: a read found the end of the stream -/
  drained : Bool

inductive IntakeEvent (R : Type) where
  /-- a connection with a header comes to the replay -/
  | accept (wire : R)
  /-- `read_header` of a writer returns, or a read in its `read_data` -/
  | readHeader (id : Nat)
  | readData (id : Nat)
  /-- a step that reads nothing; a connection may break -/
  | other (e : BroadcastEvent)

structure Intake (R : Type) where
  broadcast : Broadcast
  /-- of the writers, by token -/
  connections : List (WriterConnection R)

def LifeEvent.takesIn : LifeEvent → Bool
  | .connection _ | .header _ _ | .data _ _ => true
  | _ => false

/-- only a read brings bytes -/
theorem LifeEvent.appended_of_quiet {id : Nat} {e : LifeEvent} (hd : ∀ buf, e ≠ .data id buf) :
    DelayEvent.appended (e.delayEvents id) = [] := by
  unfold delayEvents
  split
  · rename_i i buf
    rw [if_neg]
    · rfl
    · rintro rfl
      exact hd buf rfl
  · split <;> rfl
  · rfl

namespace ReplayLife
variable {l l' : ReplayLife} {e : LifeEvent} {id : Nat}

theorem Step.length_writers (h : Step l e l') : l'.writers.length = l.writers.length +
    if e = .connection .writer ∧ l.shouldStopAcceptingConnections = false then 1 else 0 := by
  have hlen : ∀ u : ReplayLife, u.writers.length = u.tasks.writers.length :=
    fun u => (List.length_map _).symm
  rw [hlen, hlen]
  have hs := h.tasks
  have hstop : l.shouldStopAcceptingConnections = l.tasks.shouldStopAcceptingConnections := rfl
  rw [hstop]
  revert hs
  generalize l'.tasks = t'
  intro hs
  cases hs with
  | late type ht =>
    rw [if_neg]
    · rfl
    · rintro ⟨-, hf⟩
      rw [ht] at hf
      cases hf
  | writer ht =>
    rw [if_pos ⟨rfl, ht⟩]
    exact List.length_append
  | works he ht =>
    rw [if_neg]
    · rfl
    · rintro ⟨rfl, -⟩
      cases he
  | writerStops => exact List.length_set
  | timerOver hd => cases hd <;> rfl
  | waitCancelled hc hd => cases hd <;> rfl
  | newCount | timer =>
    rw [if_neg (fun he => by cases he.1)]
    unfold ReplayTasks.setWait
    rfl
  | reader | readerStops | lifetime | saved | timeout | timeoutCancelled | shutdown => rfl

theorem Step.header_read {x : ReplayHeader} (h : Step l (.header id x) l') :
    ∃ t, l'.writers[id]? = some (.data t) := by
  obtain ⟨ords, h⟩ := h
  generalize hx : Except.ok l' = y at h
  cases wakes_of_next h with
  | header ht =>
    obtain ⟨l1, h1, hx⟩ := bind_eq_ok.mp hx.symm
    obtain ⟨s, rfl⟩ := call_eq_ok h1
    cases hx
    exact ⟨_, List.getElem?_set_self (lt_of_writer ht)⟩

theorem Step.writer_stopped {why : Stop} (h : Step l (.writerStops id why) l') :
    l'.writers[id]? = some .done := by
  obtain ⟨ords, h⟩ := h
  generalize hx : Except.ok l' = y at h
  cases wakes_of_next h with
  | writerStops ht ha hs =>
    obtain ⟨w, -, hx⟩ := bind_eq_ok.mp hx.symm
    obtain ⟨l1, h1, hx⟩ := bind_eq_ok.mp hx
    obtain ⟨s1, rfl⟩ := call_eq_ok h1
    obtain ⟨l2, h2, hx⟩ := bind_eq_ok.mp hx
    obtain ⟨s2, rfl⟩ := call_eq_ok h2
    obtain ⟨count, -, hx⟩ := bind_eq_ok.mp hx
    cases hx
    exact List.getElem?_set_self (lt_of_writer ht)

namespace WriterStep
variable {task : Option WriterTask} {calls : List Action}

theorem of_new (h : WriterStep l id (.connection .writer) task calls) (hn : l.writers[id]? = none)
    (ht : task ≠ none) : task = some .header ∧ calls = [.added] := by
  cases h with
  | connection => exact ⟨rfl, rfl⟩
  | stays => exact absurd hn ht

theorem of_header {x : ReplayHeader} (h : WriterStep l id (.header id x) task calls)
    (ht : task ≠ l.writers[id]?) : calls = [.header id x] := by
  cases h with
  | header => rfl
  | stays => exact absurd rfl ht

theorem of_data {buf : List UInt8} (h : WriterStep l id (.data id buf) task calls) :
    (∃ t, task = some (.data t)) ∧ calls = [.data id buf] := by
  cases h with
  | data => exact ⟨⟨_, rfl⟩, rfl⟩
  | stays he =>
    rw [LifeEvent.delayEvents, if_pos rfl] at he
    cases he

theorem of_stop {why : Stop} (h : WriterStep l id (.writerStops id why) task calls)
    (ht : task ≠ l.writers[id]?) : ∃ n, calls = [.delayed id n, .ended id] := by
  cases h with
  | stops => exact ⟨_, rfl⟩
  | stays => exact absurd rfl ht

end WriterStep

end ReplayLife

namespace Intake
section
variable [Tokio] {R : Type} [AsyncBufRead R]

def new (targetQuorumSize streamCmpDistance delayCycles : Nat) : Intake R :=
  ⟨.new targetQuorumSize streamCmpDistance delayCycles, []⟩

/-- what a task of the replay `gameId` reads, and the connections after it -/
def intake (gameId : Nat) (self : Intake R) :
    IntakeEvent R → Option (BroadcastEvent × List (WriterConnection R))
  | .accept wire =>
    match HeaderReader.readAndSetConnectionHeader.run (Connection.newFrom wire) with
    | .ok () c =>
      match c.header with
      | some header =>
        if header.id = gameId then
          some (.life (.connection header.type),
            if header.type = .writer ∧ self.broadcast.life.shouldStopAcceptingConnections = false then
              self.connections ++ [⟨c, wire, false⟩]
            else self.connections)
        else none
      | none => none
    | .error _ _ => none
  | .readHeader id =>
    match self.connections[id]?, self.broadcast.life.writers[id]? with
    | some k, some .header =>
      match ReplayHeader.fromConnection.run k.connection with
      | .ok header c =>
        some (.life (.header id header), self.connections.set id { k with connection := c })
      | .error _ c =>
        some (.life (.writerStops id .connection), self.connections.set id { k with connection := c })
    | _, _ => none
  | .readData id =>
    match self.connections[id]?, self.broadcast.life.writers[id]? with
    | some k, some (.data _) =>
      let (c, buf) := pollRead k.connection 4096
      if buf = [] then
        some (.life (.writerStops id .connection),
          self.connections.set id { k with connection := c, drained := true })
      else
        some (.life (.data id buf), self.connections.set id { k with connection := c })
    | _, _ => none
  | .other e =>
    match e with
    | .life e => if e.takesIn then none else some (.life e, self.connections)
    | e => some (e, self.connections)

def Step (gameId : Nat) (w : Intake R) (e : IntakeEvent R) (w' : Intake R) : Prop :=
  ∃ e', w.intake gameId e = some (e', w'.connections) ∧ Broadcast.Step w.broadcast e' w'.broadcast

def next (gameId : Nat) (self : Intake R) (e : IntakeEvent R) : Option (Intake R) :=
  (self.intake gameId e).bind fun (e', connections) =>
    (self.broadcast.next e').map (fun b => ⟨b, connections⟩)

theorem step_of_next {gameId : Nat} {w w' : Intake R} {e : IntakeEvent R}
    (h : w.next gameId e = some w') : Step gameId w e w' := by
  obtain ⟨⟨e', connections⟩, htake, h⟩ := Option.bind_eq_some_iff.mp h
  obtain ⟨b, hb, rfl⟩ := Option.map_eq_some_iff.mp h
  exact ⟨e', htake, Broadcast.step_of_next hb⟩

inductive Takes (gameId : Nat) (w : Intake R) : IntakeEvent R → BroadcastEvent →
    List (WriterConnection R) → Prop where
  | writer {wire : R} {c : Connection R} {name : String}
      (h : HeaderReader.Wire (rest wire) ⟨.writer, gameId, name⟩ (rest c))
      (ha : w.broadcast.life.shouldStopAcceptingConnections = false) :
      Takes gameId w (.accept wire) (.life (.connection .writer)) (w.connections ++ [⟨c, wire, false⟩])
  | late {wire : R} {type : ConnectionType}
      (ha : type = .writer → w.broadcast.life.shouldStopAcceptingConnections = true) :
      Takes gameId w (.accept wire) (.life (.connection type)) w.connections
  | header {id : Nat} {k : WriterConnection R} (hk : w.connections[id]? = some k)
      (ht : w.broadcast.life.writers[id]? = some .header) {x : ReplayHeader} {c : Connection R}
      (hx : x.data ∈ ReplayHeader.form) (hlen : x.data.length ≤ maxSize)
      (h : rest k.connection = x.data ++ rest c) :
      Takes gameId w (.readHeader id) (.life (.header id x))
        (w.connections.set id { k with connection := c })
  | refused {id : Nat} {k : WriterConnection R} (hk : w.connections[id]? = some k)
      (ht : w.broadcast.life.writers[id]? = some .header) (c : Connection R) :
      Takes gameId w (.readHeader id) (.life (.writerStops id .connection))
        (w.connections.set id { k with connection := c })
  | data {id : Nat} {k : WriterConnection R} (hk : w.connections[id]? = some k) {t : TimestampLoop}
      (ht : w.broadcast.life.writers[id]? = some (.data t)) {c : Connection R} {buf : List UInt8}
      (h : rest k.connection = buf ++ rest c) :
      Takes gameId w (.readData id) (.life (.data id buf))
        (w.connections.set id { k with connection := c })
  | drained {id : Nat} {k : WriterConnection R} (hk : w.connections[id]? = some k) {t : TimestampLoop}
      (ht : w.broadcast.life.writers[id]? = some (.data t)) (c : Connection R)
      (h : rest k.connection = []) :
      Takes gameId w (.readData id) (.life (.writerStops id .connection))
        (w.connections.set id { k with connection := c, drained := true })
  | other {e : BroadcastEvent} (he : ∀ e', e = .life e' → e'.takesIn = false) :
      Takes gameId w (.other e) e w.connections

theorem wire_of_read {wire : R} {c : Connection R} {header : ConnectionHeader}
    (h : HeaderReader.readAndSetConnectionHeader.run (Connection.newFrom wire) = .ok () c)
    (hc : c.header = some header) : HeaderReader.Wire (rest wire) header (rest c) := by
  rcases HeaderReader.readAndSet_cases (Connection.newFrom wire) with ⟨header', t, hw⟩ | ⟨e, c', he, -⟩
  · obtain ⟨c', hok, hh, ht⟩ := HeaderReader.readAndSet_wire hw
    rw [h] at hok
    cases hok
    rw [hc] at hh
    cases hh
    rw [ht]
    exact hw
  · rw [h] at he
    cases he

theorem form_of_read {c c' : Connection R} {x : ReplayHeader}
    (h : ReplayHeader.fromConnection.run c = .ok x c') :
    x.data ∈ ReplayHeader.form ∧ x.data.length ≤ maxSize ∧ rest c = x.data ++ rest c' := by
  by_cases hex : ∃ b t, rest c = b ++ t ∧ b.length ≤ maxSize ∧ b ∈ ReplayHeader.form
  · obtain ⟨b, t, hc, hlen, hb⟩ := hex
    obtain ⟨c'', hok, hreads⟩ := ReplayHeader.fromConnection_ok hc hlen hb
    rw [h] at hok
    cases hok
    exact ⟨hb, hlen, hreads.rest⟩
  · obtain ⟨e, c'', he, -⟩ := ReplayHeader.fromConnection_error
      (fun b t hc hlen hb => hex ⟨b, t, hc, hlen, hb⟩)
    rw [h] at he
    cases he

/-- **all that a task can read** -/
theorem takes_of_intake {gameId : Nat} {w : Intake R} {e : IntakeEvent R} {e' : BroadcastEvent}
    {cs : List (WriterConnection R)} (h : w.intake gameId e = some (e', cs)) :
    w.Takes gameId e e' cs := by
  cases e with
  | accept wire =>
    simp only [intake] at h
    split at h
    · rename_i c hread
      split at h
      · rename_i header hheader
        have hw := wire_of_read hread hheader
        obtain ⟨type, id, name⟩ := header
        dsimp only at h
        split at h
        · rename_i hid
          obtain rfl : id = gameId := hid
          cases h
          by_cases ha : type = .writer ∧ w.broadcast.life.shouldStopAcceptingConnections = false
          · rw [if_pos ha]
            obtain ⟨rfl, ha⟩ := ha
            exact .writer hw ha
          · rw [if_neg ha]
            exact .late (fun ht => Bool.eq_true_of_not_eq_false (fun hf => ha ⟨ht, hf⟩))
        · cases h
      · cases h
    · cases h
  | readHeader id =>
    simp only [intake] at h
    split at h
    · rename_i k hk ht
      split at h
      · rename_i x c hread
        cases h
        obtain ⟨hx, hlen, hrest⟩ := form_of_read hread
        exact .header hk ht hx hlen hrest
      · rename_i c hread
        cases h
        exact .refused hk ht c
    · cases h
  | readData id =>
    simp only [intake] at h
    split at h
    · rename_i k t hk ht
      split at h
      · rename_i hbuf
        cases h
        exact .drained hk ht _ (pollRead_eof k.connection 4096 (by decide) hbuf)
      · cases h
        exact .data hk ht (rest_pollRead k.connection 4096)
    · cases h
  | other e =>
    simp only [intake] at h
    split at h
    · rename_i e
      split at h
      · cases h
      · rename_i he
        cases h
        exact .other (fun e' he' => by cases he'; exact Bool.eq_false_of_not_eq_true he)
    · rename_i hne
      cases h
      exact .other (fun e' he' => absurd he' (hne e'))

end

/-! ## where the writers are -/

/-- the stream of a writer: the header of its connection, the header of the replay, and data -/
def SendsReplay (gameId : Nat) (s header data : List UInt8) : Prop :=
  (∃ name, HeaderReader.Wire s ⟨.writer, gameId, name⟩ (header ++ data)) ∧
    header ∈ ReplayHeader.form ∧ header.length ≤ maxSize

/-- a stream is read in one way only -/
theorem SendsReplay.unique {gameId : Nat} {s header data header' data' : List UInt8}
    (h : SendsReplay gameId s header data) (h' : SendsReplay gameId s header' data') :
    header = header' ∧ data = data' := by
  obtain ⟨⟨name, hw⟩, hform, -⟩ := h
  obtain ⟨⟨name', hw'⟩, hform', -⟩ := h'
  have hs : rest (Connection.newFrom (Pieces.mk [s])) = s := List.append_nil s
  rw [← hs] at hw hw'
  obtain ⟨c, hok, -, hc⟩ := HeaderReader.readAndSet_wire hw
  obtain ⟨c', hok', -, hc'⟩ := HeaderReader.readAndSet_wire hw'
  rw [hok] at hok'
  cases hok'
  obtain rfl := ReplayHeader.form_unique hform hform' rfl (hc.symm.trans hc')
  exact ⟨rfl, List.append_cancel_left (hc.symm.trans hc')⟩

section
variable {R : Type} [AsyncBufRead R] {gameId id : Nat}

/-- where the writer `id` is in its stream, when it sent `sent` and called `calls` -/
inductive At (gameId id : Nat) (k : WriterConnection R) :
    WriterTask → List UInt8 → List Action → Prop where
  | header (hw : ∃ name, HeaderReader.Wire (rest k.wire) ⟨.writer, gameId, name⟩ (rest k.connection))
      (hd : k.drained = false) {calls : List Action} (hc : ∀ i x, .header i x ∉ calls) :
      At gameId id k .header [] calls
  | data {t : TimestampLoop} {header sent : List UInt8}
      (hs : SendsReplay gameId (rest k.wire) header (sent ++ rest k.connection))
      (hd : k.drained = false) {calls : List Action}
      (hc : ∀ i x, .header i x ∈ calls → x.data = header) : At gameId id k (.data t) sent calls
  /-- it had no header of a replay -/
  | refused (hd : k.drained = false) {calls : List Action} (hc : ∀ i x, .header i x ∉ calls) :
      At gameId id k .done [] calls
  | done {header sent tail : List UInt8}
      (hs : SendsReplay gameId (rest k.wire) header (sent ++ tail))
      (hd : k.drained = true → tail = []) {calls : List Action}
      (hc : ∀ i x, .header i x ∈ calls → x.data = header) : At gameId id k .done sent calls

namespace At
variable {k : WriterConnection R} {task : WriterTask} {sent : List UInt8} {calls : List Action}

theorem stop (h : At gameId id k task sent calls) (n : Nat) :
    At gameId id k .done sent (calls ++ [.delayed id n, .ended id]) := by
  have hmem : ∀ {i : Nat} {x : ReplayHeader}, Action.header i x ∈ calls ++ [.delayed id n, .ended id] →
      Action.header i x ∈ calls := by
    intro i x hx
    simpa using hx
  cases h with
  | header hw hd hc => exact .refused hd (fun i x hx => hc i x (hmem hx))
  | data hs hd hc =>
    refine .done hs (fun hd' => ?_) (fun i x hx => hc i x (hmem hx))
    rw [hd] at hd'
    cases hd'
  | refused hd hc => exact .refused hd (fun i x hx => hc i x (hmem hx))
  | done hs hd hc => exact .done hs hd (fun i x hx => hc i x (hmem hx))

/-- a wake-up in which nothing is read from the connection -/
theorem step (h : At gameId id k task sent calls) {l : ReplayLife} {e : LifeEvent}
    {task' : Option WriterTask} {calls' : List Action} (ht : l.writers[id]? = some task)
    (hh : ∀ x, e ≠ .header id x) (hd : ∀ buf, e ≠ .data id buf)
    (hs : ReplayLife.WriterStep l id e task' calls') :
    ∃ t', task' = some t' ∧ At gameId id k t' sent (calls ++ calls') := by
  cases hs with
  | connection h' =>
    rw [ht] at h'
    cases h'
  | header h' x => exact absurd rfl (hh x)
  | data h' buf => exact absurd rfl (hd buf)
  | @cycle t h' w hw posQueue delayed hpush =>
    rw [ht] at h'
    cases h'
    refine ⟨_, rfl, ?_⟩
    cases h with
    | data hs hd hc =>
      refine .data hs hd (fun i x hx => hc i x ?_)
      rcases List.mem_append.mp hx with hx | hx
      · exact hx
      · split at hx
        · simp at hx
        · cases hx
  | stops h' ha hw why =>
    rw [ht] at h'
    cases h'
    exact ⟨_, rfl, h.stop _⟩
  | stays he =>
    refine ⟨task, ht, ?_⟩
    rw [List.append_nil]
    exact h

variable {c : Connection R}

theorem read_header (h : At gameId id k .header sent calls) {x : ReplayHeader}
    (hx : x.data ∈ ReplayHeader.form) (hlen : x.data.length ≤ maxSize)
    (hrest : rest k.connection = x.data ++ rest c) (t : TimestampLoop) :
    At gameId id { k with connection := c } (.data t) sent (calls ++ [.header id x]) := by
  cases h with
  | header hw hd hc =>
    rw [hrest] at hw
    have hs : SendsReplay gameId (rest k.wire) x.data ([] ++ rest c) := ⟨hw, hx, hlen⟩
    refine .data (k := { k with connection := c }) hs hd (fun i y hy => ?_)
    rcases List.mem_append.mp hy with hy | hy
    · exact absurd hy (hc i y)
    · cases List.mem_singleton.mp hy
      rfl

theorem read_data {t t' : TimestampLoop} (h : At gameId id k (.data t) sent calls) {buf : List UInt8}
    (hrest : rest k.connection = buf ++ rest c) :
    At gameId id { k with connection := c } (.data t') (sent ++ buf) (calls ++ [.data id buf]) := by
  cases h with
  | @data _ header _ hs hd _ hc =>
    rw [hrest, ← List.append_assoc] at hs
    refine .data (k := { k with connection := c }) hs hd (fun i y hy => hc i y ?_)
    rcases List.mem_append.mp hy with hy | hy
    · exact hy
    · cases List.mem_singleton.mp hy

theorem refuse (h : At gameId id k .header sent calls) :
    At gameId id { k with connection := c } .done sent calls := by
  cases h with
  | header hw hd hc => exact .refused (k := { k with connection := c }) hd hc

theorem drain {t : TimestampLoop} (h : At gameId id k (.data t) sent calls)
    (hrest : rest k.connection = []) :
    At gameId id { k with connection := c, drained := true } .done sent calls := by
  cases h with
  | data hs hd hc =>
    rw [hrest] at hs
    exact .done (k := { k with connection := c, drained := true }) hs (fun _ => rfl) hc

end At

/-- **the writers are where their streams are** -/
structure Follows (gameId : Nat) (w : Intake R) : Prop where
  length : w.connections.length = w.broadcast.life.writers.length
  writers : ∀ (id : Nat) (k : WriterConnection R) (task : WriterTask), w.connections[id]? = some k →
    w.broadcast.life.writers[id]? = some task →
    At gameId id k task (w.broadcast.life.session.sent id) (callsOf id w.broadcast.life.log)

namespace Follows
variable {w w' : Intake R} {l : ReplayLife} {e : LifeEvent} {k k' : WriterConnection R}
  (h : Follows gameId w)
include h

theorem task_of_connection (hk : w.connections[id]? = some k) :
    ∃ task, w.broadcast.life.writers[id]? = some task ∧
      At gameId id k task (w.broadcast.life.session.sent id) (callsOf id w.broadcast.life.log) := by
  have hlt : id < w.broadcast.life.writers.length := h.length ▸ (List.getElem?_eq_some_iff.mp hk).1
  exact ⟨_, List.getElem?_eq_getElem hlt, h.writers id k _ hk (List.getElem?_eq_getElem hlt)⟩

/-- a writer whose connection is as it was -/
theorem stays (hs : ReplayLife.Step w.broadcast.life e l)
    (hlen : w.broadcast.life.session.conns.length = w.broadcast.life.writers.length)
    (hk : w.connections[id]? = some k) (hh : ∀ x, e ≠ .header id x) (hd : ∀ buf, e ≠ .data id buf)
    {task : WriterTask} (ht : l.writers[id]? = some task) :
    At gameId id k task (l.session.sent id) (callsOf id l.log) := by
  obtain ⟨old, hold, hat⟩ := h.task_of_connection hk
  obtain ⟨calls, hstep, hcalls⟩ := hs.writerSteps.2 id
  obtain ⟨t', ht', hat'⟩ := hat.step hold hh hd hstep
  rw [ht] at ht'
  cases ht'
  rw [hs.sent hlen id, LifeEvent.appended_of_quiet hd, List.append_nil, hcalls]
  exact hat'

theorem quiet (hs : ReplayLife.Step w.broadcast.life e l)
    (hlen : w.broadcast.life.session.conns.length = w.broadcast.life.writers.length)
    (hh : ∀ i x, e ≠ .header i x) (hd : ∀ i buf, e ≠ .data i buf)
    (ha : ¬ (e = .connection .writer ∧ w.broadcast.life.shouldStopAcceptingConnections = false))
    (tasks : List SendTask) : Follows gameId ⟨⟨l, tasks⟩, w.connections⟩ where
  length := by
    have hl := hs.length_writers
    rw [if_neg ha, Nat.add_zero] at hl
    exact h.length.trans hl.symm
  writers id k task hk ht := h.stays hs hlen hk (hh id) (hd id) ht

theorem read (hs : ReplayLife.Step w.broadcast.life e l)
    (hlen : w.broadcast.life.session.conns.length = w.broadcast.life.writers.length)
    (hk : w.connections[id]? = some k) (hh : ∀ i x, e = .header i x → i = id)
    (hd : ∀ i buf, e = .data i buf → i = id) (ha : ∀ type, e ≠ .connection type)
    (hat : ∀ task, l.writers[id]? = some task →
      At gameId id k' task (l.session.sent id) (callsOf id l.log))
    (tasks : List SendTask) : Follows gameId ⟨⟨l, tasks⟩, w.connections.set id k'⟩ where
  length := by
    have hl := hs.length_writers
    rw [if_neg (fun he => ha _ he.1), Nat.add_zero] at hl
    rw [List.length_set]
    exact h.length.trans hl.symm
  writers j kj task hkj ht := by
    change (w.connections.set id k')[j]? = some kj at hkj
    by_cases hj : id = j
    · subst hj
      rw [List.getElem?_set_self (List.getElem?_eq_some_iff.mp hk).1] at hkj
      cases hkj
      exact hat task ht
    · rw [List.getElem?_set_ne hj] at hkj
      exact h.stays hs hlen hkj (fun x he => hj (hh j x he).symm)
        (fun buf he => hj (hd j buf he).symm) ht

theorem accepted {target dist : Nat} {m : State} (hm : w.broadcast.life.Sound target dist m)
    (hs : ReplayLife.Step w.broadcast.life (.connection .writer) l)
    (ha : w.broadcast.life.shouldStopAcceptingConnections = false)
    (hw : ∃ name, HeaderReader.Wire (rest k.wire) ⟨.writer, gameId, name⟩ (rest k.connection))
    (hd : k.drained = false) (tasks : List SendTask) :
    Follows gameId ⟨⟨l, tasks⟩, w.connections ++ [k]⟩ := by
  have hl := hs.length_writers
  rw [if_pos ⟨rfl, ha⟩] at hl
  have hlen := hm.length_conns
  refine ⟨?_, fun j kj task hkj ht => ?_⟩
  · show (w.connections ++ [k]).length = l.writers.length
    rw [List.length_append, h.length, hl]
    rfl
  · change (w.connections ++ [k])[j]? = some kj at hkj
    change l.writers[j]? = some task at ht
    rcases getElem?_concat hkj with ⟨-, hkj⟩ | ⟨rfl, rfl⟩
    · exact h.stays hs hlen hkj (fun x he => by cases he) (fun buf he => by cases he) ht
    · -- it sent nothing yet
      have hnone : w.broadcast.life.writers[w.connections.length]? = none :=
        List.getElem?_eq_none h.length.ge
      have hcalls0 := hm.writers w.connections.length
      rw [hnone] at hcalls0
      have hsent0 : w.broadcast.life.session.sent w.connections.length = [] := by
        unfold Session.sent
        rw [List.getElem?_eq_none (by rw [hlen, h.length])]
      obtain ⟨calls, hstep, hcalls⟩ := hs.writerSteps.2 w.connections.length
      obtain ⟨htask, rfl⟩ := hstep.of_new hnone (by rw [ht]; exact Option.some_ne_none _)
      rw [ht] at htask
      cases htask
      show At gameId _ kj .header (l.session.sent _) (callsOf _ l.log)
      rw [hs.sent hlen, hsent0, hcalls, hcalls0.no_calls]
      exact .header hw hd (fun i x hx => by cases List.mem_singleton.mp hx)

/-- **a step keeps the writers where their streams are** -/
theorem step [Tokio] {target dist : Nat} {m : State} (hm : w.broadcast.Follows target dist m)
    {e : IntakeEvent R} (hs : Step gameId w e w') : Follows gameId w' := by
  obtain ⟨e', htake, hstep⟩ := hs
  have hlen := hm.sound.length_conns
  -- the writer that reads, before and after it
  have reads : ∀ {id : Nat} {k : WriterConnection R} {l : ReplayLife} {e : LifeEvent}
      {task : WriterTask}, ReplayLife.Step w.broadcast.life e l → w.connections[id]? = some k →
      w.broadcast.life.writers[id]? = some task → ∃ sent calls calls',
        At gameId id k task sent calls ∧
        ReplayLife.WriterStep w.broadcast.life id e l.writers[id]? calls' ∧
        l.session.sent id = sent ++ DelayEvent.appended (e.delayEvents id) ∧
        callsOf id l.log = calls ++ calls' := by
    intro id k l e task hs hk ht
    obtain ⟨calls', hcall, hcalls⟩ := hs.writerSteps.2 id
    exact ⟨_, _, calls', h.writers id k task hk ht, hcall, hs.sent hlen id, hcalls⟩
  obtain ⟨b', cs⟩ := w'
  dsimp only at htake hstep
  cases takes_of_intake htake with
  | writer hw ha =>
    cases hstep with
    | life hs => exact h.accepted hm.sound hs ha ⟨_, hw⟩ rfl _
  | @late wire type ha =>
    cases hstep with
    | life hs =>
      refine h.quiet hs hlen (fun _ _ he => by cases he) (fun _ _ he => by cases he) ?_ _
      rintro ⟨he, hstop⟩
      cases he
      rw [ha rfl] at hstop
      cases hstop
  | @header id k hk ht x c hx hxlen hrest =>
    cases hstep with
    | life hs =>
      refine h.read hs hlen hk (fun i y he => by cases he; rfl) (fun _ _ he => by cases he)
        (fun _ he => by cases he) (fun task ht' => ?_) _
      obtain ⟨sent, calls, calls', hat, hcall, hsent, hcalls⟩ := reads hs hk ht
      obtain ⟨t, hdata⟩ := hs.header_read
      rw [hdata] at ht' hcall
      cases ht'
      rw [hsent, LifeEvent.appended_of_quiet (fun _ he => by cases he), List.append_nil, hcalls,
        hcall.of_header (by rw [ht]; simp)]
      exact hat.read_header hx hxlen hrest t
  | @refused id k hk ht c =>
    cases hstep with
    | life hs =>
      refine h.read hs hlen hk (fun _ _ he => by cases he) (fun _ _ he => by cases he)
        (fun _ he => by cases he) (fun task ht' => ?_) _
      obtain ⟨sent, calls, calls', hat, hcall, hsent, hcalls⟩ := reads hs hk ht
      rw [hs.writer_stopped] at ht' hcall
      cases ht'
      obtain ⟨n, rfl⟩ := hcall.of_stop (by rw [ht]; simp)
      rw [hsent, LifeEvent.appended_of_quiet (fun _ he => by cases he), List.append_nil, hcalls]
      exact hat.refuse.stop n
  | @data id k hk t ht c buf hrest =>
    cases hstep with
    | life hs =>
      refine h.read hs hlen hk (fun _ _ he => by cases he) (fun i b he => by cases he; rfl)
        (fun _ he => by cases he) (fun task ht' => ?_) _
      obtain ⟨sent, calls, calls', hat, hcall, hsent, hcalls⟩ := reads hs hk ht
      obtain ⟨⟨t', htask⟩, rfl⟩ := hcall.of_data
      rw [htask] at ht'
      cases ht'
      rw [hsent, hcalls, LifeEvent.delayEvents, if_pos rfl]
      rw [show DelayEvent.appended [(0, .append buf)] = buf from List.append_nil _]
      exact hat.read_data hrest
  | @drained id k hk t ht c hrest =>
    cases hstep with
    | life hs =>
      refine h.read hs hlen hk (fun _ _ he => by cases he) (fun _ _ he => by cases he)
        (fun _ he => by cases he) (fun task ht' => ?_) _
      obtain ⟨sent, calls, calls', hat, hcall, hsent, hcalls⟩ := reads hs hk ht
      rw [hs.writer_stopped] at ht' hcall
      cases ht'
      obtain ⟨n, rfl⟩ := hcall.of_stop (by rw [ht]; simp)
      rw [hsent, LifeEvent.appended_of_quiet (fun _ he => by cases he), List.append_nil, hcalls]
      exact (hat.drain hrest).stop n
  | other he =>
    cases hstep with
    | @life e _ hs =>
      have hquiet := he e rfl
      refine h.quiet hs hlen ?_ ?_ ?_ _
      · rintro i x rfl
        cases hquiet
      · rintro i buf rfl
        cases hquiet
      · rintro ⟨rfl, -⟩
        cases hquiet
    | fill | write => exact ⟨h.length, h.writers⟩
    | copied ht hc hd hb hs =>
      exact h.quiet hs hlen (fun _ _ he => by cases he) (fun _ _ he => by cases he)
        (fun he => by cases he.1) _

omit h in
theorem new (target dist cycles : Nat) : Follows gameId (Intake.new target dist cycles : Intake R) :=
  ⟨rfl, fun _ _ _ hk => by cases hk⟩

/-- what was taken from a writer is from its stream -/
theorem sends (hlen : w.broadcast.life.session.conns.length = w.broadcast.life.writers.length)
    (hne : w.broadcast.life.session.sent id ≠ []) : ∃ k ∈ w.connections, ∃ header tail,
      SendsReplay gameId (rest k.wire) header (w.broadcast.life.session.sent id ++ tail) := by
  have hlt : id < w.connections.length := by
    by_contra hge
    refine hne ?_
    unfold Session.sent
    rw [List.getElem?_eq_none]
    rw [hlen, ← h.length]
    exact not_lt.mp hge
  have hk := List.getElem?_eq_getElem hlt
  obtain ⟨task, -, hat⟩ := h.task_of_connection hk
  refine ⟨_, List.mem_of_getElem? hk, ?_⟩
  generalize w.broadcast.life.session.sent id = sent at hat hne ⊢
  cases hat with
  | header | refused => exact absurd rfl hne
  | data hs => exact ⟨_, _, hs⟩
  | done hs => exact ⟨_, _, hs⟩

/-- a header that was reported is from the stream of a writer -/
theorem header_sent {target dist : Nat} {m : State} (hm : w.broadcast.life.Sound target dist m)
    {x : ReplayHeader} (hx : w.broadcast.life.session.merged.header = some x) :
    ∃ k ∈ w.connections, ∃ data, SendsReplay gameId (rest k.wire) x.data data := by
  obtain ⟨m', hrun, ht⟩ := hm.conforming.tracks
  rw [ht.rel.merged_header, (State.run_reports hrun).header] at hx
  obtain ⟨a, ha, hreport⟩ := List.exists_of_findSome?_eq_some hx
  obtain ⟨call, hcall, haction⟩ := List.mem_filterMap.mp ha
  obtain ⟨i, rfl⟩ : ∃ i, a = .header i x := by
    cases a <;> cases hreport
    exact ⟨_, rfl⟩
  obtain ⟨id, rfl⟩ : ∃ id, call = .writer id (.header i x) := by
    cases call <;> cases haction
    exact ⟨_, rfl⟩
  have hmem : Action.header i x ∈ callsOf id w.broadcast.life.log :=
    List.mem_filterMap.mpr ⟨_, hcall, if_pos rfl⟩
  have hlt : id < w.connections.length := by
    by_contra hge
    have hcalls := hm.writers id
    rw [List.getElem?_eq_none (by rw [← h.length]; exact not_lt.mp hge)] at hcalls
    rw [hcalls.no_calls] at hmem
    cases hmem
  have hk := List.getElem?_eq_getElem hlt
  obtain ⟨task, -, hat⟩ := h.task_of_connection hk
  refine ⟨_, List.mem_of_getElem? hk, ?_⟩
  generalize callsOf id w.broadcast.life.log = calls at hat hmem
  generalize w.broadcast.life.session.sent id = sent at hat
  cases hat with
  | header _ _ hc | refused _ hc => exact absurd hmem (hc i x)
  | data hs _ hc | done hs _ hc =>
    rw [hc i x hmem]
    exact ⟨_, hs⟩

/-- all of a stream that came to its end was taken -/
theorem drained (hk : w.connections[id]? = some k) (hd : k.drained = true) :
    ∃ header, SendsReplay gameId (rest k.wire) header (w.broadcast.life.session.sent id) := by
  obtain ⟨task, -, hat⟩ := h.task_of_connection hk
  generalize w.broadcast.life.session.sent id = sent at hat ⊢
  cases hat with
  | header _ hd' | data _ hd' | refused hd' =>
    rw [hd] at hd'
    cases hd'
  | done hs htail =>
    rw [htail hd, List.append_nil] at hs
    exact ⟨_, hs⟩

/-- every merged byte is from the stream of a writer -/
theorem byte_sent {target dist : Nat} {m : State} (hm : w.broadcast.life.Sound target dist m) {i : Nat}
    (hi : i < w.broadcast.life.session.canon.length) : ∃ k ∈ w.connections, ∃ header sent,
      SendsReplay gameId (rest k.wire) header sent ∧ sent[i]? = w.broadcast.life.session.canon[i]? := by
  have ht := hm.tracks
  rw [ht.rel.canon_eq] at hi ⊢
  obtain ⟨id, hlt, hbyte⟩ := ht.sound.stream.bytes i hi
  have hsent := ht.rel.sent_eq id
  have hlt' : i < (w.broadcast.life.session.sent id).length := by
    rw [hsent]
    exact hlt
  obtain ⟨k, hk, header, tail, hsends⟩ := h.sends hm.length_conns
    (List.length_pos_iff.mp (Nat.zero_lt_of_lt hlt'))
  refine ⟨k, hk, header, _, hsends, ?_⟩
  rw [List.getElem?_append_left hlt', hsent, hbyte]

/-- where the streams agree, so does what was taken from them -/
theorem agree (hlen : w.broadcast.life.session.conns.length = w.broadcast.life.writers.length)
    {D : List UInt8} (hD : ∀ k ∈ w.connections, ∀ x sent,
      SendsReplay gameId (rest k.wire) x sent → sent <+: D) :
    ∀ c ∈ w.broadcast.life.session.conns, c.sent <+: D := by
  intro c hc
  obtain ⟨id, hid⟩ := List.getElem?_of_mem hc
  have hsent : w.broadcast.life.session.sent id = c.sent := by rw [Session.sent, hid]
  by_cases hne : c.sent = []
  · rw [hne]
    exact List.nil_prefix
  · rw [← hsent] at hne ⊢
    obtain ⟨k, hk, header, tail, hsends⟩ := h.sends hlen hne
    exact (List.prefix_append _ _).trans (hD k hk _ _ hsends)

end Follows

end

/-! ## from the wire to the vault -/

section
variable [Tokio] {R : Type} [AsyncBufRead R] {gameId target dist cycles : Nat} {w w' : Intake R}
  {evs evs' : List (IntakeEvent R)}

theorem broadcast_of_run (h : Lts.Run (Step gameId) w evs w') :
    ∃ es, Lts.Run Broadcast.Step w.broadcast es w'.broadcast := by
  induction h with
  | nil => exact ⟨[], .nil _⟩
  | snoc _ hs ih =>
    obtain ⟨es, hes⟩ := ih
    obtain ⟨e, -, he⟩ := hs
    exact ⟨es ++ [e], hes.snoc he⟩

theorem follows_of_run (h : Lts.Run (Step gameId) (new target dist cycles) evs w) :
    Follows gameId w := by
  induction h with
  | nil => exact .new target dist cycles
  | snoc hr hs ih =>
    obtain ⟨es, hes⟩ := broadcast_of_run hr
    obtain ⟨m, hm⟩ := Broadcast.follows_of_run hes
    exact ih.step hm hs

/-- **from the wire to the vault**: a save that succeeds leaves the header of some writer and data of
the writers, all of it if they agree, and the readers get the same -/
theorem whole_way (h : Lts.Run (Step gameId) (new target dist cycles) evs w)
    (hl : w.broadcast.life.lifetime = .saving) (h' : Lts.Run (Step gameId) w evs' w')
    {saver : InnerReplaySaver} {v v' : World} {s : Save} (hid : s.id = gameId)
    (hr : s.replay = w.broadcast.life.session.merged)
    (hs : saver.saveReplayToDisk v s = .ok (v', true)) :
    ∃ p jsonHeader json header data, saver.saveDir.replayFile gameId = .ok p ∧
      ReplayJsonHeader.fromIdAndDb v.db s.answers gameId = .ok jsonHeader ∧
      saver.codecs.toJson jsonHeader = .ok json ∧ v'.vault.files p =
        some ⟨json ++ [10] ++ saver.codecs.zstd saver.compressionLevel (header ++ data), true⟩ ∧
      (∃ k ∈ w.connections, ∃ sent, SendsReplay gameId (rest k.wire) header sent) ∧
      (∀ i < data.length, ∃ k ∈ w.connections, ∃ x sent,
        SendsReplay gameId (rest k.wire) x sent ∧ sent[i]? = data[i]?) ∧
      (∀ t ∈ w'.broadcast.tasks, t.written <+: header ++ data ∧
        (t.sending = .copied → t.written = header ++ data)) ∧
      ∀ D, (∀ k ∈ w.connections, ∀ x sent, SendsReplay gameId (rest k.wire) x sent → sent <+: D) →
        data <+: D ∧ ∀ k ∈ w.connections, k.drained = true →
          ∀ x sent, SendsReplay gameId (rest k.wire) x sent → sent <+: data := by
  subst hid
  obtain ⟨es, hes⟩ := broadcast_of_run h
  obtain ⟨es', hes'⟩ := broadcast_of_run h'
  obtain ⟨m, hm⟩ := Broadcast.follows_of_run hes
  obtain ⟨m', hm'⟩ := Broadcast.follows_of_run (hes.append hes')
  have hf := follows_of_run h
  have ht := hm.sound.tracks
  have hmerged : w.broadcast.life.lifetime.merged = true := by rw [hl]; rfl
  have hfin : w.broadcast.life.session.finished = true :=
    ht.rel.finished.trans (hm.sound.finished.trans hmerged)
  obtain ⟨⟨p, jsonHeader, json, hp, hdb, hjson, hfile⟩, -, hheader⟩ :=
    Broadcast.saved_stream hes hl hr hs
  obtain ⟨x, hx⟩ := Option.ne_none_iff_exists'.mp hheader
  have hstream : s.replay.stream = x.data ++ w.broadcast.life.session.canon := by
    unfold MergedReplay.stream
    rw [hx, hr]
    rfl
  rw [hstream] at hfile
  rw [hr] at hx
  refine ⟨p, jsonHeader, json, x.data, w.broadcast.life.session.canon, hp, hdb, hjson, hfile,
    hf.header_sent hm.sound hx, fun i hi => hf.byte_sent hm.sound hi, fun t htask => ?_,
    fun D hD => ?_⟩
  · rw [← hstream, hr, ← (Broadcast.merged_of_run hes hmerged hes').1, hm'.rel.stream]
    exact ⟨(hm'.tasks t htask).prefix_stream, fun hc => ((hm'.tasks t htask).whole hc).2⟩
  · have hagree := hf.agree hm.sound.length_conns hD
    refine ⟨?_, fun k hk hd y sent hsends => ?_⟩
    · rw [ht.rel.canon_eq]
      exact canon_of_honest ht.sound.stream (ht.rel.honest hagree)
    · obtain ⟨id, hid⟩ := List.getElem?_of_mem hk
      obtain ⟨header, hall⟩ := hf.drained hid hd
      rw [(hsends.unique hall).2]
      exact ht.all_merged hagree hfin id

end

/-! ## an execution -/

/-- the connection header and the replay header of a writer, in pieces -/
def twoHeaders : List (List UInt8) :=
  [[80, 47, 49, 47, 102], [111, 0, 83, 0, 1, 2], [3, 0, 1, 2, 3, 4, 1, 0, 0, 0, 7, 0, 0],
    [0, 0, 1, 65, 0, 5, 0, 0, 0, 1, 2, 0, 0, 0, 0, 255, 1, 0, 0, 0, 6, 3, 4, 1, 2, 3, 4]]

/-- two writers, one of which sends less, and a reader, up to the save -/
def twoWritersRun : List (IntakeEvent Pieces) :=
  [.other (.life .lifetime), .accept ⟨twoHeaders ++ [[1, 2], [3]]⟩,
    .accept ⟨[[71, 47, 49, 47, 97, 0]]⟩, .accept ⟨[twoHeaders.flatten ++ [1, 2]]⟩, .readHeader 0,
    .readHeader 1, .readData 0, .readData 1, .other (.life (.cycle 0)), .other (.life (.cycle 1)),
    .readData 1, .readData 0, .readData 0] ++
  ([.newCount, .timer, .newCount, .timer].map fun e => .other (.life e))

def twoWritersRest : List (IntakeEvent Pieces) :=
  [.fill 0 64, .fill 0 64, .write 0 47, .fill 0 64, .copied 0, .life .saved].map .other

theorem whole_way_twoWriters : ∃ w w' v' p header, Lts.Run (Step 1) (new 2 3 1) twoWritersRun w ∧
    Lts.Run (Step 1) w twoWritersRest w' ∧
    InnerReplaySaver.plainSaver.saveReplayToDisk InnerReplaySaver.oneGame
      (Broadcast.saveOf w.broadcast) = .ok (v', true) ∧
    v'.vault.files p = some ⟨[123, 125] ++ [10] ++ (header ++ [1, 2, 3]), true⟩ ∧
    (∃ k ∈ w.connections, ∃ sent, SendsReplay 1 (rest k.wire) header sent) ∧
    ∃ t ∈ w'.broadcast.tasks, t.written = header ++ [1, 2, 3] := by
  have hsome : (twoWritersRun.foldlM (next 1) (new 2 3 1)).map (fun w =>
      (decide (w.broadcast.life.lifetime = .saving ∧
        w.connections.map WriterConnection.drained = [true, true]),
        (List.range 2).map w.broadcast.life.session.sent,
        (twoWritersRest.foldlM (next 1) w).map (fun w' =>
          decide (w'.broadcast.tasks.map SendTask.sending = [.copied])),
        (InnerReplaySaver.plainSaver.saveReplayToDisk InnerReplaySaver.oneGame
          (Broadcast.saveOf w.broadcast)).toOption.map Prod.snd)) =
      some (true, [[1, 2, 3], [1, 2]], some true, some true) := by
    decide +kernel
  obtain ⟨w, hw, hf⟩ := Option.map_eq_some_iff.mp hsome
  obtain ⟨hdone, hf⟩ := Prod.mk.inj hf
  obtain ⟨hl, hdrained⟩ := of_decide_eq_true hdone
  obtain ⟨hsent, hf⟩ := Prod.mk.inj hf
  obtain ⟨hrest, hsave⟩ := Prod.mk.inj hf
  obtain ⟨w', hw', hcopied⟩ := Option.map_eq_some_iff.mp hrest
  obtain ⟨⟨v', saved⟩, hs, hsaved⟩ := Option.map_eq_some_iff.mp hsave
  cases hsaved
  have hrun := Lts.Run.of_foldlM (fun _ _ _ => step_of_next) hw
  have hrun' := Lts.Run.of_foldlM (fun _ _ _ => step_of_next) hw'
  have hok := eq_ok_of_toOption hs
  obtain ⟨p, jsonHeader, json, header, data, -, -, hjson, hfile, hheader, -, hreaders, hagree⟩ :=
    whole_way hrun hl hrun' rfl rfl hok
  cases hjson
  obtain ⟨hsent0, hsent⟩ := List.cons.inj hsent
  obtain ⟨hsent1, -⟩ := List.cons.inj hsent
  -- both writers are read to their ends
  have hall : ∀ (id : Nat) k, w.connections[id]? = some k → id < 2 ∧ k.drained = true := by
    intro id k hk
    have hget : ([true, true] : List Bool)[id]? = some k.drained := by
      rw [← hdrained, List.getElem?_map, hk]
      rfl
    obtain ⟨hlt, hget⟩ := List.getElem?_eq_some_iff.mp hget
    refine ⟨hlt, List.eq_of_mem_replicate (a := true) (n := 2) ?_⟩
    rw [← hget]
    exact List.getElem_mem hlt
  have hdata : ∀ k ∈ w.connections, ∀ x sent, SendsReplay 1 (rest k.wire) x sent →
      sent <+: [1, 2, 3] := by
    intro k hk x sent hsends
    obtain ⟨id, hid⟩ := List.getElem?_of_mem hk
    obtain ⟨hlt, hd⟩ := hall id k hid
    obtain ⟨y, hy⟩ := (follows_of_run hrun).drained hid hd
    rw [(hsends.unique hy).2]
    obtain rfl | rfl : id = 0 ∨ id = 1 := by omega
    · rw [show w.broadcast.life.session.sent 0 = [1, 2, 3] from hsent0]
    · rw [show w.broadcast.life.session.sent 1 = [1, 2] from hsent1]
      exact List.prefix_append [1, 2] [3]
  obtain ⟨hle, hge⟩ := hagree [1, 2, 3] hdata
  have hlt : 0 < w.connections.length := by
    have hlen := congrArg List.length hdrained
    rw [List.length_map] at hlen
    rw [hlen]
    exact Nat.two_pos
  have h0 := List.getElem?_eq_getElem hlt
  obtain ⟨x, hx⟩ := (follows_of_run hrun).drained h0 (hall 0 _ h0).2
  have hle' := hge _ (List.mem_of_getElem? h0) (hall 0 _ h0).2 x _ hx
  rw [hsent0] at hle'
  obtain rfl : data = [1, 2, 3] := hle.eq_of_length_le hle'.length_le
  have hmem : Sending.copied ∈ w'.broadcast.tasks.map SendTask.sending := by
    rw [of_decide_eq_true hcopied]
    exact List.mem_cons_self
  obtain ⟨t, ht, hc⟩ := List.mem_map.mp hmem
  exact ⟨w, w', v', p, header, hrun, hrun', hok, hfile, hheader, t, ht, (hreaders t ht).2 hc⟩

end Intake

end ReplayServer
