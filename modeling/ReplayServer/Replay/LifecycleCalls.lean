import ReplayServer.Replay.Lifecycle
import ReplayServer.Replay.RefineRun

/-!
# replay: what the connections of one replay call

* `WriterCalls`  the calls of one writer, by where its `handle_connection` is;
* `WriterAt`     the same, next to what the writer shows of its replay;
* `Ran`          some calls of one writer, in the session and in the abstract model.
-/

set_option linter.unusedSectionVars false

namespace ReplayServer
open Fallible Merge

/-! ## the calls of one writer -/

/-- a call of the strategy, as an action of the session -/
def Call.action : Call → Option Action
  | .writer _ a => some a
  | .finish => some .finish
  | .save => none

def Call.ofWriter (id : Nat) : Call → Option Action
  | .writer token a => if token = id then some a else none
  | .finish | .save => none

def callsOf (id : Nat) (log : List Call) : List Action := log.filterMap (Call.ofWriter id)

/-- the length of the data in an action -/
def Action.dataLen : Action → Nat
  | .data _ buf => buf.length
  | _ => 0

/-- how much data came in -/
def received (calls : List Action) : Nat := (calls.map Action.dataLen).sum

/-- data and updates -/
def Updates (id : Nat) (calls : List Action) : Prop :=
  ∀ a ∈ calls, (∃ buf, a = .data id buf) ∨ ∃ n, a = .delayed id n

/-- the calls of a writer up to where it is -/
inductive WriterCalls (id : Nat) : WriterTask → List Action → Prop where
  | header : WriterCalls id .header [.added]
  | data {t : TimestampLoop} {x : ReplayHeader} {us : List Action} (hu : Updates id us) :
      WriterCalls id (.data t) (.added :: .header id x :: us)
  | done {task : WriterTask} {calls : List Action} (h : WriterCalls id task calls)
      (ha : task.active = true) :
      WriterCalls id .done (calls ++ [.delayed id (received calls), .ended id])

theorem received_append (as bs : List Action) : received (as ++ bs) = received as + received bs := by
  unfold received
  rw [List.map_append, List.sum_append]

theorem Updates.append {id : Nat} {us : List Action} (h : Updates id us) {a : Action}
    (ha : (∃ buf, a = .data id buf) ∨ ∃ n, a = .delayed id n) : Updates id (us ++ [a]) := by
  intro b hb
  rcases List.mem_append.mp hb with hb | hb
  · exact h b hb
  · rw [List.mem_singleton.mp hb]
    exact ha

/-- what holds of a writer, of what it shows of its replay and of its calls -/
inductive WriterAt (id : Nat) : Option WriterTask → Shown → List Action → Prop where
  | absent : WriterAt id none ⟨[], none, 0, false⟩ []
  | header : WriterAt id (some .header) ⟨[], none, 0, false⟩ [.added]
  | data {t : TimestampLoop} {x : ReplayHeader} {r : Shown} {us : List Action} (hu : Updates id us)
      (hlen : received us = r.data.length) (hh : r.header = some x) (hf : r.finished = false)
      (hd : t.prevDelayed = r.delayed) (hq : t.posQueue.Between r.delayed r.data.length) :
      WriterAt id (some (.data t)) r (.added :: .header id x :: us)
  | done {r : Shown} {calls : List Action} (hc : WriterCalls id .done calls)
      (hf : r.finished = true) : WriterAt id (some .done) r calls

namespace WriterAt
variable {id : Nat} {task : WriterTask} {r : Shown} {calls : List Action}

theorem writerCalls (h : WriterAt id (some task) r calls) : WriterCalls id task calls := by
  cases h with
  | header => exact .header
  | data hu => exact .data hu
  | done hc => exact hc

theorem active (h : WriterAt id (some task) r calls) (ha : task.active = true) :
    r.finished = false ∧ received calls = r.data.length := by
  cases h with
  | header => exact ⟨rfl, rfl⟩
  | data hu hlen hh hf =>
    refine ⟨hf, ?_⟩
    rw [← hlen]
    show 0 + (0 + received _) = _
    omega
  | done => cases ha

theorem finished (h : WriterAt id (some .done) r calls) : r.finished = true := by
  cases h with
  | done _ hf => exact hf

theorem no_calls (h : WriterAt id none r calls) : calls = [] := by
  cases h with
  | absent => rfl

theorem added (h : WriterAt id none r calls) :
    WriterAt id (some .header) (r.report id .added) (calls ++ [.added]) := by
  cases h with
  | absent => exact .header

theorem no_header (h : WriterAt id (some .header) r calls) : r.header = none := by
  cases h with
  | header => rfl

theorem read (h : WriterAt id (some .header) r calls) (x : ReplayHeader) (historySize : Nat) :
    WriterAt id (some (.data (.new historySize))) (r.report id (.header id x))
      (calls ++ [.header id x]) := by
  cases h with
  | header =>
    rw [Shown.report, if_pos rfl]
    exact .data (fun _ h => absurd h List.not_mem_nil) rfl rfl rfl rfl (PositionHistory.new_between _ _ _)

variable {t : TimestampLoop}

theorem timestamp (h : WriterAt id (some (.data t)) r calls) : r.header ≠ none ∧
    t.prevDelayed = r.delayed ∧ t.posQueue.Between r.delayed r.data.length := by
  cases h with
  | data hu hlen hh hf hd hq =>
    refine ⟨?_, hd, hq⟩
    rw [hh]
    exact Option.some_ne_none _

theorem got (h : WriterAt id (some (.data t)) r calls) (buf : List UInt8) :
    WriterAt id (some (.data t)) (r.report id (.data id buf)) (calls ++ [.data id buf]) := by
  cases h with
  | data hu hlen hh hf hd hq =>
    rw [Shown.report, if_pos rfl]
    refine .data (hu.append (Or.inl ⟨buf, rfl⟩)) ?_ hh hf hd ?_
    · show received (_ ++ [_]) = _
      rw [received_append, hlen]
      exact (List.length_append).symm
    · exact { hq with upper := fun x hx => (hq.upper x hx).trans (by rw [List.length_append]; omega) }

variable {q : PositionHistory} {d : Nat} (current : Nat)

theorem updated (h : WriterAt id (some (.data t)) r calls) (hq : q.Between d r.data.length) :
    WriterAt id (some (.data ⟨q, current, d⟩)) (r.report id (.delayed id d))
      (calls ++ [.delayed id d]) := by
  cases h with
  | data hu hlen hh hf _ _ =>
    rw [Shown.report, if_pos rfl]
    refine .data (hu.append (Or.inr ⟨d, rfl⟩)) ?_ hh hf rfl hq
    show received (_ ++ [_]) = _
    rw [received_append, hlen]
    rfl

theorem same (h : WriterAt id (some (.data t)) r calls) (hq : q.Between d r.data.length)
    (hd : d = t.prevDelayed) : WriterAt id (some (.data ⟨q, current, d⟩)) r calls := by
  cases h with
  | data hu hlen hh hf hd' _ =>
    subst hd
    refine .data hu hlen hh hf hd' ?_
    rw [← hd']
    exact hq

theorem stopped (h : WriterAt id (some task) r calls) (ha : task.active = true) :
    WriterAt id (some .done) ((r.report id (.delayed id r.data.length)).report id (.ended id))
      (calls ++ [.delayed id r.data.length, .ended id]) := by
  rw [← (h.active ha).2]
  refine .done (h.writerCalls.done ha) ?_
  rw [Shown.report, if_pos rfl, Shown.report, if_pos rfl]

end WriterAt

/-! ## the calls in the session -/

/-- what a writer does with its own replay -/
def Action.byWriter (id : Nat) : Action → Bool
  | .added => true
  | .header i _ | .data i _ | .delayed i _ | .updated i | .ended i => i == id
  | .finish => false

theorem report_of_ne {id j : Nat} {a : Action} (ha : a.byWriter id = true) (hj : j ≠ id) (r : Shown) :
    r.report j a = r := by
  cases a with
  | added => rfl
  | updated i => rfl
  | finish => rfl
  | header i x => exact if_neg (fun h => hj (h.symm.trans (beq_iff_eq.mp ha)))
  | data i buf => exact if_neg (fun h => hj (h.symm.trans (beq_iff_eq.mp ha)))
  | delayed i n => exact if_neg (fun h => hj (h.symm.trans (beq_iff_eq.mp ha)))
  | ended i => exact if_neg (fun h => hj (h.symm.trans (beq_iff_eq.mp ha)))

theorem foldl_report_of_ne {id j : Nat} {as : List Action} (ha : ∀ a ∈ as, a.byWriter id = true)
    (hj : j ≠ id) (r : Shown) : as.foldl (fun r a => r.report j a) r = r := by
  induction as with
  | nil => rfl
  | cons a as ih =>
    rw [List.foldl_cons, report_of_ne (ha a List.mem_cons_self) hj]
    exact ih (fun b hb => ha b (List.mem_cons_of_mem _ hb))

/-- the writer `id` did `as` since the log was `log` and the abstract state `m` -/
structure Ran (target dist : Nat) (log : List Call) (m : State) (id : Nat) (as : List Action)
    (s : Session) (m' : State) : Prop where
  tracks : s.Tracks m'
  targetEq : m'.core.target = target
  conforming : Session.Conforming target dist (log.filterMap Call.action ++ as) s
  own : ∀ a ∈ as, a.byWriter id = true
  shown : ∀ j, (m'.core.get j).shown = as.foldl (fun r a => r.report j a) (m.core.get j).shown
  length : m'.core.replays.length = m.core.replays.length + as.count .added
  finished : m'.core.canon.finished = m.core.canon.finished
  evolves : Evolves m.core m'.core

namespace Ran
variable {target dist : Nat} {log : List Call} {m m1 : State} {id : Nat} {as : List Action}

theorem call {l : ReplayLife} (h : Ran target dist log m id as l.session m1)
    (hlog : l.log = log ++ as.map (Call.writer id)) {a : Action} (ha : m1.allowed a)
    (hown : a.byWriter id = true) (ords : Nat → IterOrder) :
    ReturnsIf (0 < target) (l.call ords id a) (fun l' => ∃ s m2,
 l' = { l with session := s, log := log ++ (as ++ [a]).map (Call.writer id) } ∧
        Ran target dist log m id (as ++ [a]) s m2) := by
  have hallowed := (h.tracks.rel.allowed_iff a).mpr ha
  obtain ⟨_, hstep⟩ := h.tracks.step hallowed ords
  rw [h.targetEq] at hstep
  refine hstep.and_eq.bind (fun s hs => ?_)
  obtain ⟨hok, ht⟩ := hs
  have hev := Micros.evolves (State.step_micros_true h.tracks.sound.wf ords ha) h.tracks.sound.wf
  refine returnsIf_ok ⟨s, _, ?_, ht, hev.target.trans h.targetEq, ?_, ?_, fun j => ?_, ?_, ?_,
    h.evolves.trans hev⟩
  · rw [hlog, List.map_append, List.append_assoc]
    rfl
  · rw [← List.append_assoc]
    exact h.conforming.snoc ⟨hallowed, ords, hok⟩
  · intro b hb
    rcases List.mem_append.mp hb with hb | hb
    · exact h.own b hb
    · rw [List.mem_singleton.mp hb]
      exact hown
  · rw [step_shown h.tracks.sound.wf ords ha, h.shown, List.foldl_append]
    rfl
  · have hrest := (Session.step_rest hok).1
    rw [ht.rel.length, h.tracks.rel.length, h.length] at hrest
    rw [hrest, List.count_append, List.count_singleton, Nat.add_assoc]
    simp only [beq_iff_eq]
  · have hrest := (Session.step_rest hok).2
    have hne : decide (a = .finish) = false := by
      refine decide_eq_false ?_
      rintro rfl
      cases hown
    rw [ht.rel.finished, h.tracks.rel.finished, hne, Bool.or_false] at hrest
    exact hrest.trans h.finished

end Ran

theorem callsOf_append (id j : Nat) (log : List Call) (as : List Action) :
    callsOf j (log ++ as.map (Call.writer id)) = callsOf j log ++ if id = j then as else [] := by
  unfold callsOf
  rw [List.filterMap_append, List.filterMap_map]
  congr 1
  by_cases hj : id = j
  · subst hj
    rw [if_pos rfl]
    have e : Call.ofWriter id ∘ Call.writer id = some := by
      funext a
      exact if_pos rfl
    rw [e, List.filterMap_some]
  · rw [if_neg hj]
    have e : Call.ofWriter j ∘ Call.writer id = fun _ => none := by
      funext a
      exact if_neg hj
    rw [e, List.filterMap_eq_nil_iff]
    exact fun _ _ => rfl

theorem filterMap_action (id : Nat) (log : List Call) (as : List Action) :
    (log ++ as.map (Call.writer id)).filterMap Call.action = log.filterMap Call.action ++ as := by
  rw [List.filterMap_append, List.filterMap_map]
  congr 1
  exact List.filterMap_some

end ReplayServer
