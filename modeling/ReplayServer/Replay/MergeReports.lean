import ReplayServer.Replay.MergeStream

/-!
# replay: the abstract model, what the actions of a run say

* `step_frame`       only the direct part of a step changes what the writers report;
* `step_shown`       what a step changes of what a writer shows of its replay;
* `step_delayed`     a delayed position is the last one that was reported;
* `step_header`      the first header stays;
* `Reports.step`     both along a run.
-/

set_option linter.unusedSectionVars false

namespace ReplayServer
namespace Merge
open Agree Relation

theorem frame_dataUpdated (m : State) (ord : IterOrder) (id : Nat) :
    Core.Frame m.core (m.dataUpdated ord id).core := by
  cases m with
  | quorum q =>
    show Core.Frame q.core (q.dataUpdated ord id).core
    unfold Quorum.dataUpdated
    split
    · exact Core.frame_advance _
    · exact Core.Frame.refl _
  | stalemate t =>
    have hf := evaluateIf_frame t id
    show Core.Frame t.core (t.dataUpdated id).core
    unfold Stalemate.dataUpdated
    dsimp only
    split
    · exact ⟨hf.dist, hf.target, hf.length, hf.data, hf.header, hf.delayed, hf.finished, hf.matching,
        hf.grow, hf.canonHeader, hf.canonFinished⟩
    · exact hf

theorem frame_replayEnded (m : State) (id : Nat) : Core.Frame m.core (m.replayEnded id).core := by
  cases m with
  | quorum q => exact Core.Frame.refl _
  | stalemate t => exact evaluateIf_frame t id

theorem step_frame {m : State} (h : m.WF) {a : Action} (ords : Nat → IterOrder) (ha : m.allowed a) :
    Core.Frame (m.direct (ords 0) a).core (m.step ords a).core := by
  unfold State.step
  split
  · have hm : Micros (fun _ => True) (fun _ _ => True) m (m.direct (ords 0) a) :=
      direct_micros (ords 0) ha (fun _ => trivial)
    exact (State.work_frame (Micros.wf h hm) ords _).1
  · exact Core.Frame.refl _

/-! ## what the writers show -/

/-- what is known of a replay without the strategy -/
structure Shown where
  data : List UInt8
  header : Option ReplayHeader
  delayed : Nat
  finished : Bool

def Replay.shown (r : Replay) : Shown := ⟨r.data, r.header, r.delayed, r.finished⟩

/-- an action, seen by the replay `j` -/
def Shown.report (r : Shown) (j : Nat) : Action → Shown
  | .header id x => if id = j then { r with header := some x } else r
  | .data id buf => if id = j then { r with data := r.data ++ buf } else r
  | .delayed id n => if id = j then { r with delayed := n } else r
  | .ended id => if id = j then { r with finished := true } else r
  | .added | .updated _ | .finish => r

theorem Core.Frame.shown {c c' : Core} (h : Core.Frame c c') (j : Nat) :
    (c'.get j).shown = (c.get j).shown := by
  unfold Replay.shown
  rw [h.data, h.header, h.delayed, h.finished]

theorem shown_modify {c : Core} {id : Nat} (hid : id < c.replays.length) {f : Replay → Replay}
    (g : Shown → Shown) (hf : ∀ r : Replay, (f r).shown = g r.shown) (j : Nat) :
    ((c.modify id f).get j).shown = if id = j then g (c.get j).shown else (c.get j).shown := by
  by_cases hj : id = j
  · subst hj
    rw [if_pos rfl, Core.get_modify_self hid, hf]
  · rw [if_neg hj, Core.get_modify_ne (Ne.symm hj)]

/-- **a step shows of every replay what its action reports** -/
theorem step_shown {m : State} (h : m.WF) {a : Action} (ords : Nat → IterOrder) (ha : m.allowed a)
    (j : Nat) : ((m.step ords a).core.get j).shown = (m.core.get j).shown.report j a := by
  rw [(step_frame h ords ha).shown]
  cases a with
  | added =>
    show (m.addReplay.core.get j).shown = _
    rw [addReplay_core, Core.get_addReplay]
    rfl
  | header id x =>
    obtain ⟨_, _, _, he⟩ := addHeader_eq (m.modify id (fun r => { r with header := some x })).core x
    show (((m.modify id (fun r => { r with header := some x })).mapCore
      (fun c => State.addHeader c x)).core.get j).shown = _
    rw [mapCore_core, he, modify_core]
    exact shown_modify ha.1.1 (fun r => { r with header := some x }) (fun _ => rfl) j
  | data id buf =>
    show ((m.modify id _).core.get j).shown = _
    rw [modify_core]
    exact shown_modify ha.1.1 (fun r => { r with data := r.data ++ buf }) (fun _ => rfl) j
  | delayed id n =>
    have hf := (frame_dataUpdated (m.modify id (fun r => { r with delayed := n })) (ords 0) id).shown j
    rw [modify_core] at hf
    exact hf.trans (shown_modify ha.1.1 (fun r => { r with delayed := n }) (fun _ => rfl) j)
  | updated id => exact (frame_dataUpdated m (ords 0) id).shown j
  | ended id =>
    have hf := (frame_replayEnded (m.modify id (fun r => { r with finished := true })) id).shown j
    rw [modify_core] at hf
    exact hf.trans (shown_modify ha.1.1 (fun r => { r with finished := true }) (fun _ => rfl) j)
  | finish =>
    show ((m.mapCore _).core.get j).shown = _
    rw [mapCore_core]
    rfl

theorem step_delayed {m : State} (h : m.WF) {a : Action} (ords : Nat → IterOrder)
    (ha : m.allowed a) (j : Nat) :
    ((m.step ords a).core.get j).delayed = (m.core.get j).delayed ∨
      a = .delayed j ((m.step ords a).core.get j).delayed := by
  have hs : ((m.step ords a).core.get j).delayed = ((m.core.get j).shown.report j a).delayed :=
    congrArg Shown.delayed (step_shown h ords ha j)
  rw [hs]
  cases a with
  | delayed id n =>
    by_cases hj : id = j
    · subst hj
      refine Or.inr ?_
      rw [Shown.report, if_pos rfl]
    · refine Or.inl ?_
      rw [Shown.report, if_neg hj]
      rfl
  | header id x =>
    refine Or.inl ?_
    rw [Shown.report]
    split <;> rfl
  | data id buf =>
    refine Or.inl ?_
    rw [Shown.report]
    split <;> rfl
  | ended id =>
    refine Or.inl ?_
    rw [Shown.report]
    split <;> rfl
  | added => exact Or.inl rfl
  | updated id => exact Or.inl rfl
  | finish => exact Or.inl rfl

/-! ## what a run says -/

theorem step_header {m : State} (h : m.WF) {a : Action} (ords : Nat → IterOrder)
    (ha : m.allowed a) :
    (m.step ords a).core.canon.header = m.core.canon.header.or a.reportedHeader := by
  rw [(step_frame h ords ha).canonHeader]
  have hkeep : ∀ x : Option ReplayHeader, x = m.core.canon.header → x = m.core.canon.header.or none :=
    fun _ hx => hx.trans Option.or_none.symm
  cases a with
  | added =>
    refine hkeep _ ?_
    show m.addReplay.core.canon.header = _
    rw [addReplay_core]
  | header id x =>
    show ((m.modify id (fun r => { r with header := some x })).mapCore
      (fun c => State.addHeader c x)).core.canon.header = m.core.canon.header.or (some x)
    rw [mapCore_core, addHeader_header, modify_core]
    show some (m.core.canon.header.getD x) = _
    cases m.core.canon.header <;> rfl
  | data id buf =>
    refine hkeep _ ?_
    show (m.modify id _).core.canon.header = _
    rw [modify_core]
    rfl
  | delayed id n =>
    refine hkeep _ ?_
    have hf := frame_dataUpdated (m.modify id (fun r => { r with delayed := n })) (ords 0) id
    rw [modify_core] at hf
    exact hf.canonHeader
  | updated id => exact hkeep _ (frame_dataUpdated m (ords 0) id).canonHeader
  | ended id =>
    refine hkeep _ ?_
    have hf := frame_replayEnded (m.modify id (fun r => { r with finished := true })) id
    rw [modify_core] at hf
    exact hf.canonHeader
  | finish =>
    refine hkeep _ ?_
    show (m.mapCore _).core.canon.header = _
    rw [mapCore_core]
    rfl

/-- the state shows what was reported on the way to it -/
structure Reports (acts : List Action) (m : State) : Prop where
  delayed : ∀ id, (m.core.get id).delayed = 0 ∨ .delayed id (m.core.get id).delayed ∈ acts
  header : m.core.canon.header = acts.findSome? Action.reportedHeader

theorem new_reports (target dist : Nat) : Reports [] (State.new target dist) :=
  ⟨fun _ => Or.inl rfl, rfl⟩

theorem Reports.step {acts : List Action} {m : State} (h : Reports acts m) (hw : m.WF) {a : Action}
    (ords : Nat → IterOrder) (ha : m.allowed a) : Reports (acts ++ [a]) (m.step ords a) := by
  refine ⟨fun id => ?_, ?_⟩
  · rcases step_delayed hw ords ha id with he | he
    · rw [he]
      exact (h.delayed id).imp_right (fun hm => List.mem_append_left _ hm)
    · exact Or.inr (List.mem_append_right _ (List.mem_singleton.mpr he.symm))
  · rw [step_header hw ords ha, h.header, List.findSome?_append]
    congr 1
    rw [List.findSome?_singleton]

end Merge

end ReplayServer
