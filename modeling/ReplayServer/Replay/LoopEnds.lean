import ReplayServer.Replay.Safety

/-!
# replay: the loop between quorum and stalemate ends

`work_state_until_stable` has no bound in the source.  A `Pass` is one iteration of its loop, with
any iteration order; a run of passes is what the loop does.

* `micro_covered`          the canonical data is never longer than the longest replay;
* `Working`                a strategy inside the loop, with the abstract state that it implements;
* `Working.terminates`     every run of passes is short, no pass fails, and the loop as it is
                           executed stops at a stable state;
* `Session.loop_ends`      this holds wherever a callback enters the loop.
-/

namespace ReplayServer
open Fallible Merge

/-! ## the canonical data never gets ahead -/

namespace Merge

theorem Core.longest_le {c : Core} {n : Nat} (h : ∀ id, c.len id ≤ n) : c.longest ≤ n := by
  have key : ∀ l : List Nat, (∀ x ∈ l, x ≤ n) → l.foldr max 0 ≤ n := by
    intro l
    induction l with
    | nil => simp
    | cons a l ih =>
      intro hl
      rw [List.foldr_cons]
      exact max_le (hl a List.mem_cons_self) (ih (fun x hx => hl x (List.mem_cons_of_mem _ hx)))
  apply key
  intro x hx
  obtain ⟨r, hr, rfl⟩ := List.mem_map.mp hx
  obtain ⟨i, hi, rfl⟩ := List.mem_iff_getElem.mp hr
  have hlen := h i
  unfold Core.len Core.get at hlen
  rw [List.getElem?_eq_getElem hi] at hlen
  exact hlen

theorem Evolves.longest {c c' : Core} (h : Evolves c c') : c.longest ≤ c'.longest :=
  Core.longest_le (fun id => (h.len id).trans (Core.len_le_longest c' id))

/-- a member of a quorum is at least as long as the canonical data -/
theorem Quorum.WF.covered {q : Quorum} (h : q.WF) : q.core.cl ≤ q.core.longest := by
  obtain ⟨id, hid⟩ := h.nonempty
  exact (h.members id hid).2.trans (Core.len_le_longest _ id)

section
variable {joins : State → Prop} {exits : Stalemate → IterOrder → Prop} {m m' : State}

/-- canonical data is appended by a new quorum only, which keeps up with it -/
theorem micro_covered (h : m.WF) (hc : m.core.cl ≤ m.core.longest) (hs : Micro joins exits m m') :
    m'.core.cl ≤ m'.core.longest := by
  have hlong := (micro_evolves h hs).longest
  have hwf := micro_wf h hs
  have same : m'.core.canon.data = m.core.canon.data → m'.core.cl ≤ m'.core.longest := by
    intro hd
    unfold Core.cl
    rw [hd]
    exact hc.trans hlong
  cases hs with
  | added _ hj hf =>
    apply same
    rw [addReplay_core]
  | header _ id x hl hh =>
    apply same
    rw [mapCore_core, modify_core]
    obtain ⟨_, _, _, he⟩ := addHeader_eq (m.core.modify id (fun r => { r with header := some x })) x
    rw [he]
    rfl
  | data _ id buf hl hh =>
    apply same
    rw [modify_core, Core.modify_canon]
  | delayed _ id n hl h1 h2 =>
    apply same
    rw [modify_core, Core.modify_canon]
  | ended _ id hl hd =>
    apply same
    rw [modify_core, Core.modify_canon]
  | evaluate t id hid =>
    apply same
    exact congrArg Canon.data (evaluate_canon t id).1
  | started t id hd => exact hc
  | update q ord => exact Quorum.WF.covered hwf
  | enter q hd => exact hc
  | exit t ord hx hx' => exact Quorum.WF.covered hwf
  | finish _ hall =>
    apply same
    rw [mapCore_core]
    rfl

theorem Micros.covered (h : Micros joins exits m m') (hw : m.WF) (hc : m.core.cl ≤ m.core.longest) :
    m'.core.cl ≤ m'.core.longest :=
  h.invariant (P := fun m => m.core.cl ≤ m.core.longest)
    (fun _ _ hw hc hs => micro_covered hw hc hs) hw hc

end

theorem State.new_covered (target dist : Nat) :
    (State.new target dist).core.cl ≤ (State.new target dist).core.longest :=
  Nat.zero_le _

/-- a quorum has used up the data of its stalemate -/
theorem State.change_cl_quorum {q : Quorum} {ord : IterOrder} :
    ((State.quorum q).change ord).core.cl = q.core.cl := by
  unfold Core.cl
  exact congrArg (fun c => c.data.length) (Stalemate.fromQuorum_frame ord q.core _).2.1

/-- a resolved stalemate adds at least the byte that was chosen -/
theorem State.change_cl_stalemate {t : Stalemate} (h : t.WF) {ord : IterOrder}
    (hc : t.canExit ord = true) : t.core.cl < ((State.stalemate t).change ord).core.cl := by
  have hr := resolved h ord (canExit_iff.mp hc).2.1
  have hgrow := (Quorum.merge_spec hr.base ord).frame.cl
  rw [hr.selected.core, hr.cl] at hgrow
  exact hgrow

end Merge

/-! ## the passes of the loop -/

namespace QuorumMergeStrategy

def Pass (σ : QuorumMergeStrategy) (ord : IterOrder) (σ' : QuorumMergeStrategy) : Prop :=
  σ.shouldChangeState ord = .ok true ∧ σ.changeState ord = .ok σ'

def Stable (σ : QuorumMergeStrategy) : Prop := ∀ ord, σ.shouldChangeState ord = .ok false

def canonDataLen (σ : QuorumMergeStrategy) : Nat :=
  match σ.shared with
  | .ok s => s.canonDataLen
  | .error _ => 0

/-- the length of the longest writer replay -/
def longestReplay (σ : QuorumMergeStrategy) : Nat :=
  match σ.shared with
  | .ok s => (s.replays.map (fun r => r.r.dataLen)).foldr max 0
  | .error _ => 0

/-- what a pass from `σ` to `σ'` does: it resolves a stalemate and the canonical data gets
longer, or it leaves a quorum and the canonical data stays -/
def Alternates : QuorumMergeStrategy → QuorumMergeStrategy → Prop
  | .stalemate t, .quorum q => t.s.canonDataLen < q.s.canonDataLen
  | .quorum q, .stalemate t => t.s.canonDataLen = q.s.canonDataLen
  | _, _ => False

/-- the loop that starts at `σ` ends -/
structure Terminates (σ : QuorumMergeStrategy) : Prop where
  bound : ∀ ords τ, Lts.Run Pass σ ords τ →
    ords.length ≤ 2 * (σ.longestReplay - σ.canonDataLen) + 2
  covered : ∀ ords τ, Lts.Run Pass σ ords τ →
    τ.longestReplay = σ.longestReplay ∧ τ.canonDataLen ≤ τ.longestReplay
  passes : ∀ ords τ, Lts.Run Pass σ ords τ → τ.Stable ∨ ∀ ord, ∃ τ', τ.Pass ord τ'
  alternates : ∀ ords τ, Lts.Run Pass σ ords τ → ∀ ord τ', τ.Pass ord τ' → Alternates τ τ'
  loop : ∀ ords, ∃ l τ, σ.workStateUntilStable ords = .ok τ ∧ Lts.Run Pass σ l τ ∧ τ.Stable

theorem workLoop_run {ords : Nat → IterOrder} {fuel : Nat} {σ τ : QuorumMergeStrategy}
    (h : workLoop ords fuel σ = .ok τ) :
    ∃ l, Lts.Run Pass σ l τ ∧ ∃ ord, τ.shouldChangeState ord = .ok false := by
  induction fuel generalizing σ with
  | zero =>
    unfold workLoop at h
    obtain ⟨b, hb, h⟩ := bind_eq_ok.mp h
    cases b with
    | true => cases h
    | false =>
      cases h
      exact ⟨[], .nil _, ords 0, hb⟩
  | succ fuel ih =>
    unfold workLoop at h
    obtain ⟨b, hb, h⟩ := bind_eq_ok.mp h
    cases b with
    | true =>
      obtain ⟨u, hu, h⟩ := bind_eq_ok.mp h
      obtain ⟨l, hl, hend⟩ := ih h
      exact ⟨[ords (fuel + 1)] ++ l, (Lts.Run.single ⟨hb, hu⟩).append hl, hend⟩
    | false =>
      cases h
      exact ⟨[], .nil _, ords (fuel + 1), hb⟩

/-! ## inside the loop -/

namespace Rel
variable {σ : QuorumMergeStrategy} {m : State} (h : σ.Rel m)
include h

theorem canonDataLen : σ.canonDataLen = m.core.cl := by
  obtain ⟨s, hs, hrel⟩ := h.shared
  unfold QuorumMergeStrategy.canonDataLen
  rw [hs]
  exact hrel.canonDataLen

theorem longestReplay : σ.longestReplay = m.core.longest := by
  obtain ⟨s, hs, hrel⟩ := h.shared
  unfold QuorumMergeStrategy.longestReplay Core.longest
  rw [hs]
  dsimp only
  rw [hrel.lens]

end Rel

end QuorumMergeStrategy

def Merge.State.Pass (m : State) (ord : IterOrder) (m' : State) : Prop :=
  m.shouldChange ord = true ∧ m' = m.change ord

namespace QuorumMergeStrategy

/-- a strategy inside the loop, and the abstract state that it implements -/
structure Working (σ : QuorumMergeStrategy) (m : State) : Prop where
  rel : σ.Rel m
  wf : m.WF
  unfinished : m.core.canon.finished = false
  target : 0 < m.core.target
  covered : m.core.cl ≤ m.core.longest

namespace Working
variable {σ σ' : QuorumMergeStrategy} {m m' : State} {ord : IterOrder}

theorem change (h : Working σ m) (hc : m.shouldChange ord = true) (hr : σ'.Rel (m.change ord)) :
    Working σ' (m.change ord) := by
  have hf := (State.change_frame h.wf hc).1
  have hm : Micros (fun _ => True) (fun _ _ => True) m (m.change ord) :=
    change_micros h.wf hc (fun _ _ => trivial)
  refine ⟨hr, State.change_wf h.wf hc, ?_, ?_, Micros.covered hm h.wf h.covered⟩
  · rw [hf.canonFinished]
    exact h.unfinished
  · rw [hf.target]
    exact h.target

theorem pass (h : Working σ m) (hp : Pass σ ord σ') : m.Pass ord (m.change ord) ∧
    Working σ' (m.change ord) := by
  obtain ⟨hs, hok⟩ := hp
  rw [h.rel.shouldChangeState h.wf] at hs
  have hc : m.shouldChange ord = true := Except.ok.inj hs
  exact ⟨⟨hc, rfl⟩, h.change hc ((h.rel.changeState h.wf hc h.unfinished).spec σ' hok)⟩

theorem run (h : Working σ m) {ords : List IterOrder} (hr : Lts.Run Pass σ ords σ') :
    ∃ m', Lts.Run State.Pass m ords m' ∧ Working σ' m' := by
  refine hr.simulation (fun τ m ord τ' hw hp => ?_) h
  exact ⟨_, (hw.pass hp).1, (hw.pass hp).2⟩

/-- the loop stops or goes on, and which of the two does not depend on the order -/
theorem stable_or_pass (h : Working σ m) : σ.Stable ∨ ∀ ord, ∃ τ, σ.Pass ord τ := by
  by_cases hs : m.Stable
  · left
    intro ord
    rw [h.rel.shouldChangeState h.wf, hs ord]
  · right
    intro ord
    obtain ⟨ord', hc⟩ := not_forall.mp hs
    rw [State.shouldChange_ord m ord' ord, Bool.not_eq_false] at hc
    obtain ⟨τ, hτ⟩ := (h.rel.changeState h.wf hc h.unfinished).ok h.target
    refine ⟨τ, ?_, hτ⟩
    rw [h.rel.shouldChangeState h.wf, hc]

theorem alternates (h : Working σ m) (hp : Pass σ ord σ') : Alternates σ σ' := by
  obtain ⟨⟨hc, -⟩, hw⟩ := h.pass hp
  have hcl := hw.rel.canonDataLen
  obtain ⟨hrel, hwf, -, -, -⟩ := h
  cases hrel with
  | @quorum s q hq =>
    obtain ⟨t, rfl, -⟩ := hw.rel.of_stalemate
    rw [State.change_cl_quorum, ← hq.shared.canonDataLen] at hcl
    exact hcl
  | @stalemate s t ht =>
    cases hw.rel with
    | @quorum s' q hq =>
      have hlt := State.change_cl_stalemate hwf hc
      rw [← hcl, ← ht.shared.canonDataLen] at hlt
      exact hlt

/-- **the loop ends** -/
theorem terminates (h : Working σ m) : Terminates σ where
  bound ords τ hr := by
    obtain ⟨m', hm, hw⟩ := h.run hr
    have hlen := hm.length_le (I := State.WF) (r := State.rank)
      (fun m ord m' hwf hp => by rw [hp.2]; exact State.change_wf hwf hp.1)
      (fun m ord m' hwf hp => by rw [hp.2]; exact State.change_rank hwf hp.1) h.wf
    have hfuel := State.rank_lt_fuel m
    rw [h.rel.longestReplay, h.rel.canonDataLen]
    unfold State.fuel at hfuel
    omega
  covered ords τ hr := by
    obtain ⟨m', hm, hw⟩ := h.run hr
    have hf : Core.Frame m.core m'.core := hm.closed (I := State.WF)
      (R := fun m m' => Core.Frame m.core m'.core)
      (fun m ord m' hwf hp => by rw [hp.2]; exact State.change_wf hwf hp.1)
      (fun m => Core.Frame.refl m.core) (fun _ _ _ => Core.Frame.trans)
      (fun m ord m' hwf hp => by rw [hp.2]; exact (State.change_frame hwf hp.1).1) h.wf
    rw [hw.rel.longestReplay, hw.rel.canonDataLen, h.rel.longestReplay]
    exact ⟨hf.longest, hw.covered⟩
  passes ords τ hr := by
    obtain ⟨m', -, hw⟩ := h.run hr
    exact hw.stable_or_pass
  alternates ords τ hr ord τ' hp := by
    obtain ⟨m', -, hw⟩ := h.run hr
    exact hw.alternates hp
  loop ords := by
    obtain ⟨τ, hτ⟩ := (h.rel.workStateUntilStable h.wf h.unfinished ords).ok h.target
    obtain ⟨l, hl, ord, hend⟩ := workLoop_run hτ
    refine ⟨l, τ, hτ, hl, ?_⟩
    obtain ⟨m', -, hw⟩ := h.run hl
    cases hw.stable_or_pass with
    | inl hs => exact hs
    | inr hp =>
      obtain ⟨_, hgo, -⟩ := hp ord
      rw [hend] at hgo
      cases hgo

end Working

end QuorumMergeStrategy

/-! ## wherever a callback enters the loop -/

namespace Session
open QuorumMergeStrategy

theorem Tracks.working {target dist : Nat} {acts : List Action} {s : Session} {m : State}
    (hrun : Lts.Run State.Step (State.new target dist) acts m) (ht : s.Tracks m) (hN : 0 < target)
    {a : Action} (ha : s.allowed a = true) (hs : settles a = true) (ord : IterOrder) :
    ∃ t, s.direct ord a = .ok t ∧ Working t.strategy (m.direct ord a) := by
  have hma := (ht.rel.allowed_iff a).mp ha
  have hnew := (Tracks.new target dist).sound
  have hm : Micros (fun _ => True) (fun _ _ => True) m (m.direct ord a) :=
    direct_micros ord hma (fun _ => trivial)
  have hall := (State.run_micros hnew hrun).trans hm
  obtain ⟨t, hok, hrel⟩ := ht.rel.direct ht.sound.toInv ht.sound.stream hma ord
  refine ⟨t, hok, hrel.strategy, Micros.wf hnew.wf hall, ?_, ?_, ?_⟩
  · exact ht.rel.not_finished_direct ht.sound.toEarly hma hs ord
  · rw [(Micros.evolves hall hnew.wf).target]
    exact hN
  · exact Micros.covered hall hnew.wf (State.new_covered target dist)

/-- **the loop ends in every callback of every run that follows the protocol** -/
theorem loop_ends {target dist : Nat} (hN : 0 < target) {acts : List Action} {s : Session}
    (h : Conforming target dist acts s) {a : Action} (ha : s.allowed a = true)
    (hs : settles a = true) (ord : IterOrder) :
    ∃ t, s.direct ord a = .ok t ∧ Terminates t.strategy := by
  obtain ⟨m, hrun, ht⟩ := h.tracks
  obtain ⟨t, hok, hw⟩ := Tracks.working hrun ht hN ha hs ord
  exact ⟨t, hok, hw.terminates⟩

/-- the callback that chooses the longer one of two replays -/
theorem loop_ends_contested : ∃ s t, Conforming 2 3 contestedRun.dropLast s ∧
    s.allowed (.delayed 1 1) = true ∧ s.direct default (.delayed 1 1) = .ok t ∧
    Terminates t.strategy := by
  obtain ⟨s, hs, ha⟩ := run_of_exec_map (fun _ => default) contestedRun.dropLast (.new 2 3)
    (fun s => s.allowed (.delayed 1 1)) (b := true) (by decide +kernel)
  obtain ⟨t, ht, hend⟩ := loop_ends (by decide) hs ha rfl default
  exact ⟨s, t, hs, ha, ht, hend⟩

end Session

end ReplayServer
