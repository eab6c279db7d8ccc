import ReplayServer.Replay.MergeInv
import Mathlib.Logic.Relation

/-!
# replay: the abstract model, its runs

A callback is a sequence of small steps: something happens to one writer replay, a reserve replay
is evaluated, the delayed position moves, the state changes.  `Micro` lists them once, and every
invariant over runs is proved by its cases.

* `step_micro`           a callback is a sequence of small steps;
* `micro_wf`             each of them keeps `State.WF`;
* `micro_evolves`        what can never be taken back: data, endings, canonical data, positions;
* `Micros.invariant`     the induction over runs.
-/

set_option linter.unusedSectionVars false

namespace ReplayServer
namespace Merge
open Agree Relation

/-! ## changing one replay -/

/-- the changes that a writer makes: more data, and nothing that the strategy keeps -/
def Grows (f : Replay → Replay) : Prop := ∀ r, (f r).matching = r.matching ∧ r.data <+: (f r).data

theorem grows_header (h : ReplayHeader) : Grows (fun r => { r with header := some h }) :=
  fun _ => ⟨rfl, List.prefix_refl _⟩

theorem grows_data (buf : List UInt8) : Grows (fun r => { r with data := r.data ++ buf }) :=
  fun _ => ⟨rfl, List.prefix_append _ _⟩

theorem grows_delayed (n : Nat) : Grows (fun r => { r with delayed := n }) :=
  fun _ => ⟨rfl, List.prefix_refl _⟩

theorem grows_finished : Grows (fun r => { r with finished := true }) :=
  fun _ => ⟨rfl, List.prefix_refl _⟩

namespace Core

theorem matching_modify {c : Core} {id j : Nat} {f : Replay → Replay} (hf : Grows f) :
    ((c.modify id f).get j).matching = (c.get j).matching :=
  get_modify_same Replay.matching (fun r => (hf r).1)

theorem prefix_modify {c : Core} {id j : Nat} {f : Replay → Replay} (hf : Grows f) :
    (c.get j).data <+: ((c.modify id f).get j).data :=
  get_modify_of (P := fun r => (c.get j).data <+: r.data) (List.prefix_refl _)
    (fun r hr => hr.trans (hf r).2)

theorem WF.modify {c : Core} (h : c.WF) {id : Nat} {f : Replay → Replay} (hf : Grows f) :
    (c.modify id f).WF := by
  refine ⟨h.delayed, fun j => ?_, fun j => ?_⟩
  · rw [matching_modify hf]
    exact h.matching j
  · rw [matching_modify hf]
    exact (h.reached j).trans (prefix_modify hf).length_le

theorem get_addReplay (c : Core) (j : Nat) :
    ({ c with replays := c.replays ++ [.empty] } : Core).get j = c.get j := by
  show ((c.replays ++ [Replay.empty])[j]?).getD .empty = (c.replays[j]?).getD .empty
  by_cases hj : j < c.replays.length
  · rw [List.getElem?_append_left hj]
  · rw [List.getElem?_append_right (by omega), List.getElem?_eq_none (l := c.replays) (by omega)]
    cases hk : j - c.replays.length with
    | zero => rfl
    | succ k => rfl

end Core

/-! ## small steps -/

/-- `joins` limits when replays are added, `exits` how stalemates are resolved -/
inductive Micro (joins : State → Prop) (exits : Stalemate → IterOrder → Prop) :
    State → State → Prop where
  | added (m : State) (hj : joins m) (hf : m.core.canon.finished = false) :
      Micro joins exits m m.addReplay
  | header (m : State) (id : Nat) (h : ReplayHeader) (hl : m.live id)
      (hh : (m.core.get id).header = none) : Micro joins exits m
        ((m.modify id (fun r => { r with header := some h })).mapCore (State.addHeader · h))
  | data (m : State) (id : Nat) (buf : List UInt8) (hl : m.live id)
      (hh : (m.core.get id).header ≠ none) :
      Micro joins exits m (m.modify id (fun r => { r with data := r.data ++ buf }))
  | delayed (m : State) (id n : Nat) (hl : m.live id) (h1 : (m.core.get id).delayed ≤ n)
      (h2 : n ≤ m.core.len id) :
      Micro joins exits m (m.modify id (fun r => { r with delayed := n }))
  | ended (m : State) (id : Nat) (hl : m.live id) (hd : (m.core.get id).delayed = m.core.len id) :
      Micro joins exits m (m.modify id (fun r => { r with finished := true }))
  | evaluate (t : Stalemate) (id : Nat) (hid : id ∈ t.reserve) :
      Micro joins exits (.stalemate t) (.stalemate (t.evaluate id))
  | started (t : Stalemate) (id : Nat) (hd : 0 < (t.core.get id).delayed) :
      Micro joins exits (.stalemate t)
        (.stalemate { t with core := { t.core with started := true } })
  | update (q : Quorum) (ord : IterOrder) :
      Micro joins exits (.quorum q) (.quorum (q.update ord))
  | enter (q : Quorum) (h : q.core.canon.delayed = q.core.cl) :
      Micro joins exits (.quorum q) (.stalemate ⟨q.core, ∅, q.reserve ∪ q.quorum⟩)
  | exit (t : Stalemate) (ord : IterOrder) (hc : t.canExit ord = true) (hx : exits t ord) :
      Micro joins exits (.stalemate t) (.quorum (t.exit ord))
  | finish (m : State) (hall : ∀ id < m.core.replays.length, (m.core.get id).finished = true) :
      Micro joins exits m (m.mapCore State.finishCanon)

/-- a sequence of small steps -/
abbrev Micros (joins : State → Prop) (exits : Stalemate → IterOrder → Prop) :
    State → State → Prop := ReflTransGen (Micro joins exits)

variable {joins : State → Prop} {exits : Stalemate → IterOrder → Prop}

theorem wf_addReplay {m : State} (h : m.WF) : m.addReplay.WF := by
  have hcore : ∀ c : Core, c.WF → ({ c with replays := c.replays ++ [.empty] } : Core).WF := by
    intro c hc
    refine ⟨hc.delayed, fun j => ?_, fun j => ?_⟩
    · rw [Core.get_addReplay]
      exact hc.matching j
    · show _ ≤ (Core.get _ j).data.length
      rw [Core.get_addReplay]
      exact hc.reached j
  have hlen : ∀ c : Core, (c.replays ++ [Replay.empty]).length = c.replays.length + 1 := by
    intro c
    simp
  cases m with
  | quorum q =>
    have hq : q.WF := h
    refine ⟨⟨hcore _ hq.core, hq.nonempty, hq.card, ?_, ?_, ?_⟩, ?_⟩
    · show Disjoint q.quorum (insert q.core.replays.length q.reserve)
      rw [Finset.disjoint_insert_right]
      exact ⟨fun hm => absurd (hq.members _ hm).1 (lt_irrefl _), hq.disjoint⟩
    · intro id hid
      obtain ⟨h1, h2⟩ := hq.members id hid
      show id < (q.core.replays ++ _).length ∧ q.core.cl ≤ (Core.get _ id).data.length
      rw [hlen, Core.get_addReplay]
      exact ⟨by omega, h2⟩
    · intro id hid
      show id < (q.core.replays ++ _).length
      rw [hlen]
      rcases Finset.mem_insert.mp hid with rfl | hid
      · exact Nat.lt_succ_self _
      · exact Nat.lt_succ_of_lt (hq.reserve id hid)
    · intro id hid
      show (Core.get _ id).matching = q.core.cl
      rw [Core.get_addReplay]
      exact hq.matched id hid
  | stalemate t =>
    have ht : t.WF := h
    refine ⟨hcore _ ht.core, ht.delayed, ?_, ht.lists, ?_⟩
    · intro id hid
      show id < (t.core.replays ++ _).length
      rw [hlen]
      rcases Finset.mem_insert.mp hid with rfl | hid
      · exact Nat.lt_succ_self _
      · exact Nat.lt_succ_of_lt (ht.reserve id hid)
    · intro b id hid
      obtain ⟨h1, h2, h3⟩ := ht.cand b id hid
      show id < (t.core.replays ++ _).length ∧ id ∉ insert t.core.replays.length t.reserve ∧
        (Core.get _ id).data[t.core.cl]? = some b ∧ (Core.get _ id).matching = t.core.cl
      rw [hlen, Core.get_addReplay, Finset.mem_insert, not_or]
      exact ⟨by omega, ⟨by omega, h2⟩, h3⟩

theorem wf_modify {m : State} (h : m.WF) {id : Nat} {f : Replay → Replay} (hf : Grows f) :
    (m.modify id f).WF := by
  cases m with
  | quorum q =>
    have hq : q.WF := h
    refine ⟨⟨hq.core.modify hf, hq.nonempty, hq.card, hq.disjoint, ?_, ?_⟩, ?_⟩
    · intro j hj
      show j < (q.core.modify id f).replays.length ∧ q.core.cl ≤ ((q.core.modify id f).get j).data.length
      rw [Core.modify_length]
      exact ⟨(hq.members j hj).1, (hq.members j hj).2.trans (Core.prefix_modify hf).length_le⟩
    · intro j hj
      show j < (q.core.modify id f).replays.length
      rw [Core.modify_length]
      exact hq.reserve j hj
    · intro j hj
      show ((q.core.modify id f).get j).matching = q.core.cl
      rw [Core.matching_modify hf]
      exact hq.matched j hj
  | stalemate t =>
    have ht : t.WF := h
    refine ⟨ht.core.modify hf, ht.delayed, ?_, ht.lists, ?_⟩
    · intro j hj
      show j < (t.core.modify id f).replays.length
      rw [Core.modify_length]
      exact ht.reserve j hj
    · intro b j hj
      obtain ⟨h1, h2, h3, h4⟩ := ht.cand b j hj
      show j < (t.core.modify id f).replays.length ∧ j ∉ t.reserve ∧
        ((t.core.modify id f).get j).data[t.core.cl]? = some b ∧
        ((t.core.modify id f).get j).matching = t.core.cl
      rw [Core.modify_length, Core.matching_modify hf]
      refine ⟨h1, h2, ?_, h4⟩
      have hlt := (List.getElem?_eq_some_iff.mp h3).1
      rw [getElem?_of_isPrefix (Core.prefix_modify hf) hlt]
      exact h3

/-- changes of the canonical replay that keep its data and its delayed position -/
theorem wf_mapCore {m : State} (h : m.WF) {f : Core → Core}
    (hf : ∀ c, ∃ h e fin, f c = { c with canon := { c.canon with header := h, event := e, finished := fin } }) :
    (m.mapCore f).WF := by
  have hcore : ∀ c : Core, c.WF → (f c).WF := by
    intro c hc
    obtain ⟨x, e, fin, he⟩ := hf c
    rw [he]
    exact ⟨hc.delayed, hc.matching, hc.reached⟩
  cases m with
  | quorum q =>
    have hq : q.WF := h
    obtain ⟨x, e, fin, he⟩ := hf q.core
    have hc := hcore _ hq.core
    show Quorum.WF { q with core := f q.core }
    rw [he] at hc ⊢
    exact ⟨⟨hc, hq.nonempty, hq.card, hq.disjoint, hq.members, hq.reserve⟩, hq.matched⟩
  | stalemate t =>
    have ht : t.WF := h
    obtain ⟨x, e, fin, he⟩ := hf t.core
    have hc := hcore _ ht.core
    show Stalemate.WF { t with core := f t.core }
    rw [he] at hc ⊢
    exact ⟨hc, ht.delayed, ht.reserve, ht.lists, ht.cand⟩

theorem addHeader_eq (c : Core) (h : ReplayHeader) : ∃ h' e fin, State.addHeader c h =
    { c with canon := { c.canon with header := h', event := e, finished := fin } } := by
  unfold State.addHeader
  split
  · exact ⟨_, _, _, rfl⟩
  · exact ⟨_, _, _, rfl⟩

theorem finishCanon_eq (c : Core) : ∃ h' e fin, State.finishCanon c =
    { c with canon := { c.canon with header := h', event := e, finished := fin } } :=
  ⟨_, _, _, rfl⟩

theorem restart_wf {q : Quorum} (h : q.WF) (hd : q.core.canon.delayed = q.core.cl) :
    Stalemate.WF ⟨q.core, ∅, q.reserve ∪ q.quorum⟩ := by
  refine ⟨h.core, hd, fun id hid => ?_, ?_, ?_⟩
  · rcases Finset.mem_union.mp hid with hid | hid
    · exact h.reserve id hid
    · exact (h.members id hid).1
  · intro b l hl
    rw [Finmap.lookup_empty] at hl
    cases hl
  · intro b id hc
    exact absurd hc isCand_empty

theorem micro_wf {m m' : State} (h : m.WF) (hs : Micro joins exits m m') : m'.WF := by
  cases hs with
  | added _ hj hf => exact wf_addReplay h
  | header _ id x hl hh =>
    exact wf_mapCore (wf_modify h (grows_header x)) (fun c => addHeader_eq c x)
  | data _ id buf hl hh => exact wf_modify h (grows_data buf)
  | delayed _ id n hl h1 h2 => exact wf_modify h (grows_delayed n)
  | ended _ id hl hd => exact wf_modify h grows_finished
  | evaluate t id hid => exact Stalemate.evaluate_wf h hid
  | started t id hd =>
    have ht : t.WF := h
    exact ⟨⟨ht.core.delayed, ht.core.matching, ht.core.reached⟩, ht.delayed,
      ht.reserve, ht.lists, ht.cand⟩
  | update q ord => exact Quorum.update_wf h ord
  | enter q hd => exact restart_wf h hd
  | exit t ord hc hx => exact Stalemate.exit_wf h ord (canExit_iff.mp hc).2.1
  | finish _ hall => exact wf_mapCore h finishCanon_eq

theorem Micros.wf {m m' : State} (h : m.WF) (hs : Micros joins exits m m') : m'.WF := by
  induction hs with
  | refl => exact h
  | tail _ hs ih => exact micro_wf ih hs

/-- an invariant of the small steps -/
theorem Micros.invariant {P : State → Prop} {m m' : State} (hs : Micros joins exits m m')
    (hstep : ∀ m m', m.WF → P m → Micro joins exits m m' → P m') (hwf : m.WF) (h : P m) : P m' := by
  induction hs with
  | refl => exact h
  | tail hs hst ih => exact hstep _ _ (Micros.wf hwf hs) ih hst

/-! ## what is never taken back -/

structure Evolves (c c' : Core) : Prop where
  dist : c'.dist = c.dist
  target : c'.target = c.target
  length : c.replays.length ≤ c'.replays.length
  data : ∀ id, (c.get id).data <+: (c'.get id).data
  finished : ∀ id, (c.get id).finished = true →
    (c'.get id).finished = true ∧ (c'.get id).data = (c.get id).data
  delayed : ∀ id, (c.get id).delayed ≤ (c'.get id).delayed
  grow : c.canon.data <+: c'.canon.data
  canonDelayed : c.canon.delayed ≤ c'.canon.delayed
  header : ∀ h, c.canon.header = some h → c'.canon.header = some h
  started : c.started = true → c'.started = true
  canonFinished : c.canon.finished = true → c'.canon.finished = true

namespace Evolves

theorem refl (c : Core) : Evolves c c :=
  ⟨rfl, rfl, le_rfl, fun _ => List.prefix_refl _, fun _ h => ⟨h, rfl⟩, fun _ => le_rfl,
    List.prefix_refl _, le_rfl, fun _ h => h, fun h => h, fun h => h⟩

theorem trans {c c' c'' : Core} (h : Evolves c c') (h' : Evolves c' c'') : Evolves c c'' where
  dist := h'.dist.trans h.dist
  target := h'.target.trans h.target
  length := h.length.trans h'.length
  data id := (h.data id).trans (h'.data id)
  finished id hf := by
    obtain ⟨h1, h2⟩ := h.finished id hf
    obtain ⟨h3, h4⟩ := h'.finished id h1
    exact ⟨h3, h4.trans h2⟩
  delayed id := (h.delayed id).trans (h'.delayed id)
  grow := h.grow.trans h'.grow
  canonDelayed := h.canonDelayed.trans h'.canonDelayed
  header x hx := h'.header x (h.header x hx)
  started hs := h'.started (h.started hs)
  canonFinished hf := h'.canonFinished (h.canonFinished hf)

theorem cl {c c' : Core} (h : Evolves c c') : c.cl ≤ c'.cl := h.grow.length_le

theorem len {c c' : Core} (h : Evolves c c') (id : Nat) : c.len id ≤ c'.len id :=
  (h.data id).length_le

theorem of_frame {c c' : Core} (h : Core.Frame c c') (hd : c.canon.delayed ≤ c'.canon.delayed)
    (hs : c'.started = c.started) : Evolves c c' where
  dist := h.dist
  target := h.target
  length := h.length.ge
  data id := by rw [h.data]
  finished id hf := by rw [h.finished, h.data]; exact ⟨hf, rfl⟩
  delayed id := (h.delayed id).ge
  grow := h.grow
  canonDelayed := hd
  header x hx := by rw [h.canonHeader]; exact hx
  started hst := by rw [hs]; exact hst
  canonFinished hf := by rw [h.canonFinished]; exact hf

end Evolves

theorem evolves_modify {c : Core} {id : Nat} {f : Replay → Replay} (hf : Grows f)
    (hl : (c.get id).finished = false) (hd : (c.get id).delayed ≤ (f (c.get id)).delayed) :
    Evolves c (c.modify id f) where
  dist := rfl
  target := rfl
  length := (Core.modify_length c id f).ge
  data _ := Core.prefix_modify hf
  finished j hj := by
    have hne : j ≠ id := by
      rintro rfl
      rw [hl] at hj
      cases hj
    rw [Core.get_modify_ne hne]
    exact ⟨hj, rfl⟩
  delayed j := by
    by_cases hj : j = id
    · subst hj
      by_cases hlt : j < c.replays.length
      · rw [Core.get_modify_self hlt]
        exact hd
      · have e : c.modify j f = c := by
          unfold Core.modify
          rw [List.modify_eq_self (by omega)]
        rw [e]
    · rw [Core.get_modify_ne hj]
  grow := List.prefix_refl _
  canonDelayed := le_rfl
  header _ h := h
  started h := h
  canonFinished h := h

theorem mapCore_core (m : State) (f : Core → Core) : (m.mapCore f).core = f m.core := by
  cases m <;> rfl

theorem modify_core (m : State) (id : Nat) (f : Replay → Replay) :
    (m.modify id f).core = m.core.modify id f :=
  mapCore_core m _

theorem addReplay_core (m : State) :
    m.addReplay.core = { m.core with replays := m.core.replays ++ [.empty] } := by
  cases m <;> rfl

theorem evolves_addReplay (m : State) : Evolves m.core m.addReplay.core := by
  rw [addReplay_core]
  refine ⟨rfl, rfl, ?_, fun id => ?_, fun id hf => ?_, fun id => ?_, List.prefix_refl _, le_rfl,
    fun _ h => h, fun h => h, fun h => h⟩
  · simp
  · rw [Core.get_addReplay]
  · rw [Core.get_addReplay]
    exact ⟨hf, rfl⟩
  · rw [Core.get_addReplay]

theorem evolves_addHeader (c : Core) (h : ReplayHeader) : Evolves c (State.addHeader c h) := by
  unfold State.addHeader
  split
  · rename_i hn
    refine ⟨rfl, rfl, le_rfl, fun _ => List.prefix_refl _, fun _ h => ⟨h, rfl⟩, fun _ => le_rfl,
      List.prefix_refl _, le_rfl, fun x hx => ?_, fun h => h, fun h => h⟩
    rw [hn] at hx
    cases hx
  · exact Evolves.refl c

theorem evolves_update (q : Quorum) (ord : IterOrder) : Evolves q.core (q.update ord).core := by
  refine Evolves.of_frame (Core.frame_advance _) ?_ (Core.advance_rest _).2.2.1
  show _ ≤ (q.core.advance _).canon.delayed
  rw [Core.advance_delayed]
  exact le_max_left _ _

theorem evolves_exit {t : Stalemate} (h : t.WF) {ord : IterOrder} (hc : t.canExit ord = true) :
    Evolves t.core (t.exit ord).core := by
  have hne := (canExit_iff.mp hc).2.1
  obtain ⟨hf, hs⟩ := Stalemate.exit_frame h ord hne
  have hr := resolved h ord hne
  refine Evolves.of_frame hf ?_ hs
  have hm := (Quorum.merge_spec hr.base ord).delayed
  rw [show (t.exit ord).core.canon.delayed = _ from hm, hr.selected.core]
  exact le_max_left _ _

theorem micro_evolves {m m' : State} (h : m.WF) (hs : Micro joins exits m m') :
    Evolves m.core m'.core := by
  cases hs with
  | added _ hj hf => exact evolves_addReplay m
  | header _ id x hl hh =>
    rw [mapCore_core, modify_core]
    exact (evolves_modify (grows_header x) hl.2 le_rfl).trans (evolves_addHeader _ x)
  | data _ id buf hl hh =>
    rw [modify_core]
    exact evolves_modify (grows_data buf) hl.2 le_rfl
  | delayed _ id n hl h1 h2 =>
    rw [modify_core]
    exact evolves_modify (grows_delayed n) hl.2 h1
  | ended _ id hl hd =>
    rw [modify_core]
    exact evolves_modify grows_finished hl.2 le_rfl
  | evaluate t id hid =>
    obtain ⟨h1, h2⟩ := evaluate_canon t id
    refine Evolves.of_frame (evaluate_frame t id) ?_ h2
    show _ ≤ (t.evaluate id).core.canon.delayed
    rw [h1]
    exact le_rfl
  | started t id hd =>
    exact ⟨rfl, rfl, le_rfl, fun _ => List.prefix_refl _, fun _ h => ⟨h, rfl⟩, fun _ => le_rfl,
      List.prefix_refl _, le_rfl, fun _ h => h, fun _ => rfl, fun h => h⟩
  | update q ord => exact evolves_update q ord
  | enter q hd => exact Evolves.refl _
  | exit t ord hc hx => exact evolves_exit h hc
  | finish _ hall =>
    rw [mapCore_core]
    exact ⟨rfl, rfl, le_rfl, fun _ => List.prefix_refl _, fun _ h => ⟨h, rfl⟩, fun _ => le_rfl,
      List.prefix_refl _, le_rfl, fun _ h => h, fun h => h, fun _ => rfl⟩

theorem Micros.evolves {m m' : State} (hs : Micros joins exits m m') (hwf : m.WF) :
    Evolves m.core m'.core := by
  induction hs with
  | refl => exact Evolves.refl _
  | tail hs hst ih => exact ih.trans (micro_evolves (Micros.wf hwf hs) hst)

/-! ## a callback is a sequence of small steps -/

theorem evaluateIf_micros (t : Stalemate) (id : Nat) :
    Micros joins exits (.stalemate t) (.stalemate (t.evaluateIf id)) := by
  unfold Stalemate.evaluateIf
  split
  · rename_i hid
    exact ReflTransGen.single (.evaluate t id hid)
  · exact ReflTransGen.refl

theorem foldl_evaluate_micros (t : Stalemate) (l : List Nat) (hnd : l.Nodup)
    (hsub : ∀ id ∈ l, id ∈ t.reserve) :
    Micros joins exits (.stalemate t) (.stalemate (l.foldl Stalemate.evaluate t)) :=
  foldl_evaluate (P := fun t' => Micros joins exits (.stalemate t) (.stalemate t'))
    (fun _ _ h hid => h.tail (.evaluate _ _ hid)) l t hnd hsub ReflTransGen.refl

theorem dataUpdated_micros (m : State) (ord : IterOrder) (id : Nat) :
    Micros joins exits m (m.dataUpdated ord id) := by
  cases m with
  | quorum q =>
    show Micros joins exits _ (.quorum (q.dataUpdated ord id))
    unfold Quorum.dataUpdated
    split
    · exact ReflTransGen.single (.update q ord)
    · exact ReflTransGen.refl
  | stalemate t =>
    refine (evaluateIf_micros t id).trans ?_
    obtain ⟨u, hu⟩ : ∃ u, u = t.evaluateIf id := ⟨_, rfl⟩
    show Micros joins exits _ (.stalemate (t.dataUpdated id))
    unfold Stalemate.dataUpdated
    rw [← hu]
    dsimp only
    split
    · rename_i hs
      have hd : 0 < (u.core.get id).delayed := of_decide_eq_true (Bool.and_eq_true_iff.mp hs).2
      exact ReflTransGen.single (.started u id hd)
    · exact ReflTransGen.refl

/-- `exits` holds at every stalemate that the loop resolves -/
def Passes (exits : Stalemate → IterOrder → Prop) (ords : Nat → IterOrder) : Nat → State → Prop
  | 0, _ => True
  | fuel + 1, m => m.shouldChange (ords (fuel + 1)) = true →
    (∀ t, m = .stalemate t → exits t (ords (fuel + 1))) ∧
      Passes exits ords fuel (m.change (ords (fuel + 1)))

theorem passes_true (ords : Nat → IterOrder) (fuel : Nat) (m : State) :
    Passes (fun _ _ => True) ords fuel m := by
  induction fuel generalizing m with
  | zero => trivial
  | succ fuel ih => exact fun _ => ⟨fun _ _ => trivial, ih _⟩

theorem change_micros {m : State} (h : m.WF) {ord : IterOrder} (hc : m.shouldChange ord = true)
    (hx : ∀ t, m = .stalemate t → exits t ord) : Micros joins exits m (m.change ord) := by
  cases m with
  | quorum q =>
    have hq : q.WF := h
    have hd : q.core.canon.delayed = q.core.cl :=
      le_antisymm hq.core.delayed (of_decide_eq_true hc)
    refine ReflTransGen.head (.enter q hd) ?_
    exact foldl_evaluate_micros _ _ (ord.ids_nodup _) (fun id hid => (ord.mem_ids _ _).mp hid)
  | stalemate t => exact ReflTransGen.single (.exit t ord hc (hx t rfl))

theorem work_micros {m : State} (h : m.WF) (ords : Nat → IterOrder) (fuel : Nat)
    (hp : Passes exits ords fuel m) : Micros joins exits m (m.work ords fuel) := by
  induction fuel generalizing m with
  | zero => exact ReflTransGen.refl
  | succ fuel ih =>
    unfold State.work
    split
    · rename_i hc
      obtain ⟨h1, h2⟩ := hp hc
      exact (change_micros h hc h1).trans (ih (State.change_wf h hc) h2)
    · exact ReflTransGen.refl

theorem direct_micros {m : State} {a : Action} (ord : IterOrder) (ha : m.allowed a)
    (hj : a = .added → joins m) : Micros joins exits m (m.direct ord a) := by
  cases a with
  | added => exact ReflTransGen.single (.added m (hj rfl) ha)
  | header id h => exact ReflTransGen.single (.header m id h ha.1 ha.2)
  | data id buf => exact ReflTransGen.single (.data m id buf ha.1 ha.2)
  | delayed id n =>
    exact ReflTransGen.head (.delayed m id n ha.1 ha.2.1 ha.2.2) (dataUpdated_micros _ ord id)
  | updated id => exact dataUpdated_micros m ord id
  | ended id =>
    refine ReflTransGen.head (.ended m id ha.1 ha.2) ?_
    cases m with
    | quorum q => exact ReflTransGen.refl
    | stalemate t => exact evaluateIf_micros _ id
  | finish => exact ReflTransGen.single (.finish m ha.2)

/-- the condition `exits` on the stalemates that a callback resolves -/
def StepPasses (exits : Stalemate → IterOrder → Prop) (ords : Nat → IterOrder) (m : State)
    (a : Action) : Prop :=
  Session.settles a = true → Passes exits ords (m.direct (ords 0) a).fuel (m.direct (ords 0) a)

theorem step_micros {m : State} (h : m.WF) {a : Action} (ords : Nat → IterOrder) (ha : m.allowed a)
    (hj : a = .added → joins m) (hp : StepPasses exits ords m a) :
    Micros joins exits m (m.step ords a) := by
  have hd : Micros joins exits m (m.direct (ords 0) a) := direct_micros (ords 0) ha hj
  unfold State.step
  split
  · rename_i hs
    exact hd.trans (work_micros (Micros.wf h hd) ords _ (hp hs))
  · exact hd

end Merge

end ReplayServer
