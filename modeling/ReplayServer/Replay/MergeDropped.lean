import ReplayServer.Replay.MergeExact

/-!
# replay: the abstract model, replays that were dropped

A replay that is in none of the sets was dropped for good.  `DeadAt r c p`: whatever else `r`
receives, it never contains the first `p` bytes of `c` and one more.

* `DeadAt.evolves`       this stays so;
* `micro_untracked`      what a small step drops is dead;
* `Micros.dropped`       so in every run the replays that are not tracked are dead.
-/

set_option linter.unusedSectionVars false

namespace ReplayServer
namespace Merge
open Agree Relation

def DeadAt (r : Replay) (canon : List UInt8) (p : Nat) : Prop :=
  (r.finished = true ∧ r.data.length ≤ p) ∨
    ∃ i, i < p ∧ i < r.data.length ∧ r.data[i]? ≠ canon[i]?

theorem DeadAt.mono {r : Replay} {c : List UInt8} {p p' : Nat} (h : DeadAt r c p) (hp : p ≤ p') :
    DeadAt r c p' := by
  rcases h with ⟨h1, h2⟩ | ⟨i, h1, h2, h3⟩
  · exact Or.inl ⟨h1, h2.trans hp⟩
  · exact Or.inr ⟨i, lt_of_lt_of_le h1 hp, h2, h3⟩

theorem DeadAt.evolves {c c' : Core} (h : Evolves c c') {id p : Nat} (hp : p ≤ c.cl)
    (hd : DeadAt (c.get id) c.canon.data p) : DeadAt (c'.get id) c'.canon.data p := by
  rcases hd with ⟨h1, h2⟩ | ⟨i, h1, h2, h3⟩
  · obtain ⟨h4, h5⟩ := h.finished id h1
    refine Or.inl ⟨h4, ?_⟩
    rw [h5]
    exact h2
  · refine Or.inr ⟨i, h1, lt_of_lt_of_le h2 (h.len id), ?_⟩
    rw [getElem?_of_isPrefix (h.data id) h2,
      getElem?_of_isPrefix h.grow (lt_of_lt_of_le h1 hp : i < c.canon.data.length)]
    exact h3

/-- a dead replay is never longer than the data while it agrees with it -/
theorem DeadAt.not_extends {r : Replay} {c : List UInt8} {p : Nat} (h : DeadAt r c p)
    (hp : p ≤ c.length) (hpre : c.take p <+: r.data) : r.data.length ≤ p := by
  rcases h with ⟨_, h2⟩ | ⟨i, h1, h2, h3⟩
  · exact h2
  · refine absurd ?_ h3
    have hlen : i < (c.take p).length := by
      rw [List.length_take]
      omega
    rw [getElem?_of_isPrefix hpre hlen, List.getElem?_take, if_pos h1]

/-- no data that begins with what a dead replay sent, all of it if it ended, goes on after the canonical
data -/
theorem DeadAt.not_extended {r : Replay} {canon data : List UInt8} (h : DeadAt r canon canon.length)
    (hpre : r.data <+: data) (hended : r.finished = true → data = r.data) :
    ¬ (canon <+: data ∧ canon ≠ data) := by
  rintro ⟨hcanon, hne⟩
  rcases h with ⟨hf, hle⟩ | ⟨i, hi, hlt, hget⟩
  · rw [hended hf] at hcanon hne
    exact hne (hcanon.eq_of_length_le hle)
  · rw [← getElem?_of_isPrefix hpre hlt, getElem?_of_isPrefix hcanon hi] at hget
    exact hget rfl

/-! ## small steps -/

variable {joins : State → Prop} {exits : Stalemate → IterOrder → Prop}

theorem length_mapCore_modify (m : State) (id : Nat) (f : Replay → Replay) :
    (m.modify id f).core.replays.length = m.core.replays.length := by
  rw [modify_core, Core.modify_length]

/-- a replay that an evaluation drops is dead -/
theorem evaluate_untracked {t : Stalemate} (ht : t.WF) {i id : Nat}
    (hid : id < (t.evaluate i).core.replays.length)
    (hu : ¬ (State.stalemate (t.evaluate i)).Tracked id) :
    (id < t.core.replays.length ∧ ¬ (State.stalemate t).Tracked id) ∨
      DeadAt ((t.evaluate i).core.get id) (t.evaluate i).core.canon.data (t.evaluate i).core.cl := by
  have hev := evaluate_spec (ht.core.matching i)
  revert hid hu hev
  generalize t.evaluate i = u
  intro hid hu hev
  cases hev with
  | keep hlen hfin => exact Or.inl ⟨hid, hu⟩
  | short hlen hfin =>
    by_cases hii : id = i
    · subst hii
      exact Or.inr (Or.inl ⟨hfin, hlen⟩)
    · refine Or.inl ⟨hid, fun htr => hu ?_⟩
      rcases htr with hr | hc
      · exact Or.inl (Finset.mem_erase.mpr ⟨hii, hr⟩)
      · exact Or.inr hc
  | diverged hlen hne =>
    by_cases hii : id = i
    · subst hii
      refine Or.inr (Or.inr ?_)
      unfold AgreeOn at hne
      push Not at hne
      obtain ⟨k, hk1, hk2, hk3⟩ := hne
      exact ⟨k, hk2, lt_trans hk2 hlen, hk3⟩
    · refine Or.inl ⟨hid, fun htr => hu ?_⟩
      rcases htr with hr | hc
      · exact Or.inl (Finset.mem_erase.mpr ⟨hii, hr⟩)
      · exact Or.inr hc
  | promoted b hlen hag hb =>
    have hid' : id < (t.core.modify i (Replay.setMatching t.core.cl)).replays.length := hid
    rw [Core.modify_length] at hid'
    refine Or.inl ⟨hid', fun htr => hu ?_⟩
    rcases htr with hr | ⟨b', hc⟩
    · by_cases hii : id = i
      · exact Or.inr ⟨b, isCand_addCandidate.mpr (Or.inr ⟨rfl, hii⟩)⟩
      · exact Or.inl (Finset.mem_erase.mpr ⟨hii, hr⟩)
    · exact Or.inr ⟨b', isCand_addCandidate.mpr (Or.inl hc)⟩

/-- a replay that is dropped at the end of a stalemate lacks the byte that was chosen -/
theorem exit_untracked {t : Stalemate} (ht : t.WF) {ord : IterOrder} (hc : t.canExit ord = true)
    {id : Nat} (hid : id < (t.exit ord).core.replays.length)
    (hu : ¬ (State.quorum (t.exit ord)).Tracked id) :
    (id < t.core.replays.length ∧ ¬ (State.stalemate t).Tracked id) ∨
      DeadAt ((t.exit ord).core.get id) (t.exit ord).core.canon.data (t.exit ord).core.cl := by
  have hr := resolved ht ord (canExit_iff.mp hc).2.1
  have hm := Quorum.merge_spec hr.base ord
  have hev := evolves_exit ht hc
  by_cases htr : (State.stalemate t).Tracked id
  · refine Or.inr (Or.inr ?_)
    have hnot : ¬ (id ∈ t.good ord ∨ id ∈ t.reserve) := by
      rw [← hr.selected.all]
      intro hh
      refine hu ?_
      show id ∈ ((t.chosen ord).merge ord).quorum ∨ id ∈ ((t.chosen ord).merge ord).reserve
      rw [hm.quorum, hm.reserve]
      exact hh
    rcases htr with hres | ⟨b, hb⟩
    · exact absurd (Or.inr hres) hnot
    · obtain ⟨l, hl1, hl2⟩ := hb
      obtain ⟨h1, h2, h3, h4⟩ := ht.cand b id ⟨l, hl1, hl2⟩
      have hbb : b ≠ t.bestByte ord := by
        rintro rfl
        rw [hr.lookup] at hl1
        cases hl1
        exact hnot (Or.inl hl2)
      have hlen := (List.getElem?_eq_some_iff.mp h3).1
      have hcl : t.core.cl + 1 ≤ (t.exit ord).core.cl := by
        have := hm.frame.cl
        rwa [hr.selected.core, hr.cl] at this
      refine ⟨t.core.cl, hcl, lt_of_lt_of_le hlen (hev.len id), ?_⟩
      have hcan : (t.exit ord).core.canon.data[t.core.cl]? = some (t.bestByte ord) := by
        have hgrow := hm.frame.grow
        rw [hr.selected.core, hr.data] at hgrow
        have hlt : t.core.cl < (t.core.canon.data ++ [t.bestByte ord]).length := by
          rw [List.length_append]
          exact Nat.lt_succ_self _
        rw [show (t.exit ord).core.canon.data[t.core.cl]? = _ from getElem?_of_isPrefix hgrow hlt]
        exact List.getElem?_concat_length
      show (t.exit ord |>.core.get id).data[t.core.cl]? ≠ (t.exit ord).core.canon.data[t.core.cl]?
      rw [getElem?_of_isPrefix (hev.data id) hlen, h3, hcan]
      exact fun he => hbb (Option.some.inj he)
  · refine Or.inl ⟨?_, htr⟩
    have hl := (Stalemate.exit_frame ht ord (canExit_iff.mp hc).2.1).1.length
    exact hl ▸ hid

/-- what one small step drops is dead -/
theorem micro_untracked {m m' : State} (h : m.WF) (hs : Micro joins exits m m') {id : Nat}
    (hid : id < m'.core.replays.length) (hu : ¬ m'.Tracked id) :
    (id < m.core.replays.length ∧ ¬ m.Tracked id) ∨
      DeadAt (m'.core.get id) m'.core.canon.data m'.core.cl := by
  cases hs with
  | added _ hj hf =>
    rw [State.tracked_addReplay, not_or] at hu
    rw [addReplay_core] at hid
    simp only [List.length_append, List.length_singleton] at hid
    exact Or.inl ⟨by omega, hu.2⟩
  | header _ i x hl hh =>
    refine Or.inl ⟨?_, fun ht => hu (State.tracked_mapCore.mpr (State.tracked_mapCore.mpr ht))⟩
    obtain ⟨_, _, _, he⟩ := addHeader_eq (m.modify i (fun r => { r with header := some x })).core x
    rw [mapCore_core, he] at hid
    rwa [length_mapCore_modify] at hid
  | data _ i buf hl hh =>
    rw [length_mapCore_modify] at hid
    exact Or.inl ⟨hid, fun ht => hu (State.tracked_mapCore.mpr ht)⟩
  | delayed _ i n hl h1 h2 =>
    rw [length_mapCore_modify] at hid
    exact Or.inl ⟨hid, fun ht => hu (State.tracked_mapCore.mpr ht)⟩
  | ended _ i hl hd =>
    rw [length_mapCore_modify] at hid
    exact Or.inl ⟨hid, fun ht => hu (State.tracked_mapCore.mpr ht)⟩
  | evaluate t i hir => exact evaluate_untracked h hid hu
  | started t i hd => exact Or.inl ⟨hid, hu⟩
  | update q ord =>
    refine Or.inl ⟨?_, hu⟩
    have hl : (q.core.advance (q.position ord)).replays.length = q.core.replays.length := by
      rw [Core.advance_replays]
    exact hl ▸ hid
  | enter q hd => exact Or.inl ⟨hid, fun ht => hu (State.tracked_enter.mpr ht)⟩
  | exit t ord hc hx => exact exit_untracked h hc hid hu
  | finish _ hall =>
    rw [mapCore_core] at hid
    exact Or.inl ⟨hid, fun ht => hu (State.tracked_mapCore.mpr ht)⟩

/-- the replays that are not tracked are dead -/
def Dropped (m : State) : Prop := ∀ id < m.core.replays.length, ¬ m.Tracked id →
  DeadAt (m.core.get id) m.core.canon.data m.core.cl

theorem micro_dropped {m m' : State} (hwf : m.WF) (h : Dropped m) (hs : Micro joins exits m m') :
    Dropped m' := by
  intro id hid hu
  have hev := micro_evolves hwf hs
  rcases micro_untracked hwf hs hid hu with ⟨h1, h2⟩ | hd
  · exact ((h id h1 h2).evolves hev le_rfl).mono hev.cl
  · exact hd

theorem Micros.dropped {m m' : State} (hs : Micros joins exits m m') (hwf : m.WF)
    (h : Dropped m) : Dropped m' :=
  Micros.invariant hs (fun _ _ hwf h hst => micro_dropped hwf h hst) hwf h

theorem new_dropped (target dist : Nat) : Dropped (State.new target dist) :=
  fun _ hid _ => absurd hid (Nat.not_lt_zero _)

/-- once untracked, always untracked -/
theorem micro_tracked {m m' : State} (h : m.WF) (hs : Micro joins exits m m') {id : Nat}
    (hid : id < m.core.replays.length) (ht : m'.Tracked id) : m.Tracked id := by
  cases hs with
  | added _ hj hf =>
    rcases State.tracked_addReplay.mp ht with rfl | ht
    · exact absurd hid (lt_irrefl _)
    · exact ht
  | header _ i x hl hh => exact State.tracked_mapCore.mp (State.tracked_mapCore.mp ht)
  | data _ i buf hl hh => exact State.tracked_mapCore.mp ht
  | delayed _ i n hl h1 h2 => exact State.tracked_mapCore.mp ht
  | ended _ i hl hd => exact State.tracked_mapCore.mp ht
  | evaluate t i hir =>
    have hwf : t.WF := h
    have hev := evaluate_spec (hwf.core.matching i)
    revert ht hev
    generalize t.evaluate i = u
    intro ht hev
    cases hev with
    | keep hlen hfin => exact ht
    | short hlen hfin => exact ht.imp (fun hr => Finset.mem_of_mem_erase hr) (fun hc => hc)
    | diverged hlen hne => exact ht.imp (fun hr => Finset.mem_of_mem_erase hr) (fun hc => hc)
    | promoted b hlen hag hb =>
      rcases ht with hr | ⟨b', hc⟩
      · exact Or.inl (Finset.mem_of_mem_erase hr)
      · rcases isCand_addCandidate.mp hc with hc | ⟨_, rfl⟩
        · exact Or.inr ⟨b', hc⟩
        · exact Or.inl hir
  | started t i hd => exact ht
  | update q ord => exact ht
  | enter q hd => exact State.tracked_enter.mp ht
  | exit t ord hc hx =>
    have hwf : t.WF := h
    have hr := resolved hwf ord (canExit_iff.mp hc).2.1
    have hm := Quorum.merge_spec hr.base ord
    have ht' : id ∈ ((t.chosen ord).merge ord).quorum ∨ id ∈ ((t.chosen ord).merge ord).reserve := ht
    rw [hm.quorum, hm.reserve, hr.selected.all] at ht'
    rcases ht' with hg | hr'
    · exact Or.inr ⟨_, hr.cand id hg⟩
    · exact Or.inl hr'
  | finish _ hall => exact State.tracked_mapCore.mp ht

theorem Micros.tracked {m m' : State} (hs : Micros joins exits m m') (hwf : m.WF) {id : Nat}
    (hid : id < m.core.replays.length) (ht : m'.Tracked id) : m.Tracked id := by
  induction hs with
  | refl => exact ht
  | tail hs hst ih =>
    have hlen := (Micros.evolves hs hwf).length
    exact ih (micro_tracked (Micros.wf hwf hs) hst (lt_of_lt_of_le hid hlen) ht)

end Merge

end ReplayServer
