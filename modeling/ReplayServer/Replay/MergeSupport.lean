import ReplayServer.Replay.MergeWindow
import ReplayServer.Replay.MergeCallback

/-!
# replay: the abstract model, who supports a canonical byte

With a target of two and comparisons that are not cut short, a byte that only one replay has is
merged only where no two replays can agree: `Contested`.

* `micro_supported`     every canonical byte is `Shared` or `Contested`, and stays so;
* `Micros.voted`        the same along a run;
* `shared_of_complete`  in the end this means that a lone dissenter never wins.
-/

set_option linter.unusedSectionVars false

namespace ReplayServer
namespace Merge
open Agree Relation

/-- two replays have the canonical data up to and with position `p` -/
def Shared (c : Core) (p : Nat) : Prop := ∃ i < c.replays.length, ∃ j < c.replays.length, i ≠ j ∧
  c.canon.data.take (p + 1) <+: (c.get i).data ∧ c.canon.data.take (p + 1) <+: (c.get j).data

/-- no two replays will ever have the same byte at `p` behind the canonical data before it -/
def Contested (c : Core) (p : Nat) : Prop :=
  ∀ i < c.replays.length, ∀ j < c.replays.length, i ≠ j →
    DeadAt (c.get i) c.canon.data p ∨ DeadAt (c.get j) c.canon.data p ∨
      (p < c.len i ∧ p < c.len j ∧ (c.get i).data[p]? ≠ (c.get j).data[p]?)

/-- no comparison is cut short -/
def Bounded (c : Core) : Prop := ∀ id, c.len id ≤ c.dist

def Supported (m : State) : Prop :=
  Bounded m.core → ∀ p < m.core.cl, Shared m.core p ∨ Contested m.core p

section
variable {c c' : Core} (h : Evolves c c') {p : Nat} (hp : p < c.cl)
include h hp

theorem take_evolves : c'.canon.data.take (p + 1) = c.canon.data.take (p + 1) := by
  obtain ⟨l, hl⟩ := h.grow
  rw [← hl, List.take_append_of_le_length hp]

theorem Shared.evolves (hs : Shared c p) : Shared c' p := by
  obtain ⟨i, hi, j, hj, hij, h1, h2⟩ := hs
  refine ⟨i, lt_of_lt_of_le hi h.length, j, lt_of_lt_of_le hj h.length, hij, ?_, ?_⟩
  · rw [take_evolves h hp]
    exact h1.trans (h.data i)
  · rw [take_evolves h hp]
    exact h2.trans (h.data j)

theorem Contested.evolves (hl : c'.replays.length = c.replays.length) (hs : Contested c p) :
    Contested c' p := by
  intro i hi j hj hij
  rw [hl] at hi hj
  rcases hs i hi j hj hij with hd | hd | ⟨h1, h2, h3⟩
  · exact Or.inl (hd.evolves h hp.le)
  · exact Or.inr (Or.inl (hd.evolves h hp.le))
  · refine Or.inr (Or.inr ⟨lt_of_lt_of_le h1 (h.len i), lt_of_lt_of_le h2 (h.len j), ?_⟩)
    rw [getElem?_of_isPrefix (h.data i) h1, getElem?_of_isPrefix (h.data j) h2]
    exact h3

end

theorem Bounded.of_evolves {c c' : Core} (h : Evolves c c') (hb : Bounded c') : Bounded c := by
  intro id
  rw [← h.dist]
  exact (h.len id).trans (hb id)

/-- nobody has reported a delayed position -/
def Unreported (m : State) : Prop := ∀ id, (m.core.get id).delayed = 0

/-- the start is announced by some replay -/
def Announced (m : State) : Prop := m.core.started = true → ∃ id, 0 < (m.core.get id).delayed

section
variable {exits : Stalemate → IterOrder → Prop}

theorem micro_announced {joins : State → Prop} {m m' : State} (hwf : m.WF) (h : Announced m)
    (hs : Micro joins exits m m') : Announced m' := by
  have hev := micro_evolves hwf hs
  have hold : m.core.started = true → ∃ id, 0 < (m'.core.get id).delayed := by
    intro hst
    obtain ⟨id, hid⟩ := h hst
    exact ⟨id, lt_of_lt_of_le hid (hev.delayed id)⟩
  intro hst
  by_cases hm : m.core.started = true
  · exact hold hm
  · have hm' : m.core.started = false := by simpa using hm
    cases hs with
    | started t id hd => exact ⟨id, hd⟩
    | added _ hj hf =>
      rw [addReplay_core] at hst
      exact absurd hst hm
    | header _ id x hl hh =>
      obtain ⟨_, _, _, he⟩ := addHeader_eq (m.modify id (fun r => { r with header := some x })).core x
      rw [mapCore_core, he, modify_core] at hst
      exact absurd hst hm
    | data _ id buf hl hh =>
      rw [modify_core] at hst
      exact absurd hst hm
    | delayed _ id n hl h1 h2 =>
      rw [modify_core] at hst
      exact absurd hst hm
    | ended _ id hl hd =>
      rw [modify_core] at hst
      exact absurd hst hm
    | evaluate t id hid => exact absurd ((evaluate_canon t id).2.symm.trans hst) hm
    | update q ord => exact absurd ((Core.advance_rest (q.position ord)).2.2.1.symm.trans hst) hm
    | enter q hd => exact absurd hst hm
    | exit t ord hc hx => exact absurd (canExit_iff.mp hc).1 hm
    | finish _ hall =>
      rw [mapCore_core] at hst
      exact absurd hst hm

/-- replays are only added before there is canonical data -/
theorem micro_length {joins : State → Prop} {m m' : State} (hwf : m.WF)
    (hs : Micro joins exits m m') : m'.core.replays.length = m.core.replays.length ∨
      (joins m ∧ m'.core.cl = m.core.cl) := by
  cases hs with
  | added _ hj hf =>
    refine Or.inr ⟨hj, ?_⟩
    rw [addReplay_core]
    rfl
  | header _ id x hl hh =>
    obtain ⟨_, _, _, he⟩ := addHeader_eq (m.modify id (fun r => { r with header := some x })).core x
    rw [mapCore_core, he]
    exact Or.inl (length_mapCore_modify m id _)
  | data _ id buf hl hh => exact Or.inl (length_mapCore_modify m id _)
  | delayed _ id n hl h1 h2 => exact Or.inl (length_mapCore_modify m id _)
  | ended _ id hl hd => exact Or.inl (length_mapCore_modify m id _)
  | evaluate t id hid => exact Or.inl (evaluate_frame t id).length
  | started t id hd => exact Or.inl rfl
  | update q ord => exact Or.inl (Core.frame_advance (q.position ord)).length
  | enter q hd => exact Or.inl rfl
  | exit t ord hc hx => exact Or.inl (Stalemate.exit_frame hwf ord (canExit_iff.mp hc).2.1).1.length
  | finish _ hall =>
    rw [mapCore_core]
    exact Or.inl rfl

end

/-! ## resolving a stalemate -/

section
variable {t : Stalemate} (h : t.WF) {ord : IterOrder} (hc : t.canExit ord = true)
  (htar : t.core.target = 2)
include h hc htar

/-- two good replays share the new bytes -/
theorem exit_shared (hw : Window (.stalemate t)) (hb : Bounded t.core)
    (hgood : 2 ≤ (t.good ord).length) {p : Nat} (hp : p < (t.exit ord).core.cl) :
    Shared (t.exit ord).core p := by
  have hr := resolved h ord (canExit_iff.mp hc).2.1
  have hm := Quorum.merge_spec hr.base ord
  have hq := Quorum.merge_wf hr.base ord
  have hx := exactExit_of_target h hc htar.le
  have hcard : 1 < (t.exit ord).quorum.card := by
    rw [show (t.exit ord).quorum = _ from hm.quorum, hr.selected.card]
    have htar' : (t.advanced ord).target = 2 := htar
    omega
  obtain ⟨i, hi, j, hj, hij⟩ := Finset.one_lt_card.mp hcard
  have key : ∀ id ∈ (t.exit ord).quorum, (t.exit ord).core.canon.data.take (p + 1) <+:
      ((t.exit ord).core.get id).data := by
    intro id hid
    have hlen := (hq.members id hid).2
    refine (take_prefix_iff hp).mpr ⟨lt_of_lt_of_le hp hlen, ?_⟩
    rw [exit_data h hc]
    refine (exit_window h hc hw hx hid).mono ?_ hp
    have hcand := exit_member h hc hid
    have hlt := (List.getElem?_eq_some_iff.mp (h.cand _ id hcand).2.2.1).1
    have hbd := hb id
    have : t.core.len id = (t.core.get id).data.length := rfl
    omega
  exact ⟨i, (hq.members i hi).1, j, (hq.members j hj).1, hij, key i hi, key j hj⟩

omit htar in
/-- a candidate for another byte is dead behind the resolved position -/
theorem loser_dead {b : UInt8} {id : Nat} (hcand : IsCand t.cand b id) (hne : b ≠ t.bestByte ord)
    {p : Nat} (hp : t.core.cl < p) :
    DeadAt ((t.exit ord).core.get id) (t.exit ord).core.canon.data p := by
  have hr := resolved h ord (canExit_iff.mp hc).2.1
  have hf := (Stalemate.exit_frame h ord (canExit_iff.mp hc).2.1).1
  have h3 := (h.cand b id hcand).2.2.1
  obtain ⟨x, hx⟩ := (Quorum.merge_wf hr.base ord).nonempty
  have hx' : x ∈ (t.exit ord).quorum := hx
  have hbest := exit_byte h hc hx'
  rw [(h.cand _ x (exit_member h hc hx')).2.2.1] at hbest
  refine Or.inr ⟨t.core.cl, hp, ?_, ?_⟩
  · rw [hf.data]
    exact (List.getElem?_eq_some_iff.mp h3).1
  · rw [hf.data, h3, ← hbest]
    exact fun he => hne (Option.some.inj he)

omit htar in
/-- candidates for two bytes contest what lies at the stalemate or behind it -/
theorem candidates_contest {b b' : UInt8} {i j : Nat} (hb : IsCand t.cand b i)
    (hb' : IsCand t.cand b' j) (hbb : b ≠ b') {p : Nat} (hp : t.core.cl ≤ p) :
    DeadAt ((t.exit ord).core.get i) (t.exit ord).core.canon.data p ∨
    DeadAt ((t.exit ord).core.get j) (t.exit ord).core.canon.data p ∨
    (p < (t.exit ord).core.len i ∧ p < (t.exit ord).core.len j ∧
      ((t.exit ord).core.get i).data[p]? ≠ ((t.exit ord).core.get j).data[p]?) := by
  by_cases hlt : t.core.cl < p
  · by_cases hbest : b = t.bestByte ord
    · have hloser : b' ≠ t.bestByte ord := fun he => hbb (hbest.trans he.symm)
      exact Or.inr (Or.inl (loser_dead h hc hb' hloser hlt))
    · exact Or.inl (loser_dead h hc hb hbest hlt)
  · have hf := (Stalemate.exit_frame h ord (canExit_iff.mp hc).2.1).1
    have hpe : p = t.core.cl := by omega
    have h3 := (h.cand b i hb).2.2.1
    have h3' := (h.cand b' j hb').2.2.1
    refine Or.inr (Or.inr ?_)
    rw [hf.len, hf.len, hf.data, hf.data, hpe, h3, h3']
    exact ⟨(List.getElem?_eq_some_iff.mp h3).1, (List.getElem?_eq_some_iff.mp h3').1,
      fun he => hbb (Option.some.inj he)⟩

omit htar in
/-- with lone candidates there is one for each byte -/
theorem lone_candidate (hgood : (t.good ord).length < 2) {b : UInt8} {i j : Nat}
    (hi : IsCand t.cand b i) (hj : IsCand t.cand b j) : i = j := by
  obtain ⟨l, hl, hi⟩ := hi
  obtain ⟨l', hl', hj⟩ := hj
  rw [hl] at hl'
  cases hl'
  have hlen := lt_of_le_of_lt ((resolved h ord (canExit_iff.mp hc).2.1).most b l hl) hgood
  match l, hi, hj, hlen with
  | [x], hi, hj, _ => rw [List.mem_singleton.mp hi, List.mem_singleton.mp hj]
  | [], hi, _, _ => exact absurd hi List.not_mem_nil
  | _ :: _ :: _, _, _, hlen =>
    rw [List.length_cons, List.length_cons] at hlen
    omega

/-- a lone good replay is chosen only when there is nobody else -/
theorem exit_contested (hd : Dropped (.stalemate t)) (hgood : (t.good ord).length < 2) {p : Nat}
    (hp : t.core.cl ≤ p) : Contested (t.exit ord).core p := by
  have hr := resolved h ord (canExit_iff.mp hc).2.1
  have hev := evolves_exit h hc
  have hf := (Stalemate.exit_frame h ord (canExit_iff.mp hc).2.1).1
  have hres : t.reserve = ∅ := by
    rcases (canExit_iff.mp hc).2.2 with hres | ⟨b, l, hl, hle⟩
    · exact hres
    · have hlen := lt_of_le_of_lt (hr.most b l hl) hgood
      omega
  intro i hi j hj hij
  rw [hf.length] at hi hj
  have hdead : ∀ id < t.core.replays.length, (∃ b, IsCand t.cand b id) ∨
      DeadAt ((t.exit ord).core.get id) (t.exit ord).core.canon.data p := by
    intro id hid
    by_cases htr : (State.stalemate t).Tracked id
    · rcases htr with hr' | hcand
      · rw [hres] at hr'
        exact absurd hr' (Finset.notMem_empty _)
      · exact Or.inl hcand
    · exact Or.inr (((hd id hid htr).evolves hev le_rfl).mono hp)
  rcases hdead i hi with ⟨b, hb⟩ | hdi
  · rcases hdead j hj with ⟨b', hb'⟩ | hdj
    · have hbb : b ≠ b' := by
        rintro rfl
        exact hij (lone_candidate h hc hgood hb hb')
      exact candidates_contest h hc hb hb' hbb hp
    · exact Or.inr (Or.inl hdj)
  · exact Or.inl hdi

end

/-! ## runs -/

section
variable {exits : Stalemate → IterOrder → Prop}

/-- replays are only added while nobody has reported a delayed position -/
theorem micro_supported {m m' : State} (he : m.Early) (htar : m.core.target = 2) (hw : Window m)
    (hd : Dropped m) (ha : Announced m) (h : Supported m) (hs : Micro Unreported exits m m') :
    Supported m' := by
  have hev := micro_evolves he.wf hs
  intro hb p hp
  have hbm := hb.of_evolves hev
  have hkeep : m'.core.replays.length = m.core.replays.length → p < m.core.cl →
      Shared m'.core p ∨ Contested m'.core p := by
    intro hlen hpm
    rcases h hbm p hpm with hsh | hco
    · exact Or.inl (hsh.evolves hev hpm)
    · exact Or.inr (hco.evolves hev hpm hlen)
  rcases micro_length he.wf hs with hlen | ⟨hj, hcl⟩
  · rcases micro_cases hs with hq | ⟨t, i, rfl, hi, rfl⟩ | ⟨t, ord, rfl, hc, hx, rfl⟩
    · refine hkeep hlen ?_
      unfold Core.cl at hp ⊢
      rwa [hq.data] at hp
    · refine hkeep hlen ?_
      change p < (t.evaluate i).core.canon.data.length at hp
      rw [(evaluate_canon t i).1] at hp
      exact hp
    · by_cases hlt : p < t.core.cl
      · exact hkeep hlen hlt
      · by_cases hgood : 2 ≤ (t.good ord).length
        · exact Or.inl (exit_shared he.wf hc htar hw hbm hgood hp)
        · exact Or.inr (exit_contested he.wf hc htar hd (not_le.mp hgood) (not_lt.mp hlt))
  · exfalso
    have hst : m.core.started = false := by
      by_contra hst
      obtain ⟨id, hid⟩ := ha (by simpa using hst)
      have := hj id
      omega
    have := (he.unstarted hst).2
    omega

/-- what holds at every moment of a run with two votes -/
structure State.Voted (m : State) : Prop where
  early : m.Early
  target : m.core.target = 2
  window : Window m
  dropped : Dropped m
  announced : Announced m
  supported : Supported m

theorem micro_voted {m m' : State} (h : m.Voted) (hs : Micro Unreported ExactExit m m') :
    m'.Voted :=
  ⟨micro_early h.early hs, (micro_evolves h.early.wf hs).target.trans h.target,
    micro_window h.early.wf h.window hs, micro_dropped h.early.wf h.dropped hs,
    micro_announced h.early.wf h.announced hs,
    micro_supported h.early h.target h.window h.dropped h.announced h.supported hs⟩

theorem Micros.voted {m m' : State} (h : m.Voted) (hs : Micros Unreported ExactExit m m') :
    m'.Voted := by
  induction hs with
  | refl => exact h
  | tail _ hs ih => exact micro_voted ih hs

theorem new_voted (dist : Nat) : (State.new 2 dist).Voted :=
  ⟨new_early 2 dist, rfl, (new_windows 2 dist).1, new_dropped 2 dist,
    fun h => absurd h Bool.false_ne_true, fun _ _ hp => absurd hp (Nat.not_lt_zero _)⟩

/-- what supports a byte once all replays are complete -/
theorem shared_of_complete {c : Core} {p : Nat} (hp : p < c.cl) (h : Shared c p ∨ Contested c p)
    {i j : Nat} (hi : i < c.replays.length) (hj : j < c.replays.length) (hij : i ≠ j)
    (hpi : c.canon.data.take p <+: (c.get i).data) (hpj : c.canon.data.take p <+: (c.get j).data)
    (hli : p < c.len i) (he : (c.get i).data[p]? = (c.get j).data[p]?) : Shared c p := by
  rcases h with hs | hco
  · exact hs
  · have hlj : p < c.len j := by
      rw [List.getElem?_eq_getElem hli] at he
      exact (List.getElem?_eq_some_iff.mp he.symm).1
    exfalso
    rcases hco i hi j hj hij with hd | hd | ⟨_, _, hne⟩
    · exact absurd (hd.not_extends hp.le hpi) (not_le.mpr hli)
    · exact absurd (hd.not_extends hp.le hpj) (not_le.mpr hlj)
    · exact hne he

end

end Merge

end ReplayServer
