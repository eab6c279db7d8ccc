import ReplayServer.Replay.MergeTracking
import ReplayServer.Replay.MergeWindow

/-!
# replay: the abstract model, the terms of its quorums

A term goes from the pass that resolves a stalemate to the pass that enters the next one.  Where
merges are exact a quorum merges until the data of a member ends or two members differ.

* `exit_cause`       why a new quorum merged no more;
* `Books`            what is kept of the terms of a run, each with the moment it was opened and
                     closed: their lengths go up, a short member has released its data when the
                     term is closed, and every split costs a replay;
* `step_books`       a callback adds its terms to the books, and they count the passes of its loop;
* `Books.splits_le`  so there are at most as many splits as replays.
-/

set_option linter.unusedSectionVars false

namespace ReplayServer
namespace Merge
open Agree Relation

/-- why a quorum merged no more -/
inductive Cause where
  | short (id : Nat)
  /-- two members went on with different bytes -/
  | split (i j : Nat)
  deriving DecidableEq

/-- a quorum, when it has merged -/
structure Opening where
  opened : Nat
  length : Nat
  cause : Cause
  deriving DecidableEq

/-- a quorum, up to the end of what it merged -/
structure Term extends Opening where
  closed : Nat
  deriving DecidableEq

def Cause.member : Cause → Option Nat
  | .short id => some id
  | .split _ _ => none

def openings (past : List Term) (cur : Option Opening) : List Opening :=
  past.map Term.toOpening ++ cur.toList

def splits (past : List Term) : Nat := past.countP fun a => a.cause.member.isNone

/-- the changes of the state that the terms stand for -/
def tally (past : List Term) (cur : Option Opening) : Nat :=
  past.length + (openings past cur).length

def State.passes (ords : Nat → IterOrder) : Nat → State → Nat
  | 0, _ => 0
  | fuel + 1, m =>
    if m.shouldChange (ords (fuel + 1)) then passes ords fuel (m.change (ords (fuel + 1))) + 1 else 0

def State.stepPasses (ords : Nat → IterOrder) (m : State) (a : Action) : Nat :=
  if Session.settles a then (m.direct (ords 0) a).passes ords (m.direct (ords 0) a).fuel else 0

/-! ## the direct part of a callback -/

/-- what the direct part of a callback leaves as it is -/
structure Keeps (m m' : State) : Prop where
  evolves : Evolves m.core m'.core
  tracked : ∀ id < m.core.replays.length, m'.Tracked id → m.Tracked id
  data : m'.core.canon.data = m.core.canon.data
  quorum : ∀ q, m = .quorum q → ∃ q', m' = .quorum q' ∧ q'.quorum = q.quorum ∧
    (q'.core.canon.delayed = q'.core.cl → q.core.canon.delayed = q.core.cl ∨
      ∀ id ∈ q.quorum, q.core.cl ≤ (q'.core.get id).delayed)
  stalemate : ∀ t, m = .stalemate t → ∃ t', m' = .stalemate t' ∧
    ∀ id < t.core.replays.length, id ∈ t'.reserve → id ∈ t.reserve

theorem Keeps.cl {m m' : State} (h : Keeps m m') : m'.core.cl = m.core.cl :=
  congrArg List.length h.data

theorem Keeps.refl (m : State) : Keeps m m where
  evolves := .refl _
  tracked _ _ h := h
  data := rfl
  quorum q hq := ⟨q, hq, rfl, fun h => Or.inl h⟩
  stalemate t ht := ⟨t, ht, fun _ _ h => h⟩

theorem Keeps.trans {m m' m'' : State} (h : Keeps m m') (h' : Keeps m' m'') : Keeps m m'' where
  evolves := h.evolves.trans h'.evolves
  tracked id hid ht := h.tracked id hid (h'.tracked id (lt_of_lt_of_le hid h.evolves.length) ht)
  data := h'.data.trans h.data
  quorum q hq := by
    obtain ⟨q1, hq1, he1, hc1⟩ := h.quorum q hq
    obtain ⟨q2, hq2, he2, hc2⟩ := h'.quorum q1 hq1
    have hcl : q1.core.cl = q.core.cl := by
      have := h.cl
      rwa [hq, hq1] at this
    have hev := h'.evolves
    rw [hq1, hq2] at hev
    refine ⟨q2, hq2, he2.trans he1, fun hd => ?_⟩
    rcases hc2 hd with hd | hall
    · rcases hc1 hd with hd | hall
      · exact Or.inl hd
      · exact Or.inr (fun id hid => (hall id hid).trans (hev.delayed id))
    · rw [he1, hcl] at hall
      exact Or.inr hall
  stalemate t ht := by
    obtain ⟨t1, ht1, hr1⟩ := h.stalemate t ht
    obtain ⟨t2, ht2, hr2⟩ := h'.stalemate t1 ht1
    have hlen := h.evolves.length
    rw [ht, ht1] at hlen
    exact ⟨t2, ht2, fun id hid hmem => hr1 id hid (hr2 id (lt_of_lt_of_le hid hlen) hmem)⟩

/-- what changes the core only, and neither the canonical data nor what is shown of it -/
theorem keeps_mapCore {m : State} {f : Core → Core} (hev : Evolves m.core (f m.core))
    (hd : (f m.core).canon.data = m.core.canon.data)
    (hdel : (f m.core).canon.delayed = m.core.canon.delayed) : Keeps m (m.mapCore f) where
  evolves := by
    rw [mapCore_core]
    exact hev
  tracked _ _ ht := State.tracked_mapCore.mp ht
  data := by
    rw [mapCore_core]
    exact hd
  quorum q hq := by
    subst hq
    refine ⟨_, rfl, rfl, fun hc => Or.inl ?_⟩
    change (f q.core).canon.delayed = (f q.core).canon.data.length at hc
    change (f q.core).canon.data = q.core.canon.data at hd
    change (f q.core).canon.delayed = q.core.canon.delayed at hdel
    rw [hd, hdel] at hc
    exact hc
  stalemate t ht := by
    subst ht
    exact ⟨_, rfl, fun _ _ h => h⟩

section
variable {joins : State → Prop} {m m' : State}

/-- a small step that neither resolves nor enters a stalemate -/
theorem micro_keeps (hw : m.WF) (hs : Micro joins (fun _ _ => False) m m')
    (hq : ∀ q, m = .quorum q → ∃ q', m' = .quorum q') : Keeps m m' := by
  have hev := micro_evolves hw hs
  have htr : ∀ id < m.core.replays.length, m'.Tracked id → m.Tracked id :=
    fun id hid ht => micro_tracked hw hs hid ht
  cases hs with
  | added _ hj hf =>
    refine ⟨hev, htr, by rw [addReplay_core], fun q hq => ?_, fun t ht => ?_⟩
    · subst hq
      exact ⟨_, rfl, rfl, fun hc => Or.inl hc⟩
    · subst ht
      refine ⟨_, rfl, fun id hid hmem => ?_⟩
      rcases Finset.mem_insert.mp hmem with rfl | hmem
      · exact absurd hid (lt_irrefl _)
      · exact hmem
  | header _ id x hl hh =>
    refine (keeps_mapCore (evolves_modify (grows_header x) hl.2 le_rfl) rfl rfl).trans
      (keeps_mapCore (evolves_addHeader _ x) ?_ ?_)
    · unfold State.addHeader
      split <;> rfl
    · unfold State.addHeader
      split <;> rfl
  | data _ id buf hl hh => exact keeps_mapCore (evolves_modify (grows_data buf) hl.2 le_rfl) rfl rfl
  | delayed _ id n hl h1 h2 => exact keeps_mapCore (evolves_modify (grows_delayed n) hl.2 h1) rfl rfl
  | ended _ id hl hd => exact keeps_mapCore (evolves_modify grows_finished hl.2 le_rfl) rfl rfl
  | evaluate t id hid =>
    refine ⟨hev, htr, congrArg Canon.data (evaluate_canon t id).1, fun q hq => (by cases hq), ?_⟩
    rintro _ ⟨⟩
    exact ⟨_, rfl, fun j _ hj => (evaluate_reserve t id).2 hj⟩
  | started t id hd =>
    refine ⟨hev, htr, rfl, fun q hq => (by cases hq), ?_⟩
    rintro _ ⟨⟩
    exact ⟨_, rfl, fun _ _ h => h⟩
  | update q ord =>
    refine ⟨hev, htr, Core.advance_data _, ?_, fun t ht => by cases ht⟩
    rintro _ ⟨⟩
    refine ⟨_, rfl, rfl, fun hc => ?_⟩
    -- the position was there before, or it comes from all members
    change (q.core.advance _).canon.delayed = (q.core.advance _).cl at hc
    rw [Core.advance_delayed, Core.advance_cl] at hc
    by_cases hold : q.core.canon.delayed = q.core.cl
    · exact Or.inl hold
    · right
      intro id hid
      show q.core.cl ≤ ((q.core.advance _).get id).delayed
      rw [Core.advance_get]
      have hp := position_le ord hid
      have hle := hw.core.delayed
      change q.core.canon.delayed ≤ q.core.cl at hle
      omega
  | enter q hd =>
    obtain ⟨q', hq'⟩ := hq q rfl
    cases hq'
  | exit t ord hc hx => exact hx.elim
  | finish _ hall =>
    rw [mapCore_core] at hev
    exact keeps_mapCore hev rfl rfl

theorem stalemate_keeps {t : Stalemate} (hw : t.WF)
    (hs : Micros joins (fun _ _ => False) (.stalemate t) m') : Keeps (.stalemate t) m' := by
  induction hs with
  | refl => exact .refl _
  | tail hs hst ih =>
    refine ih.trans (micro_keeps (Micros.wf (show State.WF (.stalemate t) from hw) hs) hst
      (fun q hq => ?_))
    obtain ⟨t', ht', -⟩ := ih.stalemate t rfl
    rw [ht'] at hq
    cases hq

theorem micros_keeps (hw : m.WF) (hs : Micros joins (fun _ _ => False) m m')
    (hq : ∀ t, m' = .stalemate t → ∃ t, m = .stalemate t) : Keeps m m' := by
  induction hs using ReflTransGen.head_induction_on with
  | refl => exact .refl _
  | @head m m1 hst hs ih =>
    have hw1 := micro_wf hw hst
    cases m1 with
    | quorum q1 =>
      exact (micro_keeps hw hst (fun _ _ => ⟨q1, rfl⟩)).trans (ih hw1 (fun t ht => by
        obtain ⟨t0, ht0⟩ := hq t ht
        subst ht0
        obtain ⟨_, ht1, -⟩ := (micro_keeps hw hst (fun q hq => by cases hq)).stalemate t0 rfl
        cases ht1))
    | stalemate t1 =>
      have hk := stalemate_keeps hw1 hs
      obtain ⟨t', ht', -⟩ := hk.stalemate t1 rfl
      obtain ⟨t0, ht0⟩ := hq t' ht'
      refine (micro_keeps hw hst (fun q hq => ?_)).trans hk
      rw [ht0] at hq
      cases hq

theorem direct_keeps (hw : m.WF) {a : Action} (ha : m.allowed a) (ord : IterOrder) :
    Keeps m (m.direct ord a) := by
  have hs : Micros (fun _ => True) (fun _ _ => False) m (m.direct ord a) :=
    direct_micros ord ha (fun _ => trivial)
  refine micros_keeps hw hs (fun t ht => ?_)
  obtain ⟨t0, ht0, -⟩ := (direct_stays m ord a).stalemate t ht
  exact ⟨t0, ht0⟩

end

/-! ## the books -/

/-- both replays go on behind the canonical data, with different bytes -/
structure Core.Differ (c : Core) (i j : Nat) : Prop where
  left : i < c.replays.length ∧ c.cl < c.len i
  right : j < c.replays.length ∧ c.cl < c.len j
  ne : (c.get i).data[c.cl]? ≠ (c.get j).data[c.cl]?

theorem Core.Differ.evolves {c c' : Core} {i j : Nat} (h : c.Differ i j) (hev : Evolves c c')
    (hcl : c'.cl = c.cl) : c'.Differ i j := by
  refine ⟨⟨lt_of_lt_of_le h.left.1 hev.length, ?_⟩, ⟨lt_of_lt_of_le h.right.1 hev.length, ?_⟩, ?_⟩
  · rw [hcl]
    exact lt_of_lt_of_le h.left.2 (hev.len i)
  · rw [hcl]
    exact lt_of_lt_of_le h.right.2 (hev.len j)
  · rw [hcl, getElem?_of_isPrefix (hev.data i) h.left.2, getElem?_of_isPrefix (hev.data j) h.right.2]
    exact h.ne

structure Quorum.Present (q : Quorum) (o : Opening) : Prop where
  length : o.length = q.core.cl
  short : ∀ id, o.cause = .short id → id ∈ q.quorum
  split : ∀ i j, o.cause = .split i j → i ∈ q.quorum ∧ j ∈ q.quorum ∧ q.core.Differ i j
  caught : q.core.canon.delayed = q.core.cl →
    ∀ id ∈ q.quorum, q.core.cl ≤ (q.core.get id).delayed

/-- different replays that are not tracked -/
structure State.Lost (m : State) (ids : List Nat) : Prop where
  nodup : ids.Nodup
  lost : ∀ id ∈ ids, id < m.core.replays.length ∧ ¬ m.Tracked id

/-- every split has lost a replay, but for the last one before a stalemate that goes on -/
inductive Paid (m : State) (past : List Term) (ids : List Nat) : Prop where
  | all (h : ids.length = splits past)
  | butOne {t : Stalemate} (hm : m = .stalemate t) {i j : Nat} (hi : i ∉ ids ∧ i ∉ t.reserve)
      (hj : j ∉ ids ∧ j ∉ t.reserve) (hd : t.core.Differ i j) (h : ids.length + 1 = splits past)

/-- the terms of a run up to `m`; `P` is known of each that was opened, and `Q` once it is closed -/
structure Books (P : Opening → Prop) (Q : Term → Prop) (m : State) (past : List Term)
    (cur : Option Opening) : Prop where
  opened : ∀ o ∈ openings past cur, P o
  closed : ∀ a ∈ past, Q a
  ordered : past.Pairwise fun a b => a.length < b.length ∧ a.closed ≤ b.opened
  forth : ∀ a ∈ past, a.opened ≤ a.closed
  last : ∀ a ∈ past, ∀ o, cur = some o → a.length < o.length ∧ a.closed ≤ o.opened
  reached : ∀ o ∈ openings past cur, 0 < o.length ∧ o.length ≤ m.core.cl
  added : ∀ o ∈ openings past cur, ∀ id, o.cause = .short id → id < m.core.replays.length
  quorum : ∀ q, m = .quorum q → ∃ o, cur = some o ∧ q.Present o
  stalemate : ∀ t, m = .stalemate t → cur = none
  paid : ∃ ids, m.Lost ids ∧ Paid m past ids

/-- at the moment `k`, when the replays have `lens` bytes and released `delays` of them -/
structure Stamps (P : Opening → Prop) (Q : Term → Prop) (k : Nat) (lens delays : Nat → Nat) :
    Prop where
  opened : ∀ o : Opening, o.opened = k → (∀ id, o.cause = .short id → o.length = lens id) → P o
  closed : ∀ a : Term, a.closed = k → (∀ id, a.cause = .short id → a.length ≤ delays id) → Q a
  opened_le : ∀ o, P o → o.opened ≤ k
  closed_le : ∀ a, Q a → a.closed ≤ k

theorem new_books (P : Opening → Prop) (Q : Term → Prop) (target dist : Nat) :
    Books P Q (State.new target dist) [] none where
  opened _ h := absurd h List.not_mem_nil
  closed _ h := absurd h List.not_mem_nil
  ordered := .nil
  forth _ h := absurd h List.not_mem_nil
  last _ h := absurd h List.not_mem_nil
  reached _ h := absurd h List.not_mem_nil
  added _ h := absurd h List.not_mem_nil
  quorum q hq := by cases hq
  stalemate _ _ := rfl
  paid := ⟨[], ⟨List.nodup_nil, fun _ h => absurd h List.not_mem_nil⟩, .all rfl⟩

namespace Books
variable {P P' : Opening → Prop} {Q Q' : Term → Prop} {m m' : State} {past : List Term}
  {cur : Option Opening}

theorem mono (h : Books P Q m past cur) (hP : ∀ o, P o → P' o) (hQ : ∀ a, Q a → Q' a) :
    Books P' Q' m past cur :=
  { h with
    opened := fun o ho => hP o (h.opened o ho)
    closed := fun a ha => hQ a (h.closed a ha) }

/-- the direct part of a callback leaves the books as they are -/
theorem keeps (h : Books P Q m past cur) (hk : Keeps m m') : Books P Q m' past cur where
  opened := h.opened
  closed := h.closed
  ordered := h.ordered
  forth := h.forth
  last := h.last
  reached := by
    rw [hk.cl]
    exact h.reached
  added o ho id hid := lt_of_lt_of_le (h.added o ho id hid) hk.evolves.length
  quorum q' hq' := by
    cases m with
    | stalemate t =>
      obtain ⟨t', ht', -⟩ := hk.stalemate t rfl
      rw [hq'] at ht'
      cases ht'
    | quorum q =>
      obtain ⟨o, ho, hp⟩ := h.quorum q rfl
      obtain ⟨q1, hq1, hmem, hc⟩ := hk.quorum q rfl
      rw [hq'] at hq1
      cases hq1
      subst hq'
      have hcl : q'.core.cl = q.core.cl := hk.cl
      have hev : Evolves q.core q'.core := hk.evolves
      refine ⟨o, ho, hp.length.trans hcl.symm, ?_, ?_, fun hd => ?_⟩
      · rw [hmem]
        exact hp.short
      · rw [hmem]
        intro i j hij
        obtain ⟨h1, h2, h3⟩ := hp.split i j hij
        exact ⟨h1, h2, h3.evolves hev hcl⟩
      · rw [hmem, hcl]
        rcases hc hd with hd | hall
        · exact fun id hid => (hp.caught hd id hid).trans (hev.delayed id)
        · exact hall
  stalemate t' ht' := by
    cases m with
    | stalemate t => exact h.stalemate t rfl
    | quorum q =>
      obtain ⟨q', hq', -⟩ := hk.quorum q rfl
      rw [ht'] at hq'
      cases hq'
  paid := by
    obtain ⟨ids, hl, hp⟩ := h.paid
    refine ⟨ids, ⟨hl.nodup, fun id hid => ?_⟩, ?_⟩
    · obtain ⟨h1, h2⟩ := hl.lost id hid
      exact ⟨lt_of_lt_of_le h1 hk.evolves.length, fun ht => h2 (hk.tracked id h1 ht)⟩
    · cases hp with
      | all he => exact .all he
      | @butOne t hm i j hi hj hd he =>
        subst hm
        obtain ⟨t', rfl, hr⟩ := hk.stalemate t rfl
        exact .butOne rfl ⟨hi.1, fun hmem => hi.2 (hr i hd.left.1 hmem)⟩
          ⟨hj.1, fun hmem => hj.2 (hr j hd.right.1 hmem)⟩ (hd.evolves hk.evolves hk.cl) he

/-- **there are at most as many splits as replays** -/
theorem splits_le (h : Books P Q m past cur) : splits past ≤ m.core.replays.length := by
  have key : ∀ {ids : List Nat}, ids.Nodup → (∀ id ∈ ids, id < m.core.replays.length) →
      ids.length ≤ m.core.replays.length := by
    intro ids hnd hlt
    have hsub : ids ⊆ List.range m.core.replays.length := fun id hid => List.mem_range.mpr (hlt id hid)
    have := (hnd.subperm hsub).length_le
    rwa [List.length_range] at this
  obtain ⟨ids, hl, hp⟩ := h.paid
  cases hp with
  | all he =>
    rw [← he]
    exact key hl.nodup (fun id hid => (hl.lost id hid).1)
  | @butOne t hm i j hi hj hd he =>
    rw [← he]
    subst hm
    have hnodup : (i :: ids).Nodup := List.nodup_cons.mpr ⟨hi.1, hl.nodup⟩
    refine key hnodup (fun id hid => ?_)
    rcases List.mem_cons.mp hid with rfl | hid
    · exact hd.left.1
    · exact (hl.lost id hid).1

end Books

/-! ## the passes of the loop -/

/-- **why a new quorum merged no more** -/
theorem exit_cause {t : Stalemate} (h : t.WF) {ord : IterOrder} (hc : t.canExit ord = true)
    (ht : t.core.target ≤ 2) : ∃ cause : Cause,
    (∀ id, cause = .short id → id ∈ (t.exit ord).quorum ∧ t.core.len id = (t.exit ord).core.cl) ∧
    ∀ i j, cause = .split i j → i ∈ (t.exit ord).quorum ∧ j ∈ (t.exit ord).quorum ∧
      (t.exit ord).core.Differ i j := by
  have hr := resolved h ord (canExit_iff.mp hc).2.1
  have hm := Quorum.merge_spec hr.base ord
  have hw := Quorum.merge_wf hr.base ord
  have hx : (t.chosen ord).Exact ord := exactExit_of_target h hc ht
  have hcl : (t.exit ord).core.cl = (t.chosen ord).agreed ord :=
    hm.cl.trans ((Quorum.commonPrefix_eq_agreed_iff ord hr.base).mpr hx)
  have hq : (t.exit ord).quorum = (t.chosen ord).quorum := hm.quorum
  have hlen : ∀ id, (t.exit ord).core.len id = t.core.len id :=
    (Stalemate.exit_frame h ord (canExit_iff.mp hc).2.1).1.len
  have short : ∀ id ∈ (t.exit ord).quorum, t.core.len id = (t.exit ord).core.cl →
      ∃ cause : Cause, (∀ id, cause = .short id → id ∈ (t.exit ord).quorum ∧
        t.core.len id = (t.exit ord).core.cl) ∧
      ∀ i j, cause = .split i j → i ∈ (t.exit ord).quorum ∧ j ∈ (t.exit ord).quorum ∧
        (t.exit ord).core.Differ i j := by
    intro id hid hl
    refine ⟨.short id, fun j hj => ?_, fun i j hij => by cases hij⟩
    cases hj
    exact ⟨hid, hl⟩
  have hsame : ∀ id, ((t.chosen ord).core.get id).data = ((t.exit ord).core.get id).data :=
    fun id => (hm.frame.data id).symm
  rcases Quorum.agreed_end ord hr.base with ⟨id, hid, hl⟩ | ⟨i, hi, j, hj, hne⟩
  · refine short id (hq ▸ hid) ?_
    rw [hcl, ← hl, ← hlen]
    exact hm.frame.len id
  · rw [← hcl, hsame, hsame] at hne
    have hi' : i ∈ (t.exit ord).quorum := hq ▸ hi
    have hj' : j ∈ (t.exit ord).quorum := hq ▸ hj
    have hwi := hw.members i hi'
    have hwj := hw.members j hj'
    -- where one of the two ends, it is short
    by_cases hli : (t.exit ord).core.len i = (t.exit ord).core.cl
    · exact short i hi' ((hlen i).symm.trans hli)
    by_cases hlj : (t.exit ord).core.len j = (t.exit ord).core.cl
    · exact short j hj' ((hlen j).symm.trans hlj)
    refine ⟨.split i j, fun id hid => (by cases hid), fun i' j' hij => ?_⟩
    cases hij
    exact ⟨hi', hj', ⟨hwi.1, lt_of_le_of_ne hwi.2 (Ne.symm hli)⟩,
      ⟨hwj.1, lt_of_le_of_ne hwj.2 (Ne.symm hlj)⟩, hne⟩

/-- what a new quorum tracks was a candidate for the byte that resolves the stalemate, or waited -/
theorem exit_tracked {t : Stalemate} (h : t.WF) {ord : IterOrder} (hc : t.canExit ord = true) {id : Nat}
    (ht : (State.quorum (t.exit ord)).Tracked id) :
    id ∈ t.reserve ∨ IsCand t.cand (t.bestByte ord) id := by
  have hr := resolved h ord (canExit_iff.mp hc).2.1
  have hm := Quorum.merge_spec hr.base ord
  change id ∈ ((t.chosen ord).merge ord).quorum ∨ id ∈ ((t.chosen ord).merge ord).reserve at ht
  rw [hm.quorum, hm.reserve, hr.selected.all] at ht
  exact ht.symm.imp_right (hr.cand id)

theorem Cause.isNone_member_iff {c : Cause} : c.member.isNone = true ↔ ∃ i j, c = .split i j := by
  cases c with
  | short id => exact iff_of_false (fun h => by cases h) (fun ⟨_, _, h⟩ => by cases h)
  | split i j => exact iff_of_true rfl ⟨i, j, rfl⟩

section
variable {P : Opening → Prop} {Q : Term → Prop} {k : Nat} {lens delays : Nat → Nat}
  (hst : Stamps P Q k lens delays) {past : List Term} {cur : Option Opening}
include hst

/-- **entering a stalemate closes the term of the quorum** -/
theorem Books.enter {q : Quorum} (hw : q.WF) {o : Opening} (h : Books P Q (.quorum q) past (some o))
    {ord : IterOrder} (hc : q.hasToEnter = true)
    (hdel : ∀ id, (q.core.get id).delayed ≤ delays id) :
    Books P Q (.stalemate (q.enter ord)) (past ++ [⟨o, k⟩]) none := by
  obtain ⟨_, ⟨⟩, hp⟩ := h.quorum q rfl
  have hd : q.core.canon.delayed = q.core.cl := le_antisymm hw.core.delayed (of_decide_eq_true hc)
  obtain ⟨hf, hcanon, -, -⟩ := Stalemate.fromQuorum_frame ord q.core (q.reserve ∪ q.quorum)
  have hcl : (q.enter ord).core.cl = q.core.cl := congrArg (fun c => c.data.length) hcanon
  have hmic : Micros (fun _ => True) (fun _ _ => True) (.quorum q) (.stalemate (q.enter ord)) :=
    change_micros (show State.WF (.quorum q) from hw) hc (fun _ _ => trivial)
  have hev : Evolves q.core (q.enter ord).core := Micros.evolves hmic hw
  have htr : ∀ id < q.core.replays.length, (State.stalemate (q.enter ord)).Tracked id →
      (State.quorum q).Tracked id := fun id hid ht => Micros.tracked hmic hw hid ht
  have hopen : openings (past ++ [⟨o, k⟩]) none = openings past (some o) := by
    unfold openings
    rw [List.map_append]
    exact List.append_nil _
  have hmem : o ∈ openings past (some o) := List.mem_append_right _ List.mem_cons_self
  have hok : o.opened ≤ k := hst.opened_le o (h.opened o hmem)
  constructor
  case opened =>
    rw [hopen]
    exact h.opened
  case closed =>
    intro a ha
    rcases List.mem_append.mp ha with ha | ha
    · exact h.closed a ha
    · rw [List.mem_singleton.mp ha]
      refine hst.closed _ rfl (fun id hid => ?_)
      show o.length ≤ delays id
      rw [hp.length]
      exact (hp.caught hd id (hp.short id hid)).trans (hdel id)
  case ordered =>
    refine List.pairwise_append.mpr ⟨h.ordered, List.pairwise_singleton _ _, fun a ha b hb => ?_⟩
    rw [List.mem_singleton.mp hb]
    exact h.last a ha o rfl
  case forth =>
    intro a ha
    rcases List.mem_append.mp ha with ha | ha
    · exact h.forth a ha
    · rw [List.mem_singleton.mp ha]
      exact hok
  case last =>
    intro a _ o' ho'
    cases ho'
  case reached =>
    rw [hopen]
    show ∀ o' ∈ openings past (some o), 0 < o'.length ∧ o'.length ≤ (q.enter ord).core.cl
    rw [hcl]
    exact h.reached
  case added =>
    rw [hopen]
    exact fun o' ho' id hid => lt_of_lt_of_le (h.added o' ho' id hid) hev.length
  case quorum =>
    intro q' hq'
    cases hq'
  case stalemate => exact fun _ _ => rfl
  case paid =>
    obtain ⟨ids, hl, hpaid⟩ := h.paid
    have hlost : (State.stalemate (q.enter ord)).Lost ids := by
      refine ⟨hl.nodup, fun id hid => ?_⟩
      obtain ⟨h1, h2⟩ := hl.lost id hid
      exact ⟨lt_of_lt_of_le h1 hev.length, fun ht => h2 (htr id h1 ht)⟩
    have hlen : ids.length = splits past := by
      cases hpaid with
      | all he => exact he
      | butOne hm => cases hm
    refine ⟨ids, hlost, ?_⟩
    have hsplits : splits (past ++ [⟨o, k⟩]) = splits past + if o.cause.member.isNone then 1 else 0 := by
      unfold splits
      rw [List.countP_append, List.countP_singleton]
    by_cases hs : o.cause.member.isNone = true
    · obtain ⟨i, j, hij⟩ := Cause.isNone_member_iff.mp hs
      obtain ⟨hi, hj, hdiff⟩ := hp.split i j hij
      -- both are tracked and too long to wait
      have hnot : ∀ id ∈ q.quorum, q.core.cl < q.core.len id →
          id ∉ ids ∧ id ∉ (q.enter ord).reserve := by
        intro id hid hlt
        refine ⟨fun hmem => (hl.lost id hmem).2 (Or.inl hid), fun hmem => ?_⟩
        exact absurd (Stalemate.fromQuorum_reserve hw.core hmem).1 (not_le.mpr hlt)
      refine .butOne rfl (hnot i hi hdiff.left.2) (hnot j hj hdiff.right.2) (hdiff.evolves hev hcl) ?_
      rw [hsplits, if_pos hs, hlen]
    · refine .all ?_
      rw [hsplits, if_neg hs, hlen]
      rfl

/-- **resolving a stalemate opens the term of the new quorum** -/
theorem Books.exit {t : Stalemate} (hw : t.WF) (h : Books P Q (.stalemate t) past none)
    {ord : IterOrder} (hc : t.canExit ord = true) (htar : t.core.target ≤ 2)
    (hlens : ∀ id, t.core.len id = lens id) :
    ∃ o, Books P Q (.quorum (t.exit ord)) past (some o) := by
  obtain ⟨cause, hshort, hsplit⟩ := exit_cause hw hc htar
  have hcl : t.core.cl < (t.exit ord).core.cl := exit_cl hw hc
  have hev := evolves_exit hw hc
  have hf := (Stalemate.exit_frame hw ord (canExit_iff.mp hc).2.1).1
  have hex : (t.exit ord).WF := Stalemate.exit_wf hw ord (canExit_iff.mp hc).2.1
  have hmic : Micros (fun _ => True) (fun _ _ => True) (.stalemate t) (.quorum (t.exit ord)) :=
    .single (.exit t ord hc trivial)
  obtain ⟨o, rfl⟩ : ∃ o : Opening, o = ⟨k, (t.exit ord).core.cl, cause⟩ := ⟨_, rfl⟩
  have hopen : ∀ o' ∈ openings past (some ⟨k, (t.exit ord).core.cl, cause⟩),
      o' ∈ openings past none ∨ o' = ⟨k, (t.exit ord).core.cl, cause⟩ := by
    intro o' ho'
    rcases List.mem_append.mp ho' with ho' | ho'
    · exact Or.inl (List.mem_append_left _ ho')
    · exact Or.inr (List.mem_singleton.mp ho')
  refine ⟨⟨k, (t.exit ord).core.cl, cause⟩, ?_⟩
  constructor
  case opened =>
    intro o' ho'
    rcases hopen o' ho' with ho' | rfl
    · exact h.opened o' ho'
    · refine hst.opened _ rfl (fun id hid => ?_)
      rw [← hlens]
      exact (hshort id hid).2.symm
  case closed => exact h.closed
  case ordered => exact h.ordered
  case forth => exact h.forth
  case last =>
    rintro a ha _ ⟨⟩
    have hmem : a.toOpening ∈ openings past none :=
      List.mem_append_left _ (List.mem_map_of_mem ha)
    exact ⟨lt_of_le_of_lt (h.reached _ hmem).2 hcl, hst.closed_le a (h.closed a ha)⟩
  case reached =>
    intro o' ho'
    show 0 < o'.length ∧ o'.length ≤ (t.exit ord).core.cl
    rcases hopen o' ho' with ho' | rfl
    · obtain ⟨h1, h2⟩ := h.reached o' ho'
      exact ⟨h1, h2.trans hcl.le⟩
    · exact ⟨Nat.zero_lt_of_lt hcl, le_rfl⟩
  case added =>
    intro o' ho' id hid
    rcases hopen o' ho' with ho' | rfl
    · exact lt_of_lt_of_le (h.added o' ho' id hid) hev.length
    · exact (hex.members id (hshort id hid).1).1
  case quorum =>
    rintro _ ⟨⟩
    refine ⟨_, rfl, rfl, fun id hid => (hshort id hid).1, hsplit, fun hd id hid => ?_⟩
    -- the position has moved, so all members have released as much
    have hr := resolved hw ord (canExit_iff.mp hc).2.1
    have hm := Quorum.merge_spec hr.base ord
    have hdel : (t.exit ord).core.canon.delayed =
        max t.core.canon.delayed (min ((t.chosen ord).position ord) (t.exit ord).core.cl) := by
      rw [show (t.exit ord).core.canon.delayed = _ from hm.delayed, hr.selected.core]
      rfl
    rw [hdel, hw.delayed] at hd
    have hid' : id ∈ (t.chosen ord).quorum := hm.quorum ▸ hid
    have hpos := position_le ord hid'
    have hsame : ((t.chosen ord).core.get id).delayed = ((t.exit ord).core.get id).delayed :=
      (hm.frame.delayed id).symm
    omega
  case stalemate =>
    intro t' ht'
    cases ht'
  case paid =>
    obtain ⟨ids, hl, hpaid⟩ := h.paid
    have hlost : ∀ id, id < t.core.replays.length ∧ ¬ (State.stalemate t).Tracked id →
        id < (t.exit ord).core.replays.length ∧ ¬ (State.quorum (t.exit ord)).Tracked id :=
      fun id hid => ⟨lt_of_lt_of_le hid.1 hev.length,
        fun ht => hid.2 (Micros.tracked hmic hw hid.1 ht)⟩
    cases hpaid with
    | all he => exact ⟨ids, ⟨hl.nodup, fun id hid => hlost id (hl.lost id hid)⟩, .all he⟩
    | @butOne t' hm i j hi hj hd he =>
      cases hm
      -- one of the two has another byte than the one that resolves the stalemate
      obtain ⟨v, hv, hvlt, hvt⟩ : ∃ v, v ∉ ids ∧ v < (t.exit ord).core.replays.length ∧
          ¬ (State.quorum (t.exit ord)).Tracked v := by
        by_cases hti : (State.quorum (t.exit ord)).Tracked i
        · refine ⟨j, hj.1, lt_of_lt_of_le hd.right.1 hev.length, fun htj => hd.ne ?_⟩
          have hci := (exit_tracked hw hc hti).resolve_left hi.2
          have hcj := (exit_tracked hw hc htj).resolve_left hj.2
          rw [(hw.cand _ i hci).2.2.1, (hw.cand _ j hcj).2.2.1]
        · exact ⟨i, hi.1, lt_of_lt_of_le hd.left.1 hev.length, hti⟩
      refine ⟨v :: ids, ⟨List.nodup_cons.mpr ⟨hv, hl.nodup⟩, fun id hid => ?_⟩, .all he⟩
      rcases List.mem_cons.mp hid with rfl | hid
      · exact ⟨hvlt, hvt⟩
      · exact hlost id (hl.lost id hid)

/-- **the loop adds its terms to the books, and they count its passes** -/
theorem Books.work {m : State} (hw : m.WF) (h : Books P Q m past cur) (htar : m.core.target ≤ 2)
    (hlens : ∀ id, m.core.len id = lens id) (hdel : ∀ id, (m.core.get id).delayed ≤ delays id)
    (ords : Nat → IterOrder) (fuel : Nat) : ∃ past' cur', Books P Q (m.work ords fuel) past' cur' ∧
      tally past' cur' = tally past cur + m.passes ords fuel := by
  induction fuel generalizing m past cur with
  | zero => exact ⟨past, cur, h, rfl⟩
  | succ fuel ih =>
    unfold State.work State.passes
    by_cases hc : m.shouldChange (ords (fuel + 1)) = true
    · rw [if_pos hc, if_pos hc]
      have hf := (State.change_frame hw hc).1
      have onward : ∀ {past1 : List Term} {cur1 : Option Opening},
          Books P Q (m.change (ords (fuel + 1))) past1 cur1 → tally past1 cur1 = tally past cur + 1 →
          ∃ past' cur', Books P Q ((m.change (ords (fuel + 1))).work ords fuel) past' cur' ∧
            tally past' cur' =
              tally past cur + ((m.change (ords (fuel + 1))).passes ords fuel + 1) := by
        intro past1 cur1 h1 ht
        obtain ⟨past', cur', hb, he⟩ := ih (State.change_wf hw hc) h1 (by rw [hf.target]; exact htar)
          (fun id => (hf.len id).trans (hlens id)) (fun id => (hf.delayed id).trans_le (hdel id))
        exact ⟨past', cur', hb, by omega⟩
      cases m with
      | quorum q =>
        obtain ⟨o, rfl, -⟩ := h.quorum q rfl
        refine onward (h.enter hst hw hc hdel) ?_
        simp only [tally, openings, List.map_append, List.length_append, List.length_map,
          List.map_cons, List.map_nil, List.length_cons, List.length_nil, Option.toList]
        omega
      | stalemate t =>
        obtain rfl := h.stalemate t rfl
        obtain ⟨o, h1⟩ := h.exit hst hw hc htar hlens
        refine onward h1 ?_
        simp only [tally, openings, List.length_append, List.length_map, List.length_cons,
          List.length_nil, Option.toList]
        omega
    · rw [if_neg hc, if_neg hc]
      exact ⟨past, cur, h, rfl⟩

/-- **a callback adds its terms to the books** -/
theorem step_books {m : State} (hw : m.WF) (h : Books P Q m past cur) (htar : m.core.target ≤ 2)
    {a : Action} (ha : m.allowed a) (ords : Nat → IterOrder)
    (hlens : ∀ id, (m.step ords a).core.len id = lens id)
    (hdel : ∀ id, ((m.step ords a).core.get id).delayed ≤ delays id) :
    ∃ past' cur', Books P Q (m.step ords a) past' cur' ∧
      tally past' cur' = tally past cur + m.stepPasses ords a := by
  have hk := direct_keeps hw ha (ords 0)
  have hwd : (m.direct (ords 0) a).WF := by
    have hs : Micros (fun _ => True) (fun _ _ => True) m (m.direct (ords 0) a) :=
      direct_micros (ords 0) ha (fun _ => trivial)
    exact Micros.wf hw hs
  unfold State.step at hlens hdel ⊢
  unfold State.stepPasses
  by_cases hs : Session.settles a = true
  · rw [if_pos hs] at hlens hdel ⊢
    rw [if_pos hs]
    have hf := (State.work_frame hwd ords (m.direct (ords 0) a).fuel).1
    refine (h.keeps hk).work hst hwd ?_ (fun id => ?_) (fun id => ?_) ords _
    · rw [hk.evolves.target]
      exact htar
    · rw [← hlens, ← hf.len]
      rfl
    · rw [← hf.delayed]
      exact hdel id
  · rw [if_neg hs, if_neg hs]
    exact ⟨past, cur, h.keeps hk, rfl⟩

end

end Merge

end ReplayServer
