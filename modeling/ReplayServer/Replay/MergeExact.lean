import ReplayServer.Replay.MergeRun

/-!
# replay: the abstract model, which merges are exact

A quorum is meant to merge the longest common prefix of its members, `agreed`.  It compares every
member with the shortest one and hands the end of one comparison to the next as a bound, but a
comparison feels its bound only at a chunk edge.

* `foldl_boundedLcp_eq_iff`   when a fold of bounded comparisons finds the minimum;
* `commonPrefix_eq_agreed_iff`   so a merge is exact iff `Quorum.Exact` holds;
* `exact_of_card_le_two`      which is always the case for one or two members;
* `merge_common_iff`          and only then all members match the canonical data.
-/

set_option linter.unusedSectionVars false

namespace ReplayServer
namespace Merge
open Agree

/-! ## folds of bounded comparisons -/

/-- a fold of bounded comparisons is at least the minimum, and less than a chunk too long -/
theorem foldl_boundedLcp_bounds {start n : Nat} (hn : start ≤ n) (l : List Nat)
    (hl : ∀ x ∈ l, start ≤ x) :
    start ≤ l.foldl min n ∧ l.foldl min n ≤ l.foldl (boundedLcp start) n ∧
      l.foldl (boundedLcp start) n ≤ roundUp (l.foldl min n) ∧
      (l.foldl min n = start → l.foldl (boundedLcp start) n = start) := by
  induction l using List.reverseRecOn with
  | nil => exact ⟨hn, le_rfl, le_roundUp n, fun h => h⟩
  | append_singleton l x ih =>
    obtain ⟨h1, h2, h3, h4⟩ := ih (fun y hy => hl y (List.mem_append_left _ hy))
    have hx : start ≤ x := hl x (List.mem_append_right _ List.mem_cons_self)
    rw [List.foldl_append, List.foldl_append]
    show start ≤ min (l.foldl min n) x ∧
      min (l.foldl min n) x ≤ boundedLcp start (l.foldl (boundedLcp start) n) x ∧
      boundedLcp start (l.foldl (boundedLcp start) n) x ≤ roundUp (min (l.foldl min n) x) ∧
      (min (l.foldl min n) x = start → boundedLcp start (l.foldl (boundedLcp start) n) x = start)
    generalize l.foldl min n = m at h1 h2 h3 h4 ⊢
    generalize l.foldl (boundedLcp start) n = f at h2 h3 h4 ⊢
    have hf := le_roundUp f
    have hx' := le_roundUp x
    have hm := le_roundUp (min m x)
    have hup : roundUp f ≤ roundUp m := by
      have := roundUp_mono h3
      rwa [roundUp_roundUp] at this
    unfold boundedLcp
    by_cases hlt : start < f
    · rw [if_pos hlt]
      refine ⟨by omega, by omega, ?_, by omega⟩
      by_cases hmx : m ≤ x
      · rw [min_eq_left hmx]
        omega
      · rw [min_eq_right (by omega : x ≤ m)]
        omega
    · rw [if_neg hlt]
      exact ⟨by omega, by omega, by omega, fun _ => rfl⟩

/-- a fold of bounded comparisons finds the minimum iff it is the start or a chunk edge, or the last
comparison finds it by itself -/
theorem foldl_boundedLcp_eq_iff {start n : Nat} (hn : start ≤ n) (l : List Nat)
    (hl : ∀ x ∈ l, start ≤ x) :
    l.foldl (boundedLcp start) n = l.foldl min n ↔ l.foldl min n = start ∨
      chunkSize ∣ l.foldl min n ∨ ∀ x, l.getLast? = some x → x = l.foldl min n := by
  cases l using List.reverseRecOn with
  | nil => simp
  | append_singleton l x =>
    obtain ⟨h1, h2, h3, h4⟩ := foldl_boundedLcp_bounds hn l
      (fun y hy => hl y (List.mem_append_left _ hy))
    have hx : start ≤ x := hl x (List.mem_append_right _ List.mem_cons_self)
    rw [List.foldl_append, List.foldl_append]
    show boundedLcp start (l.foldl (boundedLcp start) n) x = min (l.foldl min n) x ↔
      min (l.foldl min n) x = start ∨ chunkSize ∣ min (l.foldl min n) x ∨
        ∀ y, (l ++ [x]).getLast? = some y → y = min (l.foldl min n) x
    rw [List.getLast?_append]
    simp only [List.getLast?_singleton, Option.some_or, Option.some.injEq, forall_eq']
    generalize l.foldl min n = m at h1 h2 h3 h4 ⊢
    generalize l.foldl (boundedLcp start) n = f at h2 h3 h4 ⊢
    have hm := le_roundUp m
    have hf := le_roundUp f
    unfold boundedLcp
    by_cases hlt : start < f
    · have hup : roundUp f = roundUp m := by
        have h5 := roundUp_mono h3
        rw [roundUp_roundUp] at h5
        exact le_antisymm h5 (roundUp_mono h2)
      rw [if_pos hlt, hup]
      by_cases hmx : x ≤ m
      · rw [min_eq_right hmx, min_eq_left (by omega)]
        simp
      · rw [min_eq_left (by omega : m ≤ x), ← roundUp_eq_self_iff]
        constructor
        · intro h
          exact Or.inr (Or.inl (by omega))
        · rintro (h | h | h)
          · have := h4 h
            omega
          · omega
          · omega
    · rw [if_neg hlt]
      constructor
      · intro h
        exact Or.inl h.symm
      · intro _
        omega

/-! ## what the members have in common -/

section
variable (data : Nat → List UInt8) (start : Nat) (ids : List Nat)

/-- the member with the shortest data, of several the first one -/
def firstShortest : Nat := (iterMinByKey (ids.map (fun id => (id, (data id).length)))).getD 0

/-- the members that are compared with the shortest one, in the order of the comparisons -/
def compared : List Nat := ids.filter (fun id => id ≠ firstShortest data ids)

/-- up to here `id` agrees with the shortest member -/
def agreedWith (id : Nat) : Nat := lcpFrom (data (firstShortest data ids)) (data id) start

/-- up to here all members agree -/
def agreed : Nat :=
  ((compared data ids).map (agreedWith data start ids)).foldl min
    (data (firstShortest data ids)).length

/-- when comparing the members one by one ends where they stop to agree -/
def ExactMerge : Prop :=
  agreed data start ids = start ∨ chunkSize ∣ agreed data start ids ∨
    ∀ id, (compared data ids).getLast? = some id →
      agreedWith data start ids id = agreed data start ids

end

namespace Quorum

def others (q : Quorum) (ord : IterOrder) : List Nat :=
  compared (fun id => (q.core.get id).data) (ord.ids q.quorum)

def agreedWith (q : Quorum) (ord : IterOrder) (id : Nat) : Nat :=
  Merge.agreedWith (fun id => (q.core.get id).data) q.core.cl (ord.ids q.quorum) id

def agreed (q : Quorum) (ord : IterOrder) : Nat :=
  Merge.agreed (fun id => (q.core.get id).data) q.core.cl (ord.ids q.quorum)

/-- when a merge ends where the members stop to agree -/
def Exact (q : Quorum) (ord : IterOrder) : Prop :=
  ExactMerge (fun id => (q.core.get id).data) q.core.cl (ord.ids q.quorum)

theorem others_eq (q : Quorum) (ord : IterOrder) :
    q.others ord = (ord.ids q.quorum).filter (fun id => id ≠ q.shortest ord) := rfl

theorem agreedWith_eq (q : Quorum) (ord : IterOrder) : q.agreedWith ord =
    fun id => lcpFrom (q.core.get (q.shortest ord)).data (q.core.get id).data q.core.cl := rfl

theorem agreed_eq (q : Quorum) (ord : IterOrder) : q.agreed ord =
    ((q.others ord).map (q.agreedWith ord)).foldl min (q.core.len (q.shortest ord)) := rfl

theorem exact_iff (q : Quorum) (ord : IterOrder) : q.Exact ord ↔ q.agreed ord = q.core.cl ∨
    chunkSize ∣ q.agreed ord ∨
      ∀ id, (q.others ord).getLast? = some id → q.agreedWith ord id = q.agreed ord := Iff.rfl

section
variable {q : Quorum} (ord : IterOrder) (h : q.Base)
include h

theorem mem_others {id : Nat} : id ∈ q.others ord ↔ id ∈ q.quorum ∧ id ≠ q.shortest ord := by
  rw [others_eq, List.mem_filter, ord.mem_ids, decide_eq_true_eq]

theorem shortest_bounds : q.shortest ord ∈ q.quorum ∧ q.core.cl ≤ q.core.len (q.shortest ord) ∧
    ∀ id ∈ q.quorum, q.core.len (q.shortest ord) ≤ q.core.len id := by
  obtain ⟨h1, h2⟩ := shortest_spec ord h.nonempty
  exact ⟨h1, (h.members _ h1).2, h2⟩

theorem commonPrefix_eq_foldl : q.commonPrefix ord =
    ((q.others ord).map (q.agreedWith ord)).foldl (boundedLcp q.core.cl)
      (q.core.len (q.shortest ord)) := by
  obtain ⟨hs, hcs, hmin⟩ := shortest_bounds ord h
  obtain ⟨s, hse⟩ : ∃ s, s = q.shortest ord := ⟨_, rfl⟩
  rw [← hse] at hs hcs hmin
  have key : ∀ (l : List Nat) (cp : Nat), (∀ id ∈ l, id ∈ q.quorum) → q.core.cl ≤ cp →
      cp ≤ q.core.len s →
      l.foldl (fun cp id => if id = s then cp
        else boundedLcp q.core.cl (min (min (q.core.len s) (q.core.len id)) cp)
          (lcpFrom (q.core.get s).data (q.core.get id).data q.core.cl)) cp =
      ((l.filter (fun id => id ≠ s)).map (fun id =>
        lcpFrom (q.core.get s).data (q.core.get id).data q.core.cl)).foldl
          (boundedLcp q.core.cl) cp := by
    intro l
    induction l with
    | nil => intro cp _ _ _; rfl
    | cons i l ih =>
      intro cp hsub h1 h2
      have hi := hsub i List.mem_cons_self
      have hsub' : ∀ id ∈ l, id ∈ q.quorum := fun j hj => hsub j (List.mem_cons_of_mem _ hj)
      rw [List.foldl_cons, List.filter_cons]
      by_cases his : i = s
      · rw [if_pos his, if_neg (by simpa using his)]
        exact ih cp hsub' h1 h2
      · rw [if_neg his, if_pos (by simpa using his), List.map_cons, List.foldl_cons]
        have hcp : min (min (q.core.len s) (q.core.len i)) cp = cp := by
          have := hmin i hi
          omega
        have hb := boundedLcp_bounds (e := cp)
          (le_lcpFrom (q.core.get s).data (q.core.get i).data q.core.cl)
          (lcpFrom_le_left (x := (q.core.get s).data) (y := (q.core.get i).data) hcs
            (h.members i hi).2) h1 hcs
        rw [hcp]
        exact ih _ hsub' hb.1 hb.2
  have := key (ord.ids q.quorum) (q.core.len s) (fun id hid => (ord.mem_ids _ _).mp hid) hcs le_rfl
  unfold commonPrefix
  rw [others_eq, agreedWith_eq, ← hse]
  exact this

theorem agreedWith_bounds {id : Nat} (hid : id ∈ q.quorum) :
    q.core.cl ≤ q.agreedWith ord id ∧ q.agreedWith ord id ≤ q.core.len (q.shortest ord) ∧
      q.agreedWith ord id ≤ q.core.len id := by
  obtain ⟨hs, hcs, hmin⟩ := shortest_bounds ord h
  exact ⟨le_lcpFrom _ _ _, lcpFrom_le_left hcs (h.members id hid).2,
    lcpFrom_le_right hcs (h.members id hid).2⟩

theorem cl_le_others {x : Nat} (hx : x ∈ (q.others ord).map (q.agreedWith ord)) : q.core.cl ≤ x := by
  obtain ⟨id, hid, rfl⟩ := List.mem_map.mp hx
  exact (agreedWith_bounds ord h ((mem_others ord h).mp hid).1).1

/-- **a merge is exact under a condition on the comparisons alone** -/
theorem commonPrefix_eq_agreed_iff : q.commonPrefix ord = q.agreed ord ↔ q.Exact ord := by
  rw [commonPrefix_eq_foldl ord h]
  refine (foldl_boundedLcp_eq_iff (shortest_bounds ord h).2.1 _ (fun x hx => cl_le_others ord h hx)).trans ?_
  rw [exact_iff]
  refine or_congr_right (or_congr_right ?_)
  rw [List.getLast?_map]
  constructor
  · intro hx id hid
    exact hx _ (by rw [hid]; rfl)
  · intro hx x hxs
    obtain ⟨id, hid, rfl⟩ := Option.map_eq_some_iff.mp hxs
    exact hx id hid

theorem agreed_le_commonPrefix : q.agreed ord ≤ q.commonPrefix ord := by
  rw [commonPrefix_eq_foldl ord h]
  exact (foldl_boundedLcp_bounds (shortest_bounds ord h).2.1 _ (fun x hx => cl_le_others ord h hx)).2.1

theorem foldl_min_spec (l : List Nat) (n : Nat) : l.foldl min n ≤ n ∧ (∀ x ∈ l, l.foldl min n ≤ x) ∧
    (l.foldl min n = n ∨ l.foldl min n ∈ l) := by
  induction l generalizing n with
  | nil => simp
  | cons a l ih =>
    obtain ⟨h1, h2, h3⟩ := ih (min n a)
    rw [List.foldl_cons]
    refine ⟨by omega, fun x hx => ?_, ?_⟩
    · rcases List.mem_cons.mp hx with rfl | hx
      · omega
      · exact h2 x hx
    · rcases h3 with h3 | h3
      · by_cases hna : n ≤ a
        · exact Or.inl (by omega)
        · refine Or.inr ?_
          rw [h3, min_eq_right (by omega : a ≤ n)]
          exact List.mem_cons_self
      · exact Or.inr (List.mem_cons_of_mem _ h3)

theorem agreed_le_agreedWith {id : Nat} (hid : id ∈ q.quorum) :
    q.agreed ord ≤ q.agreedWith ord id ∨ id = q.shortest ord := by
  by_cases hs : id = q.shortest ord
  · exact Or.inr hs
  · exact Or.inl ((foldl_min_spec h _ _).2.1 _
      (List.mem_map.mpr ⟨id, (mem_others ord h).mpr ⟨hid, hs⟩, rfl⟩))

theorem agreed_agree {id : Nat} (hid : id ∈ q.quorum) :
    AgreeOn (q.core.get id).data (q.core.get (q.shortest ord)).data q.core.cl (q.agreed ord) := by
  rcases agreed_le_agreedWith ord h hid with hle | rfl
  · exact ((agreeOn_lcpFrom (shortest_bounds ord h).2.1 (h.members id hid).2).symm).mono le_rfl hle
  · exact AgreeOn.refl _ _ _

/-- at `agreed` some member ends, or two members differ -/
theorem agreed_end : (∃ id ∈ q.quorum, q.core.len id = q.agreed ord) ∨
    ∃ i ∈ q.quorum, ∃ j ∈ q.quorum,
      (q.core.get i).data[q.agreed ord]? ≠ (q.core.get j).data[q.agreed ord]? := by
  obtain ⟨hs, hcs, hmin⟩ := shortest_bounds ord h
  rcases (foldl_min_spec h ((q.others ord).map (q.agreedWith ord))
    (q.core.len (q.shortest ord))).2.2 with he | he
  · exact Or.inl ⟨_, hs, he.symm⟩
  · obtain ⟨id, hid, he⟩ := List.mem_map.mp he
    have hidq := ((mem_others ord h).mp hid).1
    have he' : q.agreedWith ord id = q.agreed ord := he
    obtain ⟨_, h1, h2⟩ := agreedWith_bounds ord h hidq
    by_cases hlt : q.agreed ord < q.core.len (q.shortest ord)
    · by_cases hlt' : q.agreed ord < q.core.len id
      · refine Or.inr ⟨_, hs, id, hidq, ?_⟩
        rw [← he'] at hlt hlt' ⊢
        exact lcpFrom_ne hcs (h.members id hidq).2 hlt hlt'
      · exact Or.inl ⟨id, hidq, by omega⟩
    · exact Or.inl ⟨_, hs, by omega⟩

/-- no longer prefix is common to all members -/
theorem le_agreed {k : Nat} (hk : q.core.cl ≤ k) (hlen : ∀ id ∈ q.quorum, k ≤ q.core.len id)
    (hag : ∀ i ∈ q.quorum, ∀ j ∈ q.quorum,
      AgreeOn (q.core.get i).data (q.core.get j).data q.core.cl k) : k ≤ q.agreed ord := by
  obtain ⟨hs, hcs, hmin⟩ := shortest_bounds ord h
  rcases (foldl_min_spec h ((q.others ord).map (q.agreedWith ord))
    (q.core.len (q.shortest ord))).2.2 with he | he
  · exact (hlen _ hs).trans he.ge
  · obtain ⟨id, hid, he⟩ := List.mem_map.mp he
    have hidq := ((mem_others ord h).mp hid).1
    have hle := (le_lcpFrom_iff hk hcs (h.members id hidq).2).mpr
      ⟨hlen _ hs, hlen id hidq, hag _ hs id hidq⟩
    exact hle.trans he.le

theorem exact_of_card_le_two (hc : q.quorum.card ≤ 2) : q.Exact ord := by
  obtain ⟨hs, hcs, hmin⟩ := shortest_bounds ord h
  have hlen : (q.others ord).length ≤ 1 := by
    have hp : (ord.ids q.quorum).toFinset = q.quorum := by
      ext a
      rw [List.mem_toFinset, ord.mem_ids]
    have h1 : (ord.ids q.quorum).length = q.quorum.card := by
      rw [← List.toFinset_card_of_nodup (ord.ids_nodup _), hp]
    have h2 : (q.others ord).length < (ord.ids q.quorum).length := by
      rw [others_eq]
      refine List.length_filter_lt_length_iff_exists.mpr ⟨q.shortest ord, (ord.mem_ids _ _).mpr hs, ?_⟩
      simp
    omega
  refine (exact_iff q ord).mpr (Or.inr (Or.inr (fun id hid => ?_)))
  rw [agreed_eq]
  cases ho : q.others ord with
  | nil =>
    rw [ho] at hid
    cases hid
  | cons a l =>
    have hl : l = [] := by
      rw [ho, List.length_cons] at hlen
      exact List.length_eq_zero_iff.mp (by omega)
    subst hl
    have hia : a = id := by
      rw [ho] at hid
      exact Option.some.inj hid
    subst hia
    have hidq := ((mem_others ord h).mp (ho ▸ List.mem_cons_self)).1
    exact (min_eq_right (agreedWith_bounds ord h hidq).2.1).symm

/-! ## what the members have in common with the canonical data -/

/-- the canonical bytes that a merge adds are those of one of the members -/
theorem merge_source : AgreeOn (q.core.get (q.any ord)).data (q.merge ord).core.canon.data q.core.cl
    (q.merge ord).core.cl := by
  have hm := merge_spec h ord
  rw [hm.data, hm.cl]
  exact Core.append_agree _

/-- **an exact merge adds the bytes of every member** -/
theorem merge_common (hx : q.Exact ord) {id : Nat} (hid : id ∈ q.quorum) :
    AgreeOn (q.core.get id).data (q.merge ord).core.canon.data q.core.cl (q.merge ord).core.cl := by
  have hm := merge_spec h ord
  have hany := any_mem ord h.nonempty
  have hcp := (commonPrefix_eq_agreed_iff ord h).mpr hx
  have h1 := agreed_agree ord h hid
  have h2 := (agreed_agree ord h hany).symm
  have h3 := merge_source ord h
  rw [hm.cl, hcp] at h3 ⊢
  exact (h1.trans h2).trans h3

/-- the canonical data of a merge is the longest common prefix of the members iff it is exact -/
theorem merge_common_iff
    (hag : ∀ id ∈ q.quorum, AgreeOn (q.core.get id).data q.core.canon.data 0 q.core.cl) :
    ((∀ id ∈ q.quorum, (q.merge ord).core.canon.data <+: (q.core.get id).data) ∧
      ((∃ id ∈ q.quorum, q.core.len id = (q.merge ord).core.cl) ∨
        ∃ i ∈ q.quorum, ∃ j ∈ q.quorum, (q.core.get i).data[(q.merge ord).core.cl]? ≠
          (q.core.get j).data[(q.merge ord).core.cl]?)) ↔ q.Exact ord := by
  have hm := merge_spec h ord
  have hbounds := commonPrefix_bounds ord h.nonempty (fun id hid => (h.members id hid).2)
  constructor
  · rintro ⟨hpre, -⟩
    refine (commonPrefix_eq_agreed_iff ord h).mp (le_antisymm ?_ (agreed_le_commonPrefix ord h))
    refine le_agreed ord h hbounds.1 hbounds.2 (fun i hi j hj => ?_)
    have hp : ∀ k ∈ q.quorum, AgreeOn (q.core.get k).data (q.merge ord).core.canon.data q.core.cl
        (q.commonPrefix ord) := by
      intro k hk
      exact AgreeOn.of_prefix (hpre k hk) _ hm.cl.ge
    exact (hp i hi).trans (hp j hj).symm
  · intro hx
    have hcp : (q.merge ord).core.cl = q.agreed ord :=
      hm.cl.trans ((commonPrefix_eq_agreed_iff ord h).mpr hx)
    refine ⟨fun id hid => ?_, ?_⟩
    · refine agreeOn_zero_iff.mpr ⟨?_, ?_⟩
      · show (q.merge ord).core.cl ≤ q.core.len id
        rw [hm.cl]
        exact hbounds.2 id hid
      · have h0 : AgreeOn (q.core.get id).data (q.merge ord).core.canon.data 0 q.core.cl :=
          (hag id hid).trans (AgreeOn.of_prefix hm.frame.grow 0 le_rfl).symm
        exact h0.join (merge_common ord h hx hid) le_rfl
    · rw [hcp]
      exact agreed_end ord h

end

end Quorum

end Merge

end ReplayServer
