import ReplayServer.Replay.Refine

/-!
# replay: the code refines the abstract model, quorum and stalemate

No function of the two states fails, and each gives an implementation of what its abstract
counterpart gives: `MergeQuorumState.Rel.mergeMoreData`, `MergeStalemateState.Rel.exitStalemate`,
`MergeQuorumState.Rel.enterStalemate` and so on.
-/

set_option linter.unusedSectionVars false

namespace ReplayServer
open Fallible Agree Merge

structure MergeQuorumState.Rel (s : MergeQuorumState) (q : Quorum) : Prop where
  shared : s.s.Rel (fun id => id ∈ q.quorum ∨ id ∈ q.reserve) q.core
  quorum : s.quorum = q.quorum
  reserve : s.reserve = q.reserve

structure MergeStalemateState.Rel (s : MergeStalemateState) (t : Stalemate) : Prop where
  shared : s.s.Rel (State.stalemate t).Tracked t.core
  candidates : s.candidates = t.cand
  reserve : s.reserve = t.reserve

/-! ## quorum -/

namespace MergeQuorumState.Rel
variable {s : MergeQuorumState} {q : Quorum} (h : s.Rel q) (hb : q.Base)
  (hf : q.core.canon.finished = false) (ord : IterOrder)
include h hb

theorem quorumDelayedPosition : s.quorumDelayedPosition ord = .ok (q.position ord) := by
  have hids : ∀ id ∈ ord.ids q.quorum, (do return (← s.s.getReplay id).r.delayedDataLen : Res Nat) =
      .ok (q.core.get id).delayed := by
    intro id hid
    obtain ⟨rs, _, hget, hrel⟩ := h.shared.getReplay (hb.members id ((ord.mem_ids _ _).mp hid)).1
    rw [hget, ok_bind, hrel.delayed]
    rfl
  unfold MergeQuorumState.quorumDelayedPosition Quorum.position
  rw [h.quorum, mapM_ok _ _ _ hids, ok_bind]
  cases hm : ((ord.ids q.quorum).map (fun id => (q.core.get id).delayed)).min? with
  | none =>
    rw [List.min?_eq_none_iff, List.map_eq_nil_iff] at hm
    exact absurd hm (ids_ne_nil ord hb.nonempty)
  | some m => rfl

include hf in
theorem updateDelayedPosition :
    Returns (s.updateDelayedPosition ord) (fun s' => s'.Rel (q.update ord)) := by
  unfold MergeQuorumState.updateDelayedPosition
  rw [h.quorumDelayedPosition hb, ok_bind]
  refine Returns.bind (h.shared.updateCanonDelayedDataLen _ hf) (fun s' hs' => ?_)
  exact returns_ok ⟨hs', h.quorum, h.reserve⟩

include hf in
theorem replayDataUpdated (id : Nat) :
    Returns (s.replayDataUpdated ord id) (fun s' => s'.Rel (q.dataUpdated ord id)) := by
  unfold MergeQuorumState.replayDataUpdated Quorum.dataUpdated
  rw [h.quorum]
  split
  · exact h.updateDelayedPosition hb hf ord
  · exact returns_ok h

theorem hasToEnterStalemate : s.hasToEnterStalemate = q.hasToEnter := by
  unfold MergeQuorumState.hasToEnterStalemate Quorum.hasToEnter
  rw [h.shared.canonDataLen, h.shared.canonDelayedDataLen]

theorem calculateQuorumPrefix : s.calculateQuorumPrefix ord = .ok (q.commonPrefix ord) := by
  have hmem : ∀ id ∈ ord.ids q.quorum, id ∈ q.quorum := fun id hid => (ord.mem_ids _ _).mp hid
  have hlt : ∀ id ∈ ord.ids q.quorum, id < q.core.replays.length :=
    fun id hid => (hb.members id (hmem id hid)).1
  obtain ⟨hs, -⟩ := shortest_spec ord hb.nonempty
  obtain ⟨m, -, hmin, -⟩ := iterMinByKey_spec
    (l := (ord.ids q.quorum).map (fun id => (id, q.core.len id))) (by
      rw [ne_eq, List.map_eq_nil_iff]
      exact ids_ne_nil ord hb.nonempty)
  have hshort : q.shortest ord = m.1 := by
    unfold Quorum.shortest
    rw [hmin]
    rfl
  have hwin : ∀ id ∈ q.quorum, ∀ rs : ReplayState,
      rs.Rel q.core.dist q.core.cl (id ∈ q.quorum ∨ id ∈ q.reserve) (q.core.get id) →
      rs.r.data.windowStart ≤ q.core.cl := by
    intro id hid rs hrs
    have h1 := (hrs.kept (Or.inl hid)).2
    have h2 := hb.core.matching id
    omega
  obtain ⟨rs, _, hget, hrel⟩ := h.shared.getReplay (hb.members _ hs).1
  unfold MergeQuorumState.calculateQuorumPrefix
  rw [h.quorum, assertThat_true (Finset.nonempty_iff_ne_empty.mp hb.nonempty), ok_bind]
  dsimp only
  rw [h.shared.withLens hlt, ok_bind, hmin, unwrap_some, ok_bind, ← hshort, hget, ok_bind,
    h.shared.canonDataLen, hrel.dataLen]
  have key := foldlM_sim (R := fun a b : Nat => a = b)
    (fun commonPrefix id => do
      if id = q.shortest ord then
        return commonPrefix
      let other ← s.s.getReplay id
      rs.commonPrefixFromTo other q.core.cl (some commonPrefix))
    (fun cp id => if id = q.shortest ord then cp
      else boundedLcp q.core.cl (min (min (q.core.len (q.shortest ord)) (q.core.len id)) cp)
        (lcpFrom (q.core.get (q.shortest ord)).data (q.core.get id).data q.core.cl))
    (ord.ids q.quorum) (fun a b id hid hab => by
      subst hab
      by_cases his : id = q.shortest ord
      · rw [if_pos his, if_pos his]
        exact returns_ok rfl
      · rw [if_neg his, if_neg his]
        obtain ⟨rs', _, hget', hrel'⟩ := h.shared.getReplay (hlt id hid)
        rw [hget', ok_bind]
        refine ⟨_, BufDeque.commonPrefixFromTo_eq hrel.data hrel'.data (hb.members _ hs).2
          (hb.members id (hmem id hid)).2 (hwin _ hs rs hrel) (hwin id (hmem id hid) rs' hrel') a, rfl⟩)
    (q.core.len (q.shortest ord)) (q.core.len (q.shortest ord)) rfl
  obtain ⟨a, ha, hae⟩ := key
  exact ha.trans (congrArg Except.ok hae)

theorem discardDataAfterMerging : Returns (s.discardDataAfterMerging ord)
    (fun s' => s'.Rel { q with core := q.core.setMatching (ord.ids q.quorum) }) := by
  unfold MergeQuorumState.discardDataAfterMerging
  dsimp only
  rw [h.quorum, h.reserve, h.shared.canonDataLen]
  refine Returns.bind (h.shared.foldl_modify (fun id hid =>
    (hb.members id ((ord.mem_ids _ _).mp hid)).1) rfl) (fun s' hs' => ?_)
  refine Returns.bind (hs'.foldl_discard (fun id (hid : id ∈ ord.ids q.reserve) => ?_)
    Core.setMatching_cl.symm) (fun s'' hs'' => ?_)
  · rw [Core.setMatching_length]
    exact hb.reserve id ((ord.mem_ids _ _).mp hid)
  · exact returns_ok ⟨hs'', rfl, rfl⟩

include hf in
theorem mergeMoreData : Returns (s.mergeMoreData ord) (fun s' => s'.Rel (q.merge ord)) := by
  obtain ⟨h1, h2⟩ := commonPrefix_bounds ord hb.nonempty (fun id hid => (hb.members id hid).2)
  have hany := any_mem ord hb.nonempty
  have hhead : (ord.ids q.quorum).head? = some (q.any ord) := by
    unfold Quorum.any
    cases hl : ord.ids q.quorum with
    | nil => exact absurd hl (ids_ne_nil ord hb.nonempty)
    | cons a l => rfl
  unfold MergeQuorumState.mergeMoreData
  rw [h.calculateQuorumPrefix hb ord, ok_bind, h.quorum, hhead, unwrap_some, ok_bind]
  refine Returns.bind (h.shared.appendCanonData (hb.members _ hany).1 (Or.inl hany)
    (hb.core.matching _) hf h1 (h2 _ hany)) (fun s1 hs1 => ?_)
  obtain ⟨c, hc⟩ : ∃ c, c = q.core.append (q.any ord) (q.commonPrefix ord) := ⟨_, rfl⟩
  have hcl : c.cl = q.commonPrefix ord := by
    rw [hc]
    exact Core.append_cl h1 (h2 _ hany)
  rw [← hc] at hs1
  have hr1 : MergeQuorumState.Rel { s with s := s1 } { q with core := c } := ⟨hs1, h.quorum, h.reserve⟩
  have hb1 : Quorum.Base { q with core := c } := by
    refine ⟨?_, hb.nonempty, ?_, hb.disjoint, ?_, ?_⟩
    · rw [hc]
      exact hb.core.append h1 (h2 _ hany)
    · rw [hc]
      exact hb.card
    · intro id hid
      show id < c.replays.length ∧ c.cl ≤ c.len id
      rw [hcl, hc]
      exact ⟨(hb.members id hid).1, h2 id hid⟩
    · rw [hc]
      exact hb.reserve
  rw [show (⟨s1, q.quorum, s.reserve⟩ : MergeQuorumState) = { s with s := s1 } by rw [← h.quorum]]
  refine Returns.bind (hr1.discardDataAfterMerging hb1 ord) (fun s2 hs2 => ?_)
  have hb2 : Quorum.Base { q with core := c.setMatching (ord.ids q.quorum) } := by
    have hfr := Core.frame_setMatching (c := c) (ord.ids q.quorum)
    refine ⟨hb1.core.setMatching (fun id hid => (hb1.members id ((ord.mem_ids _ _).mp hid)).2),
      hb.nonempty, ?_, hb.disjoint, ?_, ?_⟩
    · show _ ≤ max 1 (c.setMatching _).target
      rw [hfr.target]
      exact hb1.card
    · intro id hid
      show id < (c.setMatching _).replays.length ∧ (c.setMatching _).cl ≤ (c.setMatching _).len id
      rw [hfr.length, Core.setMatching_cl, hfr.len]
      exact hb1.members id hid
    · intro id hid
      show id < (c.setMatching _).replays.length
      rw [hfr.length]
      exact hb1.reserve id hid
  have hf2 : (c.setMatching (ord.ids q.quorum)).canon.finished = false := by
    rw [Core.setMatching_canon, hc]
    exact hf
  refine (hs2.updateDelayedPosition hb2 hf2 ord).mono (fun s3 hs3 => ?_)
  have hm : q.merge ord = Quorum.update { q with core := c.setMatching (ord.ids q.quorum) } ord := by
    rw [hc]
    rfl
  rw [hm]
  exact hs3

end MergeQuorumState.Rel

/-- choosing the quorum -/
theorem SharedState.Rel.fromStalemate {T : Nat → Prop} {s : SharedState} {c : Core} (h : s.Rel T c)
    {ord : IterOrder} {good : List Nat} {reserve : Finset Nat} (hne : good ≠ [])
    (hgood : ∀ id ∈ good, id < c.replays.length)
    (hsel : Selected c good reserve (Quorum.select c ord good reserve))
    (hb : (Quorum.select c ord good reserve).Base) (hf : c.canon.finished = false)
    (hT : ∀ id < c.replays.length, T id ↔ id ∈ good ∨ id ∈ reserve) :
    ReturnsIf (0 < c.target) (MergeQuorumState.fromStalemate ord s good reserve)
      (fun s' => s'.Rel ((Quorum.select c ord good reserve).merge ord)) := by
  unfold MergeQuorumState.fromStalemate
  rw [assertThat_true hne, ok_bind, h.withLens hgood, ok_bind]
  dsimp only
  by_cases htar : c.target = 0
  · -- The quorum is empty, and the code asserts that it is not.
    rw [h.target, htar, Nat.min_zero]
    exact returnsIf_error (Nat.lt_irrefl 0)
  have hmax : max 1 c.target = c.target := max_eq_right (Nat.pos_of_ne_zero htar)
  refine (MergeQuorumState.Rel.mergeMoreData ?_ hb (by rw [hsel.core]; exact hf) ord).returnsIf
  refine ⟨?_, ?_, ?_⟩
  · rw [hsel.core]
    refine h.congr (fun id hid => ?_)
    rw [hT id hid, hsel.all]
  · rw [h.target, ← hmax]
    rfl
  · rw [h.target, ← hmax]
    rfl

/-! ## stalemate -/

/-- an evaluation, then the check of the delayed data -/
theorem MergeStalemateState.replayDataUpdated_eq (s : MergeStalemateState) (id : Nat) :
    s.replayDataUpdated id =
      ((if id ∈ s.reserve then s.tryMoveReplayToCandidates id else .ok s) >>= fun u => do
        let replay ← u.s.getReplay id
        if !u.s.delayedDataStarted && replay.r.delayedDataLen > 0 then
          return { u with s := { u.s with delayedDataStarted := true } }
        return u) := by
  unfold MergeStalemateState.replayDataUpdated
  split <;> rfl

theorem MergeStalemateState.insertCandidate_eq (s : MergeStalemateState) (b : UInt8) (id : Nat) :
    s.insertCandidate b id = .ok { s with candidates := addCandidate s.candidates b id } := by
  unfold MergeStalemateState.insertCandidate addCandidate
  by_cases hn : s.candidates.lookup b = none
  · rw [if_pos hn, hn]
    dsimp only
    rw [Finmap.lookup_insert, unwrap_some, ok_bind, Finmap.insert_insert]
    rfl
  · rw [if_neg hn]
    obtain ⟨l, hl⟩ := Option.ne_none_iff_exists'.mp hn
    dsimp only
    rw [hl, unwrap_some, ok_bind]
    rfl

/-- when a reserve replay becomes a candidate -/
theorem tracked_promote {t : Stalemate} {id : Nat} (hid : id ∈ t.reserve) (b : UInt8) (c : Core)
    (j : Nat) : (State.stalemate t).Tracked j ↔
      (State.stalemate ⟨c, addCandidate t.cand b id, t.reserve.erase id⟩).Tracked j := by
  rw [State.tracked_stalemate, State.tracked_stalemate, Finset.mem_erase]
  constructor
  · rintro (hr | ⟨b', hc⟩)
    · by_cases hj : j = id
      · exact Or.inr ⟨b, isCand_addCandidate.mpr (Or.inr ⟨rfl, hj⟩)⟩
      · exact Or.inl ⟨hj, hr⟩
    · exact Or.inr ⟨b', isCand_addCandidate.mpr (Or.inl hc)⟩
  · rintro (⟨_, hr⟩ | ⟨b', hc⟩)
    · exact Or.inl hr
    · rcases isCand_addCandidate.mp hc with hc | ⟨_, rfl⟩
      · exact Or.inr ⟨b', hc⟩
      · exact Or.inl hid

namespace MergeStalemateState.Rel
variable {s : MergeStalemateState} {t : Stalemate} (h : s.Rel t) (hw : t.WF)
include h hw

theorem divergesAtStalemate {id : Nat} (hid : id ∈ t.reserve) (hlen : t.core.cl ≤ t.core.len id)
    {rs : ReplayState} (hrs : rs.Rel t.core.dist t.core.cl ((State.stalemate t).Tracked id)
      (t.core.get id)) :
    rs.divergesAtStalemate s.s.canonicalStream = .ok
      (lcpFrom (t.core.get id).data t.core.canon.data (t.core.matchStart (t.core.get id)) !=
        t.core.cl) := by
  have hcl : s.s.canonicalStream.dataLen = t.core.cl := h.shared.canonDataLen
  have hms := matchStart_le (hw.core.matching id)
  unfold ReplayState.divergesAtStalemate ReplayState.matchStartOptimization
  rw [assertThat_true (by rw [hrs.dataLen, hcl]; exact hlen), ok_bind, hcl, hrs.cmpDistance,
    hrs.matching]
  dsimp only
  have hwin := (hrs.kept (Or.inl hid)).2
  have hstart : max (t.core.get id).matching (t.core.cl - t.core.dist) =
      t.core.matchStart (t.core.get id) := rfl
  rw [hstart] at hwin ⊢
  rw [BufDeque.commonPrefixFrom_eq hrs.data h.shared.canon.data (hms.trans hlen) hms hwin
    (by rw [h.shared.canon.windowStart]; exact Nat.zero_le _), ok_bind]
  rfl

/-- when a reserve replay that is no candidate leaves the reserve -/
theorem tracked_erase {id : Nat} (hid : id ∈ t.reserve) (j : Nat) :
    ((State.stalemate t).Tracked j ∧ j ≠ id) ↔
      (State.stalemate { t with reserve := t.reserve.erase id }).Tracked j := by
  rw [State.tracked_stalemate, State.tracked_stalemate, Finset.mem_erase]
  constructor
  · rintro ⟨hr | hc, hne⟩
    · exact Or.inl ⟨hne, hr⟩
    · exact Or.inr hc
  · rintro (⟨hne, hr⟩ | ⟨b, hc⟩)
    · exact ⟨Or.inl hr, hne⟩
    · refine ⟨Or.inr ⟨b, hc⟩, ?_⟩
      rintro rfl
      exact (hw.cand b j hc).2.1 hid

theorem tryMoveReplayToCandidates {id : Nat} (hid : id ∈ t.reserve) :
    Returns (s.tryMoveReplayToCandidates id) (fun s' => s'.Rel (t.evaluate id)) := by
  have hlt := hw.reserve id hid
  obtain ⟨rs, _, hget, hrel⟩ := h.shared.getReplay hlt
  have herase : Returns (s.s.modifyReplay id ReplayState.setDiverged) (fun s' => s'.Rel
      (State.stalemate { t with reserve := t.reserve.erase id }).Tracked t.core) :=
    (h.shared.setDiverged hlt).mono (fun s' hs' =>
      hs'.congr (fun j _ => tracked_erase h hw hid j))
  unfold MergeStalemateState.tryMoveReplayToCandidates Stalemate.evaluate
  dsimp only
  rw [hget, ok_bind, hrel.dataLen, h.shared.canonDataLen, hrel.finished]
  by_cases hshort : (t.core.get id).data.length ≤ t.core.cl
  · rw [if_pos hshort, if_pos hshort]
    by_cases hfin : (t.core.get id).finished = true
    · rw [if_pos hfin, if_pos hfin]
      refine Returns.bind herase (fun s' hs' => ?_)
      refine returns_ok ⟨hs', h.candidates, ?_⟩
      show s.reserve.erase id = t.reserve.erase id
      rw [h.reserve]
    · rw [if_neg hfin, if_neg hfin]
      exact returns_ok h
  · rw [if_neg hshort, if_neg hshort, h.divergesAtStalemate hw hid (not_le.mp hshort).le hrel, ok_bind]
    by_cases heq : lcpFrom (t.core.get id).data t.core.canon.data
        (t.core.matchStart (t.core.get id)) = t.core.cl
    · rw [if_neg (by simp [heq]), if_pos heq]
      refine Returns.bind (h.shared.setMatching hlt) (fun s' hs' => ?_)
      have hlt' : id < (t.core.modify id (Replay.setMatching t.core.cl)).replays.length := by
        rw [Core.modify_length]
        exact hlt
      obtain ⟨rs', _, hget', hrel'⟩ := hs'.getReplay hlt'
      rw [Core.get_modify_self hlt] at hrel'
      have hin : t.core.cl < (t.core.get id).data.length := not_le.mp hshort
      have hb := List.getElem?_eq_getElem hin
      have hat : ChunkedBuf.at rs'.r.data t.core.cl = .ok (t.core.get id).data[t.core.cl] := by
        refine BufDeque.at_eq hrel'.data ?_ hb
        have h1 := (hrel'.kept (Or.inl hid)).2
        have h2 := hw.core.matching id
        change rs'.r.data.windowStart ≤ max (max t.core.cl (t.core.get id).matching)
          (t.core.cl - t.core.dist) at h1
        omega
      rw [hget', ok_bind, hat, ok_bind, hb, Option.getD_some]
      rw [insertCandidate_eq]
      refine returns_ok ⟨hs'.congr (fun j _ => tracked_promote hid _ _ j), ?_, ?_⟩
      · show addCandidate s.candidates _ id = addCandidate t.cand _ id
        rw [h.candidates]
      · show s.reserve.erase id = t.reserve.erase id
        rw [h.reserve]
    · rw [if_pos (by simpa using heq), if_neg heq]
      refine Returns.bind herase (fun s' hs' => ?_)
      refine returns_ok ⟨hs', h.candidates, ?_⟩
      show s.reserve.erase id = t.reserve.erase id
      rw [h.reserve]

theorem evaluateIf (id : Nat) :
    Returns (if id ∈ s.reserve then s.tryMoveReplayToCandidates id else .ok s)
      (fun s' => s'.Rel (t.evaluateIf id)) := by
  unfold Stalemate.evaluateIf
  rw [h.reserve]
  split
  · rename_i hid
    exact h.tryMoveReplayToCandidates hw hid
  · exact returns_ok h

theorem replayEnded (id : Nat) :
    Returns (s.replayEnded id) (fun s' => s'.Rel (t.evaluateIf id)) :=
  h.evaluateIf hw id

theorem replayDataUpdated {id : Nat} (hid : id < t.core.replays.length) :
    Returns (s.replayDataUpdated id) (fun s' => s'.Rel (t.dataUpdated id)) := by
  rw [MergeStalemateState.replayDataUpdated_eq]
  unfold Stalemate.dataUpdated
  refine Returns.bind (h.evaluateIf hw id) (fun s1 h1 => ?_)
  have hlen := (evaluateIf_frame t id).length
  obtain ⟨rs, _, hget, hrel⟩ := h1.shared.getReplay (show id < _ by rw [hlen]; exact hid)
  rw [hget, ok_bind, h1.shared.started, hrel.delayed]
  dsimp only
  split
  · refine returns_ok ⟨?_, h1.candidates, h1.reserve⟩
    exact ⟨h1.shared.dist, rfl, h1.shared.target, h1.shared.length, h1.shared.replay, h1.shared.canon⟩
  · exact returns_ok h1

/-- the candidate lists are not empty -/
theorem lengths_ne_nil (ord : IterOrder) {e : UInt8 × List Nat} (he : e ∈ t.cand.entries ord) :
    e.2 ≠ [] :=
  (hw.lists e.1 e.2 (mem_entries.mp he)).1

theorem canExitStalemate (ord : IterOrder) : s.canExitStalemate ord = .ok (t.canExit ord) := by
  unfold MergeStalemateState.canExitStalemate Stalemate.canExit Stalemate.largest
  rw [h.candidates, h.reserve, h.shared.started, h.shared.target]
  cases hs : t.core.started with
  | false => rfl
  | true =>
    by_cases hk : t.cand.keys = ∅
    · simp [hk]
    · by_cases hr : t.reserve = ∅
      · simp [hk, hr]
      · have hne : (t.cand.entries ord).map (fun e => e.2.length) ≠ [] := by
          rw [ne_eq, List.map_eq_nil_iff]
          exact entries_ne_nil hk
        cases hm : ((t.cand.entries ord).map (fun e => e.2.length)).max? with
        | none => exact absurd (List.max?_eq_none_iff.mp hm) hne
        | some m => simp [hk, hr]

theorem bestByte (ord : IterOrder) (hne : t.cand.keys ≠ ∅) :
    s.bestByte ord = .ok (t.bestByte ord) := by
  have hent : ∀ e ∈ t.cand.entries ord, (do
      let lens ← e.2.mapM s.s.replayLen
      return (e.2.length, ← unwrap lens.max?, e.1) : Res (Nat × Nat × UInt8)) =
      .ok (e.2.length, (e.2.map t.core.len).max?.getD 0, e.1) := by
    intro e he
    rw [mapM_ok _ _ _ (fun id hid => h.shared.replayLen
      (hw.cand e.1 id ⟨e.2, mem_entries.mp he, hid⟩).1), ok_bind]
    cases hm : (e.2.map t.core.len).max? with
    | none =>
      rw [List.max?_eq_none_iff, List.map_eq_nil_iff] at hm
      exact absurd hm (lengths_ne_nil h hw ord he)
    | some m => rfl
  have htne : t.tuples ord ≠ [] := by
    unfold Stalemate.tuples
    rw [ne_eq, List.map_eq_nil_iff]
    exact entries_ne_nil hne
  obtain ⟨m, hm, -, -⟩ := iterMax_spec htne
  unfold MergeStalemateState.bestByte Stalemate.bestByte
  rw [h.candidates, mapM_ok _ _ _ hent, ok_bind]
  unfold Stalemate.tuples at hm
  unfold Stalemate.tuples
  rw [hm]
  rfl

omit h hw in
/-- the candidates for the other bytes -/
theorem mem_entries_erase {b : UInt8} {ord : IterOrder} {e : UInt8 × List Nat} :
    e ∈ Candidates.entries (t.cand.erase b) ord ↔ e.1 ≠ b ∧ t.cand.lookup e.1 = some e.2 := by
  rw [mem_entries]
  constructor
  · intro hl
    have hb : e.1 ≠ b := by
      intro heq
      rw [heq, Finmap.lookup_erase] at hl
      cases hl
    rw [Finmap.lookup_erase_ne hb] at hl
    exact ⟨hb, hl⟩
  · rintro ⟨hb, hl⟩
    rw [Finmap.lookup_erase_ne hb]
    exact hl

omit h in
/-- who is left when the candidates for the other bytes are gone -/
theorem tracked_left_iff {ord : IterOrder} (hne : t.cand.keys ≠ ∅) (id : Nat) :
    ((State.stalemate t).Tracked id ∧
      ∀ e ∈ Candidates.entries (t.cand.erase (t.bestByte ord)) ord, id ∉ e.2) ↔
      id ∈ t.good ord ∨ id ∈ t.reserve := by
  have hr := resolved hw ord hne
  constructor
  · rintro ⟨hres | ⟨b, l, hl, hid⟩, hall⟩
    · exact Or.inr hres
    · by_cases hb : b = t.bestByte ord
      · subst hb
        rw [hr.lookup] at hl
        cases hl
        exact Or.inl hid
      · exact absurd hid (hall (b, l) (mem_entries_erase.mpr ⟨hb, hl⟩))
  · intro hid
    refine ⟨?_, ?_⟩
    · rcases hid with hg | hres
      · exact Or.inr ⟨_, hr.cand id hg⟩
      · exact Or.inl hres
    · rintro ⟨b, l⟩ he hil
      obtain ⟨hb, hl⟩ := mem_entries_erase.mp he
      obtain ⟨_, h2, h3, _⟩ := hw.cand b id ⟨l, hl, hil⟩
      rcases hid with hg | hres
      · have h3' := (hw.cand _ id (hr.cand id hg)).2.2.1
        rw [h3] at h3'
        exact hb (Option.some.inj h3')
      · exact h2 hres

theorem exitStalemate {ord : IterOrder} (hc : t.canExit ord = true)
    (hf : t.core.canon.finished = false) :
    ReturnsIf (0 < t.core.target) (s.exitStalemate ord) (fun s' => s'.Rel (t.exit ord)) := by
  have hne := (canExit_iff.mp hc).2.1
  have hr := resolved hw ord hne
  have hgood := (hw.lists _ _ hr.lookup).1
  have hhead : (t.good ord)[0]? = some ((t.good ord).headD 0) := by
    cases hg : t.good ord with
    | nil => exact absurd hg hgood
    | cons a l => rfl
  have hmem : (t.good ord).headD 0 ∈ t.good ord := List.mem_of_getElem? hhead
  obtain ⟨hlt, hnr, hbyte, hmat⟩ := hw.cand _ _ (hr.cand _ hmem)
  have hlen : t.core.cl + 1 ≤ t.core.len ((t.good ord).headD 0) :=
    (List.getElem?_eq_some_iff.mp hbyte).1
  unfold MergeStalemateState.exitStalemate
  rw [assertThat_true (by rw [h.candidates]; exact hne), ok_bind, h.bestByte hw ord hne, ok_bind,
    h.candidates, hr.lookup, unwrap_some, ok_bind]
  dsimp only
  rw [hhead, unwrap_some, ok_bind, h.shared.canonDataLen, h.reserve]
  refine Returns.bindIf (h.shared.appendCanonData hlt (Or.inr ⟨_, hr.cand _ hmem⟩) hmat.le hf
    (Nat.le_succ _) hlen) (fun s1 hs1 => ?_)
  refine Returns.bindIf (hs1.foldl_entries
    (fun e (he : e ∈ Candidates.entries (t.cand.erase (t.bestByte ord)) ord) id hid => ?_))
    (fun s2 hs2 => ?_)
  · exact (hw.cand e.1 id ⟨e.2, (mem_entries_erase.mp he).2, hid⟩).1
  · exact hs2.fromStalemate hgood (fun id hid => (hw.cand _ id (hr.cand id hid)).1) hr.selected
      hr.base hf (fun id _ => tracked_left_iff hw hne id)

end MergeStalemateState.Rel

/-- back to a stalemate: every replay of the quorum and of its reserve is evaluated -/
theorem SharedState.Rel.fromQuorum {ord : IterOrder} {s : SharedState} {c : Core}
    {reserve : Finset Nat} (h : s.Rel (fun id => id ∈ reserve) c) (hw : c.WF)
    (hd : c.canon.delayed = c.cl) (hr : ∀ id ∈ reserve, id < c.replays.length) :
    Returns (MergeStalemateState.fromQuorum ord s reserve)
      (fun s' => s'.Rel (Stalemate.fromQuorum ord c reserve)) := by
  have key : ∀ (l : List Nat) (s : MergeStalemateState) (t : Stalemate), l.Nodup →
      (∀ id ∈ l, id ∈ t.reserve) → t.WF → s.Rel t →
      Returns (l.foldlM MergeStalemateState.tryMoveReplayToCandidates s)
        (fun s' => s'.Rel (l.foldl Stalemate.evaluate t)) := by
    intro l
    induction l with
    | nil => intro s t _ _ _ hrel; exact returns_ok hrel
    | cons i l ih =>
      intro s t hnd hsub hwf hrel
      obtain ⟨hi, hnd'⟩ := List.nodup_cons.mp hnd
      have hir := hsub i List.mem_cons_self
      rw [List.foldlM_cons]
      refine Returns.bind (hrel.tryMoveReplayToCandidates hwf hir) (fun s' hs' => ?_)
      refine ih s' _ hnd' (fun j hj => ?_) (Stalemate.evaluate_wf hwf hir) hs'
      refine (evaluate_reserve t i).1 (Finset.mem_erase.mpr ⟨?_, hsub j (List.mem_cons_of_mem _ hj)⟩)
      rintro rfl
      exact hi hj
  refine key (ord.ids reserve) ⟨s, ∅, reserve⟩ ⟨c, ∅, reserve⟩ (ord.ids_nodup _)
    (fun id hid => (ord.mem_ids _ _).mp hid) ?_ ⟨?_, rfl, rfl⟩
  · refine ⟨hw, hd, hr, fun b l hl => ?_, fun b id hc => absurd hc isCand_empty⟩
    rw [Finmap.lookup_empty] at hl
    cases hl
  · refine h.congr (fun id _ => ?_)
    rw [State.tracked_stalemate]
    exact ⟨fun hid => Or.inl hid, fun hid => hid.resolve_right (fun ⟨_, hc⟩ => isCand_empty hc)⟩

theorem MergeQuorumState.Rel.enterStalemate {ord : IterOrder} {s : MergeQuorumState} {q : Quorum}
    (h : s.Rel q) (hw : q.WF) (hd : q.core.canon.delayed = q.core.cl) :
    Returns (s.enterStalemate ord) (fun s' => s'.Rel (q.enter ord)) := by
  unfold MergeQuorumState.enterStalemate
  rw [h.quorum, h.reserve]
  refine SharedState.Rel.fromQuorum (h.shared.congr (fun id _ => ?_)) hw.core hd (fun id hid => ?_)
  · rw [Finset.mem_union]
    exact or_comm
  · rcases Finset.mem_union.mp hid with hid | hid
    · exact hw.reserve id hid
    · exact (hw.members id hid).1

end ReplayServer
