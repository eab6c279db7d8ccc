import ReplayServer.Replay.MergeCallback

/-!
# replay: the code refines the abstract model, shared state

`SharedState.Rel tracked s c`: the state `s` of the code is an implementation of the abstract `c`.
The bytes of a replay may be gone from its buffer, but for a tracked replay all that a comparison
can still ask for are there, and a replay that is not tracked keeps nothing.

Each operation on the shared state is followed by its abstract counterpart.
-/

set_option linter.unusedSectionVars false

namespace ReplayServer
open Fallible Agree

structure ReplayState.Rel (dist cl : Nat) (tracked : Prop) (s : ReplayState) (r : Merge.Replay) :
    Prop where
  data : s.r.data.Repr r.data
  header : s.r.header = none
  delayed : s.r.delayedDataLen = r.delayed
  finished : s.r.finished = r.finished
  cmpDistance : s.streamCmpDistance = dist
  matching : s.dataMatchingCanon = r.matching
  kept : tracked → s.diverged = false ∧ s.r.data.windowStart ≤ max r.matching (cl - dist)
  dropped : ¬ tracked → s.diverged = true ∧ usizeMax / chunkSize ≤ s.r.data.discardedChunks

structure MergedReplay.Rel (m : MergedReplay) (c : Merge.Canon) : Prop where
  data : m.data.Repr c.data
  whole : m.data.discardedChunks = 0
  header : m.header = c.header
  delayed : m.delayedDataLen = c.delayed
  finished : m.finished = c.finished
  event : m.readEvent = c.event

structure SharedState.Rel (tracked : Nat → Prop) (s : SharedState) (c : Merge.Core) : Prop where
  dist : s.streamCmpDistance = c.dist
  started : s.delayedDataStarted = c.started
  target : s.targetQuorumSize = c.target
  length : s.replays.length = c.replays.length
  replay : ∀ (id : Nat) (rs : ReplayState), s.replays[id]? = some rs → rs.Rel c.dist c.cl (tracked id) (c.get id)
  canon : s.canonicalStream.Rel c.canon

/-! ## one replay -/

namespace ReplayState.Rel
variable {dist cl : Nat} {tr : Prop} {s : ReplayState} {r : Merge.Replay}
  (h : s.Rel dist cl tr r)
include h

theorem dataLen : s.r.dataLen = r.data.length := h.data.len

theorem congr {tr' : Prop} (ht : tr ↔ tr') : s.Rel dist cl tr' r :=
  { h with
    kept := fun h' => h.kept (ht.mpr h')
    dropped := fun h' => h.dropped (fun h'' => h' (ht.mp h'')) }

theorem mono {cl' : Nat} (hcl : cl ≤ cl') : s.Rel dist cl' tr r :=
  { h with
    kept := fun h' => by
      obtain ⟨h1, h2⟩ := h.kept h'
      exact ⟨h1, h2.trans (by omega)⟩ }

theorem discardedChunks_discard (u : Nat) :
    s.r.data.discardedChunks ≤ (s.r.data.discard u).discardedChunks := by
  rw [BufDeque.discard_discardedChunks]
  exact le_max_right _ _

theorem windowStart_discard {u n : Nat} (hu : u ≤ n) (hw : s.r.data.windowStart ≤ n) :
    (s.r.data.discard u).windowStart ≤ n := by
  unfold BufDeque.windowStart at hw ⊢
  rw [BufDeque.discard_discardedChunks]
  rcases max_choice (u / chunkSize) s.r.data.discardedChunks with he | he
  · rw [he]
    exact (Nat.div_mul_le_self u chunkSize).trans hu
  · rw [he]
    exact hw

theorem setDiverged : s.setDiverged.Rel dist cl False r where
  data := h.data.discard _
  header := h.header
  delayed := h.delayed
  finished := h.finished
  cmpDistance := h.cmpDistance
  matching := h.matching
  kept h' := absurd h' not_false
  dropped _ := by
    refine ⟨rfl, ?_⟩
    show usizeMax / chunkSize ≤ (s.r.data.discard usizeMax).discardedChunks
    rw [BufDeque.discard_discardedChunks]
    exact le_max_left _ _

theorem setMatching : (s.setMatching cl).Rel dist cl tr (r.setMatching cl) where
  data := h.data.discard _
  header := h.header
  delayed := h.delayed
  finished := h.finished
  cmpDistance := h.cmpDistance
  matching := by
    show max cl s.dataMatchingCanon = max cl r.matching
    rw [h.matching]
  kept h' := by
    obtain ⟨h1, h2⟩ := h.kept h'
    refine ⟨h1, ?_⟩
    show (s.r.data.discard (max cl s.dataMatchingCanon)).windowStart ≤
      max (max cl r.matching) (cl - dist)
    rw [h.matching]
    exact windowStart_discard h (le_max_left _ _) (h2.trans (by omega))
  dropped h' := ⟨(h.dropped h').1, (h.dropped h').2.trans (discardedChunks_discard h _)⟩

theorem discardIfNotNeeded :
    (s.discardIfNotNeededForCheckingDivergence cl).Rel dist cl tr r where
  data := h.data.discard _
  header := h.header
  delayed := h.delayed
  finished := h.finished
  cmpDistance := h.cmpDistance
  matching := h.matching
  kept h' := by
    obtain ⟨h1, h2⟩ := h.kept h'
    refine ⟨h1, windowStart_discard h ?_ h2⟩
    show cl - s.streamCmpDistance ≤ _
    rw [h.cmpDistance]
    exact le_max_right _ _
  dropped h' := ⟨(h.dropped h').1, (h.dropped h').2.trans (discardedChunks_discard h _)⟩

end ReplayState.Rel

/-! ## the canonical replay -/

namespace MergedReplay.Rel
variable {m : MergedReplay} {c : Merge.Canon} (h : m.Rel c)
include h

theorem dataLen : m.dataLen = c.data.length := h.data.len

theorem windowStart : m.data.windowStart = 0 := by
  unfold BufDeque.windowStart
  rw [h.whole, Nat.zero_mul]

theorem contents : m.data.contents = c.data := by
  rw [BufDeque.contents_eq h.data, windowStart h, List.drop_zero]

theorem addData {w : WriterReplay} {data : List UInt8} (hw : w.data.Repr data) {n : Nat}
    (hf : c.finished = false) (h1 : c.data.length ≤ n) (h2 : n ≤ data.length)
    (hlo : w.data.windowStart ≤ c.data.length) :
    Returns (m.addData w n) (fun m' => m'.Rel { c with
      data := c.data ++ (data.drop c.data.length).take (n - c.data.length) }) := by
  unfold MergedReplay.addData
  rw [assertThat_true (h.finished.trans hf), ok_bind,
    assertThat_true (by rw [WriterReplay.dataLen, hw.len]; exact h2), ok_bind, h.dataLen]
  refine Returns.bind (BufDeque.iterChunks_eq hw hlo h1 h2) ?_
  rintro cs ⟨hcs, -⟩
  refine Returns.bind (h.data.writeChunks cs) ?_
  rintro b ⟨hb, hb0⟩
  rw [hcs] at hb
  exact returns_ok ⟨hb, hb0.trans h.whole, h.header, h.delayed, h.finished, h.event⟩

theorem advanceDelayedData {n : Nat} (hn : n ≤ c.data.length) (hf : c.finished = false) :
    Returns (m.advanceDelayedData n)
      (fun m' => m'.Rel { c with delayed := n, event := c.event.notify }) := by
  unfold MergedReplay.advanceDelayedData
  rw [assertThat_true (by rw [h.dataLen]; exact hn), ok_bind,
    assertThat_true (h.finished.trans hf), ok_bind]
  refine returns_ok ⟨h.data, h.whole, h.header, rfl, h.finished, ?_⟩
  show m.readEvent.notify = c.event.notify
  rw [h.event]

theorem addHeader {x : ReplayHeader} (hd : c.data = []) (hf : c.finished = false) :
    Returns (m.addHeader x)
      (fun m' => m'.Rel { c with header := some x, event := c.event.notify }) := by
  unfold MergedReplay.addHeader
  rw [assertThat_true (h.finished.trans hf), ok_bind,
    assertThat_true (by rw [h.dataLen, hd]; rfl), ok_bind]
  refine returns_ok ⟨h.data, h.whole, rfl, h.delayed, h.finished, ?_⟩
  show m.readEvent.notify = c.event.notify
  rw [h.event]

theorem finish : m.finish.Rel { c with finished := true, event := c.event.notify } := by
  refine ⟨h.data, h.whole, h.header, h.delayed, rfl, ?_⟩
  show m.readEvent.notify = c.event.notify
  rw [h.event]

end MergedReplay.Rel

/-! ## the shared state -/

namespace SharedState.Rel
variable {T T' : Nat → Prop} {s : SharedState} {c : Merge.Core} (h : s.Rel T c)
include h

theorem canonDataLen : s.canonDataLen = c.cl := h.canon.dataLen

theorem canonDelayedDataLen : s.canonDelayedDataLen = c.canon.delayed := h.canon.delayed

theorem congr (hT : ∀ id < c.replays.length, T id ↔ T' id) : s.Rel T' c := by
  refine { h with replay := fun id rs hrs => ?_ }
  have hid : id < s.replays.length := (List.getElem?_eq_some_iff.mp hrs).1
  exact (h.replay id rs hrs).congr (hT id (h.length ▸ hid))

theorem getReplay {id : Nat} (hid : id < c.replays.length) :
    ∃ rs, s.replays[id]? = some rs ∧ s.getReplay id = .ok rs ∧
      rs.Rel c.dist c.cl (T id) (c.get id) := by
  have hid' : id < s.replays.length := by rw [h.length]; exact hid
  have hrs := List.getElem?_eq_getElem hid'
  refine ⟨_, hrs, ?_, h.replay id _ hrs⟩
  unfold SharedState.getReplay
  rw [hrs]
  rfl

theorem replayLen {id : Nat} (hid : id < c.replays.length) : s.replayLen id = .ok (c.len id) := by
  obtain ⟨rs, _, hget, hrel⟩ := h.getReplay hid
  unfold SharedState.replayLen
  rw [hget, ok_bind, hrel.dataLen]
  rfl

/-- the lengths of all replays -/
theorem lens : s.replays.map (fun r => r.r.dataLen) = c.replays.map (fun r => r.data.length) := by
  apply List.ext_getElem?
  intro i
  rw [List.getElem?_map, List.getElem?_map]
  by_cases hi : i < c.replays.length
  · obtain ⟨rs, hrs, _, hr⟩ := h.getReplay hi
    have hg : c.get i = c.replays[i] := by
      unfold Merge.Core.get
      rw [List.getElem?_eq_getElem hi]
      rfl
    rw [hrs, List.getElem?_eq_getElem hi, ← hg]
    exact congrArg some hr.dataLen
  · rw [List.getElem?_eq_none (by rw [h.length]; omega), List.getElem?_eq_none (by omega)]
    rfl

theorem withLens {ids : List Nat} (hids : ∀ id ∈ ids, id < c.replays.length) :
    s.withLens ids = .ok (ids.map (fun id => (id, c.len id))) := by
  unfold SharedState.withLens
  refine mapM_ok _ _ ids (fun id hid => ?_)
  rw [h.replayLen (hids id hid)]
  rfl

/-- a change of one replay next to its abstract counterpart -/
theorem modifyReplay {id : Nat} (hid : id < c.replays.length) {f : ReplayState → ReplayState}
    {g : Merge.Replay → Merge.Replay}
    (hf : ∀ rs, rs.Rel c.dist c.cl (T id) (c.get id) → (f rs).Rel c.dist c.cl (T' id) (g (c.get id)))
    (hT : ∀ j, j ≠ id → (T j ↔ T' j)) :
    Returns (s.modifyReplay id f) (fun s' => s'.Rel T' (c.modify id g)) := by
  obtain ⟨rs, hrs, hget, hrel⟩ := h.getReplay hid
  unfold SharedState.modifyReplay
  rw [hget, ok_bind]
  refine returns_ok ⟨h.dist, h.started, h.target, ?_, ?_, h.canon⟩
  · rw [Merge.Core.modify_length, List.length_set]
    exact h.length
  · intro j rs' hrs'
    show rs'.Rel c.dist c.cl (T' j) ((c.modify id g).get j)
    by_cases hj : j = id
    · subst hj
      have hlt : j < s.replays.length := by rw [h.length]; exact hid
      rw [List.getElem?_set_self hlt] at hrs'
      cases hrs'
      rw [Merge.Core.get_modify_self hid]
      exact hf rs hrel
    · rw [List.getElem?_set_ne (fun e => hj e.symm)] at hrs'
      rw [Merge.Core.get_modify_ne hj]
      exact (h.replay j rs' hrs').congr (hT j hj)

theorem modifyReplay_keep {id : Nat} (hid : id < c.replays.length) {f : ReplayState → ReplayState}
    (hf : ∀ rs, rs.Rel c.dist c.cl (T id) (c.get id) → (f rs).Rel c.dist c.cl (T' id) (c.get id))
    (hT : ∀ j, j ≠ id → (T j ↔ T' j)) :
    Returns (s.modifyReplay id f) (fun s' => s'.Rel T' c) := by
  have e : c.modify id (fun r => r) = c := by
    unfold Merge.Core.modify
    rw [show c.replays.modify id (fun r => r) = c.replays from List.modify_id id c.replays]
  rw [← e]
  exact h.modifyReplay hid hf hT

theorem setDiverged {id : Nat} (hid : id < c.replays.length) :
    Returns (s.modifyReplay id ReplayState.setDiverged)
      (fun s' => s'.Rel (fun j => T j ∧ j ≠ id) c) := by
  refine h.modifyReplay_keep hid (fun rs hrs => ?_) (fun j hj => ?_)
  · exact hrs.setDiverged.congr ⟨False.elim, fun hh => hh.2 rfl⟩
  · exact ⟨fun ht => ⟨ht, hj⟩, fun ht => ht.1⟩

theorem setMatching {id : Nat} (hid : id < c.replays.length) :
    Returns (s.modifyReplay id (fun r => r.setMatching c.cl))
      (fun s' => s'.Rel T (c.modify id (Merge.Replay.setMatching c.cl))) :=
  h.modifyReplay hid (fun _ hrs => hrs.setMatching) (fun _ _ => Iff.rfl)

theorem discardIfNotNeeded {id : Nat} (hid : id < c.replays.length) :
    Returns (s.modifyReplay id (fun r => r.discardIfNotNeededForCheckingDivergence c.cl))
      (fun s' => s'.Rel T c) :=
  h.modifyReplay_keep hid (fun _ hrs => hrs.discardIfNotNeeded) (fun _ _ => Iff.rfl)

/-- the bytes that are appended are still there -/
theorem appendCanonData {id n : Nat} (hid : id < c.replays.length) (ht : T id)
    (hm : (c.get id).matching ≤ c.cl) (hf : c.canon.finished = false) (h1 : c.cl ≤ n)
    (h2 : n ≤ c.len id) :
    Returns (s.appendCanonData id n) (fun s' => s'.Rel T (c.append id n)) := by
  obtain ⟨rs, _, hget, hrel⟩ := h.getReplay hid
  unfold SharedState.appendCanonData
  rw [hget, ok_bind]
  have hlo : rs.r.data.windowStart ≤ c.canon.data.length := by
    have := (hrel.kept ht).2
    have hcl : c.canon.data.length = c.cl := rfl
    omega
  refine Returns.bind (h.canon.addData hrel.data hf h1 h2 hlo) (fun m hm' => ?_)
  refine returns_ok ⟨h.dist, h.started, h.target, h.length, fun j rs' hrs' => ?_, hm'⟩
  show rs'.Rel c.dist (c.append id n).cl (T j) (c.get j)
  rw [Merge.Core.append_cl h1 h2]
  exact (h.replay j rs' hrs').mono h1

theorem updateCanonDelayedDataLen (hint : Nat) (hf : c.canon.finished = false) :
    Returns (s.updateCanonDelayedDataLen hint) (fun s' => s'.Rel T (c.advance hint)) := by
  unfold SharedState.updateCanonDelayedDataLen Merge.Core.advance
  rw [h.canonDataLen, h.canonDelayedDataLen]
  dsimp only
  split
  · exact returns_ok h
  · refine Returns.bind (h.canon.advanceDelayedData (min_le_right _ _) hf) (fun m hm => ?_)
    exact returns_ok ⟨h.dist, h.started, h.target, h.length, h.replay, hm⟩

/-- a fold of changes to replays of a list -/
theorem foldl_modify {ids : List Nat} (hids : ∀ id ∈ ids, id < c.replays.length) {n : Nat}
    (hn : n = c.cl) :
    Returns (ids.foldlM (fun (s : SharedState) id => s.modifyReplay id (fun r => r.setMatching n)) s)
      (fun s' => s'.Rel T (c.setMatching ids)) := by
  subst hn
  unfold Merge.Core.setMatching
  obtain ⟨k, hk⟩ : ∃ k, k = c.cl := ⟨_, rfl⟩
  rw [← hk]
  have key := foldlM_sim (R := fun (s : SharedState) (d : Merge.Core) => s.Rel T d ∧ d.cl = k ∧
      d.replays.length = c.replays.length)
    (fun s id => s.modifyReplay id (fun r => r.setMatching k))
    (fun d id => d.modify id (Merge.Replay.setMatching k)) ids
    (fun s d id hid hsd => by
      obtain ⟨h1, h2, h3⟩ := hsd
      have := h1.setMatching (show id < _ by rw [h3]; exact hids id hid)
      rw [h2] at this
      exact this.mono (fun s' hs' => ⟨hs', h2, by rw [Merge.Core.modify_length, h3]⟩))
    s c ⟨h, hk.symm, rfl⟩
  exact key.mono (fun s' hs' => hs'.1)

theorem foldl_discard {ids : List Nat} (hids : ∀ id ∈ ids, id < c.replays.length) {n : Nat}
    (hn : n = c.cl) :
    Returns (ids.foldlM (fun (s : SharedState) id =>
        s.modifyReplay id (fun r => r.discardIfNotNeededForCheckingDivergence n)) s)
      (fun s' => s'.Rel T c) := by
  subst hn
  exact foldlM_returns _ ids (fun s id hid hs => hs.discardIfNotNeeded (hids id hid)) s h

theorem foldl_setDiverged {ids : List Nat} (hids : ∀ id ∈ ids, id < c.replays.length) :
    Returns (ids.foldlM (fun (s : SharedState) id => s.modifyReplay id ReplayState.setDiverged) s)
      (fun s' => s'.Rel (fun j => T j ∧ j ∉ ids) c) := by
  induction ids generalizing s T with
  | nil => exact returns_ok (h.congr (fun id _ => by simp))
  | cons i ids ih =>
    rw [List.foldlM_cons]
    refine Returns.bind (h.setDiverged (hids i List.mem_cons_self)) (fun s' hs' => ?_)
    refine (ih hs' (fun id hid => hids id (List.mem_cons_of_mem _ hid))).mono (fun s'' hs'' => ?_)
    refine hs''.congr (fun id _ => ?_)
    rw [List.mem_cons, not_or, and_assoc]

theorem foldl_entries {entries : List (UInt8 × List Nat)}
    (hids : ∀ e ∈ entries, ∀ id ∈ e.2, id < c.replays.length) :
    Returns (entries.foldlM (fun s e => e.2.foldlM (fun (s : SharedState) id =>
        s.modifyReplay id ReplayState.setDiverged) s) s)
      (fun s' => s'.Rel (fun j => T j ∧ ∀ e ∈ entries, j ∉ e.2) c) := by
  induction entries generalizing s T with
  | nil => exact returns_ok (h.congr (fun id _ => by simp))
  | cons e entries ih =>
    rw [List.foldlM_cons]
    refine Returns.bind (h.foldl_setDiverged (hids e List.mem_cons_self)) (fun s' hs' => ?_)
    refine (ih hs' (fun e' he' => hids e' (List.mem_cons_of_mem _ he'))).mono (fun s'' hs'' => ?_)
    refine hs''.congr (fun id _ => ?_)
    rw [List.forall_mem_cons, and_assoc]

end SharedState.Rel

end ReplayServer
