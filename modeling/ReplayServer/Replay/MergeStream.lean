import ReplayServer.Replay.MergeWindow

/-!
# replay: the abstract model, the canonical stream

* `micro_stream`    where the header, the bytes and the delayed position of the canonical replay
                    come from;
* `Stream.header`   so there is a header as soon as there is data;
* `micro_wakes`     whoever waits for the canonical replay is woken when more of it can be read.
-/

set_option linter.unusedSectionVars false

namespace ReplayServer
namespace Merge
open Agree Relation

variable {joins : State → Prop} {exits : Stalemate → IterOrder → Prop}

structure Stream (m : State) : Prop where
  headed : ∀ id, (m.core.get id).header ≠ none → m.core.canon.header ≠ none
  headless : ∀ id, (m.core.get id).data ≠ [] → (m.core.get id).header ≠ none
  bytes : ∀ p < m.core.cl, ∃ id, p < m.core.len id ∧
    (m.core.get id).data[p]? = m.core.canon.data[p]?
  reported : 0 < m.core.canon.delayed → ∃ id, m.core.canon.delayed ≤ (m.core.get id).delayed

theorem Stream.header {m : State} (h : Stream m) (hd : m.core.canon.header = none) :
    m.core.canon.data = [] := by
  by_contra hne
  obtain ⟨id, hlt, _⟩ := h.bytes 0 (List.length_pos_iff.mpr hne)
  exact h.headed id (h.headless id (List.length_pos_iff.mp hlt)) hd

theorem new_stream (target dist : Nat) : Stream (State.new target dist) :=
  ⟨fun _ h => absurd rfl h, fun _ h => absurd rfl h, fun _ hp => absurd hp (Nat.not_lt_zero _),
    fun hp => absurd hp (Nat.lt_irrefl 0)⟩

/-! ## what a step keeps -/

theorem bytes_evolves {c c' : Core} (h : Evolves c c') {p : Nat} (hp : p < c.cl)
    (hb : ∃ id, p < c.len id ∧ (c.get id).data[p]? = c.canon.data[p]?) :
    ∃ id, p < c'.len id ∧ (c'.get id).data[p]? = c'.canon.data[p]? := by
  obtain ⟨id, h1, h2⟩ := hb
  refine ⟨id, lt_of_lt_of_le h1 (h.len id), ?_⟩
  rw [getElem?_of_isPrefix (h.data id) h1, getElem?_of_isPrefix h.grow hp]
  exact h2

/-- a step that keeps the canonical data and its delayed position -/
theorem stream_of_evolves {m m' : State} (h : Stream m) (hev : Evolves m.core m'.core)
    (hcl : m'.core.cl = m.core.cl) (hdel : m'.core.canon.delayed = m.core.canon.delayed)
    (hheaded : ∀ id, (m'.core.get id).header ≠ none → m'.core.canon.header ≠ none)
    (hheadless : ∀ id, (m'.core.get id).data ≠ [] → (m'.core.get id).header ≠ none) : Stream m' := by
  refine ⟨hheaded, hheadless, fun p hp => ?_, fun hpos => ?_⟩
  · rw [hcl] at hp
    exact bytes_evolves hev hp (h.bytes p hp)
  · rw [hdel] at hpos ⊢
    obtain ⟨id, hid⟩ := h.reported hpos
    exact ⟨id, hid.trans (hev.delayed id)⟩

theorem addHeader_header (c : Core) (x : ReplayHeader) :
    (State.addHeader c x).canon.header = some (c.canon.header.getD x) := by
  unfold State.addHeader
  split
  · rename_i hn
    rw [hn]
    rfl
  · rename_i hn
    obtain ⟨y, hy⟩ := Option.ne_none_iff_exists'.mp hn
    rw [hy]
    rfl

/-- a writer that does not touch headers -/
theorem stream_modify {m : State} (h : Stream m) {id : Nat} {f : Replay → Replay}
    (hev : Evolves m.core (m.modify id f).core) (hh : ∀ r, (f r).header = r.header)
    (hd : (f (m.core.get id)).data ≠ [] → (m.core.get id).header ≠ none) : Stream (m.modify id f) := by
  have hcore := modify_core m id f
  have hget : ∀ j, ((m.modify id f).core.get j).header = (m.core.get j).header := by
    intro j
    rw [hcore]
    exact Core.get_modify_same Replay.header hh
  refine stream_of_evolves h hev (by rw [hcore]; rfl) (by rw [hcore]; rfl) (fun j hj => ?_)
    (fun j hj => ?_)
  · rw [hget] at hj
    rw [hcore]
    exact h.headed j hj
  · rw [hget]
    rw [hcore] at hj
    by_cases hji : j = id
    · subst hji
      by_cases hlt : j < m.core.replays.length
      · rw [Core.get_modify_self hlt] at hj
        exact hd hj
      · rw [Core.get_of_ge (by rw [Core.modify_length]; exact not_lt.mp hlt)] at hj
        exact absurd rfl hj
    · rw [Core.get_modify_ne hji] at hj
      exact h.headless j hj

/-- the strategy itself does not touch the headers -/
theorem heads_frame {c c' : Core} (hf : Core.Frame c c')
    (h1 : ∀ id, (c.get id).header ≠ none → c.canon.header ≠ none)
    (h2 : ∀ id, (c.get id).data ≠ [] → (c.get id).header ≠ none) :
    (∀ id, (c'.get id).header ≠ none → c'.canon.header ≠ none) ∧
      (∀ id, (c'.get id).data ≠ [] → (c'.get id).header ≠ none) := by
  refine ⟨fun id => ?_, fun id => ?_⟩
  · rw [hf.header, hf.canonHeader]
    exact h1 id
  · rw [hf.data, hf.header]
    exact h2 id

/-- the delayed length follows the shortest replay of the quorum -/
theorem stream_update {q : Quorum} (hq : q.WF) (h : Stream (.quorum q)) (ord : IterOrder)
    (hev : Evolves q.core (q.update ord).core) : Stream (.quorum (q.update ord)) := by
  obtain ⟨h1, h2⟩ := heads_frame (Core.frame_advance (q.position ord)) h.headed h.headless
  refine ⟨h1, h2, fun p hp => ?_, fun hpos => ?_⟩
  · change p < (q.core.advance _).cl at hp
    rw [Core.advance_cl] at hp
    exact bytes_evolves hev hp (h.bytes p hp)
  · change 0 < (q.core.advance _).canon.delayed at hpos
    show ∃ id, (q.core.advance _).canon.delayed ≤ ((q.core.advance _).get id).delayed
    rw [Core.advance_delayed] at hpos ⊢
    by_cases hle : min (q.position ord) q.core.cl ≤ q.core.canon.delayed
    · rw [max_eq_left hle] at hpos ⊢
      obtain ⟨id, hid⟩ := h.reported hpos
      exact ⟨id, by rw [Core.advance_get]; exact hid⟩
    · rw [max_eq_right (not_le.mp hle).le]
      obtain ⟨id, hid⟩ := hq.nonempty
      refine ⟨id, ?_⟩
      rw [Core.advance_get]
      exact (min_le_left _ _).trans (position_le ord hid)

/-- the bytes that come at the end of a stalemate are bytes of the replays that were chosen -/
theorem stream_exit {t : Stalemate} (ht : t.WF) (h : Stream (.stalemate t)) {ord : IterOrder}
    (hc : t.canExit ord = true) (hev : Evolves t.core (t.exit ord).core) :
    Stream (.quorum (t.exit ord)) := by
  have hne := (canExit_iff.mp hc).2.1
  obtain ⟨hf, -⟩ := Stalemate.exit_frame ht ord hne
  obtain ⟨h1, h2⟩ := heads_frame hf h.headed h.headless
  have hr := resolved ht ord hne
  have hm := Quorum.merge_spec hr.base ord
  refine ⟨h1, h2, fun p hp => ?_, fun hpos => ?_⟩
  · by_cases hlt : p < t.core.cl
    · exact bytes_evolves hev hlt (h.bytes p hlt)
    · obtain ⟨id, hid, hag⟩ := exit_source ht hc
      have hlen := ((Quorum.merge_wf hr.base ord).members id hid).2
      refine ⟨id, lt_of_lt_of_le hp hlen, ?_⟩
      show ((t.exit ord).core.get id).data[p]? = _
      rw [exit_data ht hc]
      exact hag p (not_lt.mp hlt) hp
  · have hdel := hm.delayed
    change 0 < (t.exit ord).core.canon.delayed at hpos
    show ∃ id, (t.exit ord).core.canon.delayed ≤ ((t.exit ord).core.get id).delayed
    rw [show (t.exit ord).core.canon.delayed = _ from hdel, hr.selected.core] at hpos ⊢
    by_cases hle : min ((t.chosen ord).position ord) ((t.chosen ord).merge ord).core.cl ≤
        t.core.canon.delayed
    · have hle' : min ((t.chosen ord).position ord) ((t.chosen ord).merge ord).core.cl ≤
        (t.advanced ord).canon.delayed := hle
      rw [max_eq_left hle'] at hpos ⊢
      obtain ⟨id, hid⟩ := h.reported hpos
      refine ⟨id, ?_⟩
      rw [hf.delayed]
      exact hid
    · have hle' : (t.advanced ord).canon.delayed ≤
        min ((t.chosen ord).position ord) ((t.chosen ord).merge ord).core.cl := (not_le.mp hle).le
      rw [max_eq_right hle']
      obtain ⟨id, hid⟩ := hr.base.nonempty
      refine ⟨id, (min_le_left _ _).trans ((position_le ord hid).trans ?_)⟩
      rw [hr.selected.core]
      exact (hf.delayed id).ge

theorem micro_stream {m m' : State} (hwf : m.WF) (h : Stream m) (hs : Micro joins exits m m') :
    Stream m' := by
  have hev := micro_evolves hwf hs
  cases hs with
  | added _ hj hf =>
    have hcore := addReplay_core m
    refine stream_of_evolves h hev (by rw [hcore]; rfl) (by rw [hcore]) (fun id hid => ?_)
      (fun id hid => ?_)
    · rw [hcore, Core.get_addReplay] at hid
      rw [hcore]
      exact h.headed id hid
    · rw [hcore, Core.get_addReplay] at hid ⊢
      exact h.headless id hid
  | header _ i x hl hh =>
    obtain ⟨_, _, _, he⟩ := addHeader_eq (m.core.modify i (fun r => { r with header := some x })) x
    have hcore : ((m.modify i (fun r => { r with header := some x })).mapCore
        (fun c => State.addHeader c x)).core =
        State.addHeader (m.core.modify i (fun r => { r with header := some x })) x := by
      rw [mapCore_core, modify_core]
    refine stream_of_evolves h hev (by rw [hcore, he]; rfl) (by rw [hcore, he]; rfl)
      (fun id _ => ?_) (fun id hid => ?_)
    · rw [hcore, addHeader_header]
      exact Option.some_ne_none _
    · rw [hcore, he] at hid ⊢
      change ((m.core.modify i _).get id).data ≠ [] at hid
      show ((m.core.modify i _).get id).header ≠ none
      by_cases hii : id = i
      · subst hii
        rw [Core.get_modify_self hl.1]
        exact Option.some_ne_none _
      · rw [Core.get_modify_ne hii] at hid ⊢
        exact h.headless id hid
  | data _ i buf hl hh => exact stream_modify h hev (fun _ => rfl) (fun _ => hh)
  | delayed _ i n hl h1 h2 =>
    exact stream_modify h hev (fun _ => rfl) (h.headless i)
  | ended _ i hl hd => exact stream_modify h hev (fun _ => rfl) (h.headless i)
  | evaluate t i hir =>
    obtain ⟨h1, h2⟩ := heads_frame (evaluate_frame t i) h.headed h.headless
    have hc := (evaluate_canon t i).1
    refine stream_of_evolves h hev ?_ (congrArg Canon.delayed hc) h1 h2
    show (t.evaluate i).core.canon.data.length = _
    rw [hc]
    rfl
  | started t i hd => exact ⟨h.headed, h.headless, h.bytes, h.reported⟩
  | update q ord => exact stream_update hwf h ord hev
  | enter q hd => exact ⟨h.headed, h.headless, h.bytes, h.reported⟩
  | exit t ord hc hx => exact stream_exit hwf h hc hev
  | finish _ hall =>
    have hcore := mapCore_core m State.finishCanon
    refine stream_of_evolves h hev (by rw [hcore]; rfl) (by rw [hcore]; rfl) ?_ ?_
    · rw [hcore]
      exact h.headed
    · rw [hcore]
      exact h.headless

theorem Micros.stream {m m' : State} (hs : Micros joins exits m m') (hwf : m.WF) (h : Stream m) :
    Stream m' :=
  Micros.invariant hs (fun _ _ hwf h hst => micro_stream hwf h hst) hwf h

/-! ## who is woken -/

/-- what happens to the waiting wakers when the canonical replay changes from `c` to `c'` -/
structure Wakes (c c' : Canon) : Prop where
  woken : ∀ w ∈ c.event.woken, w ∈ c'.event.woken
  waiting : ∀ w ∈ c.event.waiting, w ∈ c'.event.waiting ∨ w ∈ c'.event.woken
  notified : (c'.header = c.header ∧ c'.delayed = c.delayed ∧ c'.finished = c.finished) ∨
    ∀ w ∈ c.event.waiting, w ∈ c'.event.woken

namespace Wakes

theorem of_same {c c' : Canon} (he : c'.event = c.event) (hh : c'.header = c.header)
    (hd : c'.delayed = c.delayed) (hf : c'.finished = c.finished) : Wakes c c' := by
  refine ⟨fun w hw => ?_, fun w hw => Or.inl ?_, Or.inl ⟨hh, hd, hf⟩⟩
  · rw [he]
    exact hw
  · rw [he]
    exact hw

theorem refl (c : Canon) : Wakes c c := of_same rfl rfl rfl rfl

theorem of_notify {c c' : Canon} (he : c'.event = c.event.notify) : Wakes c c' := by
  have hwait : ∀ w ∈ c.event.waiting, w ∈ c'.event.woken := by
    intro w hw
    rw [he]
    exact List.mem_append_right _ hw
  refine ⟨fun w hw => ?_, fun w hw => Or.inr (hwait w hw), Or.inr hwait⟩
  rw [he]
  exact List.mem_append_left _ hw

theorem trans {c c' c'' : Canon} (h : Wakes c c') (h' : Wakes c' c'') : Wakes c c'' := by
  have hboth : (∀ w ∈ c'.event.waiting, w ∈ c''.event.woken) →
      ∀ w ∈ c.event.waiting, w ∈ c''.event.woken := by
    intro hall w hw
    rcases h.waiting w hw with hw' | hw'
    · exact hall w hw'
    · exact h'.woken w hw'
  refine ⟨fun w hw => h'.woken w (h.woken w hw), fun w hw => ?_, ?_⟩
  · rcases h.waiting w hw with hw' | hw'
    · exact h'.waiting w hw'
    · exact Or.inr (h'.woken w hw')
  · rcases h.notified with ⟨h1, h2, h3⟩ | hall
    · rcases h'.notified with ⟨h4, h5, h6⟩ | hall'
      · exact Or.inl ⟨h4.trans h1, h5.trans h2, h6.trans h3⟩
      · exact Or.inr (hboth hall')
    · exact Or.inr (fun w hw => h'.woken w (hall w hw))

end Wakes

theorem wakes_advance (c : Core) (hint : Nat) : Wakes c.canon (c.advance hint).canon := by
  unfold Core.advance
  split
  · exact Wakes.refl _
  · exact Wakes.of_notify rfl

theorem wakes_merge (q : Quorum) (ord : IterOrder) : Wakes q.core.canon (q.merge ord).core.canon := by
  obtain ⟨d, hd⟩ : ∃ d, d = (q.core.append (q.any ord) (q.commonPrefix ord)).setMatching
    (ord.ids q.quorum) := ⟨_, rfl⟩
  have hc : d.canon = (q.core.append (q.any ord) (q.commonPrefix ord)).canon := by
    rw [hd, Core.setMatching_canon]
  have h1 : Wakes q.core.canon d.canon := by
    rw [hc]
    exact Wakes.of_same rfl rfl rfl rfl
  have hm : ∃ n, (q.merge ord).core = d.advance n := by
    rw [hd]
    exact ⟨_, rfl⟩
  obtain ⟨n, hn⟩ := hm
  rw [hn]
  exact h1.trans (wakes_advance d n)

/-- **whoever waits is woken when more can be read** -/
theorem micro_wakes {m m' : State} (hwf : m.WF) (hs : Micro joins exits m m') :
    Wakes m.core.canon m'.core.canon := by
  cases hs with
  | added _ hj hf =>
    rw [addReplay_core]
    exact Wakes.refl _
  | header _ id x hl hh =>
    rw [mapCore_core, modify_core]
    unfold State.addHeader
    split
    · exact Wakes.of_notify rfl
    · exact Wakes.refl _
  | data _ id buf hl hh =>
    rw [modify_core]
    exact Wakes.refl _
  | delayed _ id n hl h1 h2 =>
    rw [modify_core]
    exact Wakes.refl _
  | ended _ id hl hd =>
    rw [modify_core]
    exact Wakes.refl _
  | evaluate t id hid =>
    show Wakes t.core.canon (t.evaluate id).core.canon
    rw [(evaluate_canon t id).1]
    exact Wakes.refl _
  | started t id hd => exact Wakes.refl _
  | update q ord => exact wakes_advance q.core _
  | enter q hd => exact Wakes.refl _
  | exit t ord hc hx =>
    have hr := resolved hwf ord (canExit_iff.mp hc).2.1
    have h1 : Wakes t.core.canon (t.chosen ord).core.canon := by
      rw [hr.selected.core]
      exact Wakes.of_same rfl rfl rfl rfl
    exact h1.trans (wakes_merge (t.chosen ord) ord)
  | finish _ hall =>
    rw [mapCore_core]
    exact Wakes.of_notify rfl

theorem Micros.wakes {m m' : State} (hs : Micros joins exits m m') (hwf : m.WF) :
    Wakes m.core.canon m'.core.canon := by
  induction hs with
  | refl => exact Wakes.refl _
  | tail hs hst ih => exact ih.trans (micro_wakes (Micros.wf hwf hs) hst)

end Merge

end ReplayServer
