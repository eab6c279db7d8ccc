import ReplayServer.Replay.MergeSupport
import ReplayServer.Replay.Resolution

/-!
# replay: whom the merged data agrees with

* `Session.lone_dissenter_never_wins`   a byte that only one replay has is not merged where two
                                        replays agree (the third claim of the source);
* `Session.agrees_in_windows`           what a limited comparison distance still guarantees.
-/

set_option linter.unusedSectionVars false

namespace ReplayServer
open Fallible Agree Merge Relation

namespace Session

/-! ## windows -/

/-- **every canonical byte has a replay that agrees with the bytes before it, and so has the end** -/
theorem agrees_in_windows {target dist : Nat} (hN : target = 1 ∨ target = 2) {acts : List Action}
    {s : Session} (h : Conforming target dist acts s) :
    (∀ p < s.canon.length, ∃ c ∈ s.conns, p < c.sent.length ∧
      ∀ q, p - dist ≤ q → q ≤ p → c.sent[q]? = s.canon[q]?) ∧
    (s.finished = true → s.canon ≠ [] → ∃ c ∈ s.conns, c.sent.length = s.canon.length ∧
      ∀ q, s.canon.length - min dist s.canon.length ≤ q → q < s.canon.length →
        c.sent[q]? = s.canon[q]?) := by
  obtain ⟨m, hj, hd⟩ := joined_of_exact (by omega) (h.exact (by omega) (by omega))
  refine ⟨fun p hp => ?_, fun hf hne => ?_⟩
  · have hcanon := hj.tracks.rel.canon_eq
    obtain ⟨id, hlen, hag⟩ := hj.sources p (by rw [hcanon] at hp; exact hp)
    have hsent := hj.tracks.rel.sent_eq id
    have hlt : p < (s.sent id).length := by
      rw [hsent]
      exact hlen
    obtain ⟨c, hc, he⟩ := exists_conn (List.length_pos_iff.mp (Nat.zero_lt_of_lt hlt))
    rw [hd, ← hsent, ← hcanon, ← he] at hag
    rw [← he] at hlt
    exact ⟨c, hc, hlt, fun q h1 h2 => hag q h1 (Nat.lt_succ_of_le h2)⟩
  · obtain ⟨id, hl, hag⟩ := hj.finished_end hf hne
    have hpos := List.length_pos_iff.mpr hne
    obtain ⟨c, hc, he⟩ := exists_conn (List.length_pos_iff.mp (hl ▸ hpos))
    rw [hd, ← he] at hag
    rw [← he] at hl
    exact ⟨c, hc, hl, fun q h1 h2 => hag q (by omega) h2⟩

theorem agrees_in_windows_contested : ∃ s, Conforming 2 1 (contestedRun ++ (contestedRest ++ [.finish])) s ∧
    s.canon ≠ [] ∧ ∃ c ∈ s.conns, c.sent.length = s.canon.length ∧
      ∀ q, s.canon.length - min 1 s.canon.length ≤ q → q < s.canon.length →
        c.sent[q]? = s.canon[q]? := by
  obtain ⟨s, hs, hf⟩ := run_of_exec_map (fun _ => default)
    (contestedRun ++ (contestedRest ++ [.finish])) (.new 2 1)
    (fun s => (s.finished, decide (s.canon ≠ []))) (b := (true, true)) (by decide +kernel)
  obtain ⟨h1, h2⟩ := Prod.mk.inj hf
  exact ⟨s, hs, of_decide_eq_true h2,
    (agrees_in_windows (Or.inr rfl) hs).2 h1 (of_decide_eq_true h2)⟩

/-! ## votes -/

/-- replays are only added while nobody has reported a delayed position -/
def AddsFirst (acts : List Action) : Prop :=
  ∀ pre post, acts = pre ++ .added :: post → ∀ id n, .delayed id n ∈ pre → n = 0

theorem AddsFirst.of_append {acts acts' : List Action} (h : AddsFirst (acts ++ acts')) :
    AddsFirst acts :=
  fun pre post he => h pre (post ++ acts') (by rw [he, List.append_assoc, List.cons_append])

theorem AddsFirst.unreported {acts : List Action} (h : AddsFirst (acts ++ [.added])) {m : State}
    (hr : Reports acts m) : Unreported m := by
  intro id
  rcases hr.delayed id with h0 | hmem
  · exact h0
  · exact h acts [] rfl id _ hmem

theorem addsFirst_of_added (n : Nat) {acts : List Action} (h : .added ∉ acts) :
    AddsFirst (List.replicate n .added ++ acts) := by
  intro pre post he id k hk
  exfalso
  rcases List.append_eq_append_iff.mp he with ⟨l, rfl, hl⟩ | ⟨l, hl, -⟩
  · exact h (hl ▸ List.mem_append_right l List.mem_cons_self)
  · have hmem : Action.delayed id k ∈ List.replicate n Action.added := by
      rw [hl]
      exact List.mem_append_left _ hk
    cases List.eq_of_mem_replicate hmem

/-- a run with two votes -/
theorem voted_of_conforming {dist : Nat} {acts : List Action} {s : Session}
    (h : Conforming 2 dist acts s) (hadd : AddsFirst acts) :
    ∃ m, s.Tracks m ∧ m.Voted ∧ Reports acts m ∧ m.core.dist = dist := by
  induction h with
  | nil =>
    exact ⟨_, Tracks.new 2 dist, new_voted dist, new_reports 2 dist, rfl⟩
  | @snoc s s' acts a _ hs ih =>
    obtain ⟨m, ht, hv, hr, hd⟩ := ih hadd.of_append
    obtain ⟨ha, ords, hok⟩ := hs
    obtain ⟨hma, hret⟩ := ht.step ha ords
    have hm : Micros Unreported ExactExit m (m.step ords a) := by
      have hdir : Micros (fun _ => True) (fun _ _ => True) m (m.direct (ords 0) a) :=
        direct_micros (ords 0) hma (fun _ => trivial)
      refine step_micros hv.early.wf ords hma ?_ (fun _ => passes_of_target ?_ ?_ ords _)
      · rintro rfl
        exact hadd.unreported hr
      · exact Micros.wf hv.early.wf hdir
      · rw [(Micros.evolves hdir hv.early.wf).target, hv.target]
    exact ⟨_, hret.spec _ hok, Micros.voted hv hm, hr.step hv.early.wf ords hma,
      (Micros.evolves hm hv.early.wf).dist.trans hd⟩

/-- two replays start with `l` -/
def TwoStartWith (s : Session) (l : List UInt8) : Prop :=
  ∃ i < s.conns.length, ∃ j < s.conns.length, i ≠ j ∧ l <+: s.sent i ∧ l <+: s.sent j

/-- **a lone dissenter never wins** -/
theorem lone_dissenter_never_wins {dist : Nat} {acts : List Action} {s : Session}
    (h : Conforming 2 dist acts s) (hadd : AddsFirst acts)
    (hlen : ∀ c ∈ s.conns, c.sent.length ≤ dist) {p : Nat} (hp : p < s.canon.length) {b : UInt8}
    (hb : s.TwoStartWith (s.canon.take p ++ [b])) : s.TwoStartWith (s.canon.take (p + 1)) := by
  obtain ⟨m, ht, hv, hr, hd⟩ := voted_of_conforming h hadd
  obtain ⟨i, hi, j, hj, hij, h1, h2⟩ := hb
  have hcanon := ht.rel.canon_eq
  have hbound : Bounded m.core := by
    intro id
    have := sent_length_le hlen id
    rw [ht.rel.sent_eq] at this
    rw [hd]
    exact this
  have hbyte : ∀ l : List UInt8, s.canon.take p ++ [b] <+: l → s.canon.take p <+: l ∧ l[p]? = some b := by
    intro l hl
    have hplen : (s.canon.take p).length = p := by
      rw [List.length_take]
      omega
    refine ⟨(List.prefix_append _ _).trans hl, ?_⟩
    have hget := getElem?_of_isPrefix hl (i := p) (by rw [List.length_append, hplen]; exact Nat.lt_succ_self p)
    rw [hget, List.getElem?_append_right hplen.le, hplen, Nat.sub_self]
    rfl
  obtain ⟨hpi, hbi⟩ := hbyte _ h1
  obtain ⟨hpj, hbj⟩ := hbyte _ h2
  rw [ht.rel.length] at hi hj
  rw [hcanon] at hp hpi hpj
  rw [ht.rel.sent_eq] at hpi hbi hpj hbj
  obtain ⟨x, hx, y, hy, hxy, h3, h4⟩ := shared_of_complete hp (hv.supported hbound p hp) hi hj hij
    hpi hpj (List.getElem?_eq_some_iff.mp hbi).1 (hbi.trans hbj.symm)
  refine ⟨x, ht.rel.length ▸ hx, y, ht.rel.length ▸ hy, hxy, ?_, ?_⟩
  · rw [hcanon, ht.rel.sent_eq]
    exact h3
  · rw [hcanon, ht.rel.sent_eq]
    exact h4

/-- two replays that agree, and a longer one that does not -/
def dissenterRun : List Action := List.replicate 3 .added ++
  [.header 0 ⟨[7]⟩, .header 1 ⟨[7]⟩, .header 2 ⟨[7]⟩, .data 0 [1, 9, 9], .data 1 [1, 2],
    .data 2 [1, 2], .delayed 0 3, .updated 1, .updated 2, .delayed 1 2, .delayed 2 2, .ended 0,
    .ended 1, .ended 2, .finish]

theorem lone_dissenter_never_wins_dissenter : ∃ s, Conforming 2 4 dissenterRun s ∧
    s.TwoStartWith (s.canon.take 1 ++ [2]) ∧ s.TwoStartWith (s.canon.take 2) := by
  obtain ⟨s, hs, hf⟩ := run_of_exec_map (fun _ => default) dissenterRun (.new 2 4)
    (fun s => (decide (∀ c ∈ s.conns, c.sent.length ≤ 4), s.conns.length,
      [s.canon, s.sent 1, s.sent 2]))
    (b := (true, 3, [[1, 2], [1, 2], [1, 2]])) (by decide +kernel)
  obtain ⟨h1, hf⟩ := Prod.mk.inj hf
  obtain ⟨h2, hf⟩ := Prod.mk.inj hf
  obtain ⟨h3, hf⟩ := List.cons.inj hf
  obtain ⟨h4, hf⟩ := List.cons.inj hf
  obtain ⟨h5, -⟩ := List.cons.inj hf
  have hb : s.TwoStartWith (s.canon.take 1 ++ [2]) := by
    refine ⟨1, by omega, 2, by omega, by decide, ?_, ?_⟩
    · rw [h3, h4]
      exact List.prefix_refl _
    · rw [h3, h5]
      exact List.prefix_refl _
  refine ⟨s, hs, hb, lone_dissenter_never_wins hs (addsFirst_of_added 3 (by decide))
    (of_decide_eq_true h1) ?_ hb⟩
  rw [h3]
  decide

end Session

end ReplayServer
