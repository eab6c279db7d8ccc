import ReplayServer.Accept.Header
import Mathlib.Data.List.Basic
import Mathlib.Tactic.Common

/-!
# replay: the replays of one worker

`replays.rs`: a worker takes connections from its channel, one after the other, and hands each of
them to the replay with its id.  The tasks of the worker hold the replays; its map only has weak
pointers to them, so a replay is gone when the last of its tasks is.

* `Worker.assignConnectionToReplay_spec`  what happens to one connection;
* `Worker.Inv`                            every replay that is alive is the one in the map.
-/

namespace ReplayServer

/-- an `Rc<Replay>`: `ptr` tells replays with the same id apart -/
structure ReplayRc where
  ptr : Nat
  id : Nat
  deriving DecidableEq

inductive Assignment where
  | connection (c : ConnectionHeader) (r : ReplayRc)
  | newReplay (r : ReplayRc)

def Assignment.replay : Assignment → ReplayRc
  | .connection _ r => r
  | .newReplay r => r

structure Worker where
  replays : Nat → Option ReplayRc
  /-- how many replays were made, which is the pointer of the next one -/
  made : Nat
  incoming : List ConnectionHeader
  assigned : List Assignment
  running : List Assignment
  /-- not in the source: the connections taken from the channel, and where they were handed to -/
  served : List (ConnectionHeader × Option ReplayRc)

inductive WorkerEvent where
  | assign
  | start
  | done (i : Nat)

namespace Worker

def new : Worker := ⟨fun _ => none, 0, [], [], [], []⟩

/-- someone holds the replay -/
def alive (self : Worker) (r : ReplayRc) : Bool :=
  (self.assigned ++ self.running).any (fun a => a.replay = r)

/-- a weak pointer can be upgraded as long as the replay is alive -/
def get (self : Worker) (id : Nat) : Option ReplayRc :=
  (self.replays id).filter (fun r => self.alive r)

def assignConnectionToReplay (self : Worker) (c : ConnectionHeader) : Worker × List Assignment :=
  match self.get c.id with
  | some r => (self, [.connection c r])
  | none =>
    if c.type = .reader then (self, [])
    else
      let r : ReplayRc := ⟨self.made, c.id⟩
      ({ self with
          replays := fun id => if id = c.id then some r else self.replays id
          made := self.made + 1 }, [.newReplay r, .connection c r])

def handedTo (assignments : List Assignment) : Option ReplayRc :=
  assignments.findSome? (fun a => match a with
    | .connection _ r => some r
    | .newReplay _ => none)

/-- `flat_map` asks for the next connection when it has no assignments left -/
def next (self : Worker) : WorkerEvent → Option Worker
  | .assign =>
    match self.assigned, self.incoming with
    | [], c :: rest =>
      let (w, assignments) := self.assignConnectionToReplay c
      some { w with
        incoming := rest
        assigned := assignments
        served := self.served ++ [(c, handedTo assignments)] }
    | _, _ => none
  | .start =>
    match self.assigned with
    | a :: rest => some { self with assigned := rest, running := self.running ++ [a] }
    | [] => none
  | .done i =>
    if i < self.running.length then some { self with running := self.running.eraseIdx i } else none

/-! ## what is alive -/

theorem alive_iff {w : Worker} {r : ReplayRc} :
    w.alive r = true ↔ ∃ a ∈ w.assigned ++ w.running, a.replay = r := by
  unfold alive
  rw [List.any_eq_true]
  simp only [decide_eq_true_eq]

theorem get_eq_some {w : Worker} {id : Nat} {r : ReplayRc} :
    w.get id = some r ↔ w.replays id = some r ∧ w.alive r = true := by
  simp [get, Option.filter_eq_some_iff]

inductive Assigned (w : Worker) (c : ConnectionHeader) : Worker × List Assignment → Prop where
  | found (r : ReplayRc) (h : w.get c.id = some r) : Assigned w c (w, [.connection c r])
  | turnedAway (h : w.get c.id = none) (ht : c.type = .reader) : Assigned w c (w, [])
  | created (h : w.get c.id = none) (ht : c.type = .writer) : Assigned w c
      ({ w with
          replays := fun id => if id = c.id then some ⟨w.made, c.id⟩ else w.replays id
          made := w.made + 1 },
        [.newReplay ⟨w.made, c.id⟩, .connection c ⟨w.made, c.id⟩])

theorem assignConnectionToReplay_spec (w : Worker) (c : ConnectionHeader) :
    Assigned w c (w.assignConnectionToReplay c) := by
  unfold assignConnectionToReplay
  cases hg : w.get c.id with
  | some r => exact .found r hg
  | none =>
    cases ht : c.type with
    | reader => exact .turnedAway hg ht
    | writer => exact .created hg ht

/-! ## the invariant -/

/-- the worker of the connections for which `mine` holds -/
structure Inv (mine : Nat → Prop) (w : Worker) : Prop where
  keyed : ∀ id r, w.replays id = some r → r.id = id
  held : ∀ r, w.alive r = true → w.replays r.id = some r
  home : ∀ r, w.alive r = true → mine r.id
  incoming : ∀ c ∈ w.incoming, mine c.id
  connection : ∀ c r, .connection c r ∈ w.assigned ++ w.running → r.id = c.id
  fresh : ∀ id r, w.replays id = some r → r.ptr < w.made
  served : ∀ e ∈ w.served, (∀ r, e.2 = some r → r.id = e.1.id) ∧
    (e.1.type = .writer → e.2.isSome)

theorem new_inv (mine : Nat → Prop) : new.Inv mine := by
  refine ⟨?_, ?_, ?_, ?_, ?_, ?_, ?_⟩ <;> simp [new, alive]

variable {mine : Nat → Prop} {w w' : Worker}

theorem Inv.unique (h : w.Inv mine) {r r' : ReplayRc} (hr : w.alive r = true)
    (hr' : w.alive r' = true) (hid : r.id = r'.id) : r = r' := by
  have h1 := h.held r hr
  rw [hid, h.held r' hr'] at h1
  exact (Option.some.inj h1).symm

theorem Inv.get_of_alive (h : w.Inv mine) {r : ReplayRc} (hr : w.alive r = true) :
    w.get r.id = some r :=
  get_eq_some.mpr ⟨h.held r hr, hr⟩

/-- and where it finds none, no live replay has the id -/
theorem Inv.ne_of_get (h : w.Inv mine) {id : Nat} (hg : w.get id = none) (r : ReplayRc)
    (hr : w.alive r = true) : r.id ≠ id := by
  rintro rfl
  rw [h.get_of_alive hr] at hg
  cases hg

/-- an assignment that is not done keeps its replay alive -/
theorem alive_of_mem {a : Assignment} (ha : a ∈ w.assigned ++ w.running) : w.alive a.replay = true :=
  alive_iff.mpr ⟨a, ha, rfl⟩

/-- the worker only holds replays that were alive, and has the same map -/
theorem Inv.of_alive (h : w.Inv mine) (hmap : w'.replays = w.replays) (hmade : w'.made = w.made)
    (hin : ∀ c ∈ w'.incoming, c ∈ w.incoming)
    (htasks : ∀ a ∈ w'.assigned ++ w'.running, w.alive a.replay = true ∧
      ∀ c r, a = .connection c r → r.id = c.id)
    (hserved : ∀ e ∈ w'.served, (∀ r, e.2 = some r → r.id = e.1.id) ∧
      (e.1.type = .writer → e.2.isSome)) : w'.Inv mine := by
  have halive : ∀ r, w'.alive r = true → w.alive r = true := by
    intro r hr
    obtain ⟨a, ha, rfl⟩ := alive_iff.mp hr
    exact (htasks a ha).1
  refine ⟨?_, ?_, ?_, ?_, ?_, ?_, hserved⟩
  · rw [hmap]
    exact h.keyed
  · intro r hr
    rw [hmap]
    exact h.held r (halive r hr)
  · intro r hr
    exact h.home r (halive r hr)
  · intro c hc
    exact h.incoming c (hin c hc)
  · intro c r hcr
    exact (htasks _ hcr).2 c r rfl
  · rw [hmap, hmade]
    exact h.fresh

/-- a replay comes to life for an id that has none -/
theorem Inv.of_new (h : w.Inv mine) (new : ReplayRc) (hptr : new.ptr = w.made)
    (hmine : mine new.id) (hnone : w.get new.id = none)
    (hmap : w'.replays = fun id => if id = new.id then some new else w.replays id)
    (hmade : w'.made = w.made + 1) (hin : ∀ c ∈ w'.incoming, c ∈ w.incoming)
    (htasks : ∀ a ∈ w'.assigned ++ w'.running, (a.replay = new ∨ w.alive a.replay = true) ∧
      ∀ c r, a = .connection c r → r.id = c.id)
    (hserved : ∀ e ∈ w'.served, (∀ r, e.2 = some r → r.id = e.1.id) ∧
      (e.1.type = .writer → e.2.isSome)) : w'.Inv mine := by
  have halive : ∀ r, w'.alive r = true → r = new ∨ w.alive r = true := by
    intro r hr
    obtain ⟨a, ha, rfl⟩ := alive_iff.mp hr
    exact (htasks a ha).1
  have hother := h.ne_of_get hnone
  -- an entry of the map is the new replay or an old one
  have hentry : ∀ id r, w'.replays id = some r → (r = new ∧ new.id = id) ∨ w.replays id = some r := by
    intro id r hr
    rw [hmap] at hr
    change (if id = new.id then some new else w.replays id) = some r at hr
    by_cases hk : id = new.id
    · rw [if_pos hk] at hr
      exact Or.inl ⟨(Option.some.inj hr).symm, hk.symm⟩
    · rw [if_neg hk] at hr
      exact Or.inr hr
  refine ⟨?_, ?_, ?_, ?_, ?_, ?_, hserved⟩
  · intro id r hr
    cases hentry id r hr with
    | inl hn => rw [hn.1, hn.2]
    | inr ho => exact h.keyed id r ho
  · intro r hr
    rw [hmap]
    cases halive r hr with
    | inl hn =>
      rw [hn]
      exact if_pos rfl
    | inr hl => exact (if_neg (hother r hl)).trans (h.held r hl)
  · intro r hr
    cases halive r hr with
    | inl hn =>
      rw [hn]
      exact hmine
    | inr hl => exact h.home r hl
  · intro c hc
    exact h.incoming c (hin c hc)
  · intro c r hcr
    exact (htasks _ hcr).2 c r rfl
  · intro id r hr
    rw [hmade]
    cases hentry id r hr with
    | inl hn =>
      rw [hn.1, hptr]
      exact Nat.lt_succ_self _
    | inr ho => exact Nat.lt_succ_of_lt (h.fresh id r ho)

theorem next_assign (hn : w.next .assign = some w') : ∃ c rest, w.assigned = [] ∧
    w.incoming = c :: rest ∧ w' = { (w.assignConnectionToReplay c).1 with
      incoming := rest
      assigned := (w.assignConnectionToReplay c).2
      served := w.served ++ [(c, handedTo (w.assignConnectionToReplay c).2)] } := by
  unfold next at hn
  dsimp only at hn
  split at hn
  · rename_i c rest ha hi
    exact ⟨c, rest, ha, hi, (Option.some.inj hn).symm⟩
  · cases hn

theorem next_other {e : WorkerEvent} (hn : w.next e = some w') (he : e ≠ .assign) :
    w'.replays = w.replays ∧ w'.made = w.made ∧ w'.incoming = w.incoming ∧ w'.served = w.served ∧
      ∀ a ∈ w'.assigned ++ w'.running, a ∈ w.assigned ++ w.running := by
  cases e with
  | assign => exact absurd rfl he
  | start =>
    unfold next at hn
    dsimp only at hn
    split at hn
    · rename_i b rest hb
      cases hn
      refine ⟨rfl, rfl, rfl, rfl, ?_⟩
      intro a ha
      rw [hb]
      simp only [List.mem_append, List.mem_cons, List.not_mem_nil, or_false] at ha ⊢
      tauto
    · cases hn
  | done i =>
    unfold next at hn
    dsimp only at hn
    split at hn
    · cases hn
      refine ⟨rfl, rfl, rfl, rfl, ?_⟩
      intro a ha
      cases List.mem_append.mp ha with
      | inl ha => exact List.mem_append_left _ ha
      | inr ha => exact List.mem_append_right _ (List.mem_of_mem_eraseIdx ha)
    · cases hn

theorem served_snoc {served : List (ConnectionHeader × Option ReplayRc)} {c : ConnectionHeader}
    {o : Option ReplayRc} (h : ∀ e ∈ served, (∀ r, e.2 = some r → r.id = e.1.id) ∧
      (e.1.type = .writer → e.2.isSome))
    (h1 : ∀ r, o = some r → r.id = c.id) (h2 : c.type = .writer → o.isSome) :
    ∀ e ∈ served ++ [(c, o)], (∀ r, e.2 = some r → r.id = e.1.id) ∧
      (e.1.type = .writer → e.2.isSome) := by
  intro e he
  cases List.mem_append.mp he with
  | inl he => exact h e he
  | inr he =>
    rw [List.mem_singleton.mp he]
    exact ⟨h1, h2⟩

theorem Inv.assign (h : w.Inv mine) (hn : w.next .assign = some w') : w'.Inv mine := by
  obtain ⟨c, rest, hnil, hin, rfl⟩ := next_assign hn
  have hsub : ∀ d ∈ rest, d ∈ w.incoming := by
    intro d hd
    rw [hin]
    exact List.mem_cons_of_mem _ hd
  have hrun : ∀ a ∈ w.running, a ∈ w.assigned ++ w.running := fun a ha => by simp [ha]
  have hspec := assignConnectionToReplay_spec w c
  revert hspec
  generalize w.assignConnectionToReplay c = res
  intro hspec
  cases hspec with
  | found r hg =>
    obtain ⟨hr1, hr2⟩ := get_eq_some.mp hg
    have hid := h.keyed c.id r hr1
    refine h.of_alive rfl rfl hsub ?_ ?_
    · intro a ha
      cases List.mem_cons.mp ha with
      | inl ha =>
        subst ha
        refine ⟨hr2, ?_⟩
        intro d r' hd
        cases hd
        exact hid
      | inr ha =>
        refine ⟨alive_of_mem (hrun a ha), ?_⟩
        rintro d r' rfl
        exact h.connection d r' (hrun _ ha)
    · refine served_snoc h.served ?_ (fun _ => rfl)
      intro r' hr'
      cases hr'
      exact hid
  | turnedAway hg ht =>
    refine h.of_alive rfl rfl hsub ?_ ?_
    · intro a ha
      refine ⟨alive_of_mem (hrun a ha), ?_⟩
      rintro d r' rfl
      exact h.connection d r' (hrun _ ha)
    · refine served_snoc h.served (fun r' hr' => nomatch hr') ?_
      intro hw
      rw [ht] at hw
      cases hw
  | created hg ht =>
    have hmine : mine c.id := h.incoming c (by rw [hin]; exact List.mem_cons_self)
    refine h.of_new ⟨w.made, c.id⟩ rfl hmine hg rfl rfl hsub ?_ ?_
    · intro a ha
      cases List.mem_append.mp ha with
      | inl ha =>
        cases List.mem_cons.mp ha with
        | inl ha =>
          rw [ha]
          exact ⟨Or.inl rfl, fun d r hd => nomatch hd⟩
        | inr ha =>
          rw [List.mem_singleton.mp ha]
          refine ⟨Or.inl rfl, ?_⟩
          intro d r hd
          cases hd
          rfl
      | inr ha =>
        refine ⟨Or.inr (alive_of_mem (hrun a ha)), ?_⟩
        rintro d r rfl
        exact h.connection d r (hrun _ ha)
    · refine served_snoc h.served ?_ (fun _ => rfl)
      intro r hr
      cases hr
      rfl

/-- **every event keeps the invariant of its worker** -/
theorem Inv.next (h : w.Inv mine) {e : WorkerEvent} (hn : w.next e = some w') : w'.Inv mine := by
  by_cases he : e = .assign
  · subst he
    exact h.assign hn
  · obtain ⟨hmap, hmade, hin, hserved, hmem⟩ := next_other hn he
    refine h.of_alive hmap hmade (fun c hc => hin ▸ hc) ?_ (hserved ▸ h.served)
    intro b hb
    refine ⟨alive_of_mem (hmem b hb), ?_⟩
    rintro c r rfl
    exact h.connection c r (hmem _ hb)

theorem next_sent {e : WorkerEvent} (hn : w.next e = some w') :
    w'.served.map Prod.fst ++ w'.incoming = w.served.map Prod.fst ++ w.incoming := by
  by_cases he : e = .assign
  · subst he
    obtain ⟨c, rest, -, hin, rfl⟩ := next_assign hn
    simp [hin]
  · obtain ⟨-, -, hin, hserved, -⟩ := next_other hn he
    rw [hin, hserved]

theorem next_alive {e : WorkerEvent} (hn : w.next e = some w') {r : ReplayRc}
    (hr : w'.alive r = true) : w.alive r = true ∨ ∃ c rest, e = .assign ∧ w.incoming = c :: rest ∧
      c.type = .writer ∧ r.id = c.id ∧ w.get c.id = none := by
  obtain ⟨a, ha, rfl⟩ := alive_iff.mp hr
  by_cases he : e = .assign
  · subst he
    obtain ⟨c, rest, hnil, hin, rfl⟩ := next_assign hn
    have hrun : ∀ b ∈ w.running, w.alive b.replay = true := fun b hb => alive_of_mem (by simp [hb])
    have hspec := assignConnectionToReplay_spec w c
    revert hspec ha
    generalize w.assignConnectionToReplay c = res
    intro ha hspec
    cases hspec with
    | found r hg =>
      cases List.mem_cons.mp ha with
      | inl ha =>
        rw [ha]
        exact Or.inl (get_eq_some.mp hg).2
      | inr ha => exact Or.inl (hrun a ha)
    | turnedAway hg ht => exact Or.inl (hrun a ha)
    | created hg ht =>
      cases List.mem_append.mp ha with
      | inr ha => exact Or.inl (hrun a ha)
      | inl ha =>
        right
        refine ⟨c, rest, rfl, hin, ht, ?_, hg⟩
        cases List.mem_cons.mp ha with
        | inl ha => rw [ha]; rfl
        | inr ha => rw [List.mem_singleton.mp ha]; rfl
  · exact Or.inl (alive_of_mem ((next_other hn he).2.2.2.2 a ha))

/-- where a connection is handed to: the live replay with its id, which a writer always finds or
makes -/
theorem Inv.assign_served (h : w.Inv mine) (hn : w.next .assign = some w') : ∃ c rest o,
    w.incoming = c :: rest ∧ w'.served = w.served ++ [(c, o)] ∧
      (∀ r, o = some r → r.id = c.id ∧ w'.alive r = true ∧
        ∀ r', w.alive r' = true → r'.id = c.id → r' = r) ∧
      (o = none → c.type = .reader ∧ ∀ r', w.alive r' = true → r'.id ≠ c.id) := by
  obtain ⟨c, rest, hnil, hin, rfl⟩ := next_assign hn
  refine ⟨c, rest, _, hin, rfl, ?_⟩
  have hspec := assignConnectionToReplay_spec w c
  revert hspec
  generalize w.assignConnectionToReplay c = res
  intro hspec
  cases hspec with
  | found r hg =>
    obtain ⟨hr1, hr2⟩ := get_eq_some.mp hg
    have hid := h.keyed c.id r hr1
    refine ⟨?_, fun ho => nomatch ho⟩
    intro r' hr'
    cases hr'
    refine ⟨hid, alive_iff.mpr ⟨_, List.mem_cons_self, rfl⟩, ?_⟩
    intro r' hr' hid'
    exact h.unique hr' hr2 (hid'.trans hid.symm)
  | turnedAway hg ht => exact ⟨fun r' hr' => (nomatch hr'), fun _ => ⟨ht, h.ne_of_get hg⟩⟩
  | created hg ht =>
    refine ⟨?_, fun ho => nomatch ho⟩
    intro r' hr'
    cases hr'
    refine ⟨rfl, alive_iff.mpr ⟨_, List.mem_cons_self, rfl⟩, ?_⟩
    intro r' hr' hid'
    exact absurd hid' (h.ne_of_get hg r' hr')

theorem Inv.dispatch (h : w.Inv mine) {c : ConnectionHeader} (hc : mine c.id) :
    Inv mine { w with incoming := w.incoming ++ [c] } := by
  refine ⟨h.keyed, h.held, h.home, ?_, h.connection, h.fresh, h.served⟩
  intro d hd
  cases List.mem_append.mp hd with
  | inl hd => exact h.incoming d hd
  | inr hd =>
    rw [List.mem_singleton.mp hd]
    exact hc

end Worker

end ReplayServer
