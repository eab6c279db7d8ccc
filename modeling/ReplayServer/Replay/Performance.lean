import ReplayServer.Lib.Stretches
import ReplayServer.Replay.LoopPasses

/-!
# replay: the loop between quorum and stalemate runs seldom

A life of a replay in which every wake-up has its time and counts the iterations of its loops.

* `books_of_run`   the iterations of a life are the terms in its books;
* `term_spaced`    two terms that end with the data of one writer are the delay apart;
* `few_passes`     so there are few of them while the delay passes once.
-/

set_option linter.unusedSectionVars false

namespace ReplayServer
open Fallible Merge DelayEvent

/-! ## a whole life -/

/-- a wake-up with its time, and how often the loops in it iterate -/
structure Wakeup where
  time : Nat
  event : LifeEvent
  passes : Nat
  deriving DecidableEq, Repr

theorem timedEvents_append (id : Nat) (xs ys : List (Nat × LifeEvent)) :
    timedEvents id (xs ++ ys) = timedEvents id xs ++ timedEvents id ys := List.flatMap_append

theorem StreamDelay.LifeSchedule.take {d : StreamDelay} {sched : List (Nat × LifeEvent)}
    (hs : d.LifeSchedule sched) (k : Nat) :
    d.LifeSchedule (sched.take k) where
  ordered := hs.ordered.sublist (List.take_sublist k sched)
  apart id := by
    have happ : timedEvents id sched = timedEvents id (sched.take k) ++ timedEvents id (sched.drop k) := by
      rw [← timedEvents_append, List.take_append_drop]
    have hap := hs.apart id
    rw [happ] at hap
    unfold tickTimes at hap ⊢
    rw [List.filterMap_append] at hap
    exact hap.left_of_append

namespace ReplayLife

/-- the length of what the writer `id` got in the first `k` wake-ups -/
def got (evs : List LifeEvent) (id k : Nat) : Nat := (appended (delayEvents id (evs.take k))).length

/-- `n` bytes of the writer `id` are released -/
def Reaches (l : ReplayLife) (id n : Nat) : Prop :=
  0 < n → l.writers[id]? = some .done ∨ ∃ t, l.writers[id]? = some (.data t) ∧ n ≤ t.prevDelayed

/-- a term that ends with the data of a writer was opened in the wake-ups `evs` -/
structure OpenedIn (evs : List LifeEvent) (o : Opening) : Prop where
  lt : o.opened < evs.length
  length : ∀ id, o.cause = .short id → o.length = got evs id (o.opened + 1)

/-- and when it was closed, the writer had released that data -/
structure ClosedIn (new : ReplayLife) (evs : List LifeEvent) (l : ReplayLife) (a : Term) : Prop where
  lt : a.closed < evs.length
  released : ∀ id, a.cause = .short id → ∃ u, Lts.Run Step new (evs.take (a.closed + 1)) u ∧
    Lts.Run Step u (evs.drop (a.closed + 1)) l ∧ u.Reaches id a.length

/-- a wake-up, whatever the iteration orders are, with the count of its iterations -/
def PassStep (l : ReplayLife) (w : Wakeup) (l' : ReplayLife) : Prop :=
  ∃ ords, l.next ords w.event = some (.ok l') ∧ w.passes = l.passes ords l'

def timeline (ws : List Wakeup) : List (Nat × LifeEvent) := ws.map fun w => (w.time, w.event)

section
variable {new l l' : ReplayLife} {evs : List LifeEvent} {e : LifeEvent}

theorem got_concat {k : Nat} (id : Nat) (hk : k ≤ evs.length) : got (evs ++ [e]) id k = got evs id k := by
  unfold got
  rw [List.take_append_of_le_length hk]

theorem OpenedIn.concat {o : Opening} (h : OpenedIn evs o) : OpenedIn (evs ++ [e]) o where
  lt := by
    rw [List.length_append]
    exact Nat.lt_add_right _ h.lt
  length id hid := by
    rw [got_concat id h.lt]
    exact h.length id hid

theorem ClosedIn.concat {a : Term} (h : ClosedIn new evs l a) (hs : Step l e l') :
    ClosedIn new (evs ++ [e]) l' a where
  lt := by
    rw [List.length_append]
    exact Nat.lt_add_right _ h.lt
  released id hid := by
    obtain ⟨u, h1, h2, h3⟩ := h.released id hid
    refine ⟨u, ?_, ?_, h3⟩
    · rwa [List.take_append_of_le_length h.lt]
    · rw [List.drop_append_of_le_length h.lt]
      exact h2.snoc hs

variable {target dist : Nat}

/-- what a writer released, by the task that it is in -/
theorem Sound.reaches {m : State} (h : l.Sound target dist m) {id n : Nat}
    (hn : n ≤ (m.core.get id).delayed) : l.Reaches id n := by
  intro hpos
  refine ((h.writers id).released (lt_of_lt_of_le hpos hn)).imp_right ?_
  rintro ⟨t, ht, hprev⟩
  exact ⟨t, ht, hn.trans hprev.ge⟩

theorem PassStep.step {w : Wakeup} (h : PassStep l w l') : Step l w.event l' := by
  obtain ⟨ords, hx, -⟩ := h
  exact ⟨ords, hx⟩

theorem run_of_passes {ws : List Wakeup} (h : Lts.Run PassStep l ws l') :
    Lts.Run Step l (ws.map Wakeup.event) l' := by
  induction h with
  | nil => exact .nil _
  | snoc _ hs ih =>
    rw [List.map_append]
    exact ih.snoc hs.step

/-- **the iterations of a life are the terms in its books** -/
theorem books_of_run {cycles : Nat} (hN : 0 < target) (htar : target ≤ 2) {ws : List Wakeup}
    (h : Lts.Run PassStep (ReplayLife.new target dist cycles) ws l) :
    ∃ m past cur, l.session.Tracks m ∧ m.core.target = target ∧
      Books (OpenedIn (ws.map Wakeup.event))
        (ClosedIn (ReplayLife.new target dist cycles) (ws.map Wakeup.event) l) m past cur ∧
      tally past cur = (ws.map Wakeup.passes).sum := by
  induction h with
  | nil =>
    exact ⟨_, [], none, Session.Tracks.new target dist, rfl, new_books _ _ _ _, rfl⟩
  | @snoc u l ws w hr hs ih =>
    obtain ⟨m, past, cur, ht, htm, hb, htally⟩ := ih
    have hrun := run_of_passes hr
    have hrun' := hrun.snoc hs.step
    obtain ⟨m0, hm0⟩ := sound_of_run hrun
    obtain ⟨m1, hm1⟩ := sound_of_run hrun'
    have hst : Stamps (OpenedIn ((ws ++ [w]).map Wakeup.event))
        (ClosedIn (ReplayLife.new target dist cycles) ((ws ++ [w]).map Wakeup.event) l)
        ws.length (fun id => (l.session.sent id).length) (fun id => (m1.core.get id).delayed) := by
      rw [List.map_append]
      have hall : ((ws.map Wakeup.event) ++ [w].map Wakeup.event).length = ws.length + 1 := by
        rw [List.length_append, List.length_map, List.length_map]
        rfl
      constructor
      case opened =>
        intro o ho hlen
        refine ⟨by rw [hall, ho]; exact Nat.lt_succ_self _, fun id hid => ?_⟩
        rw [hlen id hid, sent_of_run hrun' id, ho]
        unfold got
        rw [List.take_of_length_le hall.le]
        rfl
      case closed =>
        intro a ha hrel
        refine ⟨by rw [hall, ha]; exact Nat.lt_succ_self _, fun id hid => ?_⟩
        refine ⟨l, ?_, ?_, hm1.reaches (hrel id hid)⟩
        · rw [ha, List.take_of_length_le hall.le]
          exact hrun'
        · rw [ha, List.drop_of_length_le hall.le]
          exact .nil l
      case opened_le =>
        intro o ho
        have := ho.lt
        omega
      case closed_le =>
        intro a ha
        have := ha.lt
        omega
    obtain ⟨ords, hx, hp⟩ := hs
    have hb' : Books (OpenedIn ((ws ++ [w]).map Wakeup.event))
        (ClosedIn (ReplayLife.new target dist cycles) ((ws ++ [w]).map Wakeup.event) l) m past cur := by
      rw [List.map_append]
      exact hb.mono (fun _ ho => ho.concat) (fun _ ha => ha.concat ⟨ords, hx⟩)
    obtain ⟨m', past', cur', ht', htm', hb1, he⟩ := (hm0.row hx).books ht (by rw [htm]; exact hN)
      (by rw [htm]; exact htar) hst hb' (fun _ => rfl) (fun m' ht' id => (ht'.delayed_eq hm1.tracks id).le)
    refine ⟨m', past', cur', ht', htm'.trans htm, hb1, ?_⟩
    rw [he, htally, List.map_append, List.sum_append, List.map_singleton, List.sum_singleton, hp]
    rfl

/-! ## what a writer got -/

theorem got_add (evs : List LifeEvent) (id i n : Nat) : got evs id (i + n) =
    got evs id i + (appended (delayEvents id ((evs.drop i).take n))).length := by
  have happ : ∀ xs ys, appended (delayEvents id (xs ++ ys)) =
      appended (delayEvents id xs) ++ appended (delayEvents id ys) := by
    intro xs ys
    unfold appended delayEvents
    rw [List.flatMap_append, List.flatMap_append]
  unfold got
  rw [List.take_add, happ, List.length_append]

theorem got_mono (evs : List LifeEvent) (id : Nat) {i k : Nat} (h : i ≤ k) :
    got evs id i ≤ got evs id k := by
  obtain ⟨n, rfl⟩ := Nat.exists_eq_add_of_le h
  rw [got_add]
  exact Nat.le_add_right _ _

theorem WriterStep.of_done {id : Nat} {task : Option WriterTask} {calls : List Action}
    (hs : WriterStep l id e task calls) (hd : l.writers[id]? = some .done) :
    task = some .done ∧ e.delayEvents id = [] := by
  cases hs with
  | stays he => exact ⟨hd, he⟩
  | stops h ha =>
    rw [hd] at h
    cases h
    cases ha
  | connection h | header h | data h | cycle h =>
    rw [hd] at h
    cases h

theorem delayEvents_of_done (h : Lts.Run Step l evs l') {id : Nat} (hd : l.writers[id]? = some .done) :
    l'.writers[id]? = some .done ∧ delayEvents id evs = [] := by
  induction h with
  | nil => exact ⟨hd, rfl⟩
  | snoc _ hs ih =>
    obtain ⟨ht, he⟩ := ih
    obtain ⟨calls, hw, -⟩ := hs.writerSteps.2 id
    obtain ⟨hdone, hnil⟩ := hw.of_done ht
    refine ⟨hdone, ?_⟩
    rw [delayEvents_concat, he, hnil]
    rfl

theorem got_of_done {i k : Nat} (h : Lts.Run Step l (evs.drop i) l') {id : Nat}
    (hd : l.writers[id]? = some .done) (hk : i ≤ k) : got evs id k = got evs id i := by
  obtain ⟨n, rfl⟩ := Nat.exists_eq_add_of_le hk
  have hnil := (delayEvents_of_done h hd).2
  rw [got_add]
  have htake : delayEvents id ((evs.drop i).take n) = [] := by
    refine List.flatMap_eq_nil_iff.mpr (fun e he => ?_)
    exact List.flatMap_eq_nil_iff.mp hnil e (List.mem_of_mem_take he)
  rw [htake]
  rfl

/-- a writer that goes on to get data has not stopped, and released what the term needs -/
theorem ClosedIn.working {a : Term} (h : ClosedIn new evs l a) {id : Nat} (hid : a.cause = .short id)
    (hpos : 0 < a.length) {k : Nat} (hk : a.closed + 1 ≤ k)
    (hmore : got evs id (a.closed + 1) < got evs id k) : ∃ u t,
      Lts.Run Step new (evs.take (a.closed + 1)) u ∧ u.writers[id]? = some (.data t) ∧
      a.length ≤ t.prevDelayed := by
  obtain ⟨u, h1, h2, h3⟩ := h.released id hid
  rcases h3 hpos with hd | ⟨t, ht, hle⟩
  · rw [got_of_done h2 hd hk] at hmore
    exact absurd hmore (lt_irrefl _)
  · exact ⟨u, t, h1, ht, hle⟩

/-- a writer that released something had a cycle -/
theorem tick_of_released {cycles : Nat} (h : Lts.Run Step (ReplayLife.new target dist cycles) evs l)
    {id : Nat} {t : TimestampLoop} (ht : l.writers[id]? = some (.data t)) (hpos : 0 < t.prevDelayed) :
    ∃ x ∈ delayEvents id evs, x.2 = .tick := by
  have hf := writer_follows h id
  rw [ht] at hf
  obtain ⟨s, x, hrun, rfl, -⟩ := hf.of_data
  have hist := (run_history _ _).spec _ hrun
  have hprev : s.loop.prevDelayed = (prevPair s.ticks).2 := by
    rw [← hist.prev]
  by_contra hno
  have hnil : tickTimes (delayEvents id evs) = [] := by
    refine List.filterMap_eq_nil_iff.mpr (fun x hx => ?_)
    exact if_neg (fun htick => hno ⟨x, hx, htick⟩)
  rw [← hist.times, List.map_eq_nil_iff] at hnil
  rw [hprev, hnil] at hpos
  exact absurd hpos (lt_irrefl _)

end

/-! ## times -/

def timeAt (sched : List (Nat × LifeEvent)) (k : Nat) : Nat := (sched[k]?.map Prod.fst).getD 0

section
variable {sched : List (Nat × LifeEvent)} {i k : Nat}

theorem timeAt_eq (hk : k < sched.length) : timeAt sched k = sched[k].1 := by
  unfold timeAt
  rw [List.getElem?_eq_getElem hk]
  rfl

theorem timeAt_mono (hs : sched.Pairwise fun e e' => e.1 ≤ e'.1) (hik : i ≤ k) (hk : k < sched.length) :
    timeAt sched i ≤ timeAt sched k := by
  rcases Nat.lt_or_eq_of_le hik with hlt | rfl
  · rw [timeAt_eq hk, timeAt_eq (hlt.trans hk)]
    exact List.pairwise_iff_getElem.mp hs i k _ hk hlt
  · exact le_rfl

theorem le_timeAt (hs : sched.Pairwise fun e e' => e.1 ≤ e'.1) (hk : k < sched.length)
    {e : Nat × LifeEvent} (he : e ∈ sched.take (k + 1)) : e.1 ≤ timeAt sched k := by
  obtain ⟨j, hj, rfl⟩ := List.getElem_of_mem he
  rw [List.length_take] at hj
  rw [List.getElem_take, ← timeAt_eq (by omega)]
  exact timeAt_mono hs (by omega) hk

theorem timeAt_le (hs : sched.Pairwise fun e e' => e.1 ≤ e'.1) (hik : i ≤ k) {e : Nat × LifeEvent}
    (he : e ∈ sched.drop k) : timeAt sched i ≤ e.1 := by
  obtain ⟨j, hj, rfl⟩ := List.getElem_of_mem he
  rw [List.length_drop] at hj
  rw [List.getElem_drop, ← timeAt_eq (by omega)]
  exact timeAt_mono hs (by omega) (by omega)

theorem length_timedEvents_take (id k : Nat) :
    (appended (timedEvents id (sched.take k))).length = got (sched.map Prod.snd) id k := by
  unfold got
  rw [appended_eq, appended_eq, timedEvents_untimed, List.map_take]

/-- a byte that the writer did not have after `k` wake-ups came later -/
theorem arrived_after (hs : sched.Pairwise fun e e' => e.1 ≤ e'.1) (hik : i ≤ k) {id n t : Nat}
    (hkn : k ≤ n)
    (h : (arrivals (timedEvents id (sched.take n)))[got (sched.map Prod.snd) id k]? = some t) :
    timeAt sched i ≤ t := by
  obtain ⟨j, rfl⟩ := Nat.exists_eq_add_of_le hkn
  rw [List.take_add, timedEvents_append] at h
  unfold arrivals at h
  rw [List.flatMap_append, List.getElem?_append_right] at h
  · obtain ⟨x, hx, rfl⟩ := StreamDelay.mem_arrivals (List.mem_of_getElem? h)
    obtain ⟨e, he, hex, -⟩ := mem_timedEvents hx
    rw [← hex]
    exact timeAt_le hs hik (List.mem_of_mem_take he)
  · rw [← length_timedEvents_take]
    exact (StreamDelay.length_arrivals _).le

/-- what was there before the first cycle, by any later moment with a cycle before it -/
theorem length_beforeFirstTick_le {id n : Nat} (hkn : k ≤ n)
    (h : ∃ x ∈ delayEvents id ((sched.map Prod.snd).take k), x.2 = .tick) :
    (appended (beforeFirstTick (timedEvents id (sched.take n)))).length
      ≤ got (sched.map Prod.snd) id k := by
  obtain ⟨j, rfl⟩ := Nat.exists_eq_add_of_le hkn
  obtain ⟨x, hx, htick⟩ := h
  have hmem : DelayEvent.tick ∈ (timedEvents id (sched.take k)).map Prod.snd := by
    rw [timedEvents_untimed, List.map_take, ← htick]
    exact List.mem_map_of_mem hx
  obtain ⟨y, hy, hy2⟩ := List.mem_map.mp hmem
  rw [← length_timedEvents_take, List.take_add, timedEvents_append]
  unfold beforeFirstTick
  have hpre := List.takeWhile_prefix (l := timedEvents id (sched.take k)) fun e => e.2 ≠ .tick
  rw [List.takeWhile_append, if_neg (fun hlen => ?_)]
  · obtain ⟨rest, hrest⟩ := hpre
    have hle := congrArg (fun l => (appended l).length) hrest
    simp only [appended, List.flatMap_append, List.length_append] at hle ⊢
    omega
  · have hall := List.takeWhile_eq_self_iff.mp (hpre.eq_of_length hlen) y hy
    rw [hy2] at hall
    exact absurd hall (by decide)

/-! ## the terms that end with the data of one writer -/

variable {d : StreamDelay} {target dist cycles : Nat} {l : ReplayLife}

/-- **a term is closed the delay after the term before it was opened**, where the writer had a term
before both and gets data after both -/
theorem term_spaced (hdelay : d.delayS ≤ cycles * d.sleepS) (hs : d.LifeSchedule sched) {new : ReplayLife}
    (hnew : new = .new target dist cycles) {z a b : Term} {id : Nat}
    (hz : ClosedIn new (sched.map Prod.snd) l z) (hzid : z.cause = .short id) (hz0 : 0 < z.length)
    (ha : OpenedIn (sched.map Prod.snd) a.toOpening) (haid : a.cause = .short id)
    (hb : ClosedIn new (sched.map Prod.snd) l b) (hbid : b.cause = .short id)
    (hza : z.closed ≤ a.opened) (hab : a.opened ≤ b.closed) (hlt : a.length < b.length)
    (hk : b.closed + 1 ≤ k)
    (hmore : got (sched.map Prod.snd) id (b.closed + 1) < got (sched.map Prod.snd) id k) :
    timeAt sched a.opened + d.delayS ≤ timeAt sched b.closed := by
  subst hnew
  obtain ⟨u, t, hrun, ht, hle⟩ := hb.working hbid (Nat.zero_lt_of_lt hlt) hk hmore
  obtain ⟨v, t', hrun', ht', hle'⟩ := hz.working hzid hz0 (by omega)
    (lt_of_le_of_lt (got_mono _ id (by omega)) hmore)
  have hlen := ha.length id haid
  have hbound : b.closed < sched.length := by
    have := hb.lt
    rwa [List.length_map] at this
  rw [← List.map_take] at hrun
  rcases released_is_old hdelay hrun (hs.take (b.closed + 1)) ht (lt_of_lt_of_le hlt hle) with
    ⟨s, c, harr, hc, hsc⟩ | hearly
  · -- the byte came after the first term was opened
    rw [hlen] at harr
    have hold := arrived_after hs.ordered (Nat.le_succ _) (Nat.add_le_add_right hab 1) harr
    have hcycle := le_timeAt hs.ordered hbound hc
    dsimp only at hcycle
    omega
  · -- there was a cycle before
    have hcycle := tick_of_released hrun' ht' (lt_of_lt_of_le hz0 hle')
    have hfirst := length_beforeFirstTick_le (show z.closed + 1 ≤ b.closed + 1 by omega) hcycle
    have hmono := got_mono (sched.map Prod.snd) id (Nat.add_le_add_right hza 1)
    unfold StreamDelay.Early at hearly
    omega

def shorts (past : List Term) : List Term := past.filter fun a => a.cause.member.isSome

def owner (a : Term) : Nat := a.cause.member.getD 0

theorem cause_of_mem_shorts {past : List Term} {a : Term} (h : a ∈ shorts past) :
    a ∈ past ∧ a.cause = .short (owner a) := by
  obtain ⟨hmem, hsome⟩ := List.mem_filter.mp h
  refine ⟨hmem, ?_⟩
  unfold owner
  cases hc : a.cause with
  | short j => rfl
  | split i j =>
    rw [hc] at hsome
    cases hsome

theorem length_eq_shorts (past : List Term) : past.length = (shorts past).length + splits past := by
  unfold shorts splits
  rw [← List.countP_eq_length_filter, List.length_eq_countP_add_countP fun a => a.cause.member.isSome]
  congr 1
  exact List.countP_congr (fun a _ => by cases a.cause.member <;> simp)

variable {past : List Term} {cur : Option Opening} {m : State}

theorem shorts_spaced (hdelay : d.delayS ≤ cycles * d.sleepS) (hs : d.LifeSchedule sched)
    (hb : Books (OpenedIn (sched.map Prod.snd))
      (ClosedIn (.new target dist cycles) (sched.map Prod.snd) l) m past cur) (i : Nat) :
    Stretches.Spaced (fun a => timeAt sched a.opened) (fun a => timeAt sched a.closed) d.delayS
      ((shorts past).filter fun a => owner a == i) := by
  intro k a b hka hkb hk1 hk3
  have hsub : ((shorts past).filter fun a => owner a == i).Sublist past :=
    List.filter_sublist.trans List.filter_sublist
  have hpair := hb.ordered.sublist hsub
  have hcause : ∀ a ∈ (shorts past).filter fun a => owner a == i, a.cause = .short i := by
    intro a ha
    obtain ⟨hmem, hown⟩ := List.mem_filter.mp ha
    rw [← beq_iff_eq.mp hown]
    exact (cause_of_mem_shorts hmem).2
  generalize (shorts past).filter (fun a => owner a == i) = row at *
  have hopening : ∀ a ∈ row, a.toOpening ∈ openings past cur :=
    fun a ha => List.mem_append_left _ (List.mem_map_of_mem (hsub.subset ha))
  obtain ⟨hlta, rfl⟩ := List.getElem?_eq_some_iff.mp hka
  obtain ⟨hltb, rfl⟩ := List.getElem?_eq_some_iff.mp hkb
  have hmem : ∀ {n : Nat} (hn : n < row.length), row[n] ∈ row := fun hn => List.getElem_mem hn
  have hrel := List.pairwise_iff_getElem.mp hpair
  have hforth : ∀ {n : Nat} (hn : n < row.length), row[n].opened ≤ row[n].closed :=
    fun hn => hb.forth _ (hsub.subset (hmem hn))
  have hza := hrel (k - 1) k (by omega) (by omega) (by omega)
  have hab := hrel k (k + 1) (by omega) (by omega) (by omega)
  have hbc := hrel (k + 1) (k + 2) (by omega) (by omega) (by omega)
  have hce := hrel (k + 2) (k + 3) (by omega) (by omega) (by omega)
  have hc := hb.opened _ (hopening _ (hmem (show k + 2 < row.length by omega)))
  have he := hb.opened _ (hopening _ (hmem (show k + 3 < row.length by omega)))
  -- the data goes on between the two terms that follow
  have hlc := hc.length i (hcause _ (hmem _))
  have hle := he.length i (hcause _ (hmem _))
  refine term_spaced hdelay hs rfl (hb.closed _ (hsub.subset (hmem (show k - 1 < row.length by omega))))
    (hcause _ (hmem _)) (hb.reached _ (hopening _ (hmem _))).1 (hb.opened _ (hopening _ (hmem _)))
    (hcause _ (hmem _)) (hb.closed _ (hsub.subset (hmem _))) (hcause _ (hmem _)) hza.2
    ?_ hab.1 (k := row[k + 3].opened + 1) ?_ ?_
  · exact (hforth _).trans (hab.2.trans (hforth _))
  · have := hforth hltb
    have := hforth (show k + 2 < row.length by omega)
    omega
  · rw [← hle]
    have hmono := got_mono (sched.map Prod.snd) i (Nat.add_le_add_right hbc.2 1)
    omega

/-- the books of a life that lasts from `start` to `stop` -/
theorem few_terms (hdelay : d.delayS ≤ cycles * d.sleepS) (hs : d.LifeSchedule sched)
    (hb : Books (OpenedIn (sched.map Prod.snd))
      (ClosedIn (.new target dist cycles) (sched.map Prod.snd) l) m past cur)
    {start stop : Nat} (htimes : ∀ e ∈ sched, start ≤ e.1 ∧ e.1 ≤ stop) :
    past.length * d.delayS ≤
      (m.core.replays.length + 1) * (stop - start) + 5 * m.core.replays.length * d.delayS := by
  have hsub : (shorts past).Sublist past := List.filter_sublist
  have hclosed : ∀ a ∈ past, a.closed < sched.length := by
    intro a ha
    have := (hb.closed a ha).lt
    rwa [List.length_map] at this
  have hat : ∀ {k : Nat}, k < sched.length → start ≤ timeAt sched k ∧ timeAt sched k ≤ stop := by
    intro k hk
    rw [timeAt_eq hk]
    exact htimes _ (List.getElem_mem hk)
  have hstretch : ∀ a ∈ shorts past, start ≤ timeAt sched a.opened ∧
      timeAt sched a.opened ≤ timeAt sched a.closed ∧ timeAt sched a.closed ≤ stop := by
    intro a ha
    have hlt := hclosed a (hsub.subset ha)
    have hforth := hb.forth a (hsub.subset ha)
    exact ⟨(hat (lt_of_le_of_lt hforth hlt)).1, timeAt_mono hs.ordered hforth hlt, (hat hlt).2⟩
  have hown : ∀ a ∈ shorts past, owner a < m.core.replays.length := by
    intro a ha
    obtain ⟨hmem, hcause⟩ := cause_of_mem_shorts ha
    exact hb.added _ (List.mem_append_left _ (List.mem_map_of_mem hmem)) _ hcause
  have hdisjoint : (shorts past).Pairwise fun a b => timeAt sched a.closed ≤ timeAt sched b.opened := by
    refine (hb.ordered.sublist hsub).imp_of_mem (fun {a b} _ hb' hab => ?_)
    exact timeAt_mono hs.ordered hab.2
      (lt_of_le_of_lt (hb.forth b (hsub.subset hb')) (hclosed b (hsub.subset hb')))
  have htotal := Stretches.total_le hdisjoint hstretch
  have hshorts := Stretches.length_le hown (shorts_spaced hdelay hs hb) hstretch
  have hsplits := Nat.mul_le_mul_right d.delayS hb.splits_le
  rw [length_eq_shorts, Nat.add_mul]
  calc (shorts past).length * d.delayS + splits past * d.delayS
      ≤ stop - start + m.core.replays.length * (stop - start + 4 * d.delayS) +
          m.core.replays.length * d.delayS := by omega
    _ = _ := by ring

/-- **the loop between quorum and stalemate runs seldom**: while the delay passes once, all its
iterations are at most two for every writer and two more, amortized -/
theorem few_passes (hN : 0 < target) (htar : target ≤ 2) (hdelay : d.delayS ≤ cycles * d.sleepS)
    {ws : List Wakeup} (h : Lts.Run PassStep (new target dist cycles) ws l)
    (hs : d.LifeSchedule (timeline ws)) {start stop : Nat} (htimes : ∀ w ∈ ws, start ≤ w.time ∧ w.time ≤ stop) :
    (ws.map Wakeup.passes).sum * d.delayS ≤
      2 * ((l.writers.length + 1) * (stop - start)) + (10 * l.writers.length + 1) * d.delayS := by
  obtain ⟨m, past, cur, ht, -, hb, htally⟩ := books_of_run hN htar h
  obtain ⟨m', hm'⟩ := sound_of_run (run_of_passes h)
  have hevents : (timeline ws).map Prod.snd = ws.map Wakeup.event := List.map_map
  rw [← hevents] at hb
  have hin : ∀ e ∈ timeline ws, start ≤ e.1 ∧ e.1 ≤ stop := by
    intro e he
    obtain ⟨w, hw, rfl⟩ := List.mem_map.mp he
    exact htimes w hw
  have hterms := few_terms hdelay hs hb hin
  have hlen : m.core.replays.length = l.writers.length :=
    ht.rel.length.symm.trans hm'.length_conns
  rw [hlen] at hterms
  have hcount : tally past cur ≤ 2 * past.length + 1 := by
    unfold tally openings
    rw [List.length_append, List.length_map]
    cases cur with
    | none => exact (by simp; omega)
    | some o => exact (by simp; omega)
  rw [← htally]
  calc tally past cur * d.delayS ≤ (2 * past.length + 1) * d.delayS := Nat.mul_le_mul_right _ hcount
    _ = 2 * (past.length * d.delayS) + d.delayS := by ring
    _ ≤ 2 * ((l.writers.length + 1) * (stop - start) + 5 * l.writers.length * d.delayS) + d.delayS := by
      omega
    _ = _ := by ring

/-- a wake-up that does not fail and iterates as often as it says, for one iteration order -/
def countedWake (self : ReplayLife) (w : Wakeup) : Option ReplayLife :=
  (self.wake w.event).bind fun l => if w.passes = self.passes (fun _ _ => default) l then some l else none

theorem step_of_countedWake {l l' : ReplayLife} {w : Wakeup} (h : l.countedWake w = some l') :
    PassStep l w l' := by
  obtain ⟨u, hu, h⟩ := Option.bind_eq_some_iff.mp h
  split at h
  · rename_i hp
    cases h
    obtain ⟨x, hx, hok⟩ := Option.bind_eq_some_iff.mp hu
    exact ⟨_, hx.trans (congrArg some (eq_ok_of_toOption hok)), hp⟩
  · cases h

/-- one of two writers stalls, and the quorum ends with its data -/
def stallingRun : List Wakeup :=
  [⟨0, .lifetime, 0⟩, ⟨0, .connection .writer, 0⟩, ⟨0, .connection .writer, 0⟩, ⟨0, .header 0 ⟨[7]⟩, 0⟩,
    ⟨0, .header 1 ⟨[7]⟩, 0⟩, ⟨0, .cycle 0, 0⟩, ⟨0, .cycle 1, 0⟩, ⟨1, .data 0 [1, 2, 3], 0⟩,
    ⟨1, .data 1 [1, 2], 0⟩, ⟨1, .cycle 0, 0⟩, ⟨1, .cycle 1, 0⟩, ⟨2, .cycle 0, 0⟩, ⟨2, .cycle 1, 0⟩,
    ⟨3, .data 1 [3, 4, 5], 0⟩, ⟨3, .cycle 0, 1⟩, ⟨3, .cycle 1, 0⟩, ⟨4, .data 0 [4], 0⟩, ⟨4, .cycle 0, 0⟩,
    ⟨4, .cycle 1, 0⟩, ⟨5, .cycle 0, 0⟩, ⟨5, .cycle 1, 2⟩, ⟨6, .cycle 0, 1⟩, ⟨6, .cycle 1, 0⟩]

theorem few_passes_stalling : ∃ l, Lts.Run PassStep (new 2 3 2) stallingRun l ∧
    (stallingRun.map Wakeup.passes).sum = 4 ∧ l.writers.length = 2 ∧
    (stallingRun.map Wakeup.passes).sum * 2 ≤
      2 * ((l.writers.length + 1) * (6 - 0)) + (10 * l.writers.length + 1) * 2 := by
  have hsome : (stallingRun.foldlM countedWake (new 2 3 2)).map (fun l => l.writers.length) = some 2 := by
    decide +kernel
  obtain ⟨l, hl, hlen⟩ := Option.map_eq_some_iff.mp hsome
  have hrun : Lts.Run PassStep (new 2 3 2) stallingRun l :=
    Lts.Run.of_foldlM (fun _ _ _ => step_of_countedWake) hl
  have hs : (StreamDelay.mk 2 1).LifeSchedule (timeline stallingRun) := by
    refine ⟨by decide, fun id => ?_⟩
    by_cases h0 : 0 = id
    · subst h0
      decide
    · by_cases h1 : 1 = id
      · subst h1
        decide
      · simp [timeline, stallingRun, timedEvents, LifeEvent.delayEvents, h0, h1, tickTimes]
  exact ⟨l, hrun, by decide, hlen, few_passes (by decide) (by decide) (by decide) hrun hs (by decide)⟩

end

end ReplayLife

end ReplayServer
