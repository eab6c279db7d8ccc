import ReplayServer.Lib.Run
import ReplayServer.Replay.Save.Saver

/-!
# replay: database and vault

The flag `replay_available` should say whether the vault has the replay.  A save never overwrites a
file and always overwrites the flag, so a second save of a replay that is already there takes back
the flag and leaves the file.

* `available_iff`   flag and vault agree along a run of saves if and only if no replay is saved
                    that the vault already has.
-/

namespace ReplayServer
open Fallible

namespace InnerReplaySaver
variable (self : InnerReplaySaver)

def Step (w : World) (s : Save) (w' : World) : Prop := self.saveReplay w s = .ok w'

/-- the stored flag says whether the vault has the replay -/
def Agrees (w : World) (id : Nat) : Prop := w.db.replayAvailable id = self.complete w id

variable {self}

/-- a save of one replay leaves the others in agreement, and its own exactly if it is a first one -/
theorem step_agrees {w w' : World} {s : Save} (h : self.Step w s w') :
    (∀ id ≠ s.id, self.Agrees w' id ↔ self.Agrees w id) ∧
      (self.Agrees w' s.id ↔ self.complete w s.id = false) := by
  constructor
  · intro id hid
    obtain ⟨h1, h2⟩ := saveReplay_ne h hid
    unfold Agrees
    rw [h1, h2]
  · obtain ⟨h1, h2⟩ := saveReplay_self h
    unfold Agrees
    rw [h1]
    cases hc : self.complete w s.id with
    | false => simp
    | true =>
      have hflag : w'.db.replayAvailable s.id = false := by
        by_contra hf
        rw [h2 (by simpa using hf)] at hc
        cases hc
      simp [hflag]

/-- **flag and vault agree exactly as long as no replay is saved that is already there** -/
theorem available_iff (self : InnerReplaySaver) (w₀ : World) (saves : List Save) :
    (∃ w, Lts.Run self.Step w₀ saves w) ∧
    ((∀ done w, done <+: saves → Lts.Run self.Step w₀ done w → ∀ s ∈ done, self.Agrees w s.id) ↔
      ∀ done s w, done ++ [s] <+: saves → Lts.Run self.Step w₀ done w →
        self.complete w s.id = false) := by
  have htotal : ∀ w s, ∃ w', self.Step w s w' := fun w s => self.saveReplay_ok w s
  refine ⟨Lts.Run.exists_run htotal saves, ?_⟩
  refine Lts.Run.good_iff htotal ?_ ?_ saves
  · intro s hs
    cases hs
  · intro w done s w' hgood hs
    obtain ⟨hother, hself⟩ := step_agrees hs
    constructor
    · intro h
      exact hself.mp (h s (by simp))
    · intro hc t ht
      by_cases hid : t.id = s.id
      · rw [hid]
        exact hself.mpr hc
      · cases List.mem_append.mp ht with
        | inl ht => exact (hother t.id hid).mpr (hgood t ht)
        | inr ht =>
          rw [List.mem_singleton.mp ht] at hid
          exact absurd rfl hid

/-! ## a second save -/

/-- codecs that keep everything as it is -/
def plainCodecs : Codecs := ⟨fun _ => .ok [123, 125], fun _ data => data, fun _ => none⟩

def plainSaver : InnerReplaySaver := ⟨plainCodecs, ⟨["vault".toList]⟩, 10⟩

/-- one finished game and an empty vault -/
def oneGame : World where
  db := ⟨fun id => if id = 1 then
    some ⟨⟨0, some 60, "game", "host", "title", none, none⟩, [], 1, none, false⟩ else none⟩
  vault := ⟨fun _ => none⟩

/-- a save of game 1 in which nothing fails -/
def saveOne : Save where
  id := 1
  replay := { MergedReplay.new with header := some ⟨[1, 2, 3]⟩, finished := true }
  answers := ⟨false, false, false, none, 0⟩
  faults := ⟨false, false⟩
  room := none
  shutdownFails := false

/-- game 1 is saved twice, from an empty vault on: the file is complete and the flag is taken
back -/
theorem available_fails : ¬ ∀ (self : InnerReplaySaver) (w₀ w : World) (saves : List Save),
    (∀ p, w₀.vault.files p = none) → Lts.Run self.Step w₀ saves w →
      ∀ s ∈ saves, self.Agrees w s.id := by
  intro h
  have hsaves : ((plainSaver.saveReplay oneGame saveOne).toOption.bind fun w₁ =>
      (plainSaver.saveReplay w₁ saveOne).toOption.map fun w₂ =>
        (w₂.db.replayAvailable 1, plainSaver.complete w₂ 1)) = some (false, true) := by
    decide +kernel
  obtain ⟨w₁, h₁, hrest⟩ := Option.bind_eq_some_iff.mp hsaves
  obtain ⟨w₂, h₂, hres⟩ := Option.map_eq_some_iff.mp hrest
  obtain ⟨hflag, hcomplete⟩ := Prod.mk.inj hres
  have hrun : Lts.Run plainSaver.Step oneGame [saveOne, saveOne] w₂ :=
    .snoc (.single (eq_ok_of_toOption h₁)) (eq_ok_of_toOption h₂)
  have hagree := h plainSaver oneGame w₂ _ (fun _ => rfl) hrun saveOne (by simp)
  unfold Agrees at hagree
  rw [show saveOne.id = 1 from rfl, hflag, hcomplete] at hagree
  cases hagree

end InnerReplaySaver

end ReplayServer
