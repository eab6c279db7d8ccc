import ReplayServer.Lib.AsyncIo
import ReplayServer.Lib.Digits
import ReplayServer.Util.BufTraits
import ReplayServer.Util.ParseInt

/-!
# replay: the vault

`SavedReplayDirectory` finds the place of a replay in the file system and creates its file there.
A path is the list of its components, each of them a list of characters.

* `replayPath_eq`        no slice and no parse of `replay_path` fails, and where it leads;
* `replayPath_eq_iff`    which replays share a directory;
* `replayFile_injective` every replay has a file of its own.
-/

namespace ReplayServer
open Fallible
open AsyncIo (IoError)

abbrev Path := List (List Char)

structure File where
  bytes : List UInt8
  /-- the replay was written to its end -/
  complete : Bool

/-- the files of the file system -/
structure Vault where
  files : Path → Option File

namespace Vault

def set (v : Vault) (p : Path) (f : File) : Vault where
  files q := if q = p then some f else v.files q

/-- `OpenOptions::create_new` -/
def createNew (v : Vault) (p : Path) : Except IoError Vault :=
  if (v.files p).isSome then .error (.ofKind .alreadyExists) else .ok (v.set p ⟨[], false⟩)

@[simp] theorem set_self (v : Vault) (p : Path) (f : File) : (v.set p f).files p = some f := by
  simp [set]

theorem set_ne {v : Vault} {p q : Path} {f : File} (h : q ≠ p) : (v.set p f).files q = v.files q := by
  simp [set, h]

theorem set_set (v : Vault) (p : Path) (f g : File) : (v.set p f).set p g = v.set p g := by
  unfold set
  congr 1
  funext q
  by_cases h : q = p
  · simp [h]
  · simp [h]

theorem createNew_ok {v v' : Vault} {p : Path} (h : v.createNew p = .ok v') :
    v.files p = none ∧ v' = v.set p ⟨[], false⟩ := by
  unfold createNew at h
  split at h
  · cases h
  · rename_i hn
    cases h
    exact ⟨Option.not_isSome_iff_eq_none.mp hn, rfl⟩

end Vault

structure SavedReplayDirectory where
  root : Path

namespace SavedReplayDirectory

/-- `&s[start..end]` -/
def slice (s : List Char) (start stop : Nat) : Res (List Char) :=
  if start ≤ stop ∧ stop ≤ s.length then .ok ((s.take stop).drop start) else .error .outOfBounds

/-- `to_string` of an `i32` -/
def i32ToString : Int → List Char
  | .ofNat n => Nat.toDigits 10 n
  | .negSucc n => '-' :: Nat.toDigits 10 (n + 1)

/-- `format!("{:0>10}", id)` -/
def paddedId (replayId : Nat) : List Char :=
  List.replicate (10 - (Nat.toDigits 10 replayId).length) '0' ++ Nat.toDigits 10 replayId

def replayPath (self : SavedReplayDirectory) (replayId : Nat) : Res Path := do
  -- Legacy folder structure: digits 3-10 from the right,
  let paddedId := paddedId replayId
  let digits ← slice paddedId (← checkedSub paddedId.length 10) (← checkedSub paddedId.length 2)
  -- in 4 groups by 2 starting by most significant,
  let groups := [← slice digits 0 2, ← slice digits 2 4, ← slice digits 4 6, ← slice digits 6 8]
  -- NOT left-padded, so 0x -> x
  let dirs ← groups.mapM (fun x => do return i32ToString (← unwrap (parseI32 x)))
  return self.root ++ dirs

def basename (replayId : Nat) : List Char := Nat.toDigits 10 replayId ++ ".fafreplay".toList

/-- the directory of a replay with its file -/
def replayFile (self : SavedReplayDirectory) (replayId : Nat) : Res Path := do
  return (← self.replayPath replayId) ++ [basename replayId]

/-- what the file system does during one save -/
structure Faults where
  createDirFails : Bool
  openFails : Bool

/-- `create_dir_all`, then the file must be a new one -/
def touchAndReturnFile (self : SavedReplayDirectory) (faults : Faults) (v : Vault) (replayId : Nat) :
    Res (Except IoError (Vault × Path)) := do
  let target ← self.replayFile replayId
  if faults.createDirFails then
    return .error (.ofKind .other)
  if faults.openFails then
    return .error (.ofKind .other)
  return (v.createNew target).map (fun v => (v, target))

/-! ## paths -/

theorem slice_ok {s : List Char} {start stop : Nat} (h1 : start ≤ stop) (h2 : stop ≤ s.length) :
    slice s start stop = .ok ((s.take stop).drop start) :=
  if_pos ⟨h1, h2⟩

theorem isDigit_paddedId {replayId : Nat} {c : Char} (h : c ∈ paddedId replayId) : c.isDigit := by
  unfold paddedId at h
  cases List.mem_append.mp h with
  | inl h =>
    rw [List.eq_of_mem_replicate h]
    rfl
  | inr h => exact Nat.isDigit_of_mem_toDigits (by decide) (by decide) h

theorem ten_le_length_paddedId (replayId : Nat) : 10 ≤ (paddedId replayId).length := by
  unfold paddedId
  rw [List.length_append, List.length_replicate]
  omega

/-- two digits are the text of a number -/
theorem parseI32_two {s : List Char} (hlen : s.length = 2) (hd : ∀ c ∈ s, c.isDigit) :
    parseI32 s = some (Int.ofNat (Nat.ofDigitChars 10 s 0)) := by
  have hle : Nat.ofDigitChars 10 s 0 ≤ 2147483647 := by
    have hlt := Digits.ofDigitChars_lt hd
    rw [hlen] at hlt
    omega
  obtain ⟨a, b, rfl⟩ : ∃ a b, s = [a, b] := List.length_eq_two.mp hlen
  have ha : a.isDigit := hd a (by simp)
  have hplus : a ≠ '+' := by
    rintro rfl
    exact absurd ha (by decide)
  have hminus : a ≠ '-' := by
    rintro rfl
    exact absurd ha (by decide)
  have hpush : pushDigits 2147483647 0 [a, b] = some (Nat.ofDigitChars 10 [a, b] 0) :=
    (pushDigits_eq_some (Nat.zero_le _)).mpr ⟨hd, rfl, hle⟩
  unfold parseI32
  split
  · simp_all
  · simp_all
  · simp_all
  · simp_all
  · simp_all
  · rw [hpush]
    rfl

/-- a group of two digits is the name of a directory -/
theorem dir_ok {s : List Char} (hlen : s.length = 2) (hd : ∀ c ∈ s, c.isDigit) :
    (do return i32ToString (← unwrap (parseI32 s)) : Res (List Char)) =
      .ok (Nat.toDigits 10 (Nat.ofDigitChars 10 s 0)) := by
  rw [parseI32_two hlen hd]
  rfl

/-- padding does not change the number -/
theorem value_paddedId (replayId : Nat) : Nat.ofDigitChars 10 (paddedId replayId) 0 = replayId := by
  unfold paddedId
  rw [Digits.ofDigitChars_zeros, Nat.ofDigitChars_ten_toDigits]

section
variable {s : List Char} (hd : ∀ c ∈ s, c.isDigit)
include hd

/-- `n` digits with `k` digits behind them -/
theorem slice_digits (start n k : Nat) (hlen : start + n + k = s.length) :
    ∃ t, slice s start (start + n) = .ok t ∧ t.length = n ∧ (∀ c ∈ t, c.isDigit) ∧
      Nat.ofDigitChars 10 t 0 = Nat.ofDigitChars 10 s 0 / 10 ^ k % 10 ^ n := by
  refine ⟨_, slice_ok (by omega) (by omega), ?_, ?_, ?_⟩
  · rw [List.length_drop, List.length_take]
    omega
  · intro c hc
    exact hd c (List.mem_of_mem_take (List.mem_of_mem_drop hc))
  · have hwin := Digits.ofDigitChars_window hd (k := k) (n := n) (by omega) (by omega)
    rw [show s.length - k - n = start by omega, show s.length - k = start + n by omega] at hwin
    exact hwin

/-- a group of two digits with `k` digits behind it -/
theorem group_digits (start k : Nat) (hlen : start + 2 + k = s.length) :
    ∃ t, slice s start (start + 2) = .ok t ∧
      (do return i32ToString (← unwrap (parseI32 t)) : Res (List Char)) =
        .ok (Nat.toDigits 10 (Nat.ofDigitChars 10 s 0 / 10 ^ k % 100)) := by
  obtain ⟨t, ht, htl, htd, htv⟩ := slice_digits hd start 2 k hlen
  refine ⟨t, ht, ?_⟩
  rw [dir_ok htl htd, htv, show 10 ^ 2 = 100 from rfl]

end

/-- the text of an id is cut where arithmetic cuts the id -/
theorem replayPath_eq (self : SavedReplayDirectory) (replayId : Nat) :
    self.replayPath replayId = .ok (self.root ++
      [Nat.toDigits 10 (replayId / 10 ^ 8 % 100), Nat.toDigits 10 (replayId / 10 ^ 6 % 100),
        Nat.toDigits 10 (replayId / 10 ^ 4 % 100), Nat.toDigits 10 (replayId / 100 % 100)]) := by
  have hlen := ten_le_length_paddedId replayId
  obtain ⟨d, hd, hd8, hdigit, hval⟩ := slice_digits (s := paddedId replayId)
    (fun c hc => isDigit_paddedId hc) ((paddedId replayId).length - 10) 8 2 (by omega)
  rw [value_paddedId] at hval
  obtain ⟨g0, h0, h0'⟩ := group_digits hdigit 0 6 (by omega)
  obtain ⟨g2, h2, h2'⟩ := group_digits hdigit 2 4 (by omega)
  obtain ⟨g4, h4, h4'⟩ := group_digits hdigit 4 2 (by omega)
  obtain ⟨g6, h6, h6'⟩ := group_digits hdigit 6 0 (by omega)
  have e8 : replayId / 10 ^ 2 % 10 ^ 8 / 10 ^ 6 % 100 = replayId / 10 ^ 8 % 100 := by omega
  have e6 : replayId / 10 ^ 2 % 10 ^ 8 / 10 ^ 4 % 100 = replayId / 10 ^ 6 % 100 := by omega
  have e4 : replayId / 10 ^ 2 % 10 ^ 8 / 10 ^ 2 % 100 = replayId / 10 ^ 4 % 100 := by omega
  have e2 : replayId / 10 ^ 2 % 10 ^ 8 / 10 ^ 0 % 100 = replayId / 100 % 100 := by omega
  rw [hval, e8] at h0'
  rw [hval, e6] at h2'
  rw [hval, e4] at h4'
  rw [hval, e2] at h6'
  unfold replayPath
  dsimp only
  rw [checkedSub_of_le hlen, checkedSub_of_le (by omega), ok_bind, ok_bind,
    show (paddedId replayId).length - 2 = (paddedId replayId).length - 10 + 8 by omega, hd, ok_bind,
    h0, h2, h4, h6]
  simp only [ok_bind, List.mapM_cons, List.mapM_nil, h0', h2', h4', h6']
  rfl

theorem toDigits_injective {n m : Nat} (h : Nat.toDigits 10 n = Nat.toDigits 10 m) : n = m := by
  have hn := Nat.ofDigitChars_ten_toDigits (n := n)
  rw [h, Nat.ofDigitChars_ten_toDigits] at hn
  exact hn.symm

theorem replayPath_eq_iff (self : SavedReplayDirectory) (i j : Nat) :
    self.replayPath i = self.replayPath j ↔ i / 100 % 10 ^ 8 = j / 100 % 10 ^ 8 := by
  rw [self.replayPath_eq i, self.replayPath_eq j]
  constructor
  · intro h
    have hdirs := List.append_cancel_left (Except.ok.inj h)
    obtain ⟨h8, h6, h4, h2, -⟩ : _ ∧ _ ∧ _ ∧ _ ∧ _ := by
      simpa only [List.cons.injEq] using hdirs
    have e8 := toDigits_injective h8
    have e6 := toDigits_injective h6
    have e4 := toDigits_injective h4
    have e2 := toDigits_injective h2
    omega
  · intro h
    rw [show i / 10 ^ 8 % 100 = j / 10 ^ 8 % 100 by omega,
      show i / 10 ^ 6 % 100 = j / 10 ^ 6 % 100 by omega,
      show i / 10 ^ 4 % 100 = j / 10 ^ 4 % 100 by omega,
      show i / 100 % 100 = j / 100 % 100 by omega]

/-- **the directory of a replay**, cut from the text of its id, is arithmetic on the id; a hundred
replays in a row share it, and so do the ids that agree in the eight digits before these two -/
theorem replayPath_layout (self : SavedReplayDirectory) :
    (∀ replayId, self.replayPath replayId = .ok (self.root ++
      [Nat.toDigits 10 (replayId / 10 ^ 8 % 100), Nat.toDigits 10 (replayId / 10 ^ 6 % 100),
        Nat.toDigits 10 (replayId / 10 ^ 4 % 100), Nat.toDigits 10 (replayId / 100 % 100)])) ∧
    ∀ i j, self.replayPath i = self.replayPath j ↔ i / 100 % 10 ^ 8 = j / 100 % 10 ^ 8 :=
  ⟨self.replayPath_eq, self.replayPath_eq_iff⟩

example : (SavedReplayDirectory.mk []).replayPath 1234567 =
    .ok ["0".toList, "1".toList, "23".toList, "45".toList] := by
  decide +kernel

theorem replayPath_ok (self : SavedReplayDirectory) (replayId : Nat) :
    ∃ p, self.replayPath replayId = .ok p :=
  ⟨_, self.replayPath_eq replayId⟩

theorem replayFile_ok (self : SavedReplayDirectory) (replayId : Nat) :
    ∃ p, self.replayFile replayId = .ok p := by
  obtain ⟨p, hp⟩ := self.replayPath_ok replayId
  unfold replayFile
  rw [hp]
  exact ⟨_, rfl⟩

/-- the name of the file tells the replay -/
theorem replayFile_injective {self : SavedReplayDirectory} {i j : Nat} {p : Path}
    (hi : self.replayFile i = .ok p) (hj : self.replayFile j = .ok p) : i = j := by
  obtain ⟨di, hdi⟩ := self.replayPath_ok i
  obtain ⟨dj, hdj⟩ := self.replayPath_ok j
  unfold replayFile at hi hj
  rw [hdi] at hi
  rw [hdj] at hj
  cases hi
  have hlast := (List.append_inj' (Except.ok.inj hj) rfl).2
  unfold basename at hlast
  have hname := List.append_cancel_right (List.cons.inj hlast).1
  exact (toDigits_injective hname).symm

end SavedReplayDirectory

end ReplayServer
