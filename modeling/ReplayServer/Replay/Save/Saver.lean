import ReplayServer.Database.Queries
import ReplayServer.Replay.Save.Directory
import ReplayServer.Replay.Streams

/-!
# replay: saving a finished replay

`saver.rs` and `writer.rs`.  A `World` is what a save changes, the database and the vault; a `Save`
is one call of `save_replay` with everything that can go wrong on its way.  Json, zstd and the
parser for ticks are other people's code.

* `appends_writeReplayFile`   what is in a file that was written to its end;
* `saveReplayToDisk_spec`     what a save does to the vault, and when it reports success;
* `saveReplay_self`           what it does to the file and to the flag of its replay;
* `saveReplay_ne`             other replays are not touched.
-/

namespace ReplayServer
open Fallible
open AsyncIo (IoError)

structure Codecs where
  /-- `serde_json::to_string` -/
  toJson : ReplayJsonHeader → Except IoError (List UInt8)
  /-- what a `ZstdEncoder` writes at a compression level -/
  zstd : Nat → List UInt8 → List UInt8
  /-- `faf_replay_parser::parser::parse_body_ticks` -/
  parseBodyTicks : List UInt8 → Option Nat

/-! ## writing one file -/

/-- a file that is being written, and how many bytes the disk still takes -/
structure Sink where
  bytes : List UInt8
  room : Option Nat

/-- what is left after the writes, and whether one of them failed -/
abbrev Writing := Sink → Sink × Except IoError Unit

namespace Writing

/-- `a.await?; b` -/
def andThen (a b : Writing) : Writing := fun sink =>
  match a sink with
  | (sink, .ok ()) => b sink
  | (sink, .error e) => (sink, .error e)

/-- `write_all`: what fits is written also when not all of it fits -/
def writeAll (bytes : List UInt8) : Writing := fun sink =>
  match sink.room with
  | none => ({ sink with bytes := sink.bytes ++ bytes }, .ok ())
  | some n =>
    (⟨sink.bytes ++ bytes.take n, some (n - bytes.length)⟩,
      if bytes.length ≤ n then .ok () else .error (.ofKind .other))

def shutdown (fails : Bool) : Writing := fun sink =>
  (sink, if fails then .error (.ofKind .other) else .ok ())

end Writing

open Writing in
def writeReplayFile (codecs : Codecs) (shutdownFails : Bool) (jsonHeader : ReplayJsonHeader)
    (replay : MergedReplay) (compressionLevel : Nat) : Writing := fun sink =>
  match codecs.toJson jsonHeader with
  | .error e => (sink, .error e)
  | .ok json =>
    andThen (writeAll json) (andThen (writeAll [10])
      (andThen (writeAll (codecs.zstd compressionLevel (replay.readFrom 0)))
        (shutdown shutdownFails))) sink

/-! ## saving -/

structure World where
  db : Database
  vault : Vault

structure Save where
  id : Nat
  replay : MergedReplay
  answers : Answers
  faults : SavedReplayDirectory.Faults
  /-- the room that the disk has for the file -/
  room : Option Nat
  shutdownFails : Bool

structure InnerReplaySaver where
  codecs : Codecs
  saveDir : SavedReplayDirectory
  compressionLevel : Nat

namespace InnerReplaySaver

def countTicks (self : InnerReplaySaver) (replay : MergedReplay) : Option Nat :=
  if replay.headerLen ≠ 0 then self.codecs.parseBodyTicks (replay.readFrom replay.headerLen)
  else none

def saveReplayToDisk (self : InnerReplaySaver) (w : World) (s : Save) : Res (World × Bool) := do
  if s.replay.header = none then
    return (w, false)
  match ReplayJsonHeader.fromIdAndDb w.db s.answers s.id with
  | .error _ => return (w, false)
  | .ok jsonHeader =>
    match ← self.saveDir.touchAndReturnFile s.faults w.vault s.id with
    | .error _ => return (w, false)
    | .ok (vault, targetPath) =>
      match writeReplayFile self.codecs s.shutdownFails jsonHeader s.replay self.compressionLevel
        ⟨[], s.room⟩ with
      | (sink, .error _) =>
        return ({ w with vault := vault.set targetPath ⟨sink.bytes, false⟩ }, false)
      | (sink, .ok ()) =>
        return ({ w with vault := vault.set targetPath ⟨sink.bytes, true⟩ }, true)

def saveReplay (self : InnerReplaySaver) (w : World) (s : Save) : Res World := do
  let (w, replaySaved) ← self.saveReplayToDisk w s
  let ticks := self.countTicks s.replay
  return { w with db := w.db.updateGameStats s.id ticks replaySaved }

end InnerReplaySaver

/-! ## what a written file holds -/

namespace Writing

/-- if it does not fail, `a` appends `l` -/
def Appends (a : Writing) (l : List UInt8) : Prop :=
  ∀ sink sink', a sink = (sink', .ok ()) → sink'.bytes = sink.bytes ++ l

theorem appends_writeAll (l : List UInt8) : Appends (writeAll l) l := by
  intro sink sink' h
  obtain ⟨bytes, room⟩ := sink
  cases room with
  | none =>
    cases h
    rfl
  | some n =>
    obtain ⟨h1, h2⟩ := Prod.mk.inj h
    by_cases hn : l.length ≤ n
    · rw [← h1, List.take_of_length_le hn]
    · rw [if_neg hn] at h2
      cases h2

theorem appends_shutdown (fails : Bool) : Appends (shutdown fails) [] := by
  intro sink sink' h
  obtain ⟨h1, -⟩ := Prod.mk.inj h
  rw [← h1, List.append_nil]

theorem Appends.andThen {a b : Writing} {l l' : List UInt8} (ha : Appends a l) (hb : Appends b l') :
    Appends (a.andThen b) (l ++ l') := by
  intro sink sink' h
  unfold Writing.andThen at h
  split at h
  · rename_i mid hmid
    rw [hb mid sink' h, ha sink mid hmid, List.append_assoc]
  · cases h

end Writing

/-- a file that was written to its end holds a line of json and the compressed replay -/
theorem appends_writeReplayFile {codecs : Codecs} {jsonHeader : ReplayJsonHeader}
    {json : List UInt8} (hj : codecs.toJson jsonHeader = .ok json) (shutdownFails : Bool)
    (replay : MergedReplay) (level : Nat) :
    (writeReplayFile codecs shutdownFails jsonHeader replay level).Appends
      (json ++ [10] ++ codecs.zstd level (replay.readFrom 0)) := by
  intro sink sink' h
  unfold writeReplayFile at h
  rw [hj] at h
  have happ := (Writing.appends_writeAll json).andThen ((Writing.appends_writeAll [10]).andThen
    ((Writing.appends_writeAll (codecs.zstd level (replay.readFrom 0))).andThen
      (Writing.appends_shutdown shutdownFails)))
  rw [happ sink sink' h]
  simp

/-! ## what a save changes -/

namespace InnerReplaySaver

inductive SavedToDisk (self : InnerReplaySaver) (w : World) (s : Save) (p : Path) :
    World × Bool → Prop where
  | refused : SavedToDisk self w s p (w, false)
  | partly (bytes : List UInt8) (hnew : w.vault.files p = none) :
      SavedToDisk self w s p ({ w with vault := w.vault.set p ⟨bytes, false⟩ }, false)
  | saved {jsonHeader : ReplayJsonHeader} {json : List UInt8} (hheader : s.replay.header ≠ none)
      (hdb : ReplayJsonHeader.fromIdAndDb w.db s.answers s.id = .ok jsonHeader)
      (hjson : self.codecs.toJson jsonHeader = .ok json) (hnew : w.vault.files p = none) :
      SavedToDisk self w s p ({ w with vault := w.vault.set p ⟨json ++ [10] ++
        self.codecs.zstd self.compressionLevel (s.replay.readFrom 0), true⟩ }, true)

/-- a file is only created where there is none -/
theorem touchAndReturnFile_spec {dir : SavedReplayDirectory} {id : Nat} {p : Path}
    (hp : dir.replayFile id = .ok p) (faults : SavedReplayDirectory.Faults) (v : Vault) :
    (∃ e, dir.touchAndReturnFile faults v id = .ok (.error e)) ∨
      (v.files p = none ∧ dir.touchAndReturnFile faults v id = .ok (.ok (v.set p ⟨[], false⟩, p))) := by
  unfold SavedReplayDirectory.touchAndReturnFile
  rw [hp, ok_bind]
  by_cases h1 : faults.createDirFails = true
  · simp [h1]
  by_cases h2 : faults.openFails = true
  · simp [h1, h2]
  simp only [h1, h2]
  cases hc : v.createNew p with
  | error e => exact Or.inl ⟨e, rfl⟩
  | ok v' =>
    obtain ⟨hnone, rfl⟩ := Vault.createNew_ok hc
    exact Or.inr ⟨hnone, rfl⟩

theorem saveReplayToDisk_spec (self : InnerReplaySaver) (w : World) (s : Save) {p : Path}
    (hp : self.saveDir.replayFile s.id = .ok p) :
    Returns (self.saveReplayToDisk w s) (self.SavedToDisk w s p) := by
  unfold saveReplayToDisk
  by_cases hh : s.replay.header = none
  · rw [if_pos hh]
    exact returns_ok .refused
  rw [if_neg hh]
  cases hj : ReplayJsonHeader.fromIdAndDb w.db s.answers s.id with
  | error e => exact returns_ok .refused
  | ok jsonHeader =>
    cases touchAndReturnFile_spec hp s.faults w.vault with
    | inl h =>
      obtain ⟨e, he⟩ := h
      dsimp only
      rw [he]
      exact returns_ok .refused
    | inr h =>
      obtain ⟨hnew, he⟩ := h
      dsimp only
      rw [he, ok_bind]
      dsimp only
      cases hw : writeReplayFile self.codecs s.shutdownFails jsonHeader s.replay
        self.compressionLevel ⟨[], s.room⟩ with
      | mk sink res =>
        cases res with
        | error e =>
          dsimp only
          rw [Vault.set_set]
          exact returns_ok (.partly sink.bytes hnew)
        | ok u =>
          have hjson : ∃ json, self.codecs.toJson jsonHeader = .ok json := by
            unfold writeReplayFile at hw
            split at hw
            · cases hw
            · rename_i json hjson
              exact ⟨json, hjson⟩
          obtain ⟨json, hjson⟩ := hjson
          dsimp only
          rw [Vault.set_set, appends_writeReplayFile hjson _ _ _ _ _ hw]
          exact returns_ok (.saved hh hj hjson hnew)

/-- a completely written file of the replay `id` is in the vault -/
def complete (self : InnerReplaySaver) (w : World) (id : Nat) : Bool :=
  match self.saveDir.replayFile id with
  | .ok p => (w.vault.files p).any (fun f => f.complete)
  | .error _ => false

variable {self : InnerReplaySaver} {w w' : World} {s : Save}

theorem saveReplay_ne (h : self.saveReplay w s = .ok w') {id : Nat} (hid : id ≠ s.id) :
    w'.db.replayAvailable id = w.db.replayAvailable id ∧
      self.complete w' id = self.complete w id := by
  obtain ⟨p, hp⟩ := self.saveDir.replayFile_ok s.id
  obtain ⟨q, hq⟩ := self.saveDir.replayFile_ok id
  have hne : q ≠ p := by
    rintro rfl
    exact hid (SavedReplayDirectory.replayFile_injective hq hp)
  obtain ⟨r, hr, hspec⟩ := self.saveReplayToDisk_spec w s hp
  unfold saveReplay at h
  rw [hr, ok_bind] at h
  cases h
  unfold complete
  rw [hq]
  cases hspec with
  | refused => exact ⟨Database.updateGameStats_ne hid _ _, rfl⟩
  | partly bytes hnew =>
    refine ⟨Database.updateGameStats_ne hid _ _, ?_⟩
    simp only [Vault.set_ne hne]
  | saved hheader hdb hjson hnew =>
    refine ⟨Database.updateGameStats_ne hid _ _, ?_⟩
    simp only [Vault.set_ne hne]

/-- the flag says whether this save wrote the file, which needs that there was none -/
theorem saveReplay_self (h : self.saveReplay w s = .ok w') :
    (self.complete w' s.id = (self.complete w s.id || w'.db.replayAvailable s.id)) ∧
      (w'.db.replayAvailable s.id = true → self.complete w s.id = false) := by
  obtain ⟨p, hp⟩ := self.saveDir.replayFile_ok s.id
  obtain ⟨r, hr, hspec⟩ := self.saveReplayToDisk_spec w s hp
  unfold saveReplay at h
  rw [hr, ok_bind] at h
  cases h
  unfold complete
  rw [hp]
  cases hspec with
  | refused => simp [Database.updateGameStats_self]
  | partly bytes hnew => simp [Database.updateGameStats_self, hnew]
  | saved hheader hdb hjson hnew =>
    simp [Database.updateGameStats_self, hnew, ReplayJsonHeader.isSome_of_fromIdAndDb hdb]

theorem saveReplay_ok (self : InnerReplaySaver) (w : World) (s : Save) :
    ∃ w', self.saveReplay w s = .ok w' := by
  obtain ⟨p, hp⟩ := self.saveDir.replayFile_ok s.id
  obtain ⟨r, hr, -⟩ := self.saveReplayToDisk_spec w s hp
  unfold saveReplay
  rw [hr]
  exact ⟨_, rfl⟩

end InnerReplaySaver

end ReplayServer
