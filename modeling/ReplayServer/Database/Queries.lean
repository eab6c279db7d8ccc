import Mathlib.Data.List.Basic

/-!
# database: the queries of the replay server

`database.rs` and `queries.rs`.  A `GameRow` is the row of `game_stats` for one game with what its
joins find; `Answers` says which of the queries fail while one replay is saved.  The server writes
to one table only, in `updateGameStats`.
-/

namespace ReplayServer

inductive SaveError where
  /-- `fetch_one` found nothing -/
  | rowNotFound
  /-- any other error of the database -/
  | database
  deriving DecidableEq

structure TeamPlayerRow where
  login : String
  team : Int

structure GameStatRow where
  startTime : Int
  endTime : Option Int
  gameType : String
  host : String
  gameName : String
  gameMod : Option String
  fileName : Option String

structure GameRow where
  stats : GameStatRow
  teamPlayers : List TeamPlayerRow
  playerCount : Int
  replayTicks : Option Nat
  replayAvailable : Bool

/-- the rows of `game_stats` by their id -/
structure Database where
  gameStats : Nat → Option GameRow

/-- what the database server does during one save -/
structure Answers where
  gameStatRowFails : Bool
  playerCountFails : Bool
  teamPlayersFails : Bool
  /-- the ids and versions of the files of a mod, unless that query fails -/
  modVersions : Option (List (Nat × Int))
  /-- the time that stands for a missing end of the game -/
  now : Int

namespace Database
variable (db : Database) (ans : Answers)

def getTeamPlayers (id : Nat) : Except SaveError (List TeamPlayerRow) :=
  if ans.teamPlayersFails then .error .database
  else .ok (((db.gameStats id).map (fun r => r.teamPlayers)).getD [])

def getGameStatRow (id : Nat) : Except SaveError GameStatRow :=
  if ans.gameStatRowFails then .error .database
  else
    match db.gameStats id with
    | none => .error .rowNotFound
    | some r => .ok r.stats

def getPlayerCount (id : Nat) : Except SaveError Int :=
  if ans.playerCountFails then .error .database
  else .ok (((db.gameStats id).map (fun r => r.playerCount)).getD 0)

def isModNameChar (c : Char) : Bool :=
  ('a' ≤ c && c ≤ 'z') || ('A' ≤ c && c ≤ 'Z') || ('0' ≤ c && c ≤ '9') || c == '_' || c == '-'

/-- never fails: without versions the list is empty -/
def getModVersionList (gameMod : String) : List (Nat × Int) :=
  if !gameMod.toList.all isModNameChar then []
  else if gameMod == "ladder1v1" then []
  else ans.modVersions.getD []

/-- an update of no row succeeds -/
def updateGameStats (id : Nat) (replayTicks : Option Nat) (replayAvailable : Bool) : Database where
  gameStats j :=
    if j = id then (db.gameStats id).map (fun r => { r with replayTicks, replayAvailable })
    else db.gameStats j

def replayAvailable (id : Nat) : Bool :=
  ((db.gameStats id).map (fun r => r.replayAvailable)).getD false

variable {db}

theorem updateGameStats_ne {id j : Nat} (h : j ≠ id) (ticks : Option Nat) (available : Bool) :
    (db.updateGameStats id ticks available).replayAvailable j = db.replayAvailable j := by
  simp [updateGameStats, Database.replayAvailable, h]

theorem updateGameStats_self {id : Nat} (ticks : Option Nat) (available : Bool) :
    (db.updateGameStats id ticks available).replayAvailable id =
      ((db.gameStats id).isSome && available) := by
  cases h : db.gameStats id with
  | none => simp [updateGameStats, Database.replayAvailable, h]
  | some r => simp [updateGameStats, Database.replayAvailable, h]

end Database

/-! ## queries -/

/-- a `BTreeMap`, as its entries in the order of the keys -/
abbrev BTreeMap (κ υ : Type) := List (κ × υ)

/-- a value for a key that is there replaces the old one -/
def BTreeMap.insert {κ υ : Type} [LT κ] [DecidableLT κ] [DecidableEq κ] (k : κ) (v : υ) :
    BTreeMap κ υ → BTreeMap κ υ
  | [] => [(k, v)]
  | (k', v') :: rest =>
    if k < k' then (k, v) :: (k', v') :: rest
    else if k = k' then (k, v) :: rest
    else (k', v') :: BTreeMap.insert k v rest

abbrev GameTeams := BTreeMap Int (List String)

abbrev ModVersions := BTreeMap String Int

structure GameStats where
  featuredMod : Option String
  gameType : String
  host : String
  launchedAt : Int
  gameEnd : Int
  title : String
  mapname : String
  numPlayers : Int

namespace Queries

def getTeamsInGame (db : Database) (ans : Answers) (id : Nat) : Except SaveError GameTeams := do
  let players ← db.getTeamPlayers ans id
  return players.foldl (fun res p =>
    BTreeMap.insert p.team ((res.lookup p.team).getD [] ++ [p.login]) res) []

/-- `rsplitn(2, c).last()` -/
def beforeLast (c : Char) (s : List Char) : List Char :=
  if c ∈ s then ((s.reverse.dropWhile (fun d => d != c)).drop 1).reverse else s

/-- `rsplitn(2, c).next()` -/
def afterLast (c : Char) (s : List Char) : List Char :=
  (s.reverse.takeWhile (fun d => d != c)).reverse

def unmangleMapName (name : Option String) : String :=
  match name with
  | none => "None"
  | some f => String.ofList (afterLast '/' (beforeLast '.' f.toList))

def getGameStats (db : Database) (ans : Answers) (id : Nat) : Except SaveError GameStats := do
  let stats ← db.getGameStatRow ans id
  let playerCount ← db.getPlayerCount ans id
  return {
    featuredMod := stats.gameMod
    gameType := stats.gameType
    host := stats.host
    launchedAt := stats.startTime
    gameEnd := stats.endTime.getD ans.now
    title := stats.gameName
    mapname := unmangleMapName stats.fileName
    numPlayers := playerCount }

def getModVersions (ans : Answers) (gameMod : String) : ModVersions :=
  (Database.getModVersionList ans gameMod).foldl (fun ret m =>
    BTreeMap.insert (toString m.1) m.2 ret) []

end Queries

/-! ## the header of a saved replay -/

structure ReplayJsonHeader where
  complete : Bool
  featuredMod : Option String
  featuredModVersions : ModVersions
  gameEnd : Int
  gameType : String
  host : String
  launchedAt : Int
  mapname : String
  numPlayers : Int
  recorder : String
  state : String
  teams : BTreeMap String (List String)
  title : String
  uid : Nat
  compression : String
  version : Int

namespace ReplayJsonHeader

/-- the numbers of the teams are stored as text -/
def fixupTeamDict (d : GameTeams) : BTreeMap String (List String) :=
  d.foldl (fun out e => BTreeMap.insert (toString e.1) e.2 out) []

def fromIdAndDb (db : Database) (ans : Answers) (uid : Nat) : Except SaveError ReplayJsonHeader := do
  let gameStats ← Queries.getGameStats db ans uid
  let teams := fixupTeamDict (← Queries.getTeamsInGame db ans uid)
  let featuredModVersions := match gameStats.featuredMod with
    | none => []
    | some v => Queries.getModVersions ans v
  return {
    complete := true
    featuredMod := gameStats.featuredMod
    featuredModVersions
    gameEnd := gameStats.gameEnd
    gameType := gameStats.gameType
    host := gameStats.host
    launchedAt := gameStats.launchedAt
    mapname := gameStats.mapname
    numPlayers := gameStats.numPlayers
    recorder := gameStats.host
    state := "PLAYING"
    teams
    title := gameStats.title
    uid
    compression := "zstd"
    version := 2 }

/-- without a row for the game there is no header -/
theorem isSome_of_fromIdAndDb {db : Database} {ans : Answers} {uid : Nat} {h : ReplayJsonHeader}
    (he : fromIdAndDb db ans uid = .ok h) : (db.gameStats uid).isSome := by
  cases hr : db.gameStats uid with
  | some r => rfl
  | none =>
    have hstat : ∃ e, db.getGameStatRow ans uid = .error e := by
      unfold Database.getGameStatRow
      rw [hr]
      split
      · exact ⟨_, rfl⟩
      · exact ⟨_, rfl⟩
    obtain ⟨e, he'⟩ := hstat
    unfold fromIdAndDb Queries.getGameStats at he
    rw [he'] at he
    cases he

end ReplayJsonHeader

end ReplayServer
