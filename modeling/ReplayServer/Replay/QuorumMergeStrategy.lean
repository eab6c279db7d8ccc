import ReplayServer.Replay.IterOrder
import Mathlib.Data.Finmap
import Mathlib.Data.Finset.Lattice.Basic

/-!
# replay: the quorum merge strategy

`quorum_merge_strategy.rs`, function by function.  A `HashSet` is a `Finset`, a `HashMap` a
`Finmap`, and whatever iterates over one asks an `IterOrder` for the order of the elements, so that
nothing can depend on a particular order.  Tokens are handed out from 0 on and replays are never
taken out, so the map `replays` is the list of the replays by token.

`workStateUntilStable` runs its loop with `loopFuel` iterations.
-/

namespace ReplayServer
open Fallible

/-! ## the state of one replay -/

structure ReplayState where
  r : WriterReplay
  streamCmpDistance : Nat
  dataMatchingCanon : Nat
  /-- not a field of the source: `set_diverged` was called -/
  diverged : Bool

namespace ReplayState

def new (r : WriterReplay) (streamCmpDistance : Nat) : ReplayState :=
  ⟨r, streamCmpDistance, 0, false⟩

def commonPrefixFromTo (self other : ReplayState) (start : Nat) (stop : Option Nat) : Res Nat :=
  ChunkedBuf.commonPrefixFromTo self.r.data other.r.data start stop

def matchStartOptimization (self : ReplayState) (canonLength : Nat) : Nat :=
  canonLength - self.streamCmpDistance

def divergesAtStalemate (self : ReplayState) (c : MergedReplay) : Res Bool := do
  assertThat (self.r.dataLen ≥ c.dataLen)
  let optimizedMatchStart := self.matchStartOptimization c.dataLen
  let matchStart := max self.dataMatchingCanon optimizedMatchStart
  let matchLen ← ChunkedBuf.commonPrefixFrom self.r.data c.data matchStart
  return matchLen != c.dataLen

def setDiverged (self : ReplayState) : ReplayState :=
  { self with r := self.r.discardAll, diverged := true }

def setMatching (self : ReplayState) (canonLength : Nat) : ReplayState :=
  let dataMatchingCanon := max canonLength self.dataMatchingCanon
  { self with dataMatchingCanon, r := self.r.discard dataMatchingCanon }

def discardIfNotNeededForCheckingDivergence (self : ReplayState) (canonLength : Nat) :
    ReplayState :=
  { self with r := self.r.discard (self.matchStartOptimization canonLength) }

end ReplayState

/-! ## the state that quorum and stalemate share -/

structure SharedState where
  streamCmpDistance : Nat
  delayedDataStarted : Bool
  targetQuorumSize : Nat
  replays : List ReplayState
  canonicalStream : MergedReplay

namespace SharedState

def new (targetQuorumSize streamCmpDistance : Nat) : SharedState :=
  ⟨streamCmpDistance, false, targetQuorumSize, [], .new⟩

/-- the token of the new replay is the number of replays before it -/
def addReplay (s : SharedState) (r : WriterReplay) : SharedState × Nat :=
  ({ s with replays := s.replays ++ [.new r s.streamCmpDistance] }, s.replays.length)

def getReplay (s : SharedState) (token : Nat) : Res ReplayState := unwrap s.replays[token]?

/-- `f` applied to `get_mut_replay(token)` -/
def modifyReplay (s : SharedState) (token : Nat) (f : ReplayState → ReplayState) :
    Res SharedState := do
  let r ← s.getReplay token
  return { s with replays := s.replays.set token (f r) }

def canonDataLen (s : SharedState) : Nat := s.canonicalStream.dataLen

def canonDelayedDataLen (s : SharedState) : Nat := s.canonicalStream.delayedDataLen

/-- `get_replay(id).r.data_len()` -/
def replayLen (s : SharedState) (id : Nat) : Res Nat := do
  return (← s.getReplay id).r.dataLen

/-- ids with the lengths of their replays -/
def withLens (s : SharedState) (ids : List Nat) : Res (List (Nat × Nat)) :=
  ids.mapM (fun id => do return (id, ← s.replayLen id))

def appendCanonData (s : SharedState) (id until_ : Nat) : Res SharedState := do
  let sourceReplay ← s.getReplay id
  let canonReplay ← s.canonicalStream.addData sourceReplay.r until_
  return { s with canonicalStream := canonReplay }

def updateCanonDelayedDataLen (s : SharedState) (hint : Nat) : Res SharedState := do
  let hint := min hint s.canonDataLen
  if hint ≤ s.canonDelayedDataLen then
    return s
  let canonReplay ← s.canonicalStream.advanceDelayedData hint
  return { s with canonicalStream := canonReplay }

end SharedState

/-! ## iterators over the containers -/

abbrev Candidates := Finmap (fun _ : UInt8 => List Nat)

/-- the entries in the order of an iteration -/
def Candidates.entries (c : Candidates) (ord : IterOrder) : List (UInt8 × List Nat) :=
  (ord.keys c.keys).filterMap (fun k => (c.lookup k).map (fun v => (k, v)))

/-- the order of tuples `(usize, usize, &u8)` -/
def tupleLe (a b : Nat × Nat × UInt8) : Bool :=
  a.1 < b.1 || (a.1 == b.1 && (a.2.1 < b.2.1 || (a.2.1 == b.2.1 && a.2.2.toNat ≤ b.2.2.toNat)))

/-- `Iterator::max`: of equal elements the last one -/
def iterMax : List (Nat × Nat × UInt8) → Option (Nat × Nat × UInt8)
  | [] => none
  | a :: l => some (l.foldl (fun m x => if tupleLe m x then x else m) a)

/-- `Iterator::min_by_key` on pairs of an element and its key: of equal keys the first one -/
def iterMinByKey : List (Nat × Nat) → Option Nat
  | [] => none
  | a :: l => some (l.foldl (fun m x => if x.2 < m.2 then x else m) a).1

/-! ## quorum -/

structure MergeQuorumState where
  s : SharedState
  quorum : Finset Nat
  reserve : Finset Nat

namespace MergeQuorumState

def addReplay (self : MergeQuorumState) (r : WriterReplay) : MergeQuorumState × Nat :=
  let (s, token) := self.s.addReplay r
  ({ self with s, reserve := insert token self.reserve }, token)

def quorumDelayedPosition (self : MergeQuorumState) (ord : IterOrder) : Res Nat := do
  let positions ← (ord.ids self.quorum).mapM
    (fun id => do return (← self.s.getReplay id).r.delayedDataLen)
  unwrap positions.min?

def updateDelayedPosition (self : MergeQuorumState) (ord : IterOrder) : Res MergeQuorumState := do
  let s ← self.s.updateCanonDelayedDataLen (← self.quorumDelayedPosition ord)
  return { self with s }

def replayDataUpdated (self : MergeQuorumState) (ord : IterOrder) (id : Nat) :
    Res MergeQuorumState :=
  if id ∈ self.quorum then self.updateDelayedPosition ord else .ok self

/-- pass, we don't care -/
def replayEnded (self : MergeQuorumState) (_id : Nat) : Res MergeQuorumState := .ok self

def hasToEnterStalemate (self : MergeQuorumState) : Bool :=
  self.s.canonDelayedDataLen ≥ self.s.canonDataLen

def calculateQuorumPrefix (self : MergeQuorumState) (ord : IterOrder) : Res Nat := do
  assertThat (self.quorum ≠ ∅)
  let ids := ord.ids self.quorum
  let shortestId ← unwrap (iterMinByKey (← self.s.withLens ids))
  let shortest ← self.s.getReplay shortestId
  let cmpStart := self.s.canonDataLen
  ids.foldlM (fun commonPrefix id => do
    if id = shortestId then
      return commonPrefix
    let other ← self.s.getReplay id
    shortest.commonPrefixFromTo other cmpStart (some commonPrefix)) shortest.r.dataLen

def discardDataAfterMerging (self : MergeQuorumState) (ord : IterOrder) :
    Res MergeQuorumState := do
  let mergedLen := self.s.canonDataLen
  let s ← (ord.ids self.quorum).foldlM (fun (s : SharedState) id =>
    s.modifyReplay id (fun r => r.setMatching mergedLen)) self.s
  let s ← (ord.ids self.reserve).foldlM (fun (s : SharedState) id =>
    s.modifyReplay id (fun r => r.discardIfNotNeededForCheckingDivergence mergedLen)) s
  return { self with s }

def mergeMoreData (self : MergeQuorumState) (ord : IterOrder) : Res MergeQuorumState := do
  let commonPrefix ← self.calculateQuorumPrefix ord
  let anyInQuorum ← unwrap (ord.ids self.quorum).head?
  let s ← self.s.appendCanonData anyInQuorum commonPrefix
  let self ← discardDataAfterMerging { self with s } ord
  self.updateDelayedPosition ord

def fromStalemate (ord : IterOrder) (shared : SharedState) (goodReplays : List Nat)
    (reserve : Finset Nat) : Res MergeQuorumState := do
  assertThat (goodReplays ≠ [])
  -- Take longest replays.
  let keyed ← shared.withLens goodReplays
  let goodReplays := ((ord.sort keyed).map Prod.fst).reverse
  -- Collect enough replays for quorum, move rest to reserve.
  let newQuorumLen := min goodReplays.length shared.targetQuorumSize
  let newQuorum := (goodReplays.take newQuorumLen).toFinset
  let reserve := reserve ∪ (goodReplays.drop newQuorumLen).toFinset
  mergeMoreData { s := shared, quorum := newQuorum, reserve } ord

end MergeQuorumState

/-! ## stalemate -/

structure MergeStalemateState where
  s : SharedState
  candidates : Candidates
  reserve : Finset Nat

namespace MergeStalemateState

def new (targetQuorumSize streamCmpDistance : Nat) : MergeStalemateState :=
  ⟨.new targetQuorumSize streamCmpDistance, ∅, ∅⟩

def insertCandidate (self : MergeStalemateState) (byte : UInt8) (id : Nat) :
    Res MergeStalemateState := do
  let candidates := if self.candidates.lookup byte = none then self.candidates.insert byte []
    else self.candidates
  let candsForByte ← unwrap (candidates.lookup byte)
  return { self with candidates := candidates.insert byte (candsForByte ++ [id]) }

def tryMoveReplayToCandidates (self : MergeStalemateState) (id : Nat) :
    Res MergeStalemateState := do
  let canonDataLen := self.s.canonDataLen
  let replay ← self.s.getReplay id
  if replay.r.dataLen ≤ canonDataLen then
    if replay.r.finished then
      -- Replay finished short. Diverges.
      let s ← self.s.modifyReplay id ReplayState.setDiverged
      return { self with s, reserve := self.reserve.erase id }
    else
      -- Replay is short, still in reserve.
      return self
  else
    let self := { self with reserve := self.reserve.erase id }
    if ← replay.divergesAtStalemate self.s.canonicalStream then
      let s ← self.s.modifyReplay id ReplayState.setDiverged
      return { self with s }
    else
      -- Replay matches and can become a candidate.
      let s ← self.s.modifyReplay id (fun r => r.setMatching canonDataLen)
      let replay ← s.getReplay id
      let nextByte ← ChunkedBuf.at replay.r.data canonDataLen
      insertCandidate { self with s } nextByte id

def fromQuorum (ord : IterOrder) (shared : SharedState) (reserve : Finset Nat) :
    Res MergeStalemateState :=
  (ord.ids reserve).foldlM tryMoveReplayToCandidates ⟨shared, ∅, reserve⟩

def addReplay (self : MergeStalemateState) (r : WriterReplay) : MergeStalemateState × Nat :=
  let (s, token) := self.s.addReplay r
  ({ self with s, reserve := insert token self.reserve }, token)

def replayDataUpdated (self : MergeStalemateState) (id : Nat) : Res MergeStalemateState := do
  -- Replay may have advanced from a stalemate.
  let self ← if id ∈ self.reserve then self.tryMoveReplayToCandidates id else .ok self
  -- Delayed data check.
  let replay ← self.s.getReplay id
  if !self.s.delayedDataStarted && replay.r.delayedDataLen > 0 then
    return { self with s := { self.s with delayedDataStarted := true } }
  return self

/-- replay ended while short -/
def replayEnded (self : MergeStalemateState) (id : Nat) : Res MergeStalemateState :=
  if id ∈ self.reserve then self.tryMoveReplayToCandidates id else .ok self

def canExitStalemate (self : MergeStalemateState) (ord : IterOrder) : Res Bool := do
  if !self.s.delayedDataStarted then
    -- Wait as long as we can at the start.
    return false
  if self.candidates.keys = ∅ then
    -- We have no candidates yet.
    return false
  if self.reserve = ∅ then
    -- We ran out of reserve replays, pick *something*.
    return true
  -- Is any candidate set big enough?
  let largest ← unwrap ((self.candidates.entries ord).map (fun e => e.2.length)).max?
  return largest ≥ self.s.targetQuorumSize

/-- the byte with the most candidates; of several the one with the longest candidate -/
def bestByte (self : MergeStalemateState) (ord : IterOrder) : Res UInt8 := do
  let tuples ← (self.candidates.entries ord).mapM (fun e => do
    let lens ← e.2.mapM self.s.replayLen
    return (e.2.length, ← unwrap lens.max?, e.1))
  return (← unwrap (iterMax tuples)).2.2

def exitStalemate (self : MergeStalemateState) (ord : IterOrder) : Res MergeQuorumState := do
  assertThat (self.candidates.keys ≠ ∅)
  let bestByte ← self.bestByte ord
  let goodReplays ← unwrap (self.candidates.lookup bestByte)
  let candidates : Candidates := self.candidates.erase bestByte
  -- Advance replay by 1 byte.
  let goodReplay ← unwrap goodReplays[0]?
  let bytePos := self.s.canonDataLen
  let s ← self.s.appendCanonData goodReplay (bytePos + 1)
  -- Discard all diverging replays.
  let s ← (candidates.entries ord).foldlM (fun s e =>
    e.2.foldlM (fun (s : SharedState) id => s.modifyReplay id ReplayState.setDiverged) s) s
  MergeQuorumState.fromStalemate ord s goodReplays self.reserve

end MergeStalemateState

namespace MergeQuorumState

def enterStalemate (self : MergeQuorumState) (ord : IterOrder) : Res MergeStalemateState :=
  MergeStalemateState.fromQuorum ord self.s (self.reserve ∪ self.quorum)

end MergeQuorumState

/-! ## the strategy -/

inductive QuorumMergeStrategy where
  | quorum (s : MergeQuorumState)
  | stalemate (s : MergeStalemateState)
  | swapping

namespace QuorumMergeStrategy

def new (targetQuorumSize streamCmpDistance : Nat) : QuorumMergeStrategy :=
  .stalemate (.new targetQuorumSize streamCmpDistance)

/-- the macro `both!` where it reads the shared state -/
def shared : QuorumMergeStrategy → Res SharedState
  | .quorum q => .ok q.s
  | .stalemate t => .ok t.s
  | .swapping => .error .assertion

/-- the macro `both!` where it changes the shared state -/
def setShared (self : QuorumMergeStrategy) (s : SharedState) : QuorumMergeStrategy :=
  match self with
  | .quorum q => .quorum { q with s }
  | .stalemate t => .stalemate { t with s }
  | .swapping => .swapping

def shouldChangeState (self : QuorumMergeStrategy) (ord : IterOrder) : Res Bool :=
  match self with
  | .quorum q => .ok q.hasToEnterStalemate
  | .stalemate t => t.canExitStalemate ord
  | .swapping => .error .assertion

/-- one pass of the loop: the other state -/
def changeState (self : QuorumMergeStrategy) (ord : IterOrder) : Res QuorumMergeStrategy :=
  match self with
  | .quorum q => do return .stalemate (← q.enterStalemate ord)
  | .stalemate t => do return .quorum (← t.exitStalemate ord)
  | .swapping => .error .assertion

def workLoop (ords : Nat → IterOrder) : Nat → QuorumMergeStrategy → Res QuorumMergeStrategy
  | 0, self => do
    if ← self.shouldChangeState (ords 0) then .error .endless
    return self
  | fuel + 1, self => do
    if ← self.shouldChangeState (ords (fuel + 1)) then
      workLoop ords fuel (← self.changeState (ords (fuel + 1)))
    else return self

/-- two state changes for every byte the canonical replay can still grow, and two more -/
def loopFuel (self : QuorumMergeStrategy) : Nat :=
  match self.shared with
  | .ok s => 2 * ((s.replays.map (fun r => r.r.dataLen)).foldr max 0 - s.canonDataLen) + 2
  | .error _ => 0

def workStateUntilStable (self : QuorumMergeStrategy) (ords : Nat → IterOrder) :
    Res QuorumMergeStrategy :=
  workLoop ords self.loopFuel self

/-- `both!(self, s => s.add_replay(r))` -/
def addReplay (self : QuorumMergeStrategy) (r : WriterReplay) : Res (QuorumMergeStrategy × Nat) :=
  match self with
  | .quorum q => .ok (.quorum (q.addReplay r).1, (q.addReplay r).2)
  | .stalemate t => .ok (.stalemate (t.addReplay r).1, (t.addReplay r).2)
  | .swapping => .error .assertion

/-- `both!(self, s => s.replay_ended(id))` -/
def replayEnded (self : QuorumMergeStrategy) (id : Nat) : Res QuorumMergeStrategy :=
  match self with
  | .quorum q => do return .quorum (← q.replayEnded id)
  | .stalemate t => do return .stalemate (← t.replayEnded id)
  | .swapping => .error .assertion

/-- `both!(self, s => s.replay_data_updated(id))` -/
def dataUpdated (self : QuorumMergeStrategy) (ord : IterOrder) (id : Nat) :
    Res QuorumMergeStrategy :=
  match self with
  | .quorum q => do return .quorum (← q.replayDataUpdated ord id)
  | .stalemate t => do return .stalemate (← t.replayDataUpdated id)
  | .swapping => .error .assertion

def replayAdded (ords : Nat → IterOrder) (self : QuorumMergeStrategy) (r : WriterReplay) :
    Res (QuorumMergeStrategy × Nat) := do
  let (self, token) ← self.addReplay r
  return (← self.workStateUntilStable ords, token)

def replayRemoved (ords : Nat → IterOrder) (self : QuorumMergeStrategy) (id : Nat) :
    Res QuorumMergeStrategy := do
  (← self.replayEnded id).workStateUntilStable ords

def replayDataUpdated (ords : Nat → IterOrder) (self : QuorumMergeStrategy) (id : Nat) :
    Res QuorumMergeStrategy := do
  (← self.dataUpdated (ords 0) id).workStateUntilStable ords

/-- Accept the first header we get. -/
def replayHeaderAdded (self : QuorumMergeStrategy) (id : Nat) : Res QuorumMergeStrategy := do
  let s ← self.shared
  let replay ← s.getReplay id
  let (r, header) ← replay.r.takeHeader
  let s := { s with replays := s.replays.set id { replay with r } }
  if s.canonicalStream.header = none then
    let canonicalStream ← s.canonicalStream.addHeader header
    return self.setShared { s with canonicalStream }
  return self.setShared s

def getMergedReplay (self : QuorumMergeStrategy) : Res MergedReplay := do
  return (← self.shared).canonicalStream

def finish (self : QuorumMergeStrategy) : Res QuorumMergeStrategy :=
  match self with
  | .swapping => .error .assertion
  -- Expected to finish merge strategy in a stalemate.
  | .quorum _ => .error .assertion
  | .stalemate t => do
    -- Not in a quorum. Delayed replay position must be equal to its data len.
    assertThat (t.s.canonDataLen = t.s.canonDelayedDataLen)
    -- All replays are finished, so the reserve is empty.
    assertThat (t.reserve = ∅)
    assertThat (t.candidates.keys = ∅)
    return .stalemate { t with s := { t.s with canonicalStream := t.s.canonicalStream.finish } }

end QuorumMergeStrategy

end ReplayServer
