import ReplayServer.Replay.Protocol

/-!
# replay: merging as it is meant

The abstract model of the merge strategy: a replay is the list of all bytes it ever received, the
canonical replay is a list, nothing is discarded, cut into chunks or able to panic.  Where the
code does not say what it means, the abstract model follows the code: the comparison of a quorum
uses `boundedLcp`, which is what `common_prefix_from_to` computes.

`State.step` is the abstract counterpart of `Session.step`; `Refine` connects the two.
-/

namespace ReplayServer
namespace Merge
open Agree

structure Replay where
  data : List UInt8
  header : Option ReplayHeader
  delayed : Nat
  finished : Bool
  /-- up to here the data was compared with the canonical data -/
  matching : Nat
  deriving DecidableEq

namespace Replay

def empty : Replay := ⟨[], none, 0, false, 0⟩

def setMatching (cl : Nat) (r : Replay) : Replay := { r with matching := max cl r.matching }

end Replay

structure Canon where
  data : List UInt8
  header : Option ReplayHeader
  delayed : Nat
  finished : Bool
  event : Event
  deriving DecidableEq

/-! ## what quorum and stalemate share -/

structure Core where
  dist : Nat
  target : Nat
  started : Bool
  replays : List Replay
  canon : Canon

namespace Core

def new (target dist : Nat) : Core := ⟨dist, target, false, [], ⟨[], none, 0, false, .new⟩⟩

def get (c : Core) (id : Nat) : Replay := c.replays[id]?.getD .empty

def len (c : Core) (id : Nat) : Nat := (c.get id).data.length

/-- the length of the canonical data -/
def cl (c : Core) : Nat := c.canon.data.length

def longest (c : Core) : Nat := (c.replays.map (fun r => r.data.length)).foldr max 0

def modify (c : Core) (id : Nat) (f : Replay → Replay) : Core :=
  { c with replays := c.replays.modify id f }

/-- the canonical data grows to `n` bytes with the bytes of replay `id` -/
def append (c : Core) (id n : Nat) : Core :=
  { c with canon := { c.canon with
      data := c.canon.data ++ ((c.get id).data.drop c.cl).take (n - c.cl) } }

def advance (c : Core) (hint : Nat) : Core :=
  if min hint c.cl ≤ c.canon.delayed then c
  else { c with canon := { c.canon with delayed := min hint c.cl, event := c.canon.event.notify } }

def setMatching (c : Core) (ids : List Nat) : Core :=
  ids.foldl (fun d id => d.modify id (Replay.setMatching c.cl)) c

/-- from here on a comparison with the canonical data looks at the bytes of `r` -/
def matchStart (c : Core) (r : Replay) : Nat := max r.matching (c.cl - c.dist)

end Core

/-! ## quorum -/

structure Quorum where
  core : Core
  quorum : Finset Nat
  reserve : Finset Nat

namespace Quorum

def position (q : Quorum) (ord : IterOrder) : Nat :=
  ((ord.ids q.quorum).map (fun id => (q.core.get id).delayed)).min?.getD 0

def update (q : Quorum) (ord : IterOrder) : Quorum :=
  { q with core := q.core.advance (q.position ord) }

def shortest (q : Quorum) (ord : IterOrder) : Nat :=
  (iterMinByKey ((ord.ids q.quorum).map (fun id => (id, q.core.len id)))).getD 0

def commonPrefix (q : Quorum) (ord : IterOrder) : Nat :=
  let s := q.shortest ord
  (ord.ids q.quorum).foldl (fun cp id =>
    if id = s then cp
    else boundedLcp q.core.cl (min (min (q.core.len s) (q.core.len id)) cp)
      (lcpFrom (q.core.get s).data (q.core.get id).data q.core.cl)) (q.core.len s)

def any (q : Quorum) (ord : IterOrder) : Nat := (ord.ids q.quorum).headD 0

def merge (q : Quorum) (ord : IterOrder) : Quorum :=
  let c := q.core.append (q.any ord) (q.commonPrefix ord)
  update { q with core := c.setMatching (ord.ids q.quorum) } ord

def dataUpdated (q : Quorum) (ord : IterOrder) (id : Nat) : Quorum :=
  if id ∈ q.quorum then q.update ord else q

def hasToEnter (q : Quorum) : Bool := q.core.canon.delayed ≥ q.core.cl

/-- the candidates sorted by length, the longest first -/
def sorted (c : Core) (ord : IterOrder) (good : List Nat) : List Nat :=
  ((ord.sort (good.map (fun id => (id, c.len id)))).map Prod.fst).reverse

/-- the code fails where the target is zero, and here one replay is enough -/
def select (c : Core) (ord : IterOrder) (good : List Nat) (reserve : Finset Nat) : Quorum :=
  let l := sorted c ord good
  let n := min l.length (max 1 c.target)
  ⟨c, (l.take n).toFinset, reserve ∪ (l.drop n).toFinset⟩

end Quorum

/-! ## stalemate -/

def addCandidate (c : Candidates) (b : UInt8) (id : Nat) : Candidates :=
  c.insert b ((c.lookup b).getD [] ++ [id])

structure Stalemate where
  core : Core
  cand : Candidates
  reserve : Finset Nat

namespace Stalemate

def evaluate (t : Stalemate) (id : Nat) : Stalemate :=
  let r := t.core.get id
  if r.data.length ≤ t.core.cl then
    if r.finished then { t with reserve := t.reserve.erase id } else t
  else if lcpFrom r.data t.core.canon.data (t.core.matchStart r) = t.core.cl then
    { core := t.core.modify id (Replay.setMatching t.core.cl)
      cand := addCandidate t.cand (r.data[t.core.cl]?.getD 0) id
      reserve := t.reserve.erase id }
  else { t with reserve := t.reserve.erase id }

def evaluateIf (t : Stalemate) (id : Nat) : Stalemate :=
  if id ∈ t.reserve then t.evaluate id else t

def fromQuorum (ord : IterOrder) (c : Core) (reserve : Finset Nat) : Stalemate :=
  (ord.ids reserve).foldl evaluate ⟨c, ∅, reserve⟩

def dataUpdated (t : Stalemate) (id : Nat) : Stalemate :=
  let t := t.evaluateIf id
  if !t.core.started && (t.core.get id).delayed > 0 then
    { t with core := { t.core with started := true } }
  else t

def largest (t : Stalemate) (ord : IterOrder) : Nat :=
  ((t.cand.entries ord).map (fun e => e.2.length)).max?.getD 0

def canExit (t : Stalemate) (ord : IterOrder) : Bool :=
  t.core.started && t.cand.keys ≠ ∅ && (t.reserve = ∅ || t.core.target ≤ t.largest ord)

def tuples (t : Stalemate) (ord : IterOrder) : List (Nat × Nat × UInt8) :=
  (t.cand.entries ord).map (fun e => (e.2.length, (e.2.map t.core.len).max?.getD 0, e.1))

def bestByte (t : Stalemate) (ord : IterOrder) : UInt8 :=
  ((iterMax (t.tuples ord)).map (fun x => x.2.2)).getD 0

def good (t : Stalemate) (ord : IterOrder) : List Nat := (t.cand.lookup (t.bestByte ord)).getD []

/-- the canonical data with the one byte that resolves the stalemate -/
def advanced (t : Stalemate) (ord : IterOrder) : Core :=
  t.core.append ((t.good ord).headD 0) (t.core.cl + 1)

/-- the quorum that resolves the stalemate, before it merges -/
def chosen (t : Stalemate) (ord : IterOrder) : Quorum :=
  Quorum.select (t.advanced ord) ord (t.good ord) t.reserve

def exit (t : Stalemate) (ord : IterOrder) : Quorum := (t.chosen ord).merge ord

end Stalemate

def Quorum.enter (q : Quorum) (ord : IterOrder) : Stalemate :=
  Stalemate.fromQuorum ord q.core (q.reserve ∪ q.quorum)

/-! ## the two together -/

inductive State where
  | quorum (q : Quorum)
  | stalemate (t : Stalemate)

namespace State

def new (target dist : Nat) : State := .stalemate ⟨.new target dist, ∅, ∅⟩

def core : State → Core
  | .quorum q => q.core
  | .stalemate t => t.core

def mapCore (m : State) (f : Core → Core) : State :=
  match m with
  | .quorum q => .quorum { q with core := f q.core }
  | .stalemate t => .stalemate { t with core := f t.core }

def shouldChange (m : State) (ord : IterOrder) : Bool :=
  match m with
  | .quorum q => q.hasToEnter
  | .stalemate t => t.canExit ord

def change (m : State) (ord : IterOrder) : State :=
  match m with
  | .quorum q => .stalemate (q.enter ord)
  | .stalemate t => .quorum (t.exit ord)

def work (ords : Nat → IterOrder) : Nat → State → State
  | 0, m => m
  | fuel + 1, m =>
    if m.shouldChange (ords (fuel + 1)) then work ords fuel (m.change (ords (fuel + 1))) else m

def fuel (m : State) : Nat := 2 * (m.core.longest - m.core.cl) + 2

def settle (m : State) (ords : Nat → IterOrder) : State := m.work ords m.fuel

def addReplay (m : State) : State :=
  match m with
  | .quorum q => .quorum { q with
      core := { q.core with replays := q.core.replays ++ [.empty] }
      reserve := insert q.core.replays.length q.reserve }
  | .stalemate t => .stalemate { t with
      core := { t.core with replays := t.core.replays ++ [.empty] }
      reserve := insert t.core.replays.length t.reserve }

def dataUpdated (m : State) (ord : IterOrder) (id : Nat) : State :=
  match m with
  | .quorum q => .quorum (q.dataUpdated ord id)
  | .stalemate t => .stalemate (t.dataUpdated id)

def replayEnded (m : State) (id : Nat) : State :=
  match m with
  | .quorum q => .quorum q
  | .stalemate t => .stalemate (t.evaluateIf id)

def modify (m : State) (id : Nat) (f : Replay → Replay) : State :=
  m.mapCore (fun c => c.modify id f)

def addHeader (c : Core) (h : ReplayHeader) : Core :=
  if c.canon.header = none then
    { c with canon := { c.canon with header := some h, event := c.canon.event.notify } }
  else c

def finishCanon (c : Core) : Core :=
  { c with canon := { c.canon with finished := true, event := c.canon.event.notify } }

/-- what a callback does before the strategy settles -/
def direct (ord : IterOrder) (m : State) : Action → State
  | .added => m.addReplay
  | .header id h => (m.modify id (fun r => { r with header := some h })).mapCore
      (fun c => addHeader c h)
  | .data id buf => m.modify id (fun r => { r with data := r.data ++ buf })
  | .delayed id n => (m.modify id (fun r => { r with delayed := n })).dataUpdated ord id
  | .updated id => m.dataUpdated ord id
  | .ended id => (m.modify id (fun r => { r with finished := true })).replayEnded id
  | .finish => m.mapCore finishCanon

def step (ords : Nat → IterOrder) (m : State) (a : Action) : State :=
  if Session.settles a then (m.direct (ords 0) a).settle ords else m.direct (ords 0) a

/-- the replay was added and did not end -/
def live (m : State) (id : Nat) : Prop :=
  id < m.core.replays.length ∧ (m.core.get id).finished = false

def allowed (m : State) : Action → Prop
  | .added => m.core.canon.finished = false
  | .header id _ => m.live id ∧ (m.core.get id).header = none
  | .data id _ => m.live id ∧ (m.core.get id).header ≠ none
  | .delayed id n => m.live id ∧ (m.core.get id).delayed ≤ n ∧ n ≤ m.core.len id
  | .updated id => m.live id
  | .ended id => m.live id ∧ (m.core.get id).delayed = m.core.len id
  | .finish => m.core.canon.finished = false ∧
      ∀ id < m.core.replays.length, (m.core.get id).finished = true

def Step (m : State) (a : Action) (m' : State) : Prop :=
  m.allowed a ∧ ∃ ords, m' = m.step ords a

end State

end Merge

end ReplayServer
