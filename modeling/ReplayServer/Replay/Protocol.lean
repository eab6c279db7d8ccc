import ReplayServer.Replay.QuorumMergeStrategy
import ReplayServer.Lib.Run

/-!
# replay: how the merge strategy is called

`merge_strategy.rs` describes when the callbacks of a strategy are called, and
`ReplayMerger::handle_connection` calls them.  An `Action` is what happens between two awaits of
the merger; `Session.allowed` says when it may happen and `Session.step` what it does.

A `Session` is the strategy together with the other side of each writer replay: `Conn.sent` is
every byte that came over the connection, which the writer replay forgets when it discards data.
-/

namespace ReplayServer
open Fallible

structure Conn where
  sent : List UInt8
  /-- the header, once the strategy has been told of it -/
  header : Option ReplayHeader
  ended : Bool
  deriving DecidableEq, Repr

inductive Action where
  | added
  | header (id : Nat) (h : ReplayHeader)
  /-- data is read; nobody is notified -/
  | data (id : Nat) (buf : List UInt8)
  /-- the delayed position is set, then `replay_data_updated` -/
  | delayed (id : Nat) (n : Nat)
  /-- `replay_data_updated` out of the blue -/
  | updated (id : Nat)
  /-- the replay is marked finished, then `replay_removed` -/
  | ended (id : Nat)
  | finish
  deriving DecidableEq, Repr

def Action.reportedHeader : Action → Option ReplayHeader
  | .header _ h => some h
  | _ => none

/-- `f` applied to the writer replay that strategy and connection share -/
def QuorumMergeStrategy.modifyWriter (self : QuorumMergeStrategy) (id : Nat)
    (f : WriterReplay → Res WriterReplay) : Res QuorumMergeStrategy := do
  let s ← self.shared
  let replay ← s.getReplay id
  let r ← f replay.r
  return self.setShared { s with replays := s.replays.set id { replay with r } }

structure Session where
  strategy : QuorumMergeStrategy
  conns : List Conn
  finished : Bool

namespace Session

def new (targetQuorumSize streamCmpDistance : Nat) : Session :=
  ⟨.new targetQuorumSize streamCmpDistance, [], false⟩

def writer (s : Session) (id : Nat) : Option WriterReplay :=
  match s.strategy.shared with
  | .ok sh => sh.replays[id]?.map (fun r => r.r)
  | .error _ => none

def live (s : Session) (id : Nat) : Option Conn := s.conns[id]?.filter (fun c => !c.ended)

/-- what the caller promises -/
def allowed (s : Session) : Action → Bool
  | .added => !s.finished
  | .header id _ => (s.live id).any (fun c => c.header.isNone)
  | .data id _ => (s.live id).any (fun c => c.header.isSome)
  | .delayed id n => (s.live id).isSome &&
      (s.writer id).any (fun w => w.delayedDataLen ≤ n && n ≤ w.dataLen)
  | .updated id => (s.live id).isSome
  | .ended id => (s.live id).isSome && (s.writer id).any (fun w => w.delayedDataLen == w.dataLen)
  | .finish => !s.finished && s.conns.all (fun c => c.ended)

def modifyConn (s : Session) (id : Nat) (f : Conn → Conn) : List Conn := s.conns.modify id f

def step (ords : Nat → IterOrder) (s : Session) : Action → Res Session
  | .added => do
    let (strategy, _) ← s.strategy.replayAdded ords .new
    return { s with strategy, conns := s.conns ++ [⟨[], none, false⟩] }
  | .header id h => do
    let strategy ← s.strategy.modifyWriter id (fun w => .ok (w.addHeader h))
    let strategy ← strategy.replayHeaderAdded id
    return { s with strategy, conns := s.modifyConn id (fun c => { c with header := some h }) }
  | .data id buf => do
    let strategy ← s.strategy.modifyWriter id (fun w => w.addData buf)
    return { s with strategy, conns := s.modifyConn id (fun c => { c with sent := c.sent ++ buf }) }
  | .delayed id n => do
    let strategy ← s.strategy.modifyWriter id (fun w => w.setDelayedDataLen n)
    let strategy ← strategy.replayDataUpdated ords id
    return { s with strategy }
  | .updated id => do
    let strategy ← s.strategy.replayDataUpdated ords id
    return { s with strategy }
  | .ended id => do
    let strategy ← s.strategy.modifyWriter id (fun w => .ok w.finish)
    let strategy ← strategy.replayRemoved ords id
    return { s with strategy, conns := s.modifyConn id (fun c => { c with ended := true }) }
  | .finish => do
    let strategy ← s.strategy.finish
    return { s with strategy, finished := true }

/-- a step up to the loop at the end of its callback -/
def direct (ord : IterOrder) (s : Session) : Action → Res Session
  | .added => do
    let (strategy, _) ← s.strategy.addReplay .new
    return { s with strategy, conns := s.conns ++ [⟨[], none, false⟩] }
  | .delayed id n => do
    let strategy ← s.strategy.modifyWriter id (fun w => w.setDelayedDataLen n)
    let strategy ← strategy.dataUpdated ord id
    return { s with strategy }
  | .updated id => do
    let strategy ← s.strategy.dataUpdated ord id
    return { s with strategy }
  | .ended id => do
    let strategy ← s.strategy.modifyWriter id (fun w => .ok w.finish)
    let strategy ← strategy.replayEnded id
    return { s with strategy, conns := s.modifyConn id (fun c => { c with ended := true }) }
  | a => s.step (fun _ => ord) a

/-- the callbacks that work until the strategy is stable -/
def settles : Action → Bool
  | .header _ _ | .data _ _ | .finish => false
  | _ => true

def settle (ords : Nat → IterOrder) (s : Session) : Res Session := do
  let strategy ← s.strategy.workStateUntilStable ords
  return { s with strategy }

theorem step_eq (ords : Nat → IterOrder) (s : Session) (a : Action) : s.step ords a =
    s.direct (ords 0) a >>= fun t => if settles a then t.settle ords else .ok t := by
  have hok : ∀ x : Res Session,
      (x >>= fun t => if (false : Bool) = true then t.settle ords else .ok t) = x := by
    intro x
    cases x <;> rfl
  cases a with
  | added =>
    show (s.strategy.replayAdded ords .new >>= _) = (s.strategy.addReplay .new >>= _) >>= _
    unfold QuorumMergeStrategy.replayAdded
    rw [bind_assoc, bind_assoc]
    refine bind_congr (fun x => ?_)
    obtain ⟨σ, token⟩ := x
    show ((σ.workStateUntilStable ords >>= fun τ => pure (τ, token)) >>= _) = _
    rw [bind_assoc]
    rfl
  | header id h => exact (hok _).symm
  | data id buf => exact (hok _).symm
  | delayed id n =>
    show (s.strategy.modifyWriter id _ >>= _) = (s.strategy.modifyWriter id _ >>= _) >>= _
    rw [bind_assoc]
    refine bind_congr (fun σ => ?_)
    show (σ.replayDataUpdated ords id >>= _) = (σ.dataUpdated (ords 0) id >>= _) >>= _
    unfold QuorumMergeStrategy.replayDataUpdated
    rw [bind_assoc, bind_assoc]
    rfl
  | updated id =>
    show (s.strategy.replayDataUpdated ords id >>= _) = (s.strategy.dataUpdated (ords 0) id >>= _) >>= _
    unfold QuorumMergeStrategy.replayDataUpdated
    rw [bind_assoc, bind_assoc]
    rfl
  | ended id =>
    show (s.strategy.modifyWriter id _ >>= _) = (s.strategy.modifyWriter id _ >>= _) >>= _
    rw [bind_assoc]
    refine bind_congr (fun σ => ?_)
    show (σ.replayRemoved ords id >>= _) = (σ.replayEnded id >>= _) >>= _
    unfold QuorumMergeStrategy.replayRemoved
    rw [bind_assoc, bind_assoc]
    rfl
  | finish => exact (hok _).symm

theorem step_rest {ords : Nat → IterOrder} {s t : Session} {a : Action} (h : s.step ords a = .ok t) :
    t.conns.length = s.conns.length + (if a = .added then 1 else 0) ∧
      t.finished = (s.finished || decide (a = .finish)) := by
  cases a with
  | added =>
    obtain ⟨⟨σ, token⟩, _, h⟩ := bind_eq_ok.mp h
    cases h
    simp
  | header id x =>
    obtain ⟨σ, _, h⟩ := bind_eq_ok.mp h
    obtain ⟨τ, _, h⟩ := bind_eq_ok.mp h
    cases h
    simp [modifyConn]
  | data id buf =>
    obtain ⟨σ, _, h⟩ := bind_eq_ok.mp h
    cases h
    simp [modifyConn]
  | delayed id n =>
    obtain ⟨σ, _, h⟩ := bind_eq_ok.mp h
    obtain ⟨τ, _, h⟩ := bind_eq_ok.mp h
    cases h
    simp
  | updated id =>
    obtain ⟨σ, _, h⟩ := bind_eq_ok.mp h
    cases h
    simp
  | ended id =>
    obtain ⟨σ, _, h⟩ := bind_eq_ok.mp h
    obtain ⟨τ, _, h⟩ := bind_eq_ok.mp h
    cases h
    simp [modifyConn]
  | finish =>
    obtain ⟨σ, _, h⟩ := bind_eq_ok.mp h
    cases h
    simp

/-- an allowed action, whatever the iteration orders are -/
def Step (s : Session) (a : Action) (t : Session) : Prop :=
  s.allowed a = true ∧ ∃ ords, s.step ords a = .ok t

abbrev Conforming (targetQuorumSize streamCmpDistance : Nat) (acts : List Action) (s : Session) :
    Prop :=
  Lts.Run Step (new targetQuorumSize streamCmpDistance) acts s

def exec (ords : Nat → IterOrder) : List Action → Session → Res Session
  | [], s => .ok s
  | a :: acts, s => do
    assertThat (s.allowed a = true)
    exec ords acts (← s.step ords a)

theorem run_of_exec {ords : Nat → IterOrder} {acts : List Action} {s t : Session}
    (h : s.exec ords acts = .ok t) : Lts.Run Step s acts t := by
  induction acts generalizing s with
  | nil =>
    cases h
    exact .nil _
  | cons a acts ih =>
    unfold exec at h
    obtain ⟨_, ha, h⟩ := bind_eq_ok.mp h
    obtain ⟨u, hu, h⟩ := bind_eq_ok.mp h
    have hallowed : s.allowed a = true := by
      by_contra hn
      rw [assertThat, if_neg hn] at ha
      cases ha
    exact (Lts.Run.single ⟨hallowed, ords, hu⟩).append (ih h)

def merged (s : Session) : MergedReplay :=
  match s.strategy.shared with
  | .ok sh => sh.canonicalStream
  | .error _ => .new

def canon (s : Session) : List UInt8 := s.merged.data.contents

def diverged (s : Session) (id : Nat) : Bool :=
  match s.strategy.shared with
  | .ok sh => (sh.replays[id]?.map (fun r => r.diverged)).getD false
  | .error _ => false

/-- everything that came over a connection so far -/
def sent (s : Session) (id : Nat) : List UInt8 :=
  match s.conns[id]? with
  | some c => c.sent
  | none => []

theorem exists_conn {s : Session} {id : Nat} (h : s.sent id ≠ []) :
    ∃ c ∈ s.conns, c.sent = s.sent id := by
  unfold sent at h ⊢
  cases hc : s.conns[id]? with
  | some c => exact ⟨c, List.mem_of_getElem? hc, rfl⟩
  | none =>
    rw [hc] at h
    exact absurd rfl h

theorem sent_length_le {s : Session} {n : Nat} (h : ∀ c ∈ s.conns, c.sent.length ≤ n) (id : Nat) :
    (s.sent id).length ≤ n := by
  by_cases hs : s.sent id = []
  · rw [hs]
    exact Nat.zero_le n
  · obtain ⟨c, hc, he⟩ := exists_conn hs
    rw [← he]
    exact h c hc

theorem run_of_exec_map {β : Type} (ords : Nat → IterOrder) (acts : List Action) (s : Session)
    (f : Session → β) {b : β} (h : (s.exec ords acts).toOption.map f = some b) :
    ∃ t, Lts.Run Step s acts t ∧ f t = b := by
  cases he : s.exec ords acts with
  | error e =>
    rw [he] at h
    cases h
  | ok t =>
    rw [he] at h
    exact ⟨t, run_of_exec he, Option.some.inj h⟩

end Session

end ReplayServer
