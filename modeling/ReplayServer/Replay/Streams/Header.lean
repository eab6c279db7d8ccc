import ReplayServer.Error
import ReplayServer.Lib.InMemory
import ReplayServer.Replay.Streams
import ReplayServer.Server.Connection

/-!
# replay: the header of a replay

A replay starts with its header, and the parser in `streams/header.rs` only finds out where the
header ends.  It copies every byte it reads.

* `recognises_skip`, `recognises_readValue`   the words that the small parsers accept;
* `recognises_copyHeader`                     the words that the whole parser accepts;
* `form_unique`                               no stream starts with two headers;
* `fromConnection_exact`                      with the limit, and what is left on the connection.
-/

namespace ReplayServer
open AsyncIo AsyncIo.AsyncBufRead AsyncIo.LeBytes AsyncIo.Tokio

def maxSize : Nat := 1024 * 1024

namespace ReplayHeader

section Parser

variable [Tokio] {R α : Type} [AsyncBufRead R]

def skip (count : Nat) : EStateM IoError (Reading R) Unit := do
  let read ← onTakeBuf count readToEnd
  if read < count then
    throw ⟨.unexpectedEof, some s!"EOF reached before skipping {count} bytes"⟩
  else
    return ()

/-- the macro `read_value!`: the integer is written to the buffer again -/
def readValue [LeBytes α] (f : EStateM IoError R α) : EStateM IoError (Reading R) α := do
  let i ← onReader f
  extend (toLeBytes i)
  return i

/-- `do_from_connection` until its result is made -/
def copyHeader : EStateM IoError (Reading R) Unit := do
  let _version ← readUntilExact 0
  skip 3
  let _replayVersionAndMap ← readUntilExact 0
  skip 4
  let modDataSize ← readValue readU32Le
  skip modDataSize.toNat
  let scenarioInfoSize ← readValue readU32Le
  skip scenarioInfoSize.toNat
  let playerCount ← onReader readU8
  extend [playerCount]
  times playerCount.toNat do
    let _name ← readUntilExact 0
    let _timeoutCount ← readValue readU32Le
  let _cheatsEnabled ← readValue readU8
  let armyCount ← readValue readU8
  times armyCount.toNat do
    let armySize ← readValue readU32Le
    skip armySize.toNat
    let playerId ← readValue readU8
    if playerId ≠ 255 then
      skip 1
  let _randomSeed ← readValue readU32Le

def doFromConnection : EStateM IoError R ReplayHeader :=
  withBuf do
    copyHeader
    return { data := (← get).buf }

def fromConnection : ConnResult R ReplayHeader :=
  liftIo (onTake maxSize doFromConnection)

end Parser

/-! ## the grammar -/

/-- a length and so many bytes -/
def block : Language UInt8 := ⨆ n : UInt32, {toLeBytes n} * words n.toNat

/-- a count and so many words of `L` -/
def counted (L : Language UInt8) : Language UInt8 := ⨆ n : UInt8, {[n]} * L ^ n.toNat

def player : Language UInt8 := terminated 0 * words 4

def army : Language UInt8 :=
  block * ⨆ id : UInt8, {[id]} * (if id ≠ 255 then words 1 else 1)

/-- the headers of replays -/
def form : Language UInt8 :=
  terminated 0 * words 3 * terminated 0 * words 4 * block * block * counted player * words 1 *
    counted army * words 4

section Recognises

variable [Tokio] {R α : Type} [AsyncBufRead R]

theorem recognises_skip (count : Nat) :
    Recognises (skip count : EStateM IoError (Reading R) Unit) (fun _ => words count) := by
  have hread : ∀ s : Reading R, ∃ r', (onTakeBuf count readToEnd).run s =
      .ok ((rest s.reader).take count).length ⟨r', s.buf ++ (rest s.reader).take count⟩ ∧
      Reads s.reader ((rest s.reader).take count) r' := by
    intro s
    obtain ⟨r', hrun, hr⟩ := readToEnd_ok (take s.reader count) s.buf
    rw [rest_take] at hrun hr
    have hreads := reads_getRef hr
    rw [getRef_take] at hreads
    exact ⟨getRef r', onTakeBuf_ok hrun, hreads⟩
  constructor
  · intro s _ h t hs hh
    obtain ⟨r', hrun, hr⟩ := hread s
    rw [hs, ← hh, List.take_left] at hrun hr
    refine ⟨r', ?_, hr⟩
    unfold skip
    rw [hh] at hrun
    rw [run_bind_ok hrun, if_neg (Nat.lt_irrefl count)]
    rfl
  · intro s hs
    obtain ⟨r', hrun, hr⟩ := hread s
    have hlt : ((rest s.reader).take count).length < count := by
      by_contra hge
      refine hs () _ _ (List.take_append_drop count (rest s.reader)).symm ?_
      show ((rest s.reader).take count).length = count
      rw [List.length_take] at hge ⊢
      omega
    refine ⟨⟨.unexpectedEof, some s!"EOF reached before skipping {count} bytes"⟩,
      ⟨r', s.buf ++ (rest s.reader).take count⟩, _, ?_, rfl, hr⟩
    unfold skip
    rw [run_bind_ok hrun, if_pos hlt]
    rfl

omit [Tokio] in
theorem recognises_readValue [LeBytes α] {f : EStateM IoError R α}
    (hf : ReadsExactly f (size α) ofLeBytes) :
    Recognises (readValue f) (fun v => {toLeBytes v}) := by
  constructor
  · intro s v h t hs hh
    obtain rfl : h = toLeBytes v := hh
    obtain ⟨r', hrun, hr⟩ := hf.ok s.reader _ t hs (length_toLeBytes v)
    rw [ofLeBytes_toLeBytes] at hrun
    exact ⟨r', run_bind_ok (onReader_ok hrun), hr⟩
  · intro s hs
    by_cases hlen : (rest s.reader).length < size α
    · obtain ⟨e, r', bs, hrun, he, hr⟩ := hf.eof s.reader hlen
      exact ⟨e, _, bs, run_bind_error (onReader_error hrun), he, hr⟩
    · have hbs : ((rest s.reader).take (size α)).length = size α := by
        rw [List.length_take]
        omega
      exact absurd (toLeBytes_ofLeBytes _ hbs).symm
        (hs (ofLeBytes _) _ _ (List.take_append_drop (size α) _).symm)

theorem recognises_readU32 :
    Recognises (readValue readU32Le : EStateM IoError (Reading R) UInt32)
      (fun v => {toLeBytes v}) :=
  recognises_readValue readU32Le_exactly

theorem recognises_readU8 :
    Recognises (readValue readU8 : EStateM IoError (Reading R) UInt8) (fun v => {[v]}) :=
  recognises_readValue readU8_exactly

/-- the number of players is pushed to the buffer by hand -/
theorem readU8_push (k : UInt8 → EStateM IoError (Reading R) α) :
    (onReader readU8 >>= fun i => extend [i] >>= fun _ => k i) = readValue readU8 >>= k := by
  unfold readValue
  simp only [bind_assoc, pure_bind]
  rfl

theorem recognises_player :
    Recognises (do
      let _name ← readUntilExact 0
      let _timeoutCount ← readValue readU32Le : EStateM IoError (Reading R) Unit)
      (fun _ => player) := by
  refine ((recognises_readUntilExact 0).seq (recognises_readU32.seq (.pure ()))).congr fun _ => ?_
  rw [iSup_ofLength, iSup_toLeBytes, mul_one]
  rfl

theorem recognises_army :
    Recognises (do
      let armySize ← readValue readU32Le
      skip armySize.toNat
      let playerId ← readValue readU8
      if playerId ≠ 255 then
        skip 1 : EStateM IoError (Reading R) Unit)
      (fun _ => army) := by
  refine recognises_readU32.bind_seq (fun v => recognises_skip v.toNat)
    (recognises_readU8.bind fun id => ?_)
  by_cases h : id = 255
  · rw [if_neg (not_not_intro h), if_neg (not_not_intro h)]
    exact .pure ()
  · rw [if_pos h, if_pos h]
    exact recognises_skip 1

theorem recognises_copyHeader :
    Recognises (copyHeader : EStateM IoError (Reading R) Unit) (fun _ => form) := by
  unfold copyHeader
  simp only [readU8_push]
  -- from the end of the header to its start
  have hseed := (recognises_readU32 (R := R)).seq (.pure ())
  have harmies := recognises_readU8.bind_seq (fun n => recognises_army.times n.toNat) hseed
  have hcheats := recognises_readU8.seq harmies
  have hplayers := recognises_readU8.bind_seq (fun n => recognises_player.times n.toNat) hcheats
  have hscenario := recognises_readU32.bind_seq (fun n => recognises_skip n.toNat) hplayers
  have hmods := recognises_readU32.bind_seq (fun n => recognises_skip n.toNat) hscenario
  have hmap := (recognises_readUntilExact 0).seq ((recognises_skip 4).seq hmods)
  have hversion := (recognises_readUntilExact 0).seq ((recognises_skip 3).seq hmap)
  refine hversion.congr fun _ => ?_
  have hbyte : (⨆ v : UInt8, ({[v]} : Language UInt8)) = words 1 := iSup_toLeBytes
  simp only [iSup_ofLength, iSup_toLeBytes, iSup_const, mul_one, hbyte]
  unfold form
  simp only [mul_assoc]
  rfl

end Recognises

/-- no stream starts with two headers -/
theorem form_unique {s h h' t t' : List UInt8} (hh : h ∈ form) (hh' : h' ∈ form) (hs : s = h ++ t)
    (hs' : s = h' ++ t') : h = h' := by
  have hrest : rest (Pieces.mk [s]) = s := List.append_nil s
  have hboth : () = () ∧ h = h' :=
    recognises_copyHeader.unique hh hh' (hrest.trans hs) (hrest.trans hs')
  exact hboth.2

/-! ## whole headers -/

section FromConnection

variable [Tokio] {R : Type} [AsyncBufRead R] {c c' : R} {h t : List UInt8}

theorem fromConnection_ok (hc : rest c = h ++ t) (hlen : h.length ≤ maxSize) (hh : h ∈ form) :
    ∃ c', fromConnection.run c = .ok ⟨h⟩ c' ∧ Reads c h c' := by
  have htake : rest (take c maxSize) = h ++ t.take (maxSize - h.length) := by
    rw [rest_take, hc, List.take_append, List.take_of_length_le hlen]
  obtain ⟨r', hrun, hr⟩ := recognises_copyHeader.accept ⟨take c maxSize, []⟩ () h _ htake hh
  have hdo : doFromConnection.run (take c maxSize) = .ok ⟨h⟩ r' := by
    unfold doFromConnection
    refine withBuf_ok (s := ⟨r', h⟩) ?_
    rw [run_bind_ok hrun]
    rfl
  have hreads := reads_getRef hr
  rw [getRef_take] at hreads
  exact ⟨getRef r', liftIo_ok (onTake_ok hdo), hreads⟩

theorem fromConnection_error (hc : ∀ h t, rest c = h ++ t → h.length ≤ maxSize → h ∉ form) :
    ∃ e c', fromConnection.run c = .error e c' ∧ e.isEof := by
  have htake : ∀ (v : Unit) (h t : List UInt8), rest (take c maxSize) = h ++ t → h ∉ form := by
    intro _ h t ht
    rw [rest_take] at ht
    have hlen : h.length ≤ maxSize := by
      have hcongr := congrArg List.length ht
      rw [List.length_take, List.length_append] at hcongr
      omega
    refine hc h (t ++ (rest c).drop maxSize) ?_ hlen
    rw [← List.append_assoc, ← ht, List.take_append_drop]
  obtain ⟨e, s', bs, hrun, he, -⟩ := recognises_copyHeader.reject ⟨take c maxSize, []⟩ htake
  have hdo : doFromConnection.run (take c maxSize) = .error e s'.reader :=
    withBuf_error (run_bind_error hrun)
  exact ⟨.io e, getRef s'.reader, liftIo_error (onTake_error hdo), decide_eq_true he⟩

/-- **a replay header is read exactly where the grammar finds one of at most `maxSize` bytes**, and what
comes after it stays on the connection -/
theorem fromConnection_exact (c : R) :
    ((∃ header c', fromConnection.run c = .ok header c') ↔
      ∃ h t, rest c = h ++ t ∧ h.length ≤ 1048576 ∧ h ∈ form) ∧
    (∀ header c', fromConnection.run c = .ok header c' →
      header.data ∈ form ∧ header.data.length ≤ 1048576 ∧ Reads c header.data c' ∧
      rest c = header.data ++ rest c') ∧
    (∀ h h' t t', h ∈ form → h' ∈ form → rest c = h ++ t → rest c = h' ++ t' → h = h') ∧
    (∀ h t, h ∈ form → h = rest c ++ t → t ≠ [] →
      ∃ e c', fromConnection.run c = .error e c') := by
  have hcases : (∃ h t, rest c = h ++ t ∧ h.length ≤ maxSize ∧ h ∈ form) ∨
      ∀ h t, rest c = h ++ t → h.length ≤ maxSize → h ∉ form := by
    by_cases hex : ∃ h t, rest c = h ++ t ∧ h.length ≤ maxSize ∧ h ∈ form
    · exact Or.inl hex
    · exact Or.inr fun h t hc hlen hh => hex ⟨h, t, hc, hlen, hh⟩
  refine ⟨⟨?_, ?_⟩, ?_, ?_, ?_⟩
  · rintro ⟨header, c', hrun⟩
    cases hcases with
    | inl hex => exact hex
    | inr hnone =>
      obtain ⟨e, c'', herr, -⟩ := fromConnection_error hnone
      rw [herr] at hrun
      cases hrun
  · rintro ⟨h, t, hc, hlen, hh⟩
    obtain ⟨c', hrun, -⟩ := fromConnection_ok hc hlen hh
    exact ⟨_, c', hrun⟩
  · intro header c' hrun
    cases hcases with
    | inl hex =>
      obtain ⟨h, t, hc, hlen, hh⟩ := hex
      obtain ⟨c'', hok, hreads⟩ := fromConnection_ok hc hlen hh
      rw [hok] at hrun
      cases hrun
      exact ⟨hh, hlen, hreads, hreads.rest⟩
    | inr hnone =>
      obtain ⟨e, c'', herr, -⟩ := fromConnection_error hnone
      rw [herr] at hrun
      cases hrun
  · intro h h' t t' hh hh' hc hc'
    exact form_unique hh hh' hc hc'
  · -- the whole header would be a second one
    intro h t hh hht ht
    obtain ⟨e, c', herr, -⟩ := fromConnection_error (c := c) (fun k u hc _ hk => by
      have hk' : h = k ++ (u ++ t) := by rw [hht, hc, List.append_assoc]
      have heq := form_unique hh hk (List.append_nil h).symm hk'
      rw [← heq, hht] at hc
      have hlen := congrArg List.length hc
      simp only [List.length_append] at hlen
      exact ht (List.length_eq_zero_iff.mp (by omega)))
    exact ⟨e, c', herr⟩

end FromConnection

/-- a header with one player and two armies, one of them without a player, and two more bytes -/
def threePieces : Pieces where
  pieces := [[83, 0, 1, 2], [3, 0, 1, 2, 3, 4, 1, 0, 0, 0, 7, 0, 0],
    [0, 0, 1, 65, 0, 5, 0, 0, 0, 1, 2, 0, 0, 0, 0, 255, 1, 0, 0, 0, 6, 3, 4, 1, 2, 3, 4, 99, 98]]

theorem fromConnection_exact_threePieces : ∃ header c',
    fromConnection.run threePieces = .ok header c' ∧ header.data.length = 44 ∧
      header.data ∈ form ∧ rest c' = [99, 98] := by
  have hrun : (match fromConnection.run threePieces with
    | .ok header c' => decide (header.data.length = 44 ∧ rest c' = [99, 98])
    | .error _ _ => false) = true := by
    decide +kernel
  obtain ⟨-, hok, -⟩ := fromConnection_exact threePieces
  cases hresult : fromConnection.run threePieces with
  | ok header c' =>
    rw [hresult] at hrun
    have h := of_decide_eq_true hrun
    exact ⟨header, c', rfl, h.1, (hok header c' hresult).1, h.2⟩
  | error e c' =>
    rw [hresult] at hrun
    cases hrun

end ReplayHeader

end ReplayServer
