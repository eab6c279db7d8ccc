import ReplayServer.Error
import ReplayServer.Lib.InMemory
import ReplayServer.Server.Connection
import ReplayServer.Util.ParseInt
import ReplayServer.Util.Text

/-!
# accept: reading the header of a connection

`header_reader` reads the first bytes of a connection: its type, the replay and a name.  What
comes after them belongs to the replay.

* `parseGameData_ok`                     the lines that have an id and a name;
* `encode_wire`                          every header has a place in the grammar;
* `readType_long`, `readLine_ok`         what the reads leave of the stream;
* `readAndSet_wire`                      a header that is there is set on the connection;
* `readAndSetConnectionHeader_exact`     nothing else is, and the errors.
-/

namespace ReplayServer
open AsyncIo AsyncIo.AsyncBufRead AsyncIo.Tokio

namespace HeaderReader

section Reader

variable [Tokio] {R : Type} [AsyncBufRead R]

def readType : ConnResult (Connection R) ConnectionType := do
  let buf ← liftIo (readExact 2)
  if buf = utf8 "P/" then
    return .writer
  else if buf = utf8 "G/" then
    return .reader
  else
    throw (.badData s!"Invalid connection type: '{prettyBytes buf}'")

/-- the first half of `read_game_data` -/
def readLine : ConnResult (Connection R) (List UInt8) :=
  EStateM.adaptExcept (fun _ => .badData "Connection header is incomplete")
    (onTake 1024 (withBuf do
      let _ ← readUntilExact 0
      return (← get).buf))

/-- the second half of `read_game_data` -/
def parseGameData (line : List UInt8) : Except ConnectionError (Nat × String) :=
  match splitn (· == 47) 2 line with
  | idBytes :: nameBytes :: _ =>
    match (fromUtf8 idBytes).bind (fun s => parseU64 s.toList) with
    | none => .error (.badData "Failed to parse replay ID")
    | some id =>
      match fromUtf8 nameBytes with
      | none => .error (.badData "Failed to decode connection string id")
      | some name => .ok (id, name)
  | _ => .error (.badData "No slash between game ID and name")

def readGameData : ConnResult (Connection R) (Nat × String) := do
  let line ← readLine
  -- remove trailing '\0'
  match parseGameData line.dropLast with
  | .ok data => return data
  | .error e => throw e

def readConnectionHeader : ConnResult (Connection R) ConnectionHeader := do
  -- early EOF is most likely a connection with no data
  let type ← EStateM.adaptExcept (fun e => if e.isEof then .noData else e) readType
  let (id, name) ← readGameData
  return { type, id, name }

def readAndSetConnectionHeader : ConnResult (Connection R) Unit := do
  let header ← readConnectionHeader
  modify (·.setHeader header)

end Reader

/-! ## the grammar -/

def typeText : ConnectionType → String
  | .writer => "P/"
  | .reader => "G/"

/-- an optional plus and some digits -/
def IdText (text : List UInt8) (id : Nat) : Prop :=
  ∃ ds : List Char, ds ≠ [] ∧ (∀ c ∈ ds, c.isDigit) ∧ Nat.ofDigitChars 10 ds 0 = id ∧ id < 2 ^ 64 ∧
    (text = utf8 (String.ofList ds) ∨ text = utf8 (String.ofList ('+' :: ds)))

/-- `s` starts with the header, and `t` comes after it -/
def Wire (s : List UInt8) (header : ConnectionHeader) (t : List UInt8) : Prop :=
  ∃ id name, IdText id header.id ∧ 47 ∉ id ∧ utf8 header.name = name ∧ 0 ∉ name ∧
    id.length + 1 + name.length + 1 ≤ 1024 ∧
    s = utf8 (typeText header.type) ++ id ++ [47] ++ name ++ [0] ++ t

/-- the text of a header -/
def encode (header : ConnectionHeader) : List UInt8 :=
  utf8 (typeText header.type) ++ utf8 (toString header.id) ++ [47] ++ utf8 header.name ++ [0]

/-! ## ids and names -/

theorem parseId_eq_some {text : List UInt8} {id : Nat} :
    (fromUtf8 text).bind (fun s => parseU64 s.toList) = some id ↔ IdText text id := by
  rw [Option.bind_eq_some_iff]
  constructor
  · rintro ⟨s, hs, hid⟩
    obtain ⟨ds, htext, hne, hdigit, hval, hle⟩ := parseU64_eq_some.mp hid
    have hofList : s = String.ofList s.toList := String.ofList_toList.symm
    have hutf := fromUtf8_eq_some.mp hs
    refine ⟨ds, hne, hdigit, hval, Nat.lt_succ_of_le hle, ?_⟩
    cases htext with
    | inl h =>
      rw [hofList, h] at hutf
      exact Or.inl hutf.symm
    | inr h =>
      rw [hofList, h] at hutf
      exact Or.inr hutf.symm
  · rintro ⟨ds, hne, hdigit, hval, hlt, h | h⟩
    · refine ⟨String.ofList ds, fromUtf8_eq_some.mpr h.symm, ?_⟩
      rw [String.toList_ofList]
      exact parseU64_eq_some.mpr ⟨ds, Or.inl rfl, hne, hdigit, hval, Nat.le_of_lt_succ hlt⟩
    · refine ⟨String.ofList ('+' :: ds), fromUtf8_eq_some.mpr h.symm, ?_⟩
      rw [String.toList_ofList]
      exact parseU64_eq_some.mpr ⟨ds, Or.inr rfl, hne, hdigit, hval, Nat.le_of_lt_succ hlt⟩

/-- a line without a slash is no header, and one with slashes is split at the first of them -/
theorem parseGameData_ok {line : List UInt8} {id : Nat} {name : String} :
    parseGameData line = .ok (id, name) ↔
      ∃ text, IdText text id ∧ 47 ∉ text ∧ line = text ++ 47 :: utf8 name := by
  have hsplit : ∀ {a b : List UInt8}, 47 ∉ a → splitn (· == 47) 2 (a ++ 47 :: b) = [a, b] := by
    intro a b ha
    refine splitn_two (fun c hc => ?_) rfl
    rw [beq_eq_false_iff_ne]
    rintro rfl
    exact ha hc
  constructor
  · intro h
    by_cases hmem : 47 ∈ line
    · obtain ⟨a, b, rfl, ha⟩ := List.eq_append_cons_of_mem hmem
      unfold parseGameData at h
      rw [hsplit ha] at h
      dsimp only at h
      split at h
      · cases h
      · rename_i k hk
        split at h
        · cases h
        · rename_i n hn
          cases h
          exact ⟨a, parseId_eq_some.mp hk, ha, by rw [fromUtf8_eq_some.mp hn]⟩
    · unfold parseGameData at h
      rw [splitn_none] at h
      · cases h
      · intro c hc
        rw [beq_eq_false_iff_ne]
        rintro rfl
        exact hmem hc
  · rintro ⟨text, hid, htext, rfl⟩
    unfold parseGameData
    rw [hsplit htext]
    dsimp only
    rw [parseId_eq_some.mpr hid, fromUtf8_eq_some.mpr rfl]

theorem parseGameData_error {line : List UInt8} {e : ConnectionError}
    (h : parseGameData line = .error e) : ∃ what, e = .badData what := by
  unfold parseGameData at h
  split at h
  · split at h
    · cases h
      exact ⟨_, rfl⟩
    · split at h
      · cases h
        exact ⟨_, rfl⟩
      · cases h
  · cases h
    exact ⟨_, rfl⟩

theorem toNat_of_isDigit {c : Char} (h : c.isDigit) : 48 ≤ c.toNat ∧ c.toNat ≤ 57 := by
  unfold Char.isDigit at h
  simp only [Bool.and_eq_true, decide_eq_true_eq, ge_iff_le] at h
  exact h

/-- a digit and a plus are neither the end of a line nor a slash -/
theorem ne_of_mem_idText {text : List UInt8} {id : Nat} (h : IdText text id) {b : UInt8}
    (hb : b ∈ text) : b ≠ 0 ∧ b ≠ 47 := by
  obtain ⟨ds, -, hdigit, -, -, htext⟩ := h
  have hbytes : ∀ l : List Char, (∀ c ∈ l, c = '+' ∨ c.isDigit) → b ∈ utf8 (String.ofList l) →
      b ≠ 0 ∧ b ≠ 47 := by
    intro l hl hb
    have hchar : ∀ c ∈ l, c.toNat = 43 ∨ 48 ≤ c.toNat ∧ c.toNat ≤ 57 := by
      intro c hc
      cases hl c hc with
      | inl h => exact Or.inl (by rw [h]; rfl)
      | inr h => exact Or.inr (toNat_of_isDigit h)
    rw [utf8_ascii (fun c hc => by have := hchar c hc; omega)] at hb
    obtain ⟨c, hc, rfl⟩ := List.mem_map.mp hb
    have hnat := hchar c hc
    rw [ne_eq, ne_eq, ← UInt8.toNat_inj, ← UInt8.toNat_inj, UInt8.toNat_ofNat']
    show ¬c.toNat % 2 ^ 8 = 0 ∧ ¬c.toNat % 2 ^ 8 = 47
    omega
  cases htext with
  | inl h =>
    rw [h] at hb
    exact hbytes ds (fun c hc => Or.inr (hdigit c hc)) hb
  | inr h =>
    rw [h] at hb
    refine hbytes ('+' :: ds) (fun c hc => ?_) hb
    cases List.mem_cons.mp hc with
    | inl h => exact Or.inl h
    | inr h => exact Or.inr (hdigit c h)

theorem utf8_typeText (type : ConnectionType) : ∃ a b, utf8 (typeText type) = [a, b] := by
  cases type with
  | reader => exact ⟨71, 47, by decide⟩
  | writer => exact ⟨80, 47, rfl⟩

theorem typeText_injective {t t' : ConnectionType} (h : utf8 (typeText t) = utf8 (typeText t')) :
    t = t' := by
  revert h
  cases t <;> cases t' <;> decide

theorem idText_toString {id : Nat} (h : id < 2 ^ 64) : IdText (utf8 (toString id)) id := by
  refine ⟨Nat.toDigits 10 id, ?_, fun c hc => ?_, Nat.ofDigitChars_ten_toDigits, h, Or.inl rfl⟩
  · exact Nat.toDigits_ne_nil
  · exact Nat.isDigit_of_mem_toDigits (by decide) (by decide) hc

/-- every header has a place in the grammar -/
theorem encode_wire {header : ConnectionHeader} (hid : header.id < 2 ^ 64)
    (hname : 0 ∉ utf8 header.name)
    (hlen : (utf8 (toString header.id)).length + 1 + (utf8 header.name).length + 1 ≤ 1024)
    (t : List UInt8) : Wire (encode header ++ t) header t := by
  have htext := idText_toString hid
  exact ⟨_, _, htext, fun h => (ne_of_mem_idText htext h).2 rfl, rfl, hname, hlen, rfl⟩

/-! ## the reads -/

section Runs

variable [Tokio] {R : Type} [AsyncBufRead R] {c c' : Connection R}

theorem readType_short (h : (rest c).length < 2) : ∃ e c',
    readType.run c = .error e c' ∧ e.isEof ∧ c'.header = c.header := by
  obtain ⟨e, c', bs, hrun, he, hr⟩ := (readExact_exactly 2).eof c h
  exact ⟨.io e, c', run_bind_error (liftIo_error hrun), decide_eq_true he, (Connection.reads hr).2⟩

/-- the two bytes are gone, whatever they are -/
theorem readType_long {a b : UInt8} {t : List UInt8} (h : rest c = [a, b] ++ t) : ∃ c',
    rest c' = t ∧ c'.header = c.header ∧
    ((∃ type, [a, b] = utf8 (typeText type) ∧ readType.run c = .ok type c') ∨
    (∀ type, [a, b] ≠ utf8 (typeText type)) ∧
      ∃ what, readType.run c = .error (.badData what) c') := by
  obtain ⟨c', hrun, hr⟩ := (readExact_exactly 2).ok c [a, b] t h rfl
  refine ⟨c', hr.rest_right h, (Connection.reads hr).2, ?_⟩
  unfold readType
  rw [run_bind_ok (liftIo_ok hrun), id_eq]
  by_cases hp : [a, b] = utf8 "P/"
  · rw [if_pos hp]
    exact Or.inl ⟨.writer, hp, rfl⟩
  · rw [if_neg hp]
    by_cases hg : [a, b] = utf8 "G/"
    · rw [if_pos hg]
      exact Or.inl ⟨.reader, hg, rfl⟩
    · rw [if_neg hg]
      refine Or.inr ⟨fun type => ?_, _, rfl⟩
      cases type with
      | reader => exact hg
      | writer => exact hp

theorem readLine_ok {line t : List UInt8} (h : rest c = line ++ 0 :: t) (hline : 0 ∉ line)
    (hlen : line.length < 1024) : ∃ c',
    readLine.run c = .ok (line ++ [0]) c' ∧ rest c' = t ∧ c'.header = c.header := by
  have htake : rest (take c 1024) = line ++ 0 :: t.take (1023 - line.length) := by
    rw [rest_take, h, List.take_append, List.take_of_length_le (by omega),
      show 1024 - line.length = (1023 - line.length) + 1 by omega, List.take_succ_cons]
  obtain ⟨r', hrun, hr⟩ := readUntilExact_found (s := ⟨take c 1024, []⟩) htake hline
  have hreads := reads_getRef hr
  rw [getRef_take] at hreads
  refine ⟨getRef r', adaptExcept_ok (onTake_ok (withBuf_ok (s := ⟨r', line ++ [0]⟩) ?_)), ?_,
    (Connection.reads hreads).2⟩
  · rw [run_bind_ok hrun]
    rfl
  · refine hreads.rest_right ?_
    rw [h, List.append_assoc, List.singleton_append]

theorem readLine_error (h : 0 ∉ (rest c).take 1024) : ∃ c',
    readLine.run c = .error (.badData "Connection header is incomplete") c' ∧
      c'.header = c.header := by
  have htake : 0 ∉ rest (take c 1024) := by
    rw [rest_take]
    exact h
  obtain ⟨e, s', bs, hrun, -, hr⟩ := readUntilExact_eof (s := ⟨take c 1024, []⟩) htake
  have hreads := reads_getRef hr
  rw [getRef_take] at hreads
  exact ⟨getRef s'.reader, adaptExcept_error (onTake_error (withBuf_error (run_bind_error hrun))),
    (Connection.reads hreads).2⟩

theorem readGameData_ok {line t : List UInt8} (h : rest c = line ++ 0 :: t) (hline : 0 ∉ line)
    (hlen : line.length < 1024) : ∃ c', rest c' = t ∧ c'.header = c.header ∧
    (∀ id name, parseGameData line = .ok (id, name) → readGameData.run c = .ok (id, name) c') ∧
    (∀ e, parseGameData line = .error e → readGameData.run c = .error e c') := by
  obtain ⟨c', hrun, hrest, hheader⟩ := readLine_ok h hline hlen
  refine ⟨c', hrest, hheader, ?_, ?_⟩
  · intro id name hdata
    unfold readGameData
    rw [run_bind_ok hrun, List.dropLast_concat, hdata]
    rfl
  · intro e hdata
    unfold readGameData
    rw [run_bind_ok hrun, List.dropLast_concat, hdata]
    rfl

/-- the header stays unset, and the error says whether there was any data -/
def Fails (c : Connection R) : Prop := ∃ e c', readAndSetConnectionHeader.run c = .error e c' ∧
  c'.header = c.header ∧
  if (rest c).length < 2 then e = .noData else ∃ what, e = .badData what

theorem readAndSet_of_short (h : (rest c).length < 2) : Fails c := by
  obtain ⟨e, c', hrun, he, hheader⟩ := readType_short h
  refine ⟨.noData, c', ?_, hheader, by rw [if_pos h]⟩
  have htype :=
    adaptExcept_error (f := fun e : ConnectionError => if e.isEof then .noData else e) hrun
  rw [if_pos he] at htype
  exact run_bind_error (run_bind_error htype)

theorem readAndSet_of_type {what : String} (hlen : ¬(rest c).length < 2)
    (hrun : readType.run c = .error (.badData what) c') (hheader : c'.header = c.header) :
    Fails c := by
  refine ⟨.badData what, c', ?_, hheader, by rw [if_neg hlen]; exact ⟨what, rfl⟩⟩
  exact run_bind_error (run_bind_error (adaptExcept_error hrun))

theorem readAndSet_of_gameData {what : String} {type : ConnectionType} {c'' : Connection R}
    (hlen : ¬(rest c).length < 2) (htype : readType.run c = .ok type c')
    (hrun : readGameData.run c' = .error (.badData what) c'') (hheader : c''.header = c.header) :
    Fails c := by
  refine ⟨.badData what, c'', ?_, hheader, by rw [if_neg hlen]; exact ⟨what, rfl⟩⟩
  refine run_bind_error ?_
  unfold readConnectionHeader
  rw [run_bind_ok (adaptExcept_ok htype), run_bind_error hrun]

theorem readAndSet_ok {type : ConnectionType} {id : Nat} {name : String} {c'' : Connection R}
    (htype : readType.run c = .ok type c') (hrun : readGameData.run c' = .ok (id, name) c'') :
    readAndSetConnectionHeader.run c = .ok () (c''.setHeader ⟨type, id, name⟩) := by
  have hheader : readConnectionHeader.run c = .ok ⟨type, id, name⟩ c'' := by
    unfold readConnectionHeader
    rw [run_bind_ok (adaptExcept_ok htype), run_bind_ok hrun]
    rfl
  exact run_bind_ok hheader

/-- a header that is there is set, and the stream goes on after it -/
theorem readAndSet_wire {header : ConnectionHeader} {t : List UInt8}
    (h : Wire (rest c) header t) : ∃ c', readAndSetConnectionHeader.run c = .ok () c' ∧
      c'.header = some header ∧ rest c' = t := by
  obtain ⟨id, name, hid, hslash, hname, hzero, hlen, hs⟩ := h
  obtain ⟨a, b, hab⟩ := utf8_typeText header.type
  have hline : 0 ∉ id ++ 47 :: name := by
    rw [List.mem_append, List.mem_cons]
    rintro (h | h | h)
    · exact (ne_of_mem_idText hid h).1 rfl
    · cases h
    · exact hzero h
  have hlen' : (id ++ 47 :: name).length < 1024 := by
    rw [List.length_append, List.length_cons]
    omega
  have hs' : rest c = [a, b] ++ (id ++ 47 :: name ++ 0 :: t) := by
    rw [hs, hab]
    simp only [List.append_assoc, List.cons_append, List.nil_append]
  obtain ⟨c1, hrest1, -, ⟨type, htype, hrun1⟩ | ⟨hne, -⟩⟩ := readType_long hs'
  · obtain ⟨c2, hrest2, -, hrun2, -⟩ := readGameData_ok hrest1 hline hlen'
    have hdata := parseGameData_ok.mpr ⟨id, hid, hslash, by rw [hname]⟩
    rw [← hab] at htype
    have hok := readAndSet_ok hrun1 (hrun2 _ _ hdata)
    rw [← typeText_injective htype] at hok
    exact ⟨_, hok, rfl, hrest2⟩
  · exact absurd hab.symm (hne header.type)

/-- there is a header, or reading it fails -/
theorem readAndSet_cases (c : Connection R) : (∃ header t, Wire (rest c) header t) ∨ Fails c := by
  by_cases hlen : (rest c).length < 2
  · exact Or.inr (readAndSet_of_short hlen)
  obtain ⟨a, b, u, hu⟩ : ∃ a b u, rest c = [a, b] ++ u := by
    match hc : rest c with
    | [] => exact absurd (by rw [hc]; exact Nat.two_pos) hlen
    | [a] => exact absurd (by rw [hc]; exact Nat.one_lt_two) hlen
    | a :: b :: u => exact ⟨a, b, u, rfl⟩
  obtain ⟨c1, hrest1, hheader1, ⟨type, htype, hrun1⟩ | ⟨hne, what, hrun1⟩⟩ := readType_long hu
  · by_cases hzero : 0 ∈ (rest c1).take 1024
    · obtain ⟨line, v, hv, hline⟩ := List.eq_append_cons_of_mem hzero
      have hline' : rest c1 = line ++ 0 :: (v ++ (rest c1).drop 1024) := by
        rw [← List.cons_append, ← List.append_assoc, ← hv, List.take_append_drop]
      have hlen1 : line.length < 1024 := by
        have hcongr := congrArg List.length hv
        rw [List.length_take, List.length_append, List.length_cons] at hcongr
        omega
      obtain ⟨c2, hrest2, hheader2, hok, herr⟩ := readGameData_ok hline' hline hlen1
      cases hdata : parseGameData line with
      | error e =>
        obtain ⟨what, rfl⟩ := parseGameData_error hdata
        exact Or.inr (readAndSet_of_gameData hlen hrun1 (herr _ hdata) (hheader2.trans hheader1))
      | ok data =>
        obtain ⟨id, name⟩ := data
        obtain ⟨text, hid, hslash, rfl⟩ := parseGameData_ok.mp hdata
        rw [List.mem_append, List.mem_cons, not_or, not_or] at hline
        rw [List.length_append, List.length_cons] at hlen1
        refine Or.inl ⟨⟨type, id, name⟩, rest c2, text, utf8 name, hid, hslash, rfl, hline.2.2,
          by omega, ?_⟩
        rw [hu, ← hrest1, hline', ← hrest2, htype]
        simp only [List.append_assoc, List.cons_append, List.nil_append]
    · obtain ⟨c2, hrun2, hheader2⟩ := readLine_error hzero
      exact Or.inr (readAndSet_of_gameData hlen hrun1 (run_bind_error hrun2)
        (hheader2.trans hheader1))
  · exact Or.inr (readAndSet_of_type hlen hrun1 hheader1)

/-- **a connection gets the header that the grammar finds at its start**, with what comes after it
left to be read, and otherwise one of two errors -/
theorem readAndSetConnectionHeader_exact (r : R) :
    ((∃ c', readAndSetConnectionHeader.run (Connection.newFrom r) = .ok () c') ↔
      ∃ header t, Wire (rest r) header t) ∧
    (∀ header t, Wire (rest r) header t →
      ∃ c', readAndSetConnectionHeader.run (Connection.newFrom r) = .ok () c' ∧
        c'.header = some header ∧ rest c' = t) ∧
    (∀ e c', readAndSetConnectionHeader.run (Connection.newFrom r) = .error e c' →
      c'.header = none ∧
      if (rest r).length < 2 then e = .noData else ∃ what, e = .badData what) ∧
    (∀ header t, header.id < 2 ^ 64 → 0 ∉ utf8 header.name →
      (utf8 (toString header.id)).length + 1 + (utf8 header.name).length + 1 ≤ 1024 →
      rest r = encode header ++ t →
      ∃ c', readAndSetConnectionHeader.run (Connection.newFrom r) = .ok () c' ∧
        c'.header = some header ∧ rest c' = t) := by
  have hcases := readAndSet_cases (Connection.newFrom r)
  refine ⟨⟨?_, ?_⟩, ?_, ?_, ?_⟩
  · rintro ⟨c', hrun⟩
    cases hcases with
    | inl hwire => exact hwire
    | inr hfails =>
      obtain ⟨e, c'', herr, -⟩ := hfails
      rw [herr] at hrun
      cases hrun
  · rintro ⟨header, t, hwire⟩
    obtain ⟨c', hrun, -⟩ := readAndSet_wire (c := Connection.newFrom r) hwire
    exact ⟨c', hrun⟩
  · intro header t hwire
    exact readAndSet_wire (c := Connection.newFrom r) hwire
  · intro e c' hrun
    cases hcases with
    | inl hwire =>
      obtain ⟨header, t, hwire⟩ := hwire
      obtain ⟨c'', hok, -⟩ := readAndSet_wire hwire
      rw [hok] at hrun
      cases hrun
    | inr hfails =>
      obtain ⟨e', c'', herr, hheader, hkind⟩ := hfails
      rw [herr] at hrun
      cases hrun
      exact ⟨hheader, hkind⟩
  · intro header t hid hname hlen hr
    have hwire := encode_wire hid hname hlen t
    rw [← hr] at hwire
    exact readAndSet_wire (c := Connection.newFrom r) hwire

end Runs

/-- a name with a slash, in two pieces, and the first two bytes of a replay -/
theorem readAndSetConnectionHeader_exact_pieces : ∃ c',
    readAndSetConnectionHeader.run (Connection.newFrom (Pieces.mk
      [[71, 47, 49], [50, 47, 97, 47, 98, 0, 7, 8]])) = .ok () c' ∧
    c'.header = some ⟨.reader, 12, "a/b"⟩ ∧ rest c' = [7, 8] := by
  obtain ⟨-, -, -, hencode⟩ := readAndSetConnectionHeader_exact (Pieces.mk
    [[71, 47, 49], [50, 47, 97, 47, 98, 0, 7, 8]])
  exact hencode ⟨.reader, 12, "a/b"⟩ [7, 8] (by decide) (by decide) (by decide) (by decide)

end HeaderReader

end ReplayServer
