import Mathlib.Tactic.Linarith
import ReplayServer.Lib.AsyncIo

/-!
# Streams in memory

A stream that is kept in memory in pieces, and the functions of the library written out as loops
over single bytes: the laws that `AsyncIo` asks for can be met.

* `readLoop_spec`    what a loop reads;
* `Limited`          a reader with a limit;
* `tokio`            the library.
-/

namespace AsyncIo
open AsyncBufRead LeBytes

/-- every read is answered from one piece -/
structure Pieces where
  pieces : List (List UInt8)

namespace Pieces

/-- an empty piece is no end of the stream -/
def trim (self : Pieces) : List (List UInt8) := self.pieces.dropWhile List.isEmpty

theorem flatten_trim (self : Pieces) : self.trim.flatten = self.pieces.flatten := by
  unfold trim
  induction self.pieces with
  | nil => rfl
  | cons p ps ih =>
    cases p with
    | nil => exact ih
    | cons b bs => rfl

theorem trim_cases (self : Pieces) :
    self.trim = [] ∨ ∃ b bs ps, self.trim = (b :: bs) :: ps := by
  unfold trim
  induction self.pieces with
  | nil => exact Or.inl rfl
  | cons p ps ih =>
    cases p with
    | nil => exact ih
    | cons b bs => exact Or.inr ⟨b, bs, ps, rfl⟩

/-- the first piece and the stream after some of its bytes -/
def advance (ps : List (List UInt8)) (n : Nat) : Pieces :=
  ⟨(ps.headD []).drop n :: ps.tail⟩

theorem flatten_advance (ps : List (List UInt8)) (n : Nat) :
    (ps.headD []).take n ++ (advance ps n).pieces.flatten = ps.flatten := by
  cases ps with
  | nil => simp [advance]
  | cons p ps => simp [advance, ← List.append_assoc]

theorem eof_of_headD {self : Pieces} (h : self.trim.headD [] = []) : self.pieces.flatten = [] := by
  rw [← flatten_trim]
  cases self.trim_cases with
  | inl hnil => rw [hnil]; rfl
  | inr hcons =>
    obtain ⟨b, bs, ps, hps⟩ := hcons
    rw [hps] at h
    cases h

instance : AsyncBufRead Pieces where
  pollRead self n := (advance self.trim n, (self.trim.headD []).take n)
  pollFillBuf self := (self, self.trim.headD [])
  consume self n := advance self.trim n
  rest self := self.pieces.flatten
  rest_pollRead self n := by rw [flatten_advance, flatten_trim]
  length_pollRead self n := List.length_take_le _ _
  pollRead_eof self n hn h := by
    refine eof_of_headD ((List.take_eq_nil_iff.mp h).resolve_left ?_)
    omega
  rest_pollFillBuf _ := rfl
  pollFillBuf_eof _ h := eof_of_headD h
  rest_consume self n _ := by rw [flatten_advance, flatten_trim]

end Pieces

/-! ## reading with a limit -/

structure Limited (R : Type) where
  inner : R
  limit : Nat

namespace Limited

variable {R : Type} [AsyncBufRead R]

instance : AsyncBufRead (Limited R) where
  pollRead self n :=
    let x := pollRead self.inner (min n self.limit)
    (⟨x.1, self.limit - x.2.length⟩, x.2)
  pollFillBuf self :=
    let x := pollFillBuf self.inner
    (⟨x.1, self.limit⟩, x.2.take self.limit)
  consume self n := ⟨consume self.inner (min n self.limit), self.limit - min n self.limit⟩
  rest self := (rest self.inner).take self.limit
  rest_pollRead self n := by
    have hlen := length_pollRead self.inner (min n self.limit)
    rw [rest_pollRead self.inner (min n self.limit), List.take_append, List.take_of_length_le]
    omega
  length_pollRead self n := by
    have hlen := length_pollRead self.inner (min n self.limit)
    show (pollRead self.inner (min n self.limit)).2.length ≤ n
    omega
  pollRead_eof self n hn h := by
    show (rest self.inner).take self.limit = []
    by_cases hlimit : self.limit = 0
    · rw [hlimit, List.take_zero]
    · rw [pollRead_eof self.inner (min n self.limit) (by omega) h, List.take_nil]
  rest_pollFillBuf self := by
    show (rest (pollFillBuf self.inner).1).take self.limit = (rest self.inner).take self.limit
    rw [rest_pollFillBuf]
  pollFillBuf_eof self h := by
    show (rest self.inner).take self.limit = []
    cases List.take_eq_nil_iff.mp h with
    | inl hlimit => rw [hlimit, List.take_zero]
    | inr hnil => rw [pollFillBuf_eof _ hnil, List.take_nil]
  rest_consume self n hn := by
    have hn' : n ≤ ((pollFillBuf self.inner).2.take self.limit).length := hn
    rw [List.length_take] at hn'
    show (rest self.inner).take self.limit = ((pollFillBuf self.inner).2.take self.limit).take n ++
      (rest (consume (pollFillBuf self.inner).1 (min n self.limit))).take
        (self.limit - min n self.limit)
    rw [List.take_take, show min n self.limit = n by omega,
      rest_consume self.inner n (by omega), List.take_append, List.take_take,
      show min self.limit n = n by omega, List.length_take,
      show min n (pollFillBuf self.inner).2.length = n by omega]

theorem reads_inner {t t' : Limited R} {bs : List UInt8} (h : Reads t bs t') :
    Reads t.inner bs t'.inner := by
  induction h with
  | nil t => exact .nil _
  | pollRead n h ih => exact .pollRead _ ih
  | pollFillBuf h ih => exact .pollFillBuf ih
  | @consume t t' bs n hn h ih =>
    have hn' : n ≤ ((pollFillBuf t.inner).2.take t.limit).length := hn
    rw [List.length_take] at hn'
    have hmin : min n t.limit = n := by omega
    have hbytes : (pollFillBuf t).2.take n = (pollFillBuf t.inner).2.take n := by
      show ((pollFillBuf t.inner).2.take t.limit).take n = _
      rw [List.take_take, hmin]
    rw [hbytes]
    refine .consume n (by omega) ?_
    have ih' : Reads (consume (pollFillBuf t.inner).1 (min n t.limit)) bs t'.inner := ih
    rw [hmin] at ih'
    exact ih'

end Limited

/-! ## loops -/

section ReadLoop

variable {R α : Type} [AsyncBufRead R]

/-- at most `n` bytes, and none after one that stops the loop -/
def readLoop (stop : UInt8 → Bool) : Nat → R → List UInt8 × R
  | 0, r => ([], r)
  | n + 1, r =>
    match (pollRead r 1).2 with
    | [] => ([], (pollRead r 1).1)
    | b :: _ =>
      if stop b then ([b], (pollRead r 1).1)
      else
        let x := readLoop stop n (pollRead r 1).1
        (b :: x.1, x.2)

def upTo (stop : UInt8 → Bool) : Nat → List UInt8 → List UInt8
  | 0, _ => []
  | _ + 1, [] => []
  | n + 1, b :: bs => if stop b then [b] else b :: upTo stop n bs

/-- one byte, or the end of the stream -/
theorem pollRead_one (r : R) : ((pollRead r 1).2 = [] ∧ rest r = []) ∨
    ∃ b, (pollRead r 1).2 = [b] ∧ rest r = b :: rest (pollRead r 1).1 := by
  have hrest := rest_pollRead r 1
  have hlen := length_pollRead r 1
  cases hbs : (pollRead r 1).2 with
  | nil => exact Or.inl ⟨rfl, pollRead_eof r 1 Nat.one_pos hbs⟩
  | cons b bs =>
    rw [hbs, List.length_cons] at hlen
    have hnil : bs = [] := List.length_eq_zero_iff.mp (by omega)
    rw [hbs, hnil] at hrest
    exact Or.inr ⟨b, by rw [hnil], hrest⟩

theorem readLoop_spec (stop : UInt8 → Bool) (n : Nat) (r : R) :
    (readLoop stop n r).1 = upTo stop n (rest r) ∧
      Reads r (readLoop stop n r).1 (readLoop stop n r).2 := by
  induction n generalizing r with
  | zero => exact ⟨rfl, .nil r⟩
  | succ n ih =>
    have hpoll : ∀ (bs : List UInt8) (r' : R), Reads (pollRead r 1).1 bs r' →
        Reads r ((pollRead r 1).2 ++ bs) r' := fun bs r' h => .pollRead 1 h
    unfold readLoop
    rcases pollRead_one r with ⟨hbs, hrest⟩ | ⟨b, hbs, hrest⟩
    · rw [hbs] at hpoll ⊢
      rw [hrest]
      exact ⟨rfl, hpoll [] _ (.nil _)⟩
    · rw [hbs] at hpoll ⊢
      rw [hrest]
      unfold upTo
      dsimp only
      by_cases hstop : stop b = true
      · rw [if_pos hstop, if_pos hstop]
        exact ⟨rfl, hpoll [] _ (.nil _)⟩
      · rw [if_neg hstop, if_neg hstop]
        exact ⟨congrArg (b :: ·) (ih _).1, hpoll _ _ (ih _).2⟩

theorem upTo_false (n : Nat) (bs : List UInt8) : upTo (fun _ => false) n bs = bs.take n := by
  induction n generalizing bs with
  | zero => rfl
  | succ n ih =>
    cases bs with
    | nil => rfl
    | cons b bs => exact congrArg (b :: ·) (ih bs)

theorem upTo_found {byte : UInt8} {bs : List UInt8} (h : byte ∉ bs) (t : List UInt8) {n : Nat}
    (hn : bs.length < n) : upTo (· == byte) n (bs ++ byte :: t) = bs ++ [byte] := by
  induction bs generalizing n with
  | nil =>
    obtain ⟨k, rfl⟩ := Nat.exists_eq_add_of_lt hn
    simp [upTo]
  | cons b bs ih =>
    rw [List.mem_cons, not_or] at h
    obtain ⟨k, rfl⟩ : ∃ k, n = k + 1 := ⟨n - 1, by omega⟩
    rw [List.length_cons] at hn
    have hb : ¬((b == byte) = true) := by
      rw [beq_iff_eq]
      exact Ne.symm h.1
    rw [List.cons_append, upTo, if_neg hb, ih h.2 (by omega)]
    rfl

theorem upTo_eof {byte : UInt8} {bs : List UInt8} (h : byte ∉ bs) {n : Nat} (hn : bs.length ≤ n) :
    upTo (· == byte) n bs = bs := by
  induction bs generalizing n with
  | nil => cases n <;> rfl
  | cons b bs ih =>
    rw [List.mem_cons, not_or] at h
    obtain ⟨k, rfl⟩ : ∃ k, n = k + 1 := ⟨n - 1, by rw [List.length_cons] at hn; omega⟩
    rw [List.length_cons] at hn
    have hb : ¬((b == byte) = true) := by
      rw [beq_iff_eq]
      exact Ne.symm h.1
    rw [upTo, if_neg hb, ih h.2 (by omega)]

/-- reads into the buffer until a byte stops it -/
def readBuf (stop : UInt8 → Bool) : EStateM IoError (Reading R) Nat := fun s =>
  let x := readLoop stop (rest s.reader).length s.reader
  .ok x.1.length ⟨x.2, s.buf ++ x.1⟩

theorem readBuf_spec {stop : UInt8 → Bool} {r : R} {bs : List UInt8} (buf : List UInt8)
    (h : upTo stop (rest r).length (rest r) = bs) :
    ∃ r', (readBuf stop).run ⟨r, buf⟩ = .ok bs.length ⟨r', buf ++ bs⟩ ∧ Reads r bs r' := by
  obtain ⟨hbs, hr⟩ := readLoop_spec stop (rest r).length r
  rw [h] at hbs
  rw [hbs] at hr
  refine ⟨_, ?_, hr⟩
  show EStateM.Result.ok _ _ = _
  rw [hbs]

def readN (n : Nat) : EStateM IoError R (List UInt8) := fun r =>
  let x := readLoop (fun _ => false) n r
  if x.1.length = n then .ok x.1 x.2 else .error ⟨.unexpectedEof, some "early eof"⟩ x.2

theorem run_readN (n : Nat) (r : R) : (readN n).run r =
    if (readLoop (fun _ => false) n r).1.length = n then
      .ok (readLoop (fun _ => false) n r).1 (readLoop (fun _ => false) n r).2
    else .error ⟨.unexpectedEof, some "early eof"⟩ (readLoop (fun _ => false) n r).2 := rfl

theorem readN_exactly (n : Nat) : ReadsExactly (readN n : EStateM IoError R (List UInt8)) n id := by
  constructor
  · intro r bs t hr hbs
    obtain ⟨h1, h2⟩ := readLoop_spec (fun _ => false) n r
    rw [upTo_false, hr, ← hbs, List.take_left, hbs] at h1
    rw [h1] at h2
    refine ⟨_, ?_, h2⟩
    rw [run_readN, h1, if_pos hbs]
    rfl
  · intro r hlt
    obtain ⟨h1, h2⟩ := readLoop_spec (fun _ => false) n r
    rw [upTo_false, List.take_of_length_le (by omega)] at h1
    refine ⟨⟨.unexpectedEof, some "early eof"⟩, _, _, ?_, rfl, h2⟩
    rw [run_readN, if_neg]
    rw [h1]
    omega

end ReadLoop

instance tokio : Tokio where
  Take := Limited
  bufRead _ := inferInstance
  take r limit := ⟨r, limit⟩
  getRef t := t.inner
  readUntil byte := readBuf (· == byte)
  readToEnd := readBuf (fun _ => false)
  readExact n := readN n
  readU8 := do return ofLeBytes (← readN 1)
  readU32Le := do return ofLeBytes (← readN 4)
  rest_take _ _ := rfl
  getRef_take _ _ := rfl
  reads_getRef := Limited.reads_inner
  readUntil_found r buf bs t byte hr hbs := by
    have hlen : bs.length < (rest r).length := by
      rw [hr, List.length_append, List.length_cons]
      omega
    have hfound := upTo_found hbs t hlen
    rw [← hr] at hfound
    have hbuf := readBuf_spec buf hfound
    rw [List.length_append] at hbuf
    exact hbuf
  readUntil_eof r buf byte h := readBuf_spec buf (upTo_eof h le_rfl)
  readToEnd_ok r buf := readBuf_spec buf (by rw [upTo_false, List.take_length])
  readExact_exactly := readN_exactly
  readU8_exactly := (readN_exactly 1).map ofLeBytes
  readU32Le_exactly := (readN_exactly 4).map ofLeBytes

end AsyncIo
