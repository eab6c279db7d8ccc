import Mathlib.Algebra.Ring.Nat
import Mathlib.Data.List.Basic
import Mathlib.Tactic.Common

/-!
# Byte streams

Readers that hand out their bytes in pieces of any size, until the end of the stream.  What a
reader is made of is left open, and so is the library with the functions that read from it:
`AsyncBufRead` and `Tokio` are classes, and their laws say what is documented of them.

* `Reads.rest`         a row of reads hands out the front of the stream;
* `borrow`             a part of the state lent to a computation;
* `toLeBytes_ofLeBytes` nothing is lost between bytes and an integer.
-/

namespace AsyncIo

inductive ErrorKind where
  | unexpectedEof
  | alreadyExists
  | other
  deriving DecidableEq, Repr

structure IoError where
  kind : ErrorKind
  message : Option String
  deriving DecidableEq, Repr

/-- an error that only has its kind -/
def IoError.ofKind (kind : ErrorKind) : IoError := ⟨kind, none⟩

class AsyncBufRead (R : Type) where
  /-- at most so many bytes, and none at the end of the stream -/
  pollRead : R → Nat → R × List UInt8
  /-- the buffered bytes, and none at the end of the stream -/
  pollFillBuf : R → R × List UInt8
  consume : R → Nat → R
  /-- not a method: the bytes up to the end of the stream -/
  rest : R → List UInt8
  rest_pollRead : ∀ r n, rest r = (pollRead r n).2 ++ rest (pollRead r n).1
  length_pollRead : ∀ r n, (pollRead r n).2.length ≤ n
  pollRead_eof : ∀ r n, 0 < n → (pollRead r n).2 = [] → rest r = []
  rest_pollFillBuf : ∀ r, rest (pollFillBuf r).1 = rest r
  pollFillBuf_eof : ∀ r, (pollFillBuf r).2 = [] → rest r = []
  rest_consume : ∀ r n, n ≤ (pollFillBuf r).2.length →
    rest r = (pollFillBuf r).2.take n ++ rest (consume (pollFillBuf r).1 n)

open AsyncBufRead

section Reads

variable {R : Type} [AsyncBufRead R]

/-- some reads that hand out `bs` in all -/
inductive Reads : R → List UInt8 → R → Prop where
  | nil (r : R) : Reads r [] r
  | pollRead {r r' : R} {bs : List UInt8} (n : Nat) (h : Reads (pollRead r n).1 bs r') :
      Reads r ((pollRead r n).2 ++ bs) r'
  | pollFillBuf {r r' : R} {bs : List UInt8} (h : Reads (pollFillBuf r).1 bs r') : Reads r bs r'
  | consume {r r' : R} {bs : List UInt8} (n : Nat) (hn : n ≤ (pollFillBuf r).2.length)
      (h : Reads (consume (pollFillBuf r).1 n) bs r') : Reads r ((pollFillBuf r).2.take n ++ bs) r'

namespace Reads

variable {r r' r'' : R} {bs cs : List UInt8}

/-- the stream goes on where the reads have stopped -/
theorem rest (h : Reads r bs r') : AsyncBufRead.rest r = bs ++ AsyncBufRead.rest r' := by
  induction h with
  | nil r => rfl
  | pollRead n h ih => rw [rest_pollRead _ n, ih, List.append_assoc]
  | pollFillBuf h ih => rw [← rest_pollFillBuf, ih]
  | consume n hn h ih => rw [rest_consume _ n hn, ih, List.append_assoc]

theorem trans (h1 : Reads r bs r') (h2 : Reads r' cs r'') : Reads r (bs ++ cs) r'' := by
  induction h1 with
  | nil r => exact h2
  | pollRead n h ih =>
    rw [List.append_assoc]
    exact pollRead n (ih h2)
  | pollFillBuf h ih => exact pollFillBuf (ih h2)
  | consume n hn h ih =>
    rw [List.append_assoc]
    exact consume n hn (ih h2)

theorem rest_right {t : List UInt8} (h : Reads r bs r') (hr : AsyncBufRead.rest r = bs ++ t) :
    AsyncBufRead.rest r' = t := by
  rw [h.rest] at hr
  exact List.append_cancel_left hr

end Reads

end Reads

/-! ## computations with a state -/

section Bind

variable {ε σ α β : Type} {p : EStateM ε σ α} {f : α → EStateM ε σ β} {s t : σ}

theorem run_bind_ok {a : α} (h : p.run s = .ok a t) : (p >>= f).run s = (f a).run t := by
  rw [EStateM.run_bind, h]

theorem run_bind_error {e : ε} (h : p.run s = .error e t) : (p >>= f).run s = .error e t := by
  rw [EStateM.run_bind, h]

end Bind

section Borrow

variable {ε σ τ α : Type}

/-- runs a computation on a part of the state, and puts the part back -/
def borrow (lend : σ → τ) (back : τ → σ → σ) (p : EStateM ε τ α) : EStateM ε σ α := fun s =>
  match p.run (lend s) with
  | .ok a t => .ok a (back t s)
  | .error e t => .error e (back t s)

variable {lend : σ → τ} {back : τ → σ → σ} {p : EStateM ε τ α} {s : σ} {t : τ}

theorem run_borrow : (borrow lend back p).run s =
    match p.run (lend s) with
    | .ok a t => .ok a (back t s)
    | .error e t => .error e (back t s) := rfl

theorem borrow_ok {a : α} (h : p.run (lend s) = .ok a t) :
    (borrow lend back p).run s = .ok a (back t s) := by
  rw [run_borrow, h]

theorem borrow_error {e : ε} (h : p.run (lend s) = .error e t) :
    (borrow lend back p).run s = .error e (back t s) := by
  rw [run_borrow, h]

end Borrow

/-- a reader and the bytes that were read from it -/
structure Reading (R : Type) where
  reader : R
  buf : List UInt8

section Reading

variable {R α : Type}

/-- reads without the buffer -/
def onReader (p : EStateM IoError R α) : EStateM IoError (Reading R) α :=
  borrow Reading.reader (fun r s => { s with reader := r }) p

/-- a buffer that lives as long as the computation -/
def withBuf (p : EStateM IoError (Reading R) α) : EStateM IoError R α :=
  borrow (fun r => ⟨r, []⟩) (fun s _ => s.reader) p

/-- `extend_from_slice` -/
def extend (bs : List UInt8) : EStateM IoError (Reading R) Unit :=
  modify (fun s => { s with buf := s.buf ++ bs })

variable {p : EStateM IoError R α} {q : EStateM IoError (Reading R) α} {s : Reading R} {r : R}
  {a : α} {e : IoError}

theorem withBuf_ok (h : q.run ⟨r, []⟩ = .ok a s) : (withBuf q).run r = .ok a s.reader := by
  unfold withBuf
  exact borrow_ok h

theorem withBuf_error (h : q.run ⟨r, []⟩ = .error e s) : (withBuf q).run r = .error e s.reader := by
  unfold withBuf
  exact borrow_error h

theorem onReader_ok (h : p.run s.reader = .ok a r) : (onReader p).run s = .ok a ⟨r, s.buf⟩ :=
  borrow_ok h

theorem onReader_error (h : p.run s.reader = .error e r) :
    (onReader p).run s = .error e ⟨r, s.buf⟩ :=
  borrow_error h

end Reading

/-! ## integers -/

/-- integers of a fixed size, the least byte first -/
class LeBytes (α : Type) where
  size : Nat
  toLeBytes : α → List UInt8
  ofLeBytes : List UInt8 → α
  length_toLeBytes : ∀ a, (toLeBytes a).length = size
  toLeBytes_ofLeBytes : ∀ bs, bs.length = size → toLeBytes (ofLeBytes bs) = bs
  ofLeBytes_toLeBytes : ∀ a, ofLeBytes (toLeBytes a) = a

open LeBytes

instance : LeBytes UInt8 where
  size := 1
  toLeBytes b := [b]
  ofLeBytes bs := bs.headD 0
  length_toLeBytes _ := rfl
  toLeBytes_ofLeBytes bs h := by
    obtain ⟨b, rfl⟩ := List.length_eq_one_iff.mp h
    rfl
  ofLeBytes_toLeBytes _ := rfl

/-- the number that the bytes spell -/
def leNat : List UInt8 → Nat
  | [] => 0
  | b :: bs => b.toNat + 256 * leNat bs

/-- the last `n` bytes of a number -/
def natLe : Nat → Nat → List UInt8
  | 0, _ => []
  | n + 1, k => UInt8.ofNat k :: natLe n (k / 256)

theorem length_natLe (n k : Nat) : (natLe n k).length = n := by
  induction n generalizing k with
  | zero => rfl
  | succ n ih => rw [natLe, List.length_cons, ih]

theorem natLe_leNat (bs : List UInt8) : natLe bs.length (leNat bs) = bs := by
  induction bs with
  | nil => rfl
  | cons b bs ih =>
    have hb := b.toNat_lt
    have hdiv : (b.toNat + 256 * leNat bs) / 256 = leNat bs := by omega
    have hmod : UInt8.ofNat (b.toNat + 256 * leNat bs) = b := by
      rw [← UInt8.toNat_inj, UInt8.toNat_ofNat']
      omega
    rw [leNat, List.length_cons, natLe, hdiv, hmod, ih]

theorem leNat_natLe (n k : Nat) : leNat (natLe n k) = k % 256 ^ n := by
  induction n generalizing k with
  | zero => rw [natLe, leNat, Nat.pow_zero, Nat.mod_one]
  | succ n ih =>
    have hpow : 256 ^ (n + 1) = 256 * 256 ^ n := Nat.pow_succ'
    rw [natLe, leNat, ih, UInt8.toNat_ofNat', hpow]
    exact Nat.mod_mul.symm

theorem leNat_lt (bs : List UInt8) : leNat bs < 256 ^ bs.length := by
  induction bs with
  | nil => exact Nat.zero_lt_one
  | cons b bs ih =>
    have hb := b.toNat_lt
    rw [leNat, List.length_cons, Nat.pow_succ']
    omega

instance : LeBytes UInt32 where
  size := 4
  toLeBytes v := natLe 4 v.toNat
  ofLeBytes bs := UInt32.ofNat (leNat bs)
  length_toLeBytes v := length_natLe 4 v.toNat
  toLeBytes_ofLeBytes bs h := by
    have hlt : leNat bs < UInt32.size := by
      have hbs := leNat_lt bs
      rw [h] at hbs
      exact hbs
    rw [UInt32.toNat_ofNat_of_lt' hlt, ← h, natLe_leNat]
  ofLeBytes_toLeBytes v := by
    have hmod : v.toNat % 256 ^ 4 = v.toNat := Nat.mod_eq_of_lt v.toNat_lt
    rw [leNat_natLe, hmod, UInt32.ofNat_toNat]

/-! ## the library -/

section ReadsExactly

variable {R α : Type} [AsyncBufRead R]

/-- `p` takes `n` bytes and decodes them; it fails where the stream has fewer -/
structure ReadsExactly (p : EStateM IoError R α) (n : Nat) (decode : List UInt8 → α) : Prop where
  ok : ∀ (r : R) (bs t : List UInt8), rest r = bs ++ t → bs.length = n →
    ∃ r', p.run r = .ok (decode bs) r' ∧ Reads r bs r'
  eof : ∀ r : R, (rest r).length < n →
    ∃ e r' bs, p.run r = .error e r' ∧ e.kind = .unexpectedEof ∧ Reads r bs r'

theorem ReadsExactly.map {p : EStateM IoError R α} {n : Nat} {decode : List UInt8 → α}
    (hp : ReadsExactly p n decode) {β : Type} (f : α → β) :
    ReadsExactly (do return f (← p)) n (fun bs => f (decode bs)) := by
  constructor
  · intro r bs t hr hbs
    obtain ⟨r', hrun, hreads⟩ := hp.ok r bs t hr hbs
    exact ⟨r', run_bind_ok hrun, hreads⟩
  · intro r hlt
    obtain ⟨e, r', bs, hrun, he, hreads⟩ := hp.eof r hlt
    exact ⟨e, r', bs, run_bind_error hrun, he, hreads⟩

end ReadsExactly

/-- the readers and functions of `tokio::io` -/
class Tokio where
  /-- a reader that ends after a number of bytes -/
  Take : Type → Type
  [bufRead : ∀ (R : Type) [AsyncBufRead R], AsyncBufRead (Take R)]
  take {R : Type} [AsyncBufRead R] : R → Nat → Take R
  /-- the reader below -/
  getRef {R : Type} [AsyncBufRead R] : Take R → R
  /-- up to a byte, or the end; the bytes are appended, the result is their number -/
  readUntil {R : Type} [AsyncBufRead R] : UInt8 → EStateM IoError (Reading R) Nat
  /-- up to the end; the bytes are appended, the result is their number -/
  readToEnd {R : Type} [AsyncBufRead R] : EStateM IoError (Reading R) Nat
  readExact {R : Type} [AsyncBufRead R] : Nat → EStateM IoError R (List UInt8)
  readU8 {R : Type} [AsyncBufRead R] : EStateM IoError R UInt8
  readU32Le {R : Type} [AsyncBufRead R] : EStateM IoError R UInt32
  rest_take {R : Type} [AsyncBufRead R] : ∀ (r : R) (limit : Nat),
    rest (take r limit) = (rest r).take limit
  getRef_take {R : Type} [AsyncBufRead R] : ∀ (r : R) (limit : Nat), getRef (take r limit) = r
  /-- what is read goes through the reader below -/
  reads_getRef {R : Type} [AsyncBufRead R] : ∀ {t t' : Take R} {bs : List UInt8},
    Reads t bs t' → Reads (getRef t) bs (getRef t')
  readUntil_found {R : Type} [AsyncBufRead R] : ∀ (r : R) (buf bs t : List UInt8) (byte : UInt8),
    rest r = bs ++ byte :: t → byte ∉ bs →
    ∃ r', (readUntil byte).run ⟨r, buf⟩ = .ok (bs.length + 1) ⟨r', buf ++ (bs ++ [byte])⟩ ∧
      Reads r (bs ++ [byte]) r'
  readUntil_eof {R : Type} [AsyncBufRead R] : ∀ (r : R) (buf : List UInt8) (byte : UInt8),
    byte ∉ rest r →
    ∃ r', (readUntil byte).run ⟨r, buf⟩ = .ok (rest r).length ⟨r', buf ++ rest r⟩ ∧
      Reads r (rest r) r'
  readToEnd_ok {R : Type} [AsyncBufRead R] : ∀ (r : R) (buf : List UInt8),
    ∃ r', readToEnd.run ⟨r, buf⟩ = .ok (rest r).length ⟨r', buf ++ rest r⟩ ∧ Reads r (rest r) r'
  readExact_exactly {R : Type} [AsyncBufRead R] : ∀ n,
    ReadsExactly (readExact n : EStateM _ R _) n id
  readU8_exactly {R : Type} [AsyncBufRead R] :
    ReadsExactly (readU8 : EStateM _ R _) (size UInt8) ofLeBytes
  readU32Le_exactly {R : Type} [AsyncBufRead R] :
    ReadsExactly (readU32Le : EStateM _ R _) (size UInt32) ofLeBytes

instance [Tokio] (R : Type) [AsyncBufRead R] : AsyncBufRead (Tokio.Take R) := Tokio.bufRead R

namespace Tokio

variable [Tokio] {R α : Type} [AsyncBufRead R]

/-- a computation on the first bytes of a reader -/
def onTake (limit : Nat) (p : EStateM IoError (Take R) α) : EStateM IoError R α :=
  borrow (fun r => take r limit) (fun t _ => getRef t) p

/-- the same where the bytes are appended to the buffer -/
def onTakeBuf (limit : Nat) (p : EStateM IoError (Reading (Take R)) α) :
    EStateM IoError (Reading R) α :=
  borrow (fun s => ⟨take s.reader limit, s.buf⟩) (fun s _ => ⟨getRef s.reader, s.buf⟩) p

theorem onTake_ok {limit : Nat} {p : EStateM IoError (Take R) α} {r : R} {t : Take R} {a : α}
    (h : p.run (take r limit) = .ok a t) : (onTake limit p).run r = .ok a (getRef t) :=
  borrow_ok h

theorem onTake_error {limit : Nat} {p : EStateM IoError (Take R) α} {r : R} {t : Take R}
    {e : IoError} (h : p.run (take r limit) = .error e t) :
    (onTake limit p).run r = .error e (getRef t) :=
  borrow_error h

theorem onTakeBuf_ok {limit : Nat} {p : EStateM IoError (Reading (Take R)) α} {s : Reading R}
    {t : Reading (Take R)} {a : α} (h : p.run ⟨take s.reader limit, s.buf⟩ = .ok a t) :
    (onTakeBuf limit p).run s = .ok a ⟨getRef t.reader, t.buf⟩ :=
  borrow_ok (s := s) h

end Tokio

end AsyncIo
