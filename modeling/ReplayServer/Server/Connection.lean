import ReplayServer.Accept.Header
import ReplayServer.Lib.Grammar

/-!
# server: connections

A connection is read through its own reader.  The writing half, the id for the logs and the
metrics play no part in reading a header.

* `Connection.reads`              reading from a connection leaves its header alone;
* `recognises_readUntilExact`     the texts that `read_until_exact` accepts.
-/

namespace ReplayServer
open AsyncIo AsyncIo.AsyncBufRead AsyncIo.Tokio

structure Connection (R : Type) where
  reader : R
  header : Option ConnectionHeader

namespace Connection

variable {R : Type} [AsyncBufRead R]

/-- `Connection::new_from` -/
def newFrom (reader : R) : Connection R := ⟨reader, none⟩

def setHeader (self : Connection R) (header : ConnectionHeader) : Connection R :=
  { self with header := some header }

instance : AsyncBufRead (Connection R) where
  pollRead self n :=
    ({ self with reader := (pollRead self.reader n).1 }, (pollRead self.reader n).2)
  pollFillBuf self :=
    ({ self with reader := (pollFillBuf self.reader).1 }, (pollFillBuf self.reader).2)
  consume self amt := { self with reader := consume self.reader amt }
  rest self := rest self.reader
  rest_pollRead self := rest_pollRead self.reader
  length_pollRead self := length_pollRead self.reader
  pollRead_eof self := pollRead_eof self.reader
  rest_pollFillBuf self := rest_pollFillBuf self.reader
  pollFillBuf_eof self := pollFillBuf_eof self.reader
  rest_consume self := rest_consume self.reader

/-- a connection is read through its reader, and its header stays -/
theorem reads {c c' : Connection R} {bs : List UInt8} (h : Reads c bs c') :
    Reads c.reader bs c'.reader ∧ c'.header = c.header := by
  induction h with
  | nil c => exact ⟨.nil _, rfl⟩
  | pollRead n h ih => exact ⟨.pollRead n ih.1, ih.2⟩
  | pollFillBuf h ih => exact ⟨.pollFillBuf ih.1, ih.2⟩
  | consume n hn h ih => exact ⟨.consume n hn ih.1, ih.2⟩

end Connection

section ReadUntilExact

variable [Tokio] {R : Type} [AsyncBufRead R]

def readUntilExact (byte : UInt8) : EStateM IoError (Reading R) Nat := do
  let result ← readUntil byte
  let buf := (← get).buf
  if result = 0 ∨ buf[buf.length - 1]? ≠ some byte then
    throw ⟨.unexpectedEof, some s!"Reached end of stream while reading until '{byte}'"⟩
  else
    return result

theorem readUntilExact_found {byte : UInt8} {s : Reading R} {bs t : List UInt8}
    (hs : rest s.reader = bs ++ byte :: t) (hbs : byte ∉ bs) :
    Copies (readUntilExact byte) s (bs.length + 1) (bs ++ [byte]) := by
  obtain ⟨r', hrun, hr⟩ := readUntil_found s.reader s.buf bs t byte hs hbs
  refine ⟨r', ?_, hr⟩
  unfold readUntilExact
  rw [run_bind_ok hrun, run_bind_ok (EStateM.run_get _)]
  have hlast : (s.buf ++ (bs ++ [byte]))[(s.buf ++ (bs ++ [byte])).length - 1]? = some byte := by
    rw [← List.getLast?_eq_getElem?, ← List.append_assoc, List.getLast?_concat]
  rw [if_neg]
  · rfl
  · rintro (h | h)
    · exact Nat.succ_ne_zero _ h
    · exact h hlast

theorem readUntilExact_eof {byte : UInt8} {s : Reading R} (hs : byte ∉ rest s.reader) :
    FailsEof (readUntilExact byte) s := by
  obtain ⟨r', hrun, hr⟩ := readUntil_eof s.reader s.buf byte hs
  refine ⟨⟨.unexpectedEof, some s!"Reached end of stream while reading until '{byte}'"⟩,
    ⟨r', s.buf ++ rest s.reader⟩, _, ?_, rfl, hr⟩
  unfold readUntilExact
  rw [run_bind_ok hrun, run_bind_ok (EStateM.run_get _), if_pos]
  · rfl
  · by_cases hnil : rest s.reader = []
    · exact Or.inl (congrArg List.length hnil)
    · -- the last byte of the buffer has just been read
      right
      rw [← List.getLast?_eq_getElem?, List.getLast?_append, List.getLast?_eq_some_getLast hnil]
      intro hlast
      rw [Option.some_or, Option.some.injEq] at hlast
      exact hs (hlast ▸ List.getLast_mem hnil)

theorem recognises_readUntilExact (byte : UInt8) :
    Recognises (readUntilExact byte : EStateM IoError (Reading R) Nat)
      (ofLength (terminated byte)) := by
  constructor
  · rintro s n h t hs ⟨⟨bs, hbs, rfl⟩, rfl⟩
    rw [List.append_assoc] at hs
    rw [List.length_append]
    exact readUntilExact_found hs hbs
  · intro s hs
    refine readUntilExact_eof fun hmem => ?_
    obtain ⟨bs, t, ht, hbs⟩ := List.eq_append_cons_of_mem hmem
    refine hs _ (bs ++ [byte]) t ?_ ⟨⟨bs, hbs, rfl⟩, rfl⟩
    rw [ht, List.append_assoc, List.singleton_append]

end ReadUntilExact

end ReplayServer
