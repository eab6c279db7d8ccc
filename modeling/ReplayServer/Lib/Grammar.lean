import Mathlib.Computability.Language
import Mathlib.Order.CompletePartialOrder
import ReplayServer.Lib.AsyncIo

/-!
# Parsers that copy what they read

`Recognises p G`: where the stream starts with a word of `G v`, the parser `p` gives the value `v`,
reads that word and no more, and appends it to its buffer; where the stream starts with no word of
any value, the parser fails with an end of file.

* `Recognises.bind`        parsers in a row recognise the product of the languages;
* `Recognises.times`       a counted loop recognises the power;
* `Recognises.unique`      no stream starts with two words.
-/

namespace AsyncIo
open AsyncBufRead LeBytes

/-- `for _ in 0..n` -/
def times {ε σ : Type} : Nat → EStateM ε σ Unit → EStateM ε σ Unit
  | 0, _ => pure ()
  | n + 1, p => do p; times n p

/-- all words of a length -/
def words (n : Nat) : Language UInt8 := {h | h.length = n}

/-- the words that end with the first `byte` in them -/
def terminated (byte : UInt8) : Language UInt8 := {h | ∃ bs, byte ∉ bs ∧ h = bs ++ [byte]}

/-- the words of `L` that have the length -/
def ofLength (L : Language UInt8) (n : Nat) : Language UInt8 := {h | h ∈ L ∧ h.length = n}

section Grammar

variable {R α β : Type} [AsyncBufRead R]

/-- `p` gives `v` and moves the word `h` to the buffer -/
def Copies (p : EStateM IoError (Reading R) α) (s : Reading R) (v : α) (h : List UInt8) : Prop :=
  ∃ r', p.run s = .ok v ⟨r', s.buf ++ h⟩ ∧ Reads s.reader h r'

/-- `p` fails with an end of file, after any number of reads -/
def FailsEof (p : EStateM IoError (Reading R) α) (s : Reading R) : Prop :=
  ∃ e s' bs, p.run s = .error e s' ∧ e.kind = .unexpectedEof ∧ Reads s.reader bs s'.reader

structure Recognises (p : EStateM IoError (Reading R) α) (G : α → Language UInt8) : Prop where
  accept : ∀ (s : Reading R) (v : α) (h t : List UInt8), rest s.reader = h ++ t → h ∈ G v →
    Copies p s v h
  reject : ∀ s : Reading R, (∀ v h t, rest s.reader = h ++ t → h ∉ G v) → FailsEof p s

variable {p : EStateM IoError (Reading R) α} {f : α → EStateM IoError (Reading R) β}
  {q : EStateM IoError (Reading R) β} {G : α → Language UInt8} {H : α → β → Language UInt8}
  {K : β → Language UInt8} {s : Reading R} {v : α} {w : β} {h k : List UInt8}

/-! ## one after the other -/

/-- the first parser has read its word, the second one reads its own -/
theorem Copies.bind {r' : R} (hrun : p.run s = .ok v ⟨r', s.buf ++ h⟩) (hr : Reads s.reader h r')
    (hf : Copies (f v) ⟨r', s.buf ++ h⟩ w k) : Copies (p >>= f) s w (h ++ k) := by
  obtain ⟨r'', hrun', hr'⟩ := hf
  refine ⟨r'', ?_, hr.trans hr'⟩
  rw [run_bind_ok hrun, hrun', List.append_assoc]

theorem FailsEof.bind_left (hp : FailsEof p s) : FailsEof (p >>= f) s := by
  obtain ⟨e, s', bs, hrun, he, hr⟩ := hp
  exact ⟨e, s', bs, run_bind_error hrun, he, hr⟩

theorem FailsEof.bind_right {r' : R} (hrun : p.run s = .ok v ⟨r', s.buf ++ h⟩)
    (hr : Reads s.reader h r') (hf : FailsEof (f v) ⟨r', s.buf ++ h⟩) : FailsEof (p >>= f) s := by
  obtain ⟨e, s', bs, hrun', he, hr'⟩ := hf
  exact ⟨e, s', h ++ bs, (run_bind_ok hrun).trans hrun', he, hr.trans hr'⟩

namespace Recognises

/-- the second parser may depend on the value of the first -/
theorem bind (hp : Recognises p G) (hf : ∀ v, Recognises (f v) (H v)) :
    Recognises (p >>= f) (fun w => ⨆ v, G v * H v w) := by
  constructor
  · intro s w h t hs hh
    obtain ⟨v, hv⟩ := Language.mem_iSup.mp hh
    obtain ⟨a, ha, b, hb, rfl⟩ := Language.mem_mul.mp hv
    rw [List.append_assoc] at hs
    obtain ⟨r', hrun, hr⟩ := hp.accept s v a (b ++ t) hs ha
    exact Copies.bind hrun hr ((hf v).accept _ w b t (hr.rest_right hs) hb)
  · intro s hs
    by_cases hex : ∃ v a t, rest s.reader = a ++ t ∧ a ∈ G v
    · -- the first word is there, so the second one is not
      obtain ⟨v, a, t, hat, ha⟩ := hex
      obtain ⟨r', hrun, hr⟩ := hp.accept s v a t hat ha
      refine FailsEof.bind_right hrun hr ((hf v).reject _ ?_)
      intro w b t' ht' hb
      have hrest : rest s.reader = a ++ b ++ t' := by
        rw [hr.rest, List.append_assoc]
        exact congrArg (a ++ ·) ht'
      exact hs w (a ++ b) t' hrest
        (Language.mem_iSup.mpr ⟨v, Language.mem_mul.mpr ⟨a, ha, b, hb, rfl⟩⟩)
    · refine FailsEof.bind_left (hp.reject s ?_)
      intro v a t hat ha
      exact hex ⟨v, a, t, hat, ha⟩

theorem seq (hp : Recognises p G) (hq : Recognises q K) :
    Recognises (p >>= fun _ => q) (fun w => (⨆ v, G v) * K w) := by
  have hbind := hp.bind (fun _ => hq)
  simp only [← Language.iSup_mul] at hbind
  exact hbind

theorem bind_seq {f : α → EStateM IoError (Reading R) Unit} {H : α → Language UInt8}
    (hp : Recognises p G) (hf : ∀ v, Recognises (f v) (fun _ => H v)) (hq : Recognises q K) :
    Recognises (p >>= fun v => f v >>= fun _ => q) (fun w => (⨆ v, G v * H v) * K w) := by
  have hseq := (hp.bind hf).seq hq
  rw [bind_assoc] at hseq
  simp only [iSup_const] at hseq
  exact hseq

theorem congr (hp : Recognises p G) {G' : α → Language UInt8} (hG : ∀ v, G v = G' v) :
    Recognises p G' := by
  rw [← funext hG]
  exact hp

theorem pure (a : Unit) : Recognises (pure a : EStateM IoError (Reading R) Unit) (fun _ => 1) := by
  constructor
  · intro s v h t _ hh
    rw [(Language.mem_one h).mp hh]
    exact ⟨s.reader, by rw [List.append_nil]; rfl, .nil _⟩
  · intro s hs
    exact absurd ((Language.mem_one _).mpr rfl) (hs a [] _ rfl)

theorem times {p : EStateM IoError (Reading R) Unit} {L : Language UInt8}
    (hp : Recognises p (fun _ => L)) (n : Nat) :
    Recognises (AsyncIo.times n p) (fun _ => L ^ n) := by
  induction n with
  | zero => exact pure ()
  | succ n ih =>
    refine (hp.seq ih).congr fun _ => ?_
    rw [pow_succ', iSup_const]

/-- the word that the stream starts with is the only one -/
theorem unique (hp : Recognises p G) {r : R} {v v' : α} {h h' t t' : List UInt8} (hh : h ∈ G v)
    (hh' : h' ∈ G v') (ht : rest r = h ++ t) (ht' : rest r = h' ++ t') : v = v' ∧ h = h' := by
  obtain ⟨r1, hrun, -⟩ := hp.accept ⟨r, []⟩ v h t ht hh
  obtain ⟨r2, hrun', -⟩ := hp.accept ⟨r, []⟩ v' h' t' ht' hh'
  rw [hrun] at hrun'
  cases hrun'
  exact ⟨rfl, rfl⟩

end Recognises

/-! ## integers -/

/-- the words of all values of an integer type -/
theorem iSup_toLeBytes [LeBytes α] :
    (⨆ v : α, ({toLeBytes v} : Language UInt8)) = words (size α) := by
  ext h
  rw [Language.mem_iSup]
  constructor
  · rintro ⟨v, rfl⟩
    exact length_toLeBytes v
  · intro hh
    exact ⟨ofLeBytes h, (toLeBytes_ofLeBytes h hh).symm⟩

/-- the words of all lengths -/
theorem iSup_ofLength (L : Language UInt8) : (⨆ n, ofLength L n) = L := by
  ext h
  rw [Language.mem_iSup]
  constructor
  · rintro ⟨n, hn⟩
    exact hn.1
  · intro hh
    exact ⟨h.length, hh, rfl⟩

end Grammar

end AsyncIo
