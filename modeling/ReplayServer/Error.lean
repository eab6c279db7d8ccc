import ReplayServer.Lib.AsyncIo

/-!
# errors of a connection

`error.rs`.  An input error becomes a connection error where a connection is read.
-/

namespace ReplayServer
open AsyncIo (IoError ErrorKind)

inductive ConnectionError where
  | noData
  | badData (what : String)
  | io (e : IoError)
  | cannotAssignToReplay
  deriving DecidableEq, Repr

namespace ConnectionError

def isEof : ConnectionError → Bool
  | io e => e.kind = .unexpectedEof
  | _ => false

def isNoData : ConnectionError → Bool
  | noData => true
  | _ => false

end ConnectionError

/-- a computation on `σ` that may fail -/
abbrev ConnResult (σ α : Type) := EStateM ConnectionError σ α

/-- `?` on the result of a read -/
def liftIo {σ α : Type} (p : EStateM IoError σ α) : ConnResult σ α :=
  EStateM.adaptExcept ConnectionError.io p

section MapErr

variable {ε ε' σ α : Type} {p : EStateM ε σ α} {f : ε → ε'} {s t : σ}

theorem adaptExcept_ok {a : α} (h : p.run s = .ok a t) :
    (EStateM.adaptExcept f p).run s = .ok a t := by
  rw [EStateM.run_adaptExcept, h]

theorem adaptExcept_error {e : ε} (h : p.run s = .error e t) :
    (EStateM.adaptExcept f p).run s = .error (f e) t := by
  rw [EStateM.run_adaptExcept, h]

theorem liftIo_ok {p : EStateM IoError σ α} {a : α} (h : p.run s = .ok a t) :
    (liftIo p).run s = .ok a t :=
  adaptExcept_ok h

theorem liftIo_error {p : EStateM IoError σ α} {e : IoError} (h : p.run s = .error e t) :
    (liftIo p).run s = .error (.io e) t :=
  adaptExcept_error h

end MapErr

end ReplayServer
