/-!
# accept: connection headers

What a connection says about itself at its start: whether it writes or reads, and which replay.
-/

namespace ReplayServer

inductive ConnectionType where
  | reader
  | writer
  deriving DecidableEq, Repr

structure ConnectionHeader where
  type : ConnectionType
  id : Nat
  name : String
  deriving DecidableEq, Repr

end ReplayServer
