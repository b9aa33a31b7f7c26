import SocketTest.Lib.Memory

/-!
# Callbacks

The three timer containers share one notion of a callback: an event, the function called and the
`client_data` record passed to it. A callback does not touch the container that invokes it.
-/

namespace SocketTest.Timer

open SocketTest.Lib

/-- The call `cb_func(user_data)`. The function is a code address, `0` for `NULL`; the argument is
the number of a `client_data` record. -/
structure Call where
  func : Ptr
  arg : ℕ
  deriving DecidableEq, Repr

end SocketTest.Timer
