import Mathlib.Data.Int.Notation
import Mathlib.Data.Nat.Notation

/-!
# What is kept about a descriptor

`FdCtx`: the two timeouts and the flags of a descriptor. What `fcntl` does to the descriptor itself
is the kernel's.
-/

namespace CoKV

/-- `FdCtx`; `enable_shared_from_this` is not used. -/
structure FdCtx where
  isInit : Bool
  isSocket : Bool
  sysNonblock : Bool
  userNonblock : Bool
  isClosed : Bool
  fd : ℤ
  recvTimeout : UInt64
  sendTimeout : UInt64
  deriving DecidableEq

namespace FdCtx

/-- `SO_RCVTIMEO` -/
def soRcvtimeo : ℤ := 20

/-- The constructor: `stat` is nothing if `fstat` fails, else whether the descriptor is a socket.
It has not been initialised before, so `init` does not return early. -/
def new (fd : ℤ) (stat : Option Bool) : FdCtx where
  isInit := stat.isSome
  isSocket := stat.getD false
  sysNonblock := stat.getD false
  userNonblock := false
  isClosed := false
  fd := fd
  recvTimeout := -1
  sendTimeout := -1

def setTimeout (c : FdCtx) (type : ℤ) (v : UInt64) : FdCtx :=
  if type = soRcvtimeo then { c with recvTimeout := v } else { c with sendTimeout := v }

def getTimeout (c : FdCtx) (type : ℤ) : UInt64 :=
  if type = soRcvtimeo then c.recvTimeout else c.sendTimeout

end FdCtx

end CoKV
