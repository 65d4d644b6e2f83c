/-!
# Error codes

The part of `Errno` (`crates/types/src/errno.rs`) that the modelled calls return.
-/

namespace Vahi.Types

inductive Errno where
  | eperm
  | enoent
  | eio
  | enoexec
  | eagain
  | enomem
  | eacces
  | efault
  | ebusy
  | einval
  | emsgsize
  | esrch
  | ebadf
  | eexist
  | emfile
  | enospc
  | eoverflow
  | echild
  | espipe
  | enotdir
  | eintr
  | eidrm
  | enosys
  | ecanceled
  | epipe
  | eaddrinuse
  | econnrefused
  | edestaddrreq
  | econnreset
  deriving DecidableEq

namespace Errno

def value : Errno → Int
  | eperm => -1
  | enoent => -2
  | eio => -5
  | enoexec => -8
  | eagain => -11
  | enomem => -12
  | eacces => -13
  | efault => -14
  | ebusy => -16
  | einval => -22
  | emsgsize => -90
  | esrch => -3
  | ebadf => -9
  | eexist => -17
  | emfile => -24
  | enospc => -28
  | eoverflow => -75
  | echild => -10
  | espipe => -29
  | enotdir => -20
  | eintr => -4
  | eidrm => -43
  | enosys => -38
  | ecanceled => -125
  | epipe => -32
  | eaddrinuse => -98
  | econnrefused => -111
  | edestaddrreq => -89
  | econnreset => -104

/-- `errno as u64`, as it is put in the result register. -/
def asU64 (e : Errno) : BitVec 64 := BitVec.ofInt 64 e.value

end Errno

end Vahi.Types
