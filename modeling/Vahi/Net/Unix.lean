import Mathlib.Tactic.Ring
import Vahi.Types.Errno

/-!
# Unix stream sockets

`crates/net/src/unix.rs` for stream sockets, and the arms of `sys_read` and `sys_write` for them
(`kernel/src/syscalls/fs_io.rs`). Until a client is accepted its messages go to the listening
socket. A receive drops what does not fit. Calls that wait are steps when they are done waiting.
-/

namespace Vahi.Net

open Vahi.Types Function

abbrev Bytes := List (BitVec 8)

structure UnixSocketInner where
  bindPath : Option Bytes
  peer : Option ℕ
  isListening : Bool
  backlog : List ℕ
  recvQueue : List Bytes
  closed : Bool
  deriving DecidableEq

/-- `UNIX_BOUND`, `UNIX_SOCKETS` and `NEXT_UNIX_HANDLE`. -/
structure UnixState where
  bound : Bytes → Option ℕ
  sockets : ℕ → Option UnixSocketInner
  nextHandle : ℕ

namespace UnixState

def empty : UnixState := ⟨fun _ => none, fun _ => none, 1000⟩

def insert (s : UnixState) (handle : ℕ) (sock : UnixSocketInner) : UnixState :=
  { s with sockets := update s.sockets handle (some sock) }

def modify (s : UnixState) (handle : ℕ) (f : UnixSocketInner → UnixSocketInner) : UnixState :=
  { s with sockets := update s.sockets handle ((s.sockets handle).map f) }

def allocHandle (s : UnixState) : ℕ × UnixState :=
  (s.nextHandle, { s with nextHandle := (s.nextHandle + 1) % 2 ^ 64 })

end UnixState

variable (s : UnixState) (handle : ℕ)

def createUnixSocket : ℕ × UnixState :=
  let (handle, s) := s.allocHandle
  (handle, s.insert handle ⟨none, none, false, [], [], false⟩)

/-- A socket that is bound already keeps its old path as well. -/
def bindUnix (path : Bytes) : Except Errno Unit × UnixState :=
  if s.bound path ≠ none then (.error .eaddrinuse, s)
  else
    match s.sockets handle with
    | none => (.error .ebadf, s)
    | some _ =>
      let s := s.modify handle fun inner => { inner with bindPath := some path }
      (.ok (), { s with bound := update s.bound path (some handle) })

def listenUnix : Except Errno Unit × UnixState :=
  match s.sockets handle with
  | none => (.error .ebadf, s)
  | some inner =>
    if inner.bindPath = none then (.error .einval, s)
    else (.ok (), s.modify handle fun inner => { inner with isListening := true })

/-- The client gets the listener as its peer until it is accepted. -/
def connectUnix (path : Bytes) : Except Errno Unit × UnixState :=
  match s.bound path with
  | none => (.error .econnrefused, s)
  | some target =>
    match s.sockets handle, s.sockets target with
    | none, _ => (.error .ebadf, s)
    | some _, none => (.error .econnrefused, s)
    | some _, some inner =>
      if !inner.isListening then (.error .econnrefused, s)
      else
        let s := s.modify target fun inner => { inner with backlog := inner.backlog ++ [handle] }
        (.ok (), s.modify handle fun inner => { inner with peer := some target })

/-- The accepted socket and the client become peers; none if the call has to wait. -/
def acceptUnix : Option (Except Errno ℕ × UnixState) :=
  match s.sockets handle with
  | none => some (.error .ebadf, s)
  | some inner =>
    if !inner.isListening then some (.error .einval, s)
    else
      match inner.backlog with
      | [] => none
      | client :: backlog =>
        let s := s.modify handle fun inner => { inner with backlog := backlog }
        let (newHandle, s) := s.allocHandle
        let s := s.modify client fun inner => { inner with peer := some newHandle }
        some (.ok newHandle, s.insert newHandle ⟨inner.bindPath, some client, false, [], [], false⟩)

def MAX_UNIX_MSG : ℕ := 2 ^ 20

/-- The bytes are those of the caller's buffer, which can be read or not. -/
def sendtoUnix (buf : Bytes) (faults : Bool) : Except Errno ℕ × UnixState :=
  let data := buf.take MAX_UNIX_MSG
  if faults then (.error .efault, s)
  else
    match s.sockets handle with
    | none => (.error .ebadf, s)
    | some inner =>
      if inner.closed then (.error .epipe, s)
      else
        match inner.peer with
        | none => (.error .edestaddrreq, s)
        | some target =>
          match s.sockets target with
          | none => (.error .econnreset, s)
          | some peer =>
            if peer.closed then (.error .epipe, s)
            else
              (.ok data.length,
                s.modify target fun peer => { peer with recvQueue := peer.recvQueue ++ [data] })

/-- What is put into the caller's buffer, which can be written or not. -/
def recvfromUnix (len : ℕ) (faults : Bool) : Option (Except Errno Bytes × UnixState) :=
  match s.sockets handle with
  | none => some (.error .ebadf, s)
  | some inner =>
    match inner.recvQueue with
    | [] => if inner.closed then some (.ok [], s) else none
    | data :: recvQueue =>
      let s := s.modify handle fun inner => { inner with recvQueue := recvQueue }
      let copyLen := min data.length len
      if faults then some (.error .efault, s) else some (.ok (data.take copyLen), s)

/-- The address of a buffer of the kernel is above the limit for user memory, unless
the buffer is empty and has none. -/
def kernelBufferFaults (count : ℕ) : Bool := count ≠ 0

def sysWriteUnix (buf : Bytes) (faults : Bool) : Except Errno ℕ × UnixState :=
  if faults then (.error .efault, s)
  else sendtoUnix s handle buf (kernelBufferFaults buf.length)

/-- Bytes are taken from the socket before they are copied to the user. -/
def sysReadUnix (count : ℕ) (faults : Bool) : Option (Except Errno Bytes × UnixState) :=
  match recvfromUnix s handle count (kernelBufferFaults count) with
  | none => none
  | some (.error e, s) => some (.error e, s)
  | some (.ok data, s) => if faults then some (.error .efault, s) else some (.ok data, s)

/-! ### Runs -/

inductive UnixCall where
  | create
  | bind (handle : ℕ) (path : Bytes)
  | listen (handle : ℕ)
  | connect (handle : ℕ) (path : Bytes)
  | accept (handle : ℕ)
  | send (handle : ℕ) (buf : Bytes) (faults : Bool)
  | recv (handle len : ℕ) (faults : Bool)
  | write (handle : ℕ) (buf : Bytes) (faults : Bool)
  | read (handle count : ℕ) (faults : Bool)
  deriving DecidableEq

/-- The sockets, with the bytes that each was told it has sent, and those it has received. -/
structure UnixRun where
  net : UnixState
  sent : ℕ → Bytes
  received : ℕ → Bytes

namespace UnixRun

def new : UnixRun := ⟨.empty, fun _ => [], fun _ => []⟩

/-- A send that reports `n` bytes has sent the first `n` of its buffer. -/
def logSent (s : UnixRun) (handle : ℕ) (buf : Bytes) : Except Errno ℕ × UnixState → UnixRun
  | (.ok n, net) => ⟨net, update s.sent handle (s.sent handle ++ buf.take n), s.received⟩
  | (.error _, net) => { s with net := net }

def logReceived (s : UnixRun) (handle : ℕ) : Option (Except Errno Bytes × UnixState) → UnixRun
  | some (.ok data, net) =>
    ⟨net, s.sent, update s.received handle (s.received handle ++ data)⟩
  | some (.error _, net) => { s with net := net }
  | none => s

def step (s : UnixRun) : UnixCall → UnixRun
  | .create => { s with net := (createUnixSocket s.net).2 }
  | .bind handle path => { s with net := (bindUnix s.net handle path).2 }
  | .listen handle => { s with net := (listenUnix s.net handle).2 }
  | .connect handle path => { s with net := (connectUnix s.net handle path).2 }
  | .accept handle =>
    match acceptUnix s.net handle with
    | some (_, net) => { s with net := net }
    | none => s
  | .send handle buf faults => s.logSent handle buf (sendtoUnix s.net handle buf faults)
  | .recv handle len faults => s.logReceived handle (recvfromUnix s.net handle len faults)
  | .write handle buf faults => s.logSent handle buf (sysWriteUnix s.net handle buf faults)
  | .read handle count faults => s.logReceived handle (sysReadUnix s.net handle count faults)

end UnixRun

end Vahi.Net
