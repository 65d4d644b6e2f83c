import Vahi.Ipc.MqQueue
import Vahi.Lib.Arc
import Vahi.Task.Process

/-!
# Creation, sharing and release of message queues

`mq_open` and `mq_unlink` (`kernel/src/ipc/mqueue/mod.rs`), the accounting of queue memory
(`queue.rs`), and the operations on descriptors that copy and drop references to queues.
-/

namespace Vahi.Ipc

open Vahi.Lib Vahi.Types Vahi.Task

/-! ## The account -/

def MQ_MSG_OVERHEAD : ℕ := 96

/-- A `u64` result, if it does not overflow. -/
def checked (n : ℕ) : Except Errno ℕ := if n < 2 ^ 64 then .ok n else .error .eoverflow

def messageBytes (attr : MqAttr) : Except Errno ℕ := do
  let maxmsg := attr.mqMaxmsg.toNat
  let payload ← checked (maxmsg * attr.mqMsgsize.toNat)
  let overhead ← checked (maxmsg * MQ_MSG_OVERHEAD)
  checked (payload + overhead)

abbrev MqBytes := BitVec 32 → Option ℕ

def MqBytes.set (m : MqBytes) (uid : BitVec 32) (value : Option ℕ) : MqBytes :=
  fun u => if u = uid then value else m u

/-- The bytes of a queue are charged to its user as a whole when it is made. -/
def chargeMsgbytes (m : MqBytes) (uid : BitVec 32) (bytes limit : ℕ) : Except Errno MqBytes := do
  let used := (m uid).getD 0
  let total ← checked (used + bytes)
  if limit < total then .error .emfile else .ok (m.set uid (some total))

/-- An account that falls to zero is removed. -/
def releaseMsgbytes (m : MqBytes) (uid : BitVec 32) (bytes : ℕ) : MqBytes :=
  match m uid with
  | none => m
  | some used => if used - bytes = 0 then m.set uid none else m.set uid (some (used - bytes))

/-! ## The state -/

structure MqQueueHandle where
  inner : MqQueue
  ownerUid : BitVec 32
  charge : ℕ
  deriving DecidableEq

def MqQueueHandle.new (attr : MqAttr) (ownerUid : BitVec 32) (charge : ℕ) : MqQueueHandle :=
  ⟨.new attr, ownerUid, charge⟩

def MqQueueHandle.clearNotify (pid : BitVec 64) (handle : MqQueueHandle) : MqQueueHandle :=
  { handle with inner := handle.inner.clearNotify pid }

/-- A name: the queue, by its cell, and the metadata shared by every open of it. -/
structure MqEntry where
  queue : ℕ
  mode : BitVec 32
  uid : BitVec 32
  gid : BitVec 32
  deriving DecidableEq

inductive Descriptor where
  | mqueue (object : ℕ)
  | other
  deriving DecidableEq

/-- `objects` are the open descriptions, of which only the queue matters here; `names` are
those of all IPC namespaces; `tables` are the descriptor tables of the processes.
`releases` records on which queues the destructor has released a charge. -/
structure MqSystem where
  queues : List (Cell MqQueueHandle)
  objects : List (Cell ℕ)
  names : List ((ℕ × String) × MqEntry)
  tables : List (List (Option Descriptor))
  bytes : MqBytes
  releases : List ℕ

structure Caller where
  cred : Credentials
  umask : BitVec 32
  rlimMsgqueue : Int

namespace Caller

def CAP_SYS_RESOURCE : BitVec 64 := 1 <<< 24

def privileged (c : Caller) : Bool :=
  c.cred.euid = 0 || c.cred.capEffective &&& CAP_SYS_RESOURCE ≠ 0

/-- A negative limit is none at all. -/
def msgqueueLimit (c : Caller) : ℕ :=
  if 0 ≤ c.rlimMsgqueue then c.rlimMsgqueue.toNat else 2 ^ 64 - 1

end Caller

namespace MqSystem

def init (n : ℕ) : MqSystem := ⟨[], [], [], List.replicate n [], fun _ => none, []⟩

variable (s : MqSystem) (p : ℕ)

def lookup (ns : ℕ) (name : String) : Option MqEntry :=
  (s.names.find? fun e => e.1 = (ns, name)).map Prod.snd

/-! ## References -/

/-- A queue reference is dropped; with the last one the handle's destructor runs. -/
def dropQueue (i : ℕ) : MqSystem :=
  match Arc.drop s.queues i with
  | (none, queues) => { s with queues := queues }
  | (some handle, queues) =>
    if 0 < handle.charge then
      { s with
        queues := queues
        bytes := releaseMsgbytes s.bytes handle.ownerUid handle.charge
        releases := i :: s.releases }
    else { s with queues := queues }

def dropObject (i : ℕ) : MqSystem :=
  match Arc.drop s.objects i with
  | (none, objects) => { s with objects := objects }
  | (some queue, objects) => { s with objects := objects }.dropQueue queue

def cloneDescriptor : Option Descriptor → MqSystem
  | some (.mqueue i) => { s with objects := Arc.clone s.objects i }
  | some .other | none => s

def installFd (d : Descriptor) : ℕ × MqSystem :=
  let table := s.tables.getD p []
  match table.findIdx? Option.isNone with
  | some i => (i, { s with tables := s.tables.set p (table.set i (some d)) })
  | none => (table.length, { s with tables := s.tables.set p (table ++ [some d]) })

/-- The description of an opened entry takes over its queue reference. -/
def openEntry (entry : MqEntry) : ℕ × MqSystem :=
  { s with objects := Arc.alloc s.objects entry.queue }.installFd p (.mqueue s.objects.length)

/-! ## The calls -/

def O_CREAT : BitVec 32 := 0x40

def O_EXCL : BitVec 32 := 0x80

def DFLT_MSGMAX : Int := 10

def DFLT_MSGSIZEMAX : Int := 8192

def DFLT_QUEUESMAX : ℕ := 256

def HARD_MSGMAX : Int := 65536

def HARD_MSGSIZEMAX : Int := 16 * 1024 * 1024

/-- The access bits of an open mode: 4 read, 2 write. -/
def needOf (oflag : BitVec 32) : BitVec 32 :=
  if oflag &&& 3 = 0 then 4 else if oflag &&& 3 = 1 then 2 else 6

/-- The branch of `mq_open` for a name that exists, with a clone of its entry. -/
def openExisting (caller : Caller) (entry : MqEntry) (oflag : BitVec 32) :
    Except Errno ℕ × MqSystem :=
  let s := { s with queues := Arc.clone s.queues entry.queue }
  if oflag &&& O_CREAT ≠ 0 ∧ oflag &&& O_EXCL ≠ 0 then (.error .eexist, s.dropQueue entry.queue)
  else if !checkFilePermission caller.cred ⟨entry.mode, entry.uid, entry.gid⟩ (needOf oflag) then
    (.error .eacces, s.dropQueue entry.queue)
  else
    let (fd, s) := s.openEntry p entry
    (.ok fd, s)

def attrAccepted (caller : Caller) (attr : MqAttr) : Bool :=
  let maxMsgs := if caller.privileged then HARD_MSGMAX else DFLT_MSGMAX
  let maxSize := if caller.privileged then HARD_MSGSIZEMAX else DFLT_MSGSIZEMAX
  !(attr.mqMaxmsg.toInt ≤ 0 || maxMsgs < attr.mqMaxmsg.toInt ||
    attr.mqMsgsize.toInt ≤ 0 || maxSize < attr.mqMsgsize.toInt)

/-- A new queue under a name: one reference in the entry of the namespace, one returned. -/
def create (ns : ℕ) (caller : Caller) (attr : MqAttr) (name : String)
    (mode : BitVec 32) : Except Errno (MqEntry × MqSystem) :=
  if !attrAccepted caller attr then .error .einval
  else
    match messageBytes attr with
    | .error e => .error e
    | .ok charge =>
      if DFLT_QUEUESMAX ≤ s.names.countP (fun e => e.1.1 = ns) ∧ !caller.privileged then
        .error .enospc
      else
        match chargeMsgbytes s.bytes caller.cred.euid charge caller.msgqueueLimit with
        | .error e => .error e
        | .ok bytes =>
          let entry : MqEntry := {
            queue := s.queues.length
            mode := mode &&& ~~~caller.umask &&& 0o777
            uid := caller.cred.euid
            gid := caller.cred.egid }
          let queues := Arc.alloc s.queues (.new attr caller.cred.euid charge)
          .ok (entry, { s with
            queues := Arc.clone queues entry.queue
            names := s.names ++ [((ns, name), entry)]
            bytes := bytes })

/-- `mq_open` by process `p`; `attr` and `name` are what could be copied from the user. -/
def mqOpen (ns : ℕ) (caller : Caller) (attr : Except Errno (Option MqAttr))
    (name : Except Errno String) (oflag mode : BitVec 32) : Except Errno ℕ × MqSystem :=
  match attr, name with
  | .error e, _ => (.error e, s)
  | .ok _, .error e => (.error e, s)
  | .ok attr, .ok name =>
    if oflag &&& 3 = 3 then (.error .einval, s)
    else if s.tables.length ≤ p then (.error .esrch, s)
    else
      match s.lookup ns name with
      | some entry => s.openExisting p caller entry oflag
      | none =>
        if oflag &&& O_CREAT = 0 then (.error .enoent, s)
        else
          match s.create ns caller (attr.getD .defaultAttrs) name mode with
          | .error e => (.error e, s)
          | .ok (entry, s) =>
            let (fd, s) := s.openEntry p entry
            (.ok fd, s)

/-- The name goes; the queue stays for those who hold it. -/
def mqUnlink (ns : ℕ) (name : Except Errno String) : Except Errno ℕ × MqSystem :=
  match name with
  | .error e => (.error e, s)
  | .ok name =>
    if s.tables.length ≤ p then (.error .esrch, s)
    else
      match s.lookup ns name with
      | none => (.error .enoent, s)
      | some entry =>
        (.ok 0, { s with names := s.names.eraseP fun e => e.1 = (ns, name) }.dropQueue entry.queue)

def clearNotify (s : MqSystem) (object p : ℕ) : MqSystem :=
  match s.objects[object]? with
  | none => s
  | some c => { s with
      queues := Arc.update s.queues c.value (MqQueueHandle.clearNotify (BitVec.ofNat 64 p)) }

def sysClose (fd : ℕ) : Except Errno ℕ × MqSystem :=
  if s.tables.length ≤ p then (.error .esrch, s)
  else
    let table := s.tables.getD p []
    match table[fd]?.join with
    | none => (.error .ebadf, s)
    | some desc =>
      let s := { s with tables := s.tables.set p (table.set fd none) }
      match desc with
      | .other => (.ok 0, s)
      | .mqueue i =>
        -- only the final close deregisters the notification
        let s := if Arc.strong s.objects i = 1 then s.clearNotify i p else s
        (.ok 0, s.dropObject i)

def sysDup (fd : ℕ) : Except Errno ℕ × MqSystem :=
  if s.tables.length ≤ p then (.error .esrch, s)
  else
    match (s.tables.getD p [])[fd]?.join with
    | none => (.error .ebadf, s)
    | some desc =>
      let (fd', s) := (s.cloneDescriptor (some desc)).installFd p desc
      (.ok fd', s)

/-- The child shares the open queues of its parent. -/
def forkTable : Except Errno ℕ × MqSystem :=
  if s.tables.length ≤ p then (.error .esrch, s)
  else
    let table := s.tables.getD p []
    let s := table.foldl cloneDescriptor s
    (.ok s.tables.length, { s with tables := s.tables ++ [table] })

/-- Each descriptor of the process is dropped, its notification first. -/
def exitTable : Except Errno ℕ × MqSystem :=
  if s.tables.length ≤ p then (.error .esrch, s)
  else
    let table := s.tables.getD p []
    (.ok 0, table.foldl (fun s desc =>
      match desc with
      | some (.mqueue i) => (s.clearNotify i p).dropObject i
      | some .other | none => s) { s with tables := s.tables.set p [] })

end MqSystem

inductive MqCall where
  | mqOpen (p ns : ℕ) (caller : Caller) (attr : Except Errno (Option MqAttr))
      (name : Except Errno String) (oflag mode : BitVec 32)
  | mqUnlink (p ns : ℕ) (name : Except Errno String)
  | close (p fd : ℕ)
  | dup (p fd : ℕ)
  | fork (p : ℕ)
  | exit (p : ℕ)

namespace MqSystem

def exec (s : MqSystem) : MqCall → Except Errno ℕ × MqSystem
  | .mqOpen p ns caller attr name oflag mode => s.mqOpen p ns caller attr name oflag mode
  | .mqUnlink p ns name => s.mqUnlink p ns name
  | .close p fd => s.sysClose p fd
  | .dup p fd => s.sysDup p fd
  | .fork p => s.forkTable p
  | .exit p => s.exitTable p

def run (s : MqSystem) (calls : List MqCall) : MqSystem :=
  calls.foldl (fun s call => (s.exec call).2) s

end MqSystem

end Vahi.Ipc
