import Vahi.Lib.Run
import Vahi.Lib.Stream
import Vahi.Types.Errno

/-!
# Endpoints

`ipc_send` and `ipc_recv` (`crates/ipc/src/lib.rs`). A call looks up its endpoint once, and then
tries at most 4097 times under its lock. `Channel` is one endpoint with any number of callers, all
of which may take steps between two tries.
-/

namespace Vahi.Ipc

open Vahi.Lib Vahi.Types List Function

structure IpcHeader where
  msgType : BitVec 32
  flags : BitVec 32
  payloadLen : ℕ
  senderPid : ℕ
  seq : ℕ
  deriving DecidableEq

structure IpcMessage where
  header : IpcHeader
  payload : List (BitVec 8)
  zerocopyRegion : Option ℕ
  deriving DecidableEq

structure IpcEndpoint where
  id : ℕ
  name : List (BitVec 8)
  ownerPid : ℕ
  queue : List IpcMessage
  maxQueueDepth : ℕ
  requiredCaps : ℕ
  clients : List ℕ
  deriving DecidableEq

def IPC_NOWAIT : BitVec 32 := 1

def IpcEndpoint.new (id : ℕ) (name : List (BitVec 8)) (ownerPid maxQueue : ℕ) : IpcEndpoint where
  id := id
  name := name
  ownerPid := ownerPid
  queue := []
  maxQueueDepth := maxQueue
  requiredCaps := 0
  clients := []

/-! ### Calls -/

inductive IpcCall where
  | send (msgType : BitVec 32) (payload : List (BitVec 8)) (flags : BitVec 32) (pid : ℕ)
  | recv (bufLen : ℕ) (flags : BitVec 32)
  deriving DecidableEq

/-- What a call that succeeds returns; a receive also has the bytes it put into its buffer. -/
inductive IpcReply where
  | sent
  | received (msgType : BitVec 32) (data : List (BitVec 8))
  deriving DecidableEq

namespace IpcCall

def flags : IpcCall → BitVec 32
  | send _ _ flags _ => flags
  | recv _ flags => flags

/-- One look at the queue under its lock; none if the call has to wait. -/
def attempt (ep : IpcEndpoint) : IpcCall → Option (IpcReply × IpcEndpoint)
  | send msgType payload flags pid =>
    if ep.queue.length < ep.maxQueueDepth then
      let msg : IpcMessage :=
        ⟨⟨msgType, flags, payload.length, pid, ep.queue.length⟩, payload, none⟩
      some (.sent, { ep with queue := ep.queue ++ [msg] })
    else none
  | recv bufLen _ =>
    match ep.queue with
    | [] => none
    | msg :: queue =>
      let copyLen := min bufLen msg.payload.length
      some (.received msg.header.msgType (msg.payload.take copyLen), { ep with queue := queue })

end IpcCall

/-- Where a caller is: a call that waits has failed a number of times. -/
inductive IpcCaller where
  | idle
  | waiting (call : IpcCall) (attempts : ℕ)
  | returned (call : IpcCall) (result : Except Errno IpcReply)

def IpcCall.turn (ep : IpcEndpoint) (call : IpcCall) (attempts : ℕ) : IpcCaller × IpcEndpoint :=
  match call.attempt ep with
  | some (reply, ep) => (.returned call (.ok reply), ep)
  | none =>
    if call.flags &&& IPC_NOWAIT ≠ 0 ∨ 4096 ≤ attempts then
      (.returned call (.error .eagain), ep)
    else (.waiting call (attempts + 1), ep)

/-! ### Callers that take turns -/

abbrev Content := BitVec 32 × List (BitVec 8)

def IpcMessage.content (m : IpcMessage) : Content := (m.header.msgType, m.payload)

namespace IpcCaller

def accepted : IpcCaller → List Content
  | returned (.send msgType payload _ _) (.ok _) => [(msgType, payload)]
  | _ => []

def received : IpcCaller → List Content
  | returned _ (.ok (.received msgType data)) => [(msgType, data)]
  | _ => []

end IpcCaller

/-- An endpoint with its callers, the messages that successful sends and receives have sent and
received so far, and for each caller whether its last call has changed the endpoint. -/
structure Channel where
  endpoint : IpcEndpoint
  isOpen : Bool
  callers : ℕ → IpcCaller
  accepted : List Content
  received : List Content
  changed : ℕ → Bool

inductive ChannelEvent where
  /-- A call that is not in another call looks up the endpoint. -/
  | start (caller : ℕ) (call : IpcCall)
  | turn (caller : ℕ)
  | close
  deriving DecidableEq

namespace Channel

def new (endpoint : IpcEndpoint) : Channel :=
  ⟨endpoint, true, fun _ => .idle, [], [], fun _ => false⟩

/-- The endpoint in the table is gone after `ipc_close_endpoint`; a call that has found it goes
on with it. -/
def start (s : Channel) (t : ℕ) (call : IpcCall) : Channel :=
  { s with
    callers := update s.callers t
      (if s.isOpen then .waiting call 0 else .returned call (.error .enoent))
    changed := update s.changed t false }

def turn (s : Channel) (t : ℕ) (call : IpcCall) (attempts : ℕ) : Channel :=
  let (caller, endpoint) := call.turn s.endpoint attempts
  { s with
    endpoint := endpoint
    callers := update s.callers t caller
    accepted := s.accepted ++ caller.accepted
    received := s.received ++ caller.received
    changed := update s.changed t (s.changed t || decide (endpoint ≠ s.endpoint)) }

def step (s : Channel) : ChannelEvent → Channel
  | .start t call =>
    match s.callers t with
    | .waiting _ _ => s
    | .idle => s.start t call
    | .returned _ _ => s.start t call
  | .turn t =>
    match s.callers t with
    | .waiting call attempts => s.turn t call attempts
    | .idle => s
    | .returned _ _ => s
  | .close => { s with isOpen := false }

def stream (s : Channel) : Stream Content :=
  ⟨s.accepted, s.received, s.endpoint.queue.map IpcMessage.content⟩

end Channel

/-- What was received are the first messages that were accepted, in order and each
once, and the others are in the queue; the queue is bounded; calls that return `EAGAIN` have
changed nothing. -/
structure BoundedFifo (s : Channel) : Prop where
  isPrefix : s.received <+: s.accepted
  rest : s.accepted = s.received ++ s.endpoint.queue.map IpcMessage.content
  bounded : s.endpoint.queue.length ≤ s.endpoint.maxQueueDepth
  unchanged : ∀ t call, s.callers t = .returned call (.error .eagain) → s.changed t = false

/-- No payload that is sent is longer, and no buffer that is given is shorter. -/
def IpcCall.Within (longest : ℕ) : IpcCall → Prop
  | .send _ payload _ _ => payload.length ≤ longest
  | .recv bufLen _ => longest ≤ bufLen

instance (longest : ℕ) : (call : IpcCall) → Decidable (call.Within longest)
  | .send _ payload _ _ => inferInstanceAs (Decidable (payload.length ≤ longest))
  | .recv bufLen _ => inferInstanceAs (Decidable (longest ≤ bufLen))

def ChannelEvent.Within (longest : ℕ) : ChannelEvent → Prop
  | .start _ call => call.Within longest
  | .turn _ => True
  | .close => True

instance (longest : ℕ) : (e : ChannelEvent) → Decidable (e.Within longest)
  | .start _ call => inferInstanceAs (Decidable (call.Within longest))
  | .turn _ => inferInstanceAs (Decidable True)
  | .close => inferInstanceAs (Decidable True)

/-! ### Steps -/

/-- A caller that waits, or that has got `EAGAIN`, has not changed the endpoint. -/
def CallerOk (longest : ℕ) (changed : Bool) : IpcCaller → Prop
  | .idle => True
  | .waiting call _ => call.Within longest ∧ changed = false
  | .returned _ result => result = .error .eagain → changed = false

structure ChannelInv (longest : ℕ) (s : Channel) : Prop where
  intact : s.stream.Intact
  bounded : s.endpoint.queue.length ≤ s.endpoint.maxQueueDepth
  short : ∀ msg ∈ s.endpoint.queue, msg.payload.length ≤ longest
  callers : ∀ t, CallerOk longest (s.changed t) (s.callers t)

theorem callerOk_update {longest : ℕ} {changed : ℕ → Bool} {callers : ℕ → IpcCaller}
    (h : ∀ u, CallerOk longest (changed u) (callers u)) (t : ℕ) {b : Bool} {caller : IpcCaller}
    (ht : CallerOk longest b caller) (u : ℕ) :
    CallerOk longest (update changed t b u) (update callers t caller u) := by
  by_cases hut : u = t
  · subst hut
    rw [update_self, update_self]
    exact ht
  · rw [update_of_ne hut, update_of_ne hut]
    exact h u

namespace ChannelInv

variable {longest : ℕ} {s : Channel}

theorem boundedFifo (h : ChannelInv longest s) : BoundedFifo s where
  isPrefix := h.intact.isPrefix
  rest := h.intact
  bounded := h.bounded
  unchanged t call ht := by
    have hcaller := h.callers t
    rw [ht] at hcaller
    exact hcaller rfl

theorem new (id : ℕ) (name : List (BitVec 8)) (ownerPid maxQueue : ℕ) :
    ChannelInv longest (.new (.new id name ownerPid maxQueue)) where
  intact := rfl
  bounded := Nat.zero_le _
  short _ hmsg := absurd hmsg not_mem_nil
  callers _ := trivial

theorem start (h : ChannelInv longest s) (t : ℕ) {call : IpcCall} (hcall : call.Within longest) :
    ChannelInv longest (s.start t call) where
  intact := h.intact
  bounded := h.bounded
  short := h.short
  callers := by
    refine callerOk_update h.callers t ?_
    split
    · exact ⟨hcall, rfl⟩
    · exact fun _ => rfl

end ChannelInv

/-- A turn of a send puts its message at the end of the queue and succeeds, or changes
nothing. -/
theorem turn_send (ep : IpcEndpoint) (msgType : BitVec 32) (payload : List (BitVec 8))
    (flags : BitVec 32) (pid attempts : ℕ) :
    (ep.queue.length < ep.maxQueueDepth ∧ ∃ msg : IpcMessage, msg.content = (msgType, payload) ∧
      (IpcCall.send msgType payload flags pid).turn ep attempts =
        (.returned (.send msgType payload flags pid) (.ok .sent),
          { ep with queue := ep.queue ++ [msg] })) ∨
      ∃ caller, (IpcCall.send msgType payload flags pid).turn ep attempts = (caller, ep) ∧
        (caller = .returned (.send msgType payload flags pid) (.error .eagain) ∨
          caller = .waiting (.send msgType payload flags pid) (attempts + 1)) := by
  unfold IpcCall.turn IpcCall.attempt
  dsimp only
  by_cases hroom : ep.queue.length < ep.maxQueueDepth
  · rw [if_pos hroom]
    exact .inl ⟨hroom, ⟨⟨msgType, flags, payload.length, pid, ep.queue.length⟩, payload, none⟩,
      rfl, rfl⟩
  rw [if_neg hroom]
  dsimp only
  split
  · exact .inr ⟨_, rfl, .inl rfl⟩
  · exact .inr ⟨_, rfl, .inr rfl⟩

/-- A turn of a receive takes the first message and succeeds, or changes nothing. -/
theorem turn_recv (ep : IpcEndpoint) (bufLen : ℕ) (flags : BitVec 32) (attempts : ℕ) :
    (∃ msg queue, ep.queue = msg :: queue ∧
      (IpcCall.recv bufLen flags).turn ep attempts =
        (.returned (.recv bufLen flags) (.ok (.received msg.header.msgType
          (msg.payload.take (min bufLen msg.payload.length)))), { ep with queue := queue })) ∨
      ∃ caller, (IpcCall.recv bufLen flags).turn ep attempts = (caller, ep) ∧
        (caller = .returned (.recv bufLen flags) (.error .eagain) ∨
          caller = .waiting (.recv bufLen flags) (attempts + 1)) := by
  unfold IpcCall.turn IpcCall.attempt
  cases hqueue : ep.queue with
  | nil =>
    dsimp only
    split
    · exact .inr ⟨_, rfl, .inl rfl⟩
    · exact .inr ⟨_, rfl, .inr rfl⟩
  | cons msg queue => exact .inl ⟨msg, queue, rfl, rfl⟩

namespace ChannelInv

variable {longest : ℕ} {s : Channel}

variable {t attempts : ℕ} {call : IpcCall}

variable (h : ChannelInv longest s)

include h

/-- A turn that changes nothing, after which the caller waits or has got `EAGAIN`. -/
theorem turn_same (ht : s.callers t = .waiting call attempts) {caller : IpcCaller}
    (hturn : call.turn s.endpoint attempts = (caller, s.endpoint))
    (hcaller : caller = .returned call (.error .eagain) ∨ caller = .waiting call (attempts + 1)) :
    ChannelInv longest (s.turn t call attempts) := by
  have hok := h.callers t
  rw [ht] at hok
  have hlogs : caller.accepted = [] ∧ caller.received = [] := by
    rcases hcaller with rfl | rfl
    · cases call <;> exact ⟨rfl, rfl⟩
    · exact ⟨rfl, rfl⟩
  rw [Channel.turn, hturn]
  dsimp only
  rw [hlogs.1, hlogs.2, append_nil, append_nil, hok.2]
  refine ⟨h.intact, h.bounded, h.short, callerOk_update h.callers t ?_⟩
  rw [decide_eq_false fun hne => hne rfl]
  rcases hcaller with rfl | rfl
  · exact fun _ => rfl
  · exact ⟨hok.1, rfl⟩

/-- A turn that succeeds, if the queue stays intact, bounded and short. -/
theorem turn_done {reply : IpcReply} {ep : IpcEndpoint}
    (hturn : call.turn s.endpoint attempts = (.returned call (.ok reply), ep))
    (hintact : Stream.Intact ⟨s.accepted ++ (IpcCaller.returned call (.ok reply)).accepted,
      s.received ++ (IpcCaller.returned call (.ok reply)).received,
      ep.queue.map IpcMessage.content⟩)
    (hbounded : ep.queue.length ≤ ep.maxQueueDepth)
    (hshort : ∀ msg ∈ ep.queue, msg.payload.length ≤ longest) :
    ChannelInv longest (s.turn t call attempts) := by
  rw [Channel.turn, hturn]
  exact ⟨hintact, hbounded, hshort, callerOk_update h.callers t fun heq => by cases heq⟩

theorem turn
    (ht : s.callers t = .waiting call attempts) : ChannelInv longest (s.turn t call attempts) := by
  have hok := h.callers t
  rw [ht] at hok
  have hwithin := hok.1
  cases call with
  | send msgType payload flags pid =>
    rcases turn_send s.endpoint msgType payload flags pid attempts with
      ⟨hroom, msg, hmsg, hturn⟩ | ⟨caller, hturn, hcaller⟩
    · refine h.turn_done hturn ?_ ?_ fun m hm => ?_
      · have hpush := (h.intact.push_iff [(msgType, payload)] [msg.content]).mpr (by rw [hmsg])
        change s.accepted ++ [(msgType, payload)] =
          s.received ++ [] ++ (s.endpoint.queue ++ [msg]).map IpcMessage.content
        rw [map_append, append_nil]
        exact hpush
      · rw [length_append, length_singleton]
        exact hroom
      · rcases mem_append.mp hm with hm | hm
        · exact h.short m hm
        · have hpayload : msg.payload = payload := congrArg Prod.snd hmsg
          rw [mem_singleton.mp hm, hpayload]
          exact hwithin
    · exact h.turn_same ht hturn hcaller
  | recv bufLen flags =>
    rcases turn_recv s.endpoint bufLen flags attempts with
      ⟨msg, queue, hqueue, hturn⟩ | ⟨caller, hturn, hcaller⟩
    · have hbounded := h.bounded
      rw [hqueue, length_cons] at hbounded
      have hmem : ∀ m ∈ queue, m ∈ s.endpoint.queue := fun m hm => by
        rw [hqueue]
        exact mem_cons_of_mem msg hm
      have hlen : msg.payload.length ≤ bufLen := by
        have hmsg : msg ∈ s.endpoint.queue := by
          rw [hqueue]
          exact mem_cons_self
        exact Nat.le_trans (h.short msg hmsg) hwithin
      refine h.turn_done hturn ?_ ?_ fun m hm => h.short m (hmem m hm)
      · have hpop := (h.intact.pop_iff 1 [msg.content]).mpr (by
          change _ = (s.endpoint.queue.map IpcMessage.content).take 1
          rw [hqueue]
          rfl)
        change s.accepted ++ [] = s.received ++
          [(msg.header.msgType, msg.payload.take (min bufLen msg.payload.length))] ++
            queue.map IpcMessage.content
        rw [Nat.min_eq_right hlen, take_length, append_nil]
        have hdrop : (s.endpoint.queue.map IpcMessage.content).drop 1 =
            queue.map IpcMessage.content := by
          rw [hqueue]
          rfl
        rw [← hdrop]
        exact hpop
      · change queue.length ≤ s.endpoint.maxQueueDepth
        omega
    · exact h.turn_same ht hturn hcaller

theorem step {e : ChannelEvent} (he : e.Within longest) :
    ChannelInv longest (s.step e) := by
  cases e with
  | start t call =>
    rw [Channel.step]
    split
    · exact h
    · exact h.start t he
    · exact h.start t he
  | turn t =>
    rw [Channel.step]
    split
    · next call attempts ht => exact h.turn ht
    · exact h
    · exact h
  | close => exact ⟨h.intact, h.bounded, h.short, h.callers⟩

end ChannelInv

/-- Every interleaving of calls on a new endpoint, of any number of callers whose buffers
are as long as the payloads. -/
theorem boundedFifo_of_within (id : ℕ) (name : List (BitVec 8)) (ownerPid maxQueue longest : ℕ)
    (events : List ChannelEvent) (h : ∀ e ∈ events, e.Within longest) :
    Along Channel.step (fun s e => BoundedFifo (s.step e))
      (.new (.new id name ownerPid maxQueue)) events := by
  refine along_of_inv (I := ChannelInv longest) (fun s e hs he => ?_)
    (ChannelInv.new id name ownerPid maxQueue) (along_of_mem h _)
  exact ⟨(hs.step he).boundedFifo, hs.step he⟩

/-- Two senders and a receiver on an endpoint for one message: the second send and the second
receive fail. -/
theorem boundedFifo_oneSlot :
    let events : List ChannelEvent := [.start 0 (.send 7 [1, 2] 0 5), .start 1 (.send 8 [3] 1 6),
      .turn 0, .turn 1, .start 2 (.recv 2 1), .turn 2, .start 2 (.recv 4 1), .turn 2]
    Along Channel.step (fun s e => BoundedFifo (s.step e)) (.new (.new 1 [97] 1 1)) events :=
  boundedFifo_of_within 1 [97] 1 1 2 _ (by decide)

end Vahi.Ipc
