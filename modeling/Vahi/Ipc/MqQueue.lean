import Vahi.Lib.StableQueue
import Vahi.Types.Errno

/-!
# POSIX message queues

`MqQueue` (`kernel/src/ipc/mqueue/queue.rs`): every sequence of calls on a new queue is a run of a
bounded stable priority queue.
-/

namespace Vahi.Ipc

open Vahi.Lib Vahi.Types List

def MQ_PRIO_MAX : BitVec 32 := 32768

structure MqNotify where
  ownerPid : BitVec 64
  signo : BitVec 32
  kind : BitVec 32
  deriving DecidableEq

structure MqMsg where
  data : List (BitVec 8)
  prio : BitVec 32
  deriving DecidableEq

/-- The fields are `i64`; the reserved words are left out. -/
structure MqAttr where
  mqFlags : BitVec 64
  mqMaxmsg : BitVec 64
  mqMsgsize : BitVec 64
  mqCurmsgs : BitVec 64
  deriving DecidableEq

def MqAttr.defaultAttrs : MqAttr := ⟨0, 10, 8192, 0⟩

structure MqQueue where
  msgs : List MqMsg
  maxMsgs : ℕ
  maxMsgSize : ℕ
  notify : Option MqNotify
  deriving DecidableEq

namespace MqQueue

/-- The casts `as usize` read the attributes as unsigned numbers. -/
def new (attr : MqAttr) : MqQueue :=
  ⟨[], attr.mqMaxmsg.toNat, attr.mqMsgsize.toNat, none⟩

variable (q : MqQueue)

/-- The flags belong to the open description, so the caller gives them. -/
def getAttr (flags : BitVec 32) : MqAttr where
  mqFlags := flags.signExtend 64
  mqMaxmsg := BitVec.ofNat 64 q.maxMsgs
  mqMsgsize := BitVec.ofNat 64 q.maxMsgSize
  mqCurmsgs := BitVec.ofNat 64 q.msgs.length

def isFull : Bool := q.maxMsgs ≤ q.msgs.length

/-- Behind the messages of its priority; only a message into an empty queue notifies. -/
def send (data : List (BitVec 8)) (prio : BitVec 32) : Except Errno (Option MqNotify) × MqQueue :=
  if MQ_PRIO_MAX ≤ prio then (.error .einval, q)
  else if q.maxMsgSize < data.length then (.error .emsgsize, q)
  else if q.isFull then (.error .eagain, q)
  else
    let pos := (q.msgs.findIdx? fun m => m.prio < prio).getD q.msgs.length
    let msgs := q.msgs.insertIdx pos ⟨data, prio⟩
    if msgs.length = 1 then (.ok q.notify, { q with msgs := msgs, notify := none })
    else (.ok none, { q with msgs := msgs })

/-- The result, the queue and the caller's buffer afterwards. -/
def receive (buf : List (BitVec 8)) : Except Errno (ℕ × BitVec 32) × MqQueue × List (BitVec 8) :=
  match q.msgs with
  | [] => (.error .eagain, q, buf)
  | msg :: msgs =>
    if buf.length < msg.data.length then (.error .emsgsize, q, buf)
    else (.ok (msg.data.length, msg.prio), { q with msgs := msgs },
      msg.data ++ buf.drop msg.data.length)

def registerNotify (notify : MqNotify) : Except Errno Unit × MqQueue :=
  if q.notify.isSome then (.error .ebusy, q)
  else (.ok (), { q with notify := some notify })

def clearNotify (pid : BitVec 64) : MqQueue :=
  if q.notify.any (·.ownerPid == pid) then { q with notify := none } else q

end MqQueue

inductive MqOp where
  | send (data : List (BitVec 8)) (prio : BitVec 32)
  | receive (buf : List (BitVec 8))
  | registerNotify (notify : MqNotify)
  | clearNotify (pid : BitVec 64)
  deriving DecidableEq

inductive MqResult where
  | sent (notify : Option MqNotify)
  | received (len : ℕ) (prio : BitVec 32) (buf : List (BitVec 8))
  | done
  | failed (e : Errno)
  deriving DecidableEq

namespace MqQueue

def exec (q : MqQueue) : MqOp → MqQueue × MqResult
  | .send data prio =>
    match q.send data prio with
    | (.ok notify, q') => (q', .sent notify)
    | (.error e, q') => (q', .failed e)
  | .receive buf =>
    match q.receive buf with
    | (.ok (len, prio), q', buf') => (q', .received len prio buf')
    | (.error e, q', _) => (q', .failed e)
  | .registerNotify notify =>
    match q.registerNotify notify with
    | (.ok _, q') => (q', .done)
    | (.error e, q') => (q', .failed e)
  | .clearNotify pid => (q.clearNotify pid, .done)

def run (q : MqQueue) (ops : List MqOp) : MqQueue := ops.foldl (fun q op => (q.exec op).1) q

def history (q : MqQueue) : List MqOp → List (MqOp × MqResult)
  | [] => []
  | op :: ops => (op, (q.exec op).2) :: history (q.exec op).1 ops

end MqQueue

/-! ## What a call does -/

def MqMsg.key (m : MqMsg) : ℕ := m.prio.toNat

namespace MqQueue

/-- The position searched for is the place of the new message. -/
theorem insertIdx_position (msgs : List MqMsg) (msg : MqMsg) :
    msgs.insertIdx ((msgs.findIdx? fun m => m.prio < msg.prio).getD msgs.length) msg =
      insertByKey MqMsg.key msg msgs := by
  have hpos : ((msgs.findIdx? fun m => m.prio < msg.prio).getD msgs.length) =
      msgs.findIdx fun m => decide (m.key < msg.key) := by
    rw [findIdx_eq_getD_findIdx?]
    rfl
  rw [hpos]
  rfl

variable (q : MqQueue)

theorem send_cases (data : List (BitVec 8)) (prio : BitVec 32) :
    (∃ e, q.send data prio = (.error e, q) ∧
      (MQ_PRIO_MAX ≤ prio ∨ q.maxMsgSize < data.length ∨ q.maxMsgs ≤ q.msgs.length)) ∨
    (prio < MQ_PRIO_MAX ∧ data.length ≤ q.maxMsgSize ∧ q.msgs.length < q.maxMsgs ∧
      q.send data prio = (.ok (if q.msgs = [] then q.notify else none),
        { q with
          msgs := insertByKey MqMsg.key ⟨data, prio⟩ q.msgs
          notify := if q.msgs = [] then none else q.notify })) := by
  unfold send
  by_cases hprio : MQ_PRIO_MAX ≤ prio
  · exact Or.inl ⟨.einval, if_pos hprio, Or.inl hprio⟩
  by_cases hsize : q.maxMsgSize < data.length
  · exact Or.inl ⟨.emsgsize, by rw [if_neg hprio, if_pos hsize], Or.inr (Or.inl hsize)⟩
  by_cases hfull : q.isFull
  · refine Or.inl ⟨.eagain, by rw [if_neg hprio, if_neg hsize, if_pos hfull], ?_⟩
    exact Or.inr (Or.inr (of_decide_eq_true hfull))
  have hroom : q.msgs.length < q.maxMsgs := by
    have hnot := of_decide_eq_false (Bool.eq_false_iff.mpr hfull)
    exact Nat.lt_of_not_le hnot
  refine Or.inr ⟨BitVec.not_le.mp hprio, Nat.le_of_not_lt hsize, hroom, ?_⟩
  rw [if_neg hprio, if_neg hsize, if_neg hfull]
  dsimp only
  have hplace := insertIdx_position q.msgs ⟨data, prio⟩
  have hfirst : (insertByKey MqMsg.key ⟨data, prio⟩ q.msgs).length = 1 ↔ q.msgs = [] := by
    rw [(insertByKey_perm _ _ _).length_eq]
    simp
  simp only [hplace, hfirst]
  split <;> rfl

theorem receive_cases (buf : List (BitVec 8)) :
    (∃ e, q.receive buf = (.error e, q, buf) ∧
      (q.msgs = [] ∨ ∃ msg msgs, q.msgs = msg :: msgs ∧ buf.length < msg.data.length)) ∨
    ∃ msg msgs, q.msgs = msg :: msgs ∧ msg.data.length ≤ buf.length ∧
      q.receive buf = (.ok (msg.data.length, msg.prio), { q with msgs := msgs },
        msg.data ++ buf.drop msg.data.length) := by
  unfold receive
  cases hmsgs : q.msgs with
  | nil => exact Or.inl ⟨.eagain, rfl, Or.inl rfl⟩
  | cons msg msgs =>
    by_cases hlong : buf.length < msg.data.length
    · exact Or.inl ⟨.emsgsize, if_pos hlong, Or.inr ⟨msg, msgs, rfl, hlong⟩⟩
    · exact Or.inr ⟨msg, msgs, rfl, Nat.le_of_not_lt hlong, if_neg hlong⟩

theorem registerNotify_cases (notify : MqNotify) :
    q.registerNotify notify = (.error .ebusy, q) ∨
      q.registerNotify notify = (.ok (), { q with notify := some notify }) := by
  unfold registerNotify
  split
  · exact Or.inl rfl
  · exact Or.inr rfl

theorem clearNotify_cases (pid : BitVec 64) :
    ∃ left, q.clearNotify pid = { q with notify := left } := by
  unfold clearNotify
  split
  · exact ⟨none, rfl⟩
  · exact ⟨q.notify, rfl⟩

/-- A call that fails leaves the messages and the registration as they are. -/
theorem exec_failed {q : MqQueue} {op : MqOp} {e : Errno} (h : (q.exec op).2 = .failed e) :
    (q.exec op).1 = q := by
  cases op with
  | send data prio =>
    obtain ⟨e', heq, -⟩ | ⟨-, -, -, heq⟩ := q.send_cases data prio
    · rw [exec, heq]
    · rw [exec, heq] at h
      cases h
  | receive buf =>
    obtain ⟨e', heq, -⟩ | ⟨msg, msgs, -, -, heq⟩ := q.receive_cases buf
    · rw [exec, heq]
    · rw [exec, heq] at h
      cases h
  | registerNotify notify =>
    obtain heq | heq := q.registerNotify_cases notify
    · rw [exec, heq]
    · rw [exec, heq] at h
      cases h
  | clearNotify pid => cases h

end MqQueue

/-! ## The abstract queue -/

/-- The histories of a bounded stable priority queue, with the state before and after. -/
inductive Serves (maxMsgs maxMsgSize : ℕ) :
    StableQueue MqMsg → List (MqOp × MqResult) → StableQueue MqMsg → Prop
  | nil (s) : Serves maxMsgs maxMsgSize s [] s
  | sent {s t h data prio} (notify) (hprio : prio < MQ_PRIO_MAX) (hsize : data.length ≤ maxMsgSize)
      (hroom : s.waiting.length < maxMsgs)
      (rest : Serves maxMsgs maxMsgSize (s.arrive ⟨data, prio⟩) h t) :
      Serves maxMsgs maxMsgSize s ((.send data prio, .sent notify) :: h) t
  | sendRefused {s t h data prio} (e)
      (hwhy : MQ_PRIO_MAX ≤ prio ∨ maxMsgSize < data.length ∨ maxMsgs ≤ s.waiting.length)
      (rest : Serves maxMsgs maxMsgSize s h t) :
      Serves maxMsgs maxMsgSize s ((.send data prio, .failed e) :: h) t
  | received {s t h buf n msg} (hnext : s.Next MqMsg.key (n, msg))
      (hfits : msg.data.length ≤ buf.length)
      (rest : Serves maxMsgs maxMsgSize (s.serve (n, msg)) h t) :
      Serves maxMsgs maxMsgSize s ((.receive buf, .received msg.data.length msg.prio
        (msg.data ++ buf.drop msg.data.length)) :: h) t
  | receiveRefused {s t h buf} (e)
      (hwhy : s.waiting = [] ∨
        ∃ n msg, s.Next MqMsg.key (n, msg) ∧ buf.length < msg.data.length)
      (rest : Serves maxMsgs maxMsgSize s h t) :
      Serves maxMsgs maxMsgSize s ((.receive buf, .failed e) :: h) t
  | registerNotify {s t h notify} (r) (rest : Serves maxMsgs maxMsgSize s h t) :
      Serves maxMsgs maxMsgSize s ((.registerNotify notify, r) :: h) t
  | clearNotify {s t h pid} (r) (rest : Serves maxMsgs maxMsgSize s h t) :
      Serves maxMsgs maxMsgSize s ((.clearNotify pid, r) :: h) t

structure Holds (q : MqQueue) (s : StableQueue MqMsg) : Prop where
  order : ∃ l, l.map Prod.snd = q.msgs ∧ Sorts MqMsg.key l s.waiting
  distinct : s.Distinct
  room : s.waiting.length ≤ q.maxMsgs
  small : ∀ e ∈ s.waiting, e.2.data.length ≤ q.maxMsgSize

theorem Holds.new (attr : MqAttr) : Holds (MqQueue.new attr) .empty where
  order := ⟨[], rfl, Sorts.nil⟩
  distinct := StableQueue.distinct_empty
  room := Nat.zero_le _
  small := by
    intro e he
    cases he

variable {q : MqQueue} {s : StableQueue MqMsg} {msg : MqMsg}

section

variable (h : Holds q s)

include h

theorem Holds.perm : (s.waiting.map Prod.snd).Perm q.msgs := by
  obtain ⟨l, hl, hsorts⟩ := h.order
  rw [← hl]
  exact (hsorts.perm.map Prod.snd).symm

theorem Holds.length : q.msgs.length = s.waiting.length := by
  rw [← h.perm.length_eq, length_map]

theorem Holds.arrive (hroom : s.waiting.length < q.maxMsgs) (hsize : msg.data.length ≤ q.maxMsgSize)
    (notify : Option MqNotify) :
    Holds { q with msgs := insertByKey MqMsg.key msg q.msgs, notify := notify }
      (s.arrive msg) := by
  obtain ⟨l, hl, hsorts⟩ := h.order
  have hnew : ∀ e ∈ s.waiting, e.1 < s.arrivals := fun e he =>
    h.distinct.below e (mem_append_left _ he)
  refine ⟨⟨_, ?_, hsorts.insert hnew msg⟩, h.distinct.arrive msg, ?_, ?_⟩
  · rw [map_insertByKey, hl]
  · show (s.waiting ++ [(s.arrivals, msg)]).length ≤ q.maxMsgs
    rw [length_append]
    exact hroom
  · intro e he
    cases mem_append.mp he with
    | inl hold => exact h.small e hold
    | inr hlast =>
      obtain rfl := mem_singleton.mp hlast
      exact hsize

theorem Holds.serve {msgs : List MqMsg} (hmsgs : q.msgs = msg :: msgs) :
    ∃ n, s.Next MqMsg.key (n, msg) ∧ Holds { q with msgs := msgs } (s.serve (n, msg)) := by
  obtain ⟨l, hl, hsorts⟩ := h.order
  rw [hmsgs] at hl
  obtain ⟨⟨n, m⟩, l, rfl, hm, htail⟩ := map_eq_cons_iff.mp hl
  obtain rfl : m = msg := hm
  have hnext : s.Next MqMsg.key (n, m) := hsorts.next
  refine ⟨n, hnext, ⟨l, htail, hsorts.tail⟩, h.distinct.serve hnext.1, ?_, ?_⟩
  · exact Nat.le_trans (length_erase_le) h.room
  · intro e he
    exact h.small e (mem_of_mem_erase he)

theorem Holds.setNotify (notify : Option MqNotify) : Holds { q with notify := notify } s :=
  ⟨h.order, h.distinct, h.room, h.small⟩

/-- Every call is a step of the abstract queue, and it keeps the limits. -/
theorem Holds.exec (op : MqOp) :
    (q.exec op).1.maxMsgs = q.maxMsgs ∧ (q.exec op).1.maxMsgSize = q.maxMsgSize ∧
    ∃ s', Holds (q.exec op).1 s' ∧ ∀ rest t, Serves q.maxMsgs q.maxMsgSize s' rest t →
      Serves q.maxMsgs q.maxMsgSize s ((op, (q.exec op).2) :: rest) t := by
  cases op with
  | send data prio =>
    obtain ⟨e, heq, hwhy⟩ | ⟨hprio, hsize, hroom, heq⟩ := q.send_cases data prio
    · rw [MqQueue.exec, heq]
      rw [h.length] at hwhy
      exact ⟨rfl, rfl, s, h, fun rest t hrest => .sendRefused e hwhy hrest⟩
    rw [MqQueue.exec, heq]
    rw [h.length] at hroom
    exact ⟨rfl, rfl, s.arrive ⟨data, prio⟩, h.arrive hroom hsize _,
      fun rest t hrest => .sent _ hprio hsize hroom hrest⟩
  | receive buf =>
    obtain ⟨e, heq, hwhy⟩ | ⟨msg, msgs, hmsgs, hfits, heq⟩ := q.receive_cases buf
    · rw [MqQueue.exec, heq]
      refine ⟨rfl, rfl, s, h, fun rest t hrest => .receiveRefused e ?_ hrest⟩
      obtain hempty | ⟨msg, msgs, hmsgs, hlen⟩ := hwhy
      · exact Or.inl (length_eq_zero_iff.mp (by rw [← h.length, hempty]; rfl))
      · obtain ⟨n, hnext, -⟩ := h.serve hmsgs
        exact Or.inr ⟨n, msg, hnext, hlen⟩
    · obtain ⟨n, hnext, hholds⟩ := h.serve hmsgs
      rw [MqQueue.exec, heq]
      exact ⟨rfl, rfl, s.serve (n, msg), hholds, fun rest t hrest => .received hnext hfits hrest⟩
  | registerNotify notify =>
    obtain heq | heq := q.registerNotify_cases notify
    · rw [MqQueue.exec, heq]
      exact ⟨rfl, rfl, s, h, fun rest t hrest => .registerNotify _ hrest⟩
    · rw [MqQueue.exec, heq]
      exact ⟨rfl, rfl, s, h.setNotify _, fun rest t hrest => .registerNotify _ hrest⟩
  | clearNotify pid =>
    obtain ⟨left, heq⟩ := q.clearNotify_cases pid
    rw [MqQueue.exec, heq]
    exact ⟨rfl, rfl, s, h.setNotify left, fun rest t hrest => .clearNotify _ hrest⟩

/-- The run from the step, by induction on the calls. -/
theorem Holds.run (ops : List MqOp) :
    (q.run ops).maxMsgs = q.maxMsgs ∧ (q.run ops).maxMsgSize = q.maxMsgSize ∧
    ∃ t, Holds (q.run ops) t ∧ Serves q.maxMsgs q.maxMsgSize s (q.history ops) t := by
  induction ops generalizing q s with
  | nil => exact ⟨rfl, rfl, s, h, .nil s⟩
  | cons op ops ih =>
    obtain ⟨hmax, hsize, s', hs', hstep⟩ := h.exec op
    obtain ⟨hmax', hsize', t, ht, hserves⟩ := ih hs'
    rw [hmax, hsize] at hserves
    exact ⟨hmax'.trans hmax, hsize'.trans hsize, t, ht, hstep _ _ hserves⟩

end

/-- A queue behaves as a bounded stable priority queue in every sequence of calls. The
limits are the attributes as `usize`. -/
theorem mqQueue_serves (attr : MqAttr) (ops : List MqOp) :
    (∃ t, Serves attr.mqMaxmsg.toNat attr.mqMsgsize.toNat .empty
        ((MqQueue.new attr).history ops) t ∧
      (t.served.map Prod.fst).Nodup ∧
      (t.waiting.map Prod.snd).Perm ((MqQueue.new attr).run ops).msgs) ∧
    ((MqQueue.new attr).run ops).msgs.length ≤ attr.mqMaxmsg.toNat ∧
    (∀ msg ∈ ((MqQueue.new attr).run ops).msgs, msg.data.length ≤ attr.mqMsgsize.toNat) ∧
    ∀ op e, (((MqQueue.new attr).run ops).exec op).2 = .failed e →
      (((MqQueue.new attr).run ops).exec op).1 = (MqQueue.new attr).run ops := by
  obtain ⟨hmax, hsize, t, hholds, hserves⟩ := (Holds.new attr).run ops
  have hnodup := hholds.distinct.nodup
  rw [map_append] at hnodup
  refine ⟨⟨t, hserves, hnodup.of_append_right, hholds.perm⟩, ?_, ?_, ?_⟩
  · rw [hholds.length]
    exact le_of_le_of_eq hholds.room hmax
  · intro msg hmsg
    obtain ⟨e, he, rfl⟩ := mem_map.mp (hholds.perm.mem_iff.mpr hmsg)
    exact le_of_le_of_eq (hholds.small e he) hsize
  · intro op e hfailed
    exact MqQueue.exec_failed hfailed

/-! ## Notification -/

/-- The live registrations after a call, in the order they were made: a notification that is
returned is that of the first, and a process can cancel its own. -/
def liveAfter (live : List MqNotify) : MqOp × MqResult → List MqNotify
  | (.registerNotify notify, .done) => live ++ [notify]
  | (.send .., .sent (some _)) => live.tail
  | (.clearNotify pid, _) => live.filter (·.ownerPid ≠ pid)
  | _ => live

def registered : MqOp × MqResult → Option MqNotify
  | (.registerNotify notify, .done) => some notify
  | _ => none

def delivered : MqOp × MqResult → Option MqNotify
  | (.send .., .sent notify) => notify
  | _ => none

namespace MqQueue

/-- What one call does to the registration. -/
theorem exec_notify (q : MqQueue) (op : MqOp) :
    (q.exec op).1.notify.toList = liveAfter q.notify.toList (op, (q.exec op).2) ∧
      ((delivered (op, (q.exec op).2)).toList ++ (q.exec op).1.notify.toList).Sublist
        (q.notify.toList ++ (registered (op, (q.exec op).2)).toList) := by
  cases op with
  | send data prio =>
    obtain ⟨e, heq, -⟩ | ⟨-, -, -, heq⟩ := q.send_cases data prio
    · rw [exec, heq]
      exact ⟨rfl, by simp [delivered, registered]⟩
    rw [exec, heq]
    by_cases hempty : q.msgs = []
    · cases hnotify : q.notify with
      | none | some => simp [hempty, liveAfter, delivered]
    · simp [hempty, liveAfter, delivered]
  | receive buf =>
    obtain ⟨e, heq, -⟩ | ⟨msg, msgs, -, -, heq⟩ := q.receive_cases buf
    all_goals
      rw [exec, heq]
      exact ⟨rfl, by simp [delivered, registered]⟩
  | registerNotify notify =>
    unfold exec registerNotify
    cases hnotify : q.notify with
    | none => simp [liveAfter, delivered, registered]
    | some old => simp [liveAfter, delivered, registered, hnotify]
  | clearNotify pid =>
    unfold exec clearNotify
    cases hnotify : q.notify with
    | none => simp [liveAfter, delivered, registered, hnotify]
    | some old =>
      by_cases howner : old.ownerPid = pid
      · simp [liveAfter, delivered, registered, howner]
      · simp [liveAfter, delivered, registered, howner, hnotify]

/-- A send is refused or returns a notification exactly when the queue was empty and one was
registered, each registration is delivered at most once, at most one is live, and only its
owner cancels it. -/
theorem notify_oneShot (q : MqQueue) (ops : List MqOp) :
    let live := (q.history ops).foldl liveAfter q.notify.toList
    (q.run ops).notify.toList = live ∧ live.length ≤ 1 ∧
      ((q.history ops).filterMap delivered ++ live).Sublist
        (q.notify.toList ++ (q.history ops).filterMap registered) ∧
      ∀ data prio, (∃ e, (q.run ops).exec (.send data prio) = (q.run ops, .failed e)) ∨
        ((q.run ops).exec (.send data prio)).2 =
          .sent (if (q.run ops).msgs = [] then (q.run ops).notify else none) := by
  have hlive : (q.run ops).notify.toList = (q.history ops).foldl liveAfter q.notify.toList ∧
      ((q.history ops).filterMap delivered ++ (q.run ops).notify.toList).Sublist
        (q.notify.toList ++ (q.history ops).filterMap registered) := by
    induction ops generalizing q with
    | nil => exact ⟨rfl, by simp [history, run]⟩
    | cons op ops ih =>
      obtain ⟨hstep, hsub⟩ := q.exec_notify op
      obtain ⟨hrest, hsubs⟩ := ih (q.exec op).1
      refine ⟨by rw [history, foldl_cons, ← hstep]; exact hrest, ?_⟩
      rw [filterMap_eq_flatMap_toList, filterMap_eq_flatMap_toList] at hsubs ⊢
      rw [history, flatMap_cons, flatMap_cons, append_assoc, ← append_assoc q.notify.toList]
      refine (hsubs.append_left _).trans ?_
      rw [← append_assoc]
      exact hsub.append_right _
  refine ⟨hlive.1, ?_, hlive.1 ▸ hlive.2, fun data prio => ?_⟩
  · rw [← hlive.1]
    cases (q.run ops).notify <;> simp
  · obtain ⟨e, heq, -⟩ | ⟨-, -, -, heq⟩ := (q.run ops).send_cases data prio
    · exact .inl ⟨e, by rw [exec, heq]⟩
    · exact .inr (by rw [exec, heq])

end MqQueue

end Vahi.Ipc
