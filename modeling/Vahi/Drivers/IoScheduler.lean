import Vahi.Lib.Run
import Mathlib.Data.List.Perm.Basic
import Mathlib.Tactic.Ring

/-!
# The deadline scheduler

`DeadlineScheduler` (`crates/drivers/src/block/scheduler.rs`). A request that touches one in its
queue is merged into it; the buffer and the callback of the new one are gone.
-/

namespace Vahi.Drivers

open Vahi.Lib List

inductive IoPriority where
  | realtime | bestEffort | idle
  deriving DecidableEq

inductive IoDirection where
  | read | write
  deriving DecidableEq

structure IoRequest where
  deviceId : BitVec 32
  sector : BitVec 64
  numSectors : BitVec 32
  direction : IoDirection
  priority : IoPriority
  deadline : BitVec 64
  seq : BitVec 64
  buffer : BitVec 64
  callback : Option (BitVec 64)
  deriving DecidableEq

structure IoStats where
  readsDispatched : ℕ
  writesDispatched : ℕ
  readsMerged : ℕ
  writesMerged : ℕ
  deriving DecidableEq

structure DeadlineScheduler where
  deviceId : BitVec 32
  readQueue : List IoRequest
  writeQueue : List IoRequest
  deadlineWindow : BitVec 64
  nextSeq : BitVec 64
  stats : IoStats
  deriving DecidableEq

def IoRequest.stop (r : IoRequest) : BitVec 64 := r.sector + r.numSectors.setWidth 64

/-- The body of the loop of `try_merge`: the existing request with the new one in it. -/
def mergeInto (existing request : IoRequest) : Option IoRequest :=
  if existing.stop = request.sector ∧ existing.priority = request.priority then
    some { existing with numSectors := existing.numSectors + request.numSectors }
  else if request.stop = existing.sector ∧ existing.priority = request.priority then
    some { existing with
      sector := request.sector
      numSectors := existing.numSectors + request.numSectors }
  else none

/-- The first request of the queue that the new one adjoins takes it. -/
def tryMerge (request : IoRequest) : List IoRequest → Option (List IoRequest)
  | [] => none
  | existing :: queue =>
    match mergeInto existing request with
    | some merged => some (merged :: queue)
    | none => (tryMerge request queue).map (existing :: ·)

/-- Before the first request with a larger sector. -/
def insertSorted (request : IoRequest) : List IoRequest → List IoRequest
  | [] => [request]
  | r :: queue =>
    if request.sector < r.sector then request :: r :: queue else r :: insertSorted request queue

/-- `queue.iter().position(..)` and `queue.remove(..)`. -/
def takeFirst (p : IoRequest → Bool) : List IoRequest → Option (IoRequest × List IoRequest)
  | [] => none
  | r :: queue =>
    if p r then some (r, queue) else (takeFirst p queue).map fun (x, rest) => (x, r :: rest)

namespace DeadlineScheduler

def new (deviceId : BitVec 32) : DeadlineScheduler := ⟨deviceId, [], [], 5, 1, ⟨0, 0, 0, 0⟩⟩

variable (s : DeadlineScheduler)

def queue : IoDirection → List IoRequest
  | .read => s.readQueue
  | .write => s.writeQueue

def setQueue (d : IoDirection) (queue : List IoRequest) : DeadlineScheduler :=
  match d with
  | .read => { s with readQueue := queue }
  | .write => { s with writeQueue := queue }

def countMerged : IoDirection → DeadlineScheduler
  | .read => { s with stats := { s.stats with readsMerged := s.stats.readsMerged + 1 } }
  | .write => { s with stats := { s.stats with writesMerged := s.stats.writesMerged + 1 } }

def countDispatched : IoDirection → DeadlineScheduler
  | .read => { s with stats := { s.stats with readsDispatched := s.stats.readsDispatched + 1 } }
  | .write => { s with stats := { s.stats with writesDispatched := s.stats.writesDispatched + 1 } }

/-- A request that adjoins no other is put into its queue by its sector. -/
def submit (request : IoRequest) : DeadlineScheduler :=
  let request := { request with seq := s.nextSeq }
  let s := { s with nextSeq := s.nextSeq + 1 }
  match tryMerge request (s.queue request.direction) with
  | some queue => (s.setQueue request.direction queue).countMerged request.direction
  | none =>
    s.setQueue request.direction (insertSorted request (s.queue request.direction))

def dispatchFrom (d : IoDirection) (p : IoRequest → Bool) :
    Option (IoRequest × DeadlineScheduler) :=
  (takeFirst p (s.queue d)).map fun (r, rest) => (r, (s.setQueue d rest).countDispatched d)

def dispatchByPriority (priority : IoPriority) : Option (IoRequest × DeadlineScheduler) :=
  (s.dispatchFrom .read (·.priority = priority)).or (s.dispatchFrom .write (·.priority = priority))

/-- Real-time requests go first, then expired ones, reads before writes. -/
def dispatch (currentTick : BitVec 64) : Option (IoRequest × DeadlineScheduler) :=
  -- a saturating difference
  let deadline := if s.deadlineWindow ≤ currentTick then currentTick - s.deadlineWindow else 0
  (s.dispatchByPriority .realtime).or <|
    (s.dispatchFrom .read (·.deadline ≤ deadline)).or <|
    (s.dispatchFrom .write (·.deadline ≤ deadline)).or <|
    (s.dispatchFrom .read (fun _ => true)).or <|
    s.dispatchFrom .write (fun _ => true)

def isEmpty (s : DeadlineScheduler) : Bool := s.readQueue.isEmpty && s.writeQueue.isEmpty

def waiting : List IoRequest := s.readQueue ++ s.writeQueue

end DeadlineScheduler

/-! ### What requests move -/

structure Transfer where
  direction : IoDirection
  sector : ℕ
  address : ℕ
  deriving DecidableEq

def IoRequest.transfers (r : IoRequest) : List Transfer :=
  (range r.numSectors.toNat).map fun k =>
    ⟨r.direction, r.sector.toNat + k, r.buffer.toNat + 512 * k⟩

/-- The requests at hand move what was asked for, every sector once, and for every callback
that was asked for one of them has it and moves the sectors of its request. -/
structure Holds (held asked : List IoRequest) : Prop where
  transfers : (held.flatMap IoRequest.transfers).Perm (asked.flatMap IoRequest.transfers)
  callbacks : ∀ q ∈ asked, ∀ f, q.callback = some f →
    ∃ r ∈ held, r.callback = some f ∧ q.transfers ⊆ r.transfers

/-- The request continues the existing one, on the device and in memory, and brings no other
callback. -/
structure Adjoins (existing request : IoRequest) : Prop where
  sector : existing.sector.toNat + existing.numSectors.toNat = request.sector.toNat
  buffer : existing.buffer.toNat + 512 * existing.numSectors.toNat = request.buffer.toNat
  fits : existing.numSectors.toNat + request.numSectors.toNat < 2 ^ 32
  callback : request.callback = none ∨ request.callback = existing.callback

section Requests

variable {held held' asked : List IoRequest} {r r' e e' : IoRequest}

theorem Holds.perm (h : Holds held asked) (hp : held.Perm held') : Holds held' asked where
  transfers := (hp.symm.flatMap_right _).trans h.transfers
  callbacks q hq f hf := by
    obtain ⟨r, hr, hcb⟩ := h.callbacks q hq f hf
    exact ⟨r, hp.subset hr, hcb⟩

/-- A request is put with the others, perhaps with another number. -/
theorem Holds.cons (h : Holds held asked) (htransfers : r'.transfers = r.transfers)
    (hcallback : r'.callback = r.callback) : Holds (r' :: held) (asked ++ [r]) where
  transfers := by
    rw [flatMap_cons, flatMap_append, flatMap_singleton, htransfers]
    exact (h.transfers.append_left _).trans perm_append_comm
  callbacks q hq f hf := by
    rcases mem_append.1 hq with hq | hq
    · obtain ⟨x, hx, hcb⟩ := h.callbacks q hq f hf
      exact ⟨x, mem_cons_of_mem r' hx, hcb⟩
    · obtain rfl := mem_singleton.1 hq
      exact ⟨r', mem_cons_self, hcallback.trans hf, htransfers ▸ Subset.refl _⟩

/-- A request is taken into one of the others. -/
theorem Holds.absorb (h : Holds (e :: held) asked)
    (htransfers : e'.transfers = e.transfers ++ r.transfers) (hkept : e'.callback = e.callback)
    (hcallback : r.callback = none ∨ r.callback = e.callback) :
    Holds (e' :: held) (asked ++ [r]) where
  transfers := by
    have hall := h.transfers
    rw [flatMap_cons, flatMap_append, flatMap_singleton, htransfers]
    have hswap : (e.transfers ++ r.transfers ++ held.flatMap IoRequest.transfers).Perm
        (e.transfers ++ held.flatMap IoRequest.transfers ++ r.transfers) := by
      rw [append_assoc, append_assoc]
      exact perm_append_comm.append_left _
    exact hswap.trans (hall.append_right _)
  callbacks q hq f hf := by
    rcases mem_append.1 hq with hq | hq
    · obtain ⟨x, hx, hcb, hsub⟩ := h.callbacks q hq f hf
      rcases mem_cons.1 hx with rfl | hx
      · refine ⟨e', mem_cons_self, hkept.trans hcb, ?_⟩
        rw [htransfers]
        exact subset_append_of_subset_left _ hsub
      · exact ⟨x, mem_cons_of_mem e' hx, hcb, hsub⟩
    · obtain rfl := mem_singleton.1 hq
      rcases hcallback with hnone | hsame
      · rw [hnone] at hf
        cases hf
      · refine ⟨e', mem_cons_self, hkept.trans (hsame.symm.trans hf), ?_⟩
        rw [htransfers]
        exact subset_append_right _ _

theorem Adjoins.mergeInto (h : Adjoins e r) (hmerge : mergeInto e r = some e') :
    e' = { e with numSectors := e.numSectors + r.numSectors } := by
  have hsector := h.sector
  have hlt := r.sector.isLt
  have hstop : e.stop = r.sector := by
    apply BitVec.eq_of_toNat_eq
    rw [IoRequest.stop, BitVec.toNat_add, BitVec.toNat_setWidth,
      Nat.mod_eq_of_lt (Nat.lt_of_lt_of_le e.numSectors.isLt (by decide)), hsector,
      Nat.mod_eq_of_lt hlt]
  rw [Drivers.mergeInto] at hmerge
  split at hmerge
  · exact (Option.some.inj hmerge).symm
  rename_i hne
  split at hmerge
  · rename_i hprio
    exact absurd ⟨hstop, hprio.2⟩ hne
  · cases hmerge

theorem Adjoins.transfers (h : Adjoins e r) (hdir : r.direction = e.direction) :
    IoRequest.transfers { e with numSectors := e.numSectors + r.numSectors } =
      e.transfers ++ r.transfers := by
  have hsum : (e.numSectors + r.numSectors).toNat = e.numSectors.toNat + r.numSectors.toNat := by
    rw [BitVec.toNat_add, Nat.mod_eq_of_lt h.fits]
  rw [IoRequest.transfers, IoRequest.transfers, IoRequest.transfers, hsum, range_add,
    map_append, map_map]
  refine congrArg _ (map_congr_left fun k _ => ?_)
  rw [Function.comp_apply, ← h.sector, ← h.buffer, hdir, Nat.mul_add, Nat.add_assoc, Nat.add_assoc]

end Requests

/-! ### The queues -/

section Queues

variable {q' rest : List IoRequest} {r x : IoRequest} {p : IoRequest → Bool}

theorem insertSorted_perm (r : IoRequest) (q : List IoRequest) :
    (insertSorted r q).Perm (r :: q) := by
  induction q with
  | nil => exact Perm.refl _
  | cons x q ih =>
    rw [insertSorted]
    split
    · exact Perm.refl _
    · exact (ih.cons x).trans (Perm.swap r x q)

theorem takeFirst_eq_some (h : takeFirst p q = some (x, rest)) : q.Perm (x :: rest) := by
  induction q generalizing rest with
  | nil => cases h
  | cons y q ih =>
    rw [takeFirst] at h
    split at h
    · cases h
      exact Perm.refl _
    · obtain ⟨⟨z, tail⟩, htake, hout⟩ := Option.map_eq_some_iff.1 h
      cases hout
      exact ((ih htake).cons y).trans (Perm.swap x y tail)

def mergeTarget (q : List IoRequest) (r : IoRequest) : Option IoRequest :=
  q.find? fun e => (mergeInto e r).isSome

theorem tryMerge_eq_some (h : tryMerge r q = some q') :
    ∃ e e' rest, mergeTarget q r = some e ∧ mergeInto e r = some e' ∧
      q.Perm (e :: rest) ∧ q'.Perm (e' :: rest) := by
  induction q generalizing q' with
  | nil => cases h
  | cons x q ih =>
    rw [tryMerge] at h
    split at h
    · rename_i merged hmerge
      cases h
      refine ⟨x, merged, q, ?_, hmerge, Perm.refl _, Perm.refl _⟩
      rw [mergeTarget, find?_cons_of_pos]
      rw [hmerge, Option.isSome_some]
    · rename_i hmerge
      obtain ⟨tail, htail, rfl⟩ := Option.map_eq_some_iff.1 h
      obtain ⟨e, e', rest, htarget, hinto, hq, hq'⟩ := ih htail
      refine ⟨e, e', x :: rest, ?_, hinto, (hq.cons x).trans (Perm.swap e x rest),
        (hq'.cons x).trans (Perm.swap e' x rest)⟩
      rw [mergeTarget, find?_cons_of_neg, ← mergeTarget, htarget]
      rw [hmerge, Option.isSome_none]
      exact Bool.false_ne_true

end Queues

namespace DeadlineScheduler

variable {s s' : DeadlineScheduler} {d : IoDirection} {q : List IoRequest} {r : IoRequest}
  {tick : BitVec 64}

variable (s)

@[simp] theorem queue_countMerged (d d' : IoDirection) :
    (s.countMerged d).queue d' = s.queue d' := by
  cases d <;> rfl

@[simp] theorem queue_countDispatched (d d' : IoDirection) :
    (s.countDispatched d).queue d' = s.queue d' := by
  cases d <;> rfl

theorem queue_setQueue (d d' : IoDirection) (q : List IoRequest) :
    (s.setQueue d q).queue d' = if d' = d then q else s.queue d' := by
  cases d <;> cases d' <;> rfl

/-- The queue of one direction and what waits besides. -/
theorem waiting_perm (d : IoDirection) :
    ∃ others, s.waiting.Perm (s.queue d ++ others) ∧
      ∀ t : DeadlineScheduler, (∀ d', d' ≠ d → t.queue d' = s.queue d') →
        t.waiting.Perm (t.queue d ++ others) := by
  cases d with
  | read =>
    refine ⟨s.writeQueue, Perm.refl _, fun t ht => ?_⟩
    rw [waiting, show t.writeQueue = s.writeQueue from ht .write (by decide)]
    exact Perm.refl _
  | write =>
    refine ⟨s.readQueue, perm_append_comm, fun t ht => ?_⟩
    rw [waiting, show t.readQueue = s.readQueue from ht .read (by decide)]
    exact perm_append_comm

variable {s}

theorem dispatch_eq_some (h : s.dispatch tick = some (r, s')) :
    ∃ d p rest, takeFirst p (s.queue d) = some (r, rest) ∧
      s' = (s.setQueue d rest).countDispatched d := by
  have hfrom {d : IoDirection} {p : IoRequest → Bool} (h : s.dispatchFrom d p = some (r, s')) :
      ∃ d p rest, takeFirst p (s.queue d) = some (r, rest) ∧
        s' = (s.setQueue d rest).countDispatched d := by
    obtain ⟨⟨x, rest⟩, htake, hout⟩ := Option.map_eq_some_iff.1 h
    cases hout
    exact ⟨d, p, rest, htake, rfl⟩
  simp only [dispatch, dispatchByPriority, Option.or_eq_some_iff] at h
  obtain (h | ⟨-, h⟩) | ⟨-, h | ⟨-, h | ⟨-, h | ⟨-, h⟩⟩⟩⟩ := h
  all_goals exact hfrom h

theorem dispatch_perm (h : s.dispatch tick = some (r, s')) : s.waiting.Perm (r :: s'.waiting) := by
  obtain ⟨d, p, rest, htake, rfl⟩ := dispatch_eq_some h
  have hperm := takeFirst_eq_some htake
  cases d with
  | read => exact hperm.append_right _
  | write => exact (hperm.append_left _).trans perm_middle

/-- As long as something waits, something is dispatched. -/
theorem dispatch_eq_none (h : s.dispatch tick = none) : s.isEmpty = true := by
  simp only [dispatch, Option.or_eq_none_iff] at h
  obtain ⟨-, -, -, hread, hwrite⟩ := h
  have hnil {d : IoDirection} (h : s.dispatchFrom d (fun _ => true) = none) : s.queue d = [] := by
    rw [dispatchFrom, Option.map_eq_none_iff] at h
    cases hq : s.queue d with
    | nil => rfl
    | cons x q =>
      rw [hq, takeFirst, if_pos rfl] at h
      cases h
  rw [isEmpty, show s.readQueue = [] from hnil hread, show s.writeQueue = [] from hnil hwrite]
  rfl

end DeadlineScheduler

/-! ### Whole runs -/

inductive IoOp where
  | submit (request : IoRequest)
  | dispatch (currentTick : BitVec 64)
  deriving DecidableEq

structure IoHistory where
  sched : DeadlineScheduler
  submitted : List IoRequest
  dispatched : List IoRequest
  deriving DecidableEq

namespace IoHistory

def start (deviceId : BitVec 32) : IoHistory := ⟨.new deviceId, [], []⟩

def step (h : IoHistory) : IoOp → IoHistory
  | .submit r => { h with sched := h.sched.submit r, submitted := h.submitted ++ [r] }
  | .dispatch tick =>
    match h.sched.dispatch tick with
    | some (r, sched) => { h with sched := sched, dispatched := h.dispatched ++ [r] }
    | none => h

/-- Every sector of every submitted request has been dispatched exactly once, in its direction
and with the request's own buffer, and its callback is with a request that covers it. -/
def Completed (h : IoHistory) : Prop := Holds h.dispatched h.submitted

/-- A request that is merged continues the one that it is merged into. -/
def Seamless (h : IoHistory) : IoOp → Prop
  | .submit r => ∀ e, mergeTarget (h.sched.queue r.direction) { r with seq := h.sched.nextSeq } =
      some e → Adjoins e r
  | .dispatch _ => True

/-- What has been dispatched and what waits together hold all that was submitted, and the queues
hold requests of their own direction. -/
structure Inv (h : IoHistory) : Prop where
  holds : Holds (h.sched.waiting ++ h.dispatched) h.submitted
  direction : ∀ d, ∀ e ∈ h.sched.queue d, e.direction = d

variable {h : IoHistory}

theorem Inv.dispatch (hinv : Inv h) (tick : BitVec 64) : Inv (h.step (.dispatch tick)) := by
  rw [step]
  split
  · rename_i r sched hdispatch
    have hfirst := DeadlineScheduler.dispatch_perm hdispatch
    obtain ⟨d, p, rest, htake, rfl⟩ := DeadlineScheduler.dispatch_eq_some hdispatch
    have hperm := takeFirst_eq_some htake
    constructor
    · refine hinv.holds.perm ?_
      -- the request moves from the queue to the end of the dispatched ones
      refine (hfirst.append_right _).trans ?_
      rw [cons_append, ← append_assoc]
      exact (perm_append_singleton r _).symm
    · intro d' e he
      rw [DeadlineScheduler.queue_countDispatched, DeadlineScheduler.queue_setQueue] at he
      split at he
      · rename_i hd'
        subst hd'
        exact hinv.direction d' e (hperm.symm.subset (mem_cons_of_mem r he))
      · exact hinv.direction d' e he
  · exact hinv

/-- For every state and all times, every dispatch takes one request out as long as one waits, and
none is lost or handed out twice. -/
theorem foldl_dispatch (h : IoHistory) (ticks : List (BitVec 64)) :
    let h' := (ticks.map IoOp.dispatch).foldl step h
    (h'.dispatched ++ h'.sched.waiting).Perm (h.dispatched ++ h.sched.waiting) ∧
      h'.sched.waiting.length = h.sched.waiting.length - ticks.length := by
  induction ticks generalizing h with
  | nil => exact ⟨.refl _, rfl⟩
  | cons tick ticks ih =>
    simp only [map_cons, foldl_cons, step]
    split
    · next r sched hdispatch =>
      have hwait := DeadlineScheduler.dispatch_perm hdispatch
      refine (ih _).imp (·.trans ?_) (·.trans ?_)
      · simpa using (hwait.append_left h.dispatched).symm
      · simp [hwait.length_eq]
    · next hnone =>
      have hempty := DeadlineScheduler.dispatch_eq_none hnone
      refine (ih h).imp id (·.trans ?_)
      simp_all [DeadlineScheduler.isEmpty, DeadlineScheduler.waiting]

theorem Inv.submit (hinv : Inv h) {r : IoRequest} (hseam : h.Seamless (.submit r)) :
    Inv (h.step (.submit r)) := by
  obtain ⟨others, hwait, hothers⟩ := h.sched.waiting_perm r.direction
  -- the scheduler with the number taken and another queue in place of the request's
  have hset (q : List IoRequest) (d' : IoDirection) :
      ({ h.sched with nextSeq := h.sched.nextSeq + 1 }.setQueue r.direction q).queue d' =
        if d' = r.direction then q else h.sched.queue d' :=
    DeadlineScheduler.queue_setQueue _ _ _ _
  have hafter {t : DeadlineScheduler} {q : List IoRequest}
      (ht : ∀ d', t.queue d' = if d' = r.direction then q else h.sched.queue d') :
      t.waiting.Perm (q ++ others) := by
    have hperm := hothers t fun d' hd' => by rw [ht, if_neg hd']
    rwa [ht, if_pos rfl] at hperm
  have hdir {t : DeadlineScheduler} {q : List IoRequest}
      (ht : ∀ d', t.queue d' = if d' = r.direction then q else h.sched.queue d')
      (hq : ∀ e ∈ q, e.direction = r.direction) : ∀ d, ∀ e ∈ t.queue d, e.direction = d := by
    intro d e he
    rw [ht] at he
    split at he
    · rename_i hd
      exact hd ▸ hq e he
    · exact hinv.direction d e he
  simp only [step, DeadlineScheduler.submit]
  split
  · rename_i q hmerged
    obtain ⟨e, e', rest, htarget, hinto, hold, hnew⟩ := tryMerge_eq_some hmerged
    have hadj : Adjoins e { r with seq := h.sched.nextSeq } :=
      let hadj := hseam e htarget
      ⟨hadj.sector, hadj.buffer, hadj.fits, hadj.callback⟩
    have hedir : e.direction = r.direction :=
      hinv.direction _ e (hold.symm.subset mem_cons_self)
    obtain rfl := hadj.mergeInto hinto
    have hqueue (d' : IoDirection) : (({ h.sched with
        nextSeq := h.sched.nextSeq + 1 }.setQueue r.direction q).countMerged r.direction).queue d' =
          if d' = r.direction then q else h.sched.queue d' := by
      rw [DeadlineScheduler.queue_countMerged, hset]
    constructor
    · have hheld : Holds (e :: (rest ++ others ++ h.dispatched)) h.submitted :=
        hinv.holds.perm ((hwait.trans (hold.append_right others)).append_right _)
      refine (hheld.absorb (r := r) (hadj.transfers hedir.symm) rfl hadj.callback).perm ?_
      exact (((hafter hqueue).trans (hnew.append_right others)).append_right _).symm
    · refine hdir hqueue fun x hx => ?_
      rcases mem_cons.1 (hnew.subset hx) with rfl | hx
      · exact hedir
      · exact hinv.direction _ x (hold.symm.subset (mem_cons_of_mem e hx))
  · have hnew := insertSorted_perm { r with seq := h.sched.nextSeq } (h.sched.queue r.direction)
    constructor
    · have hheld : Holds ({ r with seq := h.sched.nextSeq } :: (h.sched.waiting ++ h.dispatched))
          (h.submitted ++ [r]) := hinv.holds.cons rfl rfl
      rw [← cons_append] at hheld
      refine hheld.perm (Perm.append_right h.dispatched ?_)
      exact (((hafter (hset _)).trans (hnew.append_right others)).trans (hwait.symm.cons _)).symm
    · refine hdir (hset _) fun x hx => ?_
      rcases mem_cons.1 (hnew.subset hx) with rfl | hx
      · rfl
      · exact hinv.direction _ x hx

theorem inv_foldl (hinv : Inv h) {ops : List IoOp} (hseam : Along step Seamless h ops) :
    Inv (ops.foldl step h) := by
  induction ops generalizing h with
  | nil => exact hinv
  | cons op ops ih =>
    refine ih ?_ hseam.2
    cases op with
    | submit r => exact hinv.submit hseam.1
    | dispatch tick => exact hinv.dispatch tick

/-- For every sequence of submitted requests and dispatches in which a request is merged only
into one that it continues: when the queues are empty, all is completed. -/
theorem completed_of_seamless (deviceId : BitVec 32) (ops : List IoOp)
    (hseam : Along step Seamless (start deviceId) ops)
    (hempty : (ops.foldl step (start deviceId)).sched.isEmpty = true) :
    (ops.foldl step (start deviceId)).Completed := by
  have hstart : Inv (start deviceId) :=
    ⟨⟨Perm.refl _, fun _ hq => absurd hq not_mem_nil⟩, fun d e he => by cases d <;> cases he⟩
  have hholds := (inv_foldl hstart hseam).holds
  generalize ops.foldl step (start deviceId) = h at hempty hholds ⊢
  rw [DeadlineScheduler.isEmpty, Bool.and_eq_true, List.isEmpty_iff, List.isEmpty_iff] at hempty
  rwa [DeadlineScheduler.waiting, hempty.1, hempty.2] at hholds

def oneSector (sector buffer : BitVec 64) (callback : Option (BitVec 64)) : IoRequest :=
  ⟨0, sector, 1, .read, .bestEffort, 100, 0, buffer, callback⟩

/-- Two reads into one buffer, the second one without a callback: they are merged. -/
theorem completed_oneBuffer :
    (([.submit (oneSector 0 0x1000 (some 1)), .submit (oneSector 1 0x1200 none),
      .dispatch 0].foldl step (start 0)).Completed) := by
  refine completed_of_seamless 0 _ ⟨fun e he => ?_, fun e he => ?_, trivial, trivial⟩ (by decide)
  · cases he
  · obtain rfl : { oneSector 0 0x1000 (some 1) with seq := 1 } = e := Option.some.inj he
    exact ⟨rfl, rfl, by decide, .inl rfl⟩

/-- Two reads into different buffers: the second buffer gets nothing, and the second callback is
gone. -/
theorem merged_read_lost :
    ([.submit (oneSector 0 0x1000 (some 1)), .submit (oneSector 1 0x9000 (some 2)),
      .dispatch 0].foldl step (start 0)).sched.isEmpty = true ∧
    ¬ ([.submit (oneSector 0 0x1000 (some 1)), .submit (oneSector 1 0x9000 (some 2)),
      .dispatch 0].foldl step (start 0)).Completed := by
  refine ⟨by decide, fun h => ?_⟩
  have hmem : (⟨.read, 1, 0x9000⟩ : Transfer) ∈ ([.submit (oneSector 0 0x1000 (some 1)),
      .submit (oneSector 1 0x9000 (some 2)), .dispatch 0].foldl step
      (start 0)).dispatched.flatMap IoRequest.transfers :=
    h.transfers.symm.subset (by decide)
  exact absurd hmem (by decide)

end IoHistory

end Vahi.Drivers
