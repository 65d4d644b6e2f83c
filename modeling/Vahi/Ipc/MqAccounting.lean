import Vahi.Ipc.MqSystem

/-!
# Accounting of message queues

The bytes recorded for a uid are those of its live queues in every reachable state. Between the
steps of a call some references are in no table: `Balanced` takes them as a parameter.
-/

namespace Vahi.Ipc

open Vahi.Lib Vahi.Types List

/-! ## The account -/

theorem releaseMsgbytes_getD (m : MqBytes) (uid u : BitVec 32) (bytes : ℕ) :
    (releaseMsgbytes m uid bytes u).getD 0 =
      if u = uid then (m u).getD 0 - bytes else (m u).getD 0 := by
  unfold releaseMsgbytes
  cases hm : m uid with
  | none => by_cases hu : u = uid <;> simp [hu, hm]
  | some used =>
    have hset : ∀ left : Option ℕ, left.getD 0 = used - bytes → (m.set uid left u).getD 0 =
        if u = uid then (m u).getD 0 - bytes else (m u).getD 0 := by
      intro left hleft
      by_cases hu : u = uid <;> simp [MqBytes.set, hu, hm, hleft]
    dsimp only
    split
    · next hzero => exact hset none hzero.symm
    · exact hset (some _) rfl

variable {m : MqBytes} {uid : BitVec 32} {bytes limit : ℕ}

theorem checked_ok {n m : ℕ} (h : checked n = .ok m) : m = n := by
  unfold checked at h
  split at h
  · exact (Except.ok.inj h).symm
  · cases h

theorem exists_of_bind_ok {ε α β : Type} {x : Except ε α} {f : α → Except ε β} {b : β}
    (h : (x >>= f) = .ok b) : ∃ a, x = .ok a ∧ f a = .ok b := by
  cases x with
  | error e => cases h
  | ok a => exact ⟨a, rfl, h⟩

theorem chargeMsgbytes_ok {m' : MqBytes} (h : chargeMsgbytes m uid bytes limit = .ok m') :
    (m uid).getD 0 + bytes ≤ limit ∧ m' = m.set uid (some ((m uid).getD 0 + bytes)) := by
  obtain ⟨total, htotal, h⟩ := exists_of_bind_ok h
  rw [checked_ok htotal] at h
  split at h
  · cases h
  · next hlimit => exact ⟨Nat.le_of_not_lt hlimit, (Except.ok.inj h).symm⟩

/-- A charge beyond the limit is refused. -/
theorem chargeMsgbytes_error
    (h : limit < (m uid).getD 0 + bytes) : ∃ e, chargeMsgbytes m uid bytes limit = .error e := by
  cases hc : chargeMsgbytes m uid bytes limit with
  | error e => exact ⟨e, rfl⟩
  | ok m' => exact absurd (chargeMsgbytes_ok hc).1 (Nat.not_le_of_lt h)

theorem messageBytes_ok {attr : MqAttr} {charge : ℕ} (h : messageBytes attr = .ok charge) :
    charge = attr.mqMaxmsg.toNat * attr.mqMsgsize.toNat +
      attr.mqMaxmsg.toNat * MQ_MSG_OVERHEAD := by
  obtain ⟨payload, hpayload, h⟩ := exists_of_bind_ok h
  obtain ⟨overhead, hoverhead, h⟩ := exists_of_bind_ok h
  rw [checked_ok h, checked_ok hpayload, checked_ok hoverhead]

/-- The charge depends on the limits alone, which the queue keeps. -/
theorem messageBytes_getAttr (attr : MqAttr) (flags : BitVec 32) :
    messageBytes ((MqQueue.new attr).getAttr flags) = messageBytes attr := by
  unfold messageBytes MqQueue.getAttr MqQueue.new
  simp only [BitVec.ofNat_toNat, BitVec.setWidth_eq]

namespace MqSystem

/-! ## The account against the cells -/

def owed (uid : BitVec 32) (handle : MqQueueHandle) : ℕ :=
  if handle.ownerUid = uid then handle.charge else 0

/-- The account is that of the live queues, and the destructor has run exactly on the dead ones. -/
structure Ledger (s : MqSystem) : Prop where
  account : ∀ uid, (s.bytes uid).getD 0 = ((Arc.live s.queues).map (owed uid)).sum
  charges : ∀ handle ∈ Arc.values s.queues,
    0 < handle.charge ∧ messageBytes (handle.inner.getAttr 0) = .ok handle.charge
  released : ∀ i, s.releases.count i =
    if i < s.queues.length ∧ Arc.strong s.queues i = 0 then 1 else 0

variable {i charge : ℕ} {caller : Caller} {attr : MqAttr}

variable {s : MqSystem}

theorem Ledger.clone (h : s.Ledger) (hi : 0 < Arc.strong s.queues i) :
    Ledger { s with queues := Arc.clone s.queues i } := by
  refine ⟨?_, ?_, fun j => ?_⟩ <;> dsimp only
  · rw [Arc.live_clone hi]
    exact h.account
  · rw [Arc.values_clone]
    exact h.charges
  · rw [h.released j, Arc.strong_clone hi, Arc.length_clone]
    by_cases hij : i = j
    · subst hij
      simp [Nat.ne_of_gt hi]
    · simp [hij]

/-- The account after a reference is dropped: what the destructor releases was owed. -/
theorem Ledger.dropQueue (h : s.Ledger) (hi : 0 < Arc.strong s.queues i) :
    (s.dropQueue i).Ledger := by
  have hlive := Arc.live_drop hi
  have hcharges : ∀ handle ∈ Arc.values (Arc.drop s.queues i).2,
      0 < handle.charge ∧ messageBytes (handle.inner.getAttr 0) = .ok handle.charge := by
    rw [Arc.values_drop]
    exact h.charges
  have hlen : i < s.queues.length := by
    obtain ⟨c, hcell, -⟩ := Arc.exists_cell_of_strong_pos hi
    exact (List.getElem?_eq_some_iff.mp hcell).1
  have hsum : ∀ uid, (s.bytes uid).getD 0 = (((Arc.drop s.queues i).1.toList ++
      Arc.live (Arc.drop s.queues i).2).map (owed uid)).sum := fun uid =>
    (h.account uid).trans (hlive.map _).sum_eq
  unfold MqSystem.dropQueue
  obtain ⟨handle, hmem, hdrop, hone⟩ | ⟨hdrop, hmore⟩ := Arc.drop_cases hi
  · rw [show Arc.drop s.queues i = (some handle, _) from Prod.ext hdrop rfl]
    dsimp only
    rw [if_pos (h.charges handle hmem).1]
    refine ⟨fun uid => ?_, hcharges, fun j => ?_⟩
    · rw [releaseMsgbytes_getD, hsum, hdrop, Option.toList_some, singleton_append, map_cons,
        sum_cons, owed]
      by_cases huid : uid = handle.ownerUid
      · rw [if_pos huid, if_pos huid.symm]
        exact Nat.add_sub_cancel_left ..
      · rw [if_neg huid, if_neg (Ne.symm huid), Nat.zero_add]
    · rw [count_cons, h.released j, Arc.strong_drop, Arc.length_drop]
      by_cases hij : i = j
      · subst hij
        simp [hone, hlen]
      · simp [hij]
  · rw [show Arc.drop s.queues i = (none, _) from Prod.ext hdrop rfl]
    rw [hdrop] at hsum
    refine ⟨hsum, hcharges, fun j => ?_⟩
    rw [h.released j, Arc.strong_drop, Arc.length_drop]
    by_cases hij : i = j
    · subst hij
      have : Arc.strong s.queues i - 1 ≠ 0 := by omega
      simp [Nat.ne_of_gt hi, this]
    · simp [hij]

theorem getAttr_clearNotify (q : MqQueue) (pid : BitVec 64) (flags : BitVec 32) :
    (q.clearNotify pid).getAttr flags = q.getAttr flags := by
  obtain ⟨left, heq⟩ := q.clearNotify_cases pid
  rw [heq]
  rfl

theorem Ledger.clearNotify (h : s.Ledger) (object p : ℕ) : (s.clearNotify object p).Ledger := by
  unfold MqSystem.clearNotify
  cases s.objects[object]? with
  | none => exact h
  | some c =>
    refine ⟨fun uid => ?_, ?_, fun j => ?_⟩ <;> dsimp only
    · rw [Arc.map_live_update (f := MqQueueHandle.clearNotify _) fun _ => rfl]
      exact h.account uid
    · -- the limits and the charge of the queue stay as they are
      let g (handle : MqQueueHandle) := (handle.inner.getAttr 0, handle.charge)
      have hmap := Arc.map_values_update (f := MqQueueHandle.clearNotify (BitVec.ofNat 64 p)) (g := g)
        (fun _ => Prod.ext (getAttr_clearNotify ..) rfl) s.queues c.value
      have hiff := fun l => forall_mem_map (l := l) (f := g)
        (P := fun x => 0 < x.2 ∧ messageBytes x.1 = .ok x.2)
      exact (hiff _).mp (hmap ▸ (hiff _).mpr h.charges)
    · rw [Arc.strong_update, Arc.length_update]
      exact h.released j

theorem attrAccepted_charge
    (hattr : attrAccepted caller attr) (h : messageBytes attr = .ok charge) : 0 < charge := by
  have hmax : 0 < attr.mqMaxmsg.toInt := by
    simp only [attrAccepted, Bool.not_eq_true', Bool.or_eq_false_iff, decide_eq_false_iff_not] at hattr
    omega
  have hpos : 0 < attr.mqMaxmsg.toNat := by
    rw [BitVec.toInt_eq_toNat_cond] at hmax
    omega
  rw [messageBytes_ok h]
  exact Nat.add_pos_right _ (Nat.mul_pos hpos (by decide))

/-- A new queue enters the account and the cells together. -/
theorem Ledger.alloc (h : s.Ledger)
    {bytes : MqBytes} (hattr : attrAccepted caller attr) (hcharge : messageBytes attr = .ok charge)
    (hbytes : chargeMsgbytes s.bytes caller.cred.euid charge caller.msgqueueLimit = .ok bytes) :
    Ledger { s with
      queues := Arc.alloc s.queues (.new attr caller.cred.euid charge)
      bytes := bytes } := by
  constructor
  · intro uid
    rw [Arc.live_alloc, map_append, sum_append, ← h.account uid, (chargeMsgbytes_ok hbytes).2]
    by_cases huid : uid = caller.cred.euid
    · subst huid
      simp [MqBytes.set, owed, MqQueueHandle.new]
    · simp [MqBytes.set, owed, MqQueueHandle.new, huid, Ne.symm huid]
  · rw [Arc.values_alloc]
    refine forall_mem_append.mpr ⟨h.charges, forall_mem_singleton.mpr ?_⟩
    exact ⟨attrAccepted_charge hattr hcharge, (messageBytes_getAttr attr 0).trans hcharge⟩
  · intro j
    rw [h.released j, Arc.strong_alloc]
    by_cases hj : j = s.queues.length
    · simp [hj]
    have hlen : (Arc.alloc s.queues (.new attr caller.cred.euid charge)).length =
        s.queues.length + 1 := by simp [Arc.alloc]
    have hlt : j < s.queues.length + 1 ↔ j < s.queues.length := by omega
    simp only [hlen, hj, if_false, hlt]

end MqSystem

open MqSystem

/-! ## References held and in flight -/

def Descriptor.objects : Option Descriptor → List ℕ
  | some (.mqueue i) => [i]
  | some .other | none => []

namespace MqSystem

def heldObjects (s : MqSystem) : List ℕ :=
  s.tables.flatMap fun table => table.flatMap Descriptor.objects

def heldQueues (s : MqSystem) : List ℕ := s.names.map (fun e => e.2.queue) ++ Arc.live s.objects

/-- Each count is the number of references held, and of those in flight. -/
structure Balanced (s : MqSystem) (queues objects : List ℕ) : Prop where
  ledger : s.Ledger
  queueRefs : Arc.Counted s.queues (queues ++ s.heldQueues)
  objectRefs : Arc.Counted s.objects (objects ++ s.heldObjects)

variable {s : MqSystem} {Q O : List ℕ}

theorem dropQueue_fields (s : MqSystem) (i : ℕ) :
    (s.dropQueue i).queues = (Arc.drop s.queues i).2 ∧ (s.dropQueue i).objects = s.objects ∧
    (s.dropQueue i).names = s.names ∧ (s.dropQueue i).tables = s.tables := by
  unfold dropQueue
  split
  · rename_i queues hdrop
    rw [hdrop]
    exact ⟨rfl, rfl, rfl, rfl⟩
  rename_i handle queues hdrop
  rw [hdrop]
  split
  all_goals exact ⟨rfl, rfl, rfl, rfl⟩

variable {i p : ℕ} {entry : MqEntry}

theorem Balanced.dropQueue (h : Balanced s (i :: Q) O) : Balanced (s.dropQueue i) Q O := by
  obtain ⟨hqueues, hobjects, hnames, htables⟩ := s.dropQueue_fields i
  have hpos : 0 < Arc.strong s.queues i :=
    (h.queueRefs.strong_pos_iff i).mpr (mem_cons_self ..)
  refine ⟨h.ledger.dropQueue hpos, ?_, ?_⟩
  · unfold heldQueues
    rw [hqueues, hnames, hobjects]
    exact Arc.Counted.drop h.queueRefs
  · unfold heldObjects
    rw [hobjects, htables]
    exact h.objectRefs

theorem Balanced.dropObject (h : Balanced s Q (i :: O)) : Balanced (s.dropObject i) Q O := by
  have hlive := Arc.live_drop ((h.objectRefs.strong_pos_iff i).mpr (mem_cons_self ..))
  -- the queue reference of a description that is no more is now in flight
  have hflight : Balanced { s with objects := (Arc.drop s.objects i).2 }
      ((Arc.drop s.objects i).1.toList ++ Q) O := by
    refine ⟨{ h.ledger with }, h.queueRefs.perm (perm_iff_count.mpr fun j => ?_), h.objectRefs.drop⟩
    have hcount := hlive.count_eq j
    simp only [heldQueues, count_append] at hcount ⊢
    omega
  unfold MqSystem.dropObject
  generalize Arc.drop s.objects i = r at hflight ⊢
  obtain ⟨_ | queue, objects⟩ := r
  · exact hflight
  · exact hflight.dropQueue

theorem Balanced.cloneQueue (h : Balanced s Q O) (hi : i ∈ Q ++ s.heldQueues) :
    Balanced { s with queues := Arc.clone s.queues i } (i :: Q) O :=
  ⟨h.ledger.clone ((h.queueRefs.strong_pos_iff i).mpr hi), h.queueRefs.clone hi, h.objectRefs⟩

theorem Balanced.cloneDescriptor (h : Balanced s Q O) {d : Option Descriptor}
    (hd : ∀ i ∈ Descriptor.objects d, i ∈ O ++ s.heldObjects) :
    Balanced (s.cloneDescriptor d) Q (Descriptor.objects d ++ O) := by
  cases d with
  | none => exact h
  | some d =>
    cases d with
    | other => exact h
    | mqueue i =>
      have hi : i ∈ O ++ s.heldObjects := hd i (mem_singleton_self i)
      have hlive := Arc.live_clone ((h.objectRefs.strong_pos_iff i).mpr hi)
      refine ⟨{ h.ledger with }, ?_, h.objectRefs.clone hi⟩
      show Arc.Counted s.queues (Q ++ (_ ++ Arc.live (Arc.clone s.objects i)))
      rw [hlive]
      exact h.queueRefs

variable {O' : List ℕ} {table : List (Option Descriptor)} {d : Descriptor} {ns : ℕ}
  {caller : Caller} {name : String}

/-- A table is replaced: what it no longer refers to is in flight, and conversely. -/
theorem Balanced.setTable (h : Balanced s Q O)
    {table' : List (Option Descriptor)} (hp : s.tables[p]? = some table)
    (hperm : (O ++ table.flatMap Descriptor.objects).Perm
      (O' ++ table'.flatMap Descriptor.objects)) :
    Balanced { s with tables := s.tables.set p table' } Q O' := by
  obtain ⟨before, after, hheld, hset⟩ :=
    flatMap_set hp fun table => table.flatMap Descriptor.objects
  refine ⟨{ h.ledger with }, h.queueRefs, fun i => ?_⟩
  have hcount := h.objectRefs i
  have hsum := hperm.count_eq i
  unfold heldObjects at hcount ⊢
  rw [hheld] at hcount
  rw [hset]
  simp only [count_append] at hcount hsum ⊢
  omega

theorem getElem?_tables (hp : ¬s.tables.length ≤ p) : s.tables[p]? = some (s.tables.getD p []) := by
  rw [getD_eq_getElem?_getD, getElem?_eq_getElem (Nat.lt_of_not_le hp)]
  rfl

theorem Balanced.installFd
    (h : Balanced s Q (Descriptor.objects (some d) ++ O)) (hp : ¬s.tables.length ≤ p) :
    Balanced (s.installFd p d).2 Q O := by
  unfold MqSystem.installFd
  dsimp only
  split
  · rename_i i hfree
    -- the slot was free: nothing it referred to is lost
    have hslot : (s.tables.getD p [])[i]? = some none := by
      obtain ⟨hlt, hnone, -⟩ := findIdx?_eq_some_iff_getElem.mp hfree
      rw [getElem?_eq_getElem hlt]
      exact congrArg some (Option.isNone_iff_eq_none.mp hnone)
    obtain ⟨before, after, hheld, hset⟩ := flatMap_set hslot Descriptor.objects
    refine h.setTable (getElem?_tables hp) (perm_iff_count.mpr fun j => ?_)
    rw [hheld, hset]
    simp only [count_append, Descriptor.objects, count_nil]
    omega
  · refine h.setTable (getElem?_tables hp) (perm_iff_count.mpr fun j => ?_)
    simp only [flatMap_append, flatMap_singleton, count_append]
    omega

theorem Balanced.openEntry (h : Balanced s (entry.queue :: Q) O)
    (hp : ¬s.tables.length ≤ p) : Balanced (s.openEntry p entry).2 Q O := by
  have hopen : Balanced { s with objects := Arc.alloc s.objects entry.queue } Q
      (Descriptor.objects (some (.mqueue s.objects.length)) ++ O) := by
    refine ⟨{ h.ledger with }, h.queueRefs.perm (perm_iff_count.mpr fun j => ?_), h.objectRefs.alloc _⟩
    simp only [heldQueues, Arc.live_alloc, count_append, count_cons, count_nil]
    omega
  exact hopen.installFd hp

/-- A new queue has a reference under its name and one for the descriptor to be installed. -/
theorem Balanced.create {attr : MqAttr} {mode : BitVec 32} {s' : MqSystem} (h : Balanced s Q O)
    (hcreate : s.create ns caller attr name mode = .ok (entry, s')) :
    Balanced s' (entry.queue :: Q) O ∧ s'.tables = s.tables := by
  unfold MqSystem.create at hcreate
  split at hcreate
  · cases hcreate
  rename_i hattr
  split at hcreate
  · cases hcreate
  rename_i charge hcharge
  split at hcreate
  · cases hcreate
  split at hcreate
  · cases hcreate
  rename_i bytes hbytes
  obtain ⟨hentry, hstate⟩ := Prod.mk.inj (Except.ok.inj hcreate)
  have hledger := h.ledger.alloc (by simpa using hattr) hcharge hbytes
  have hcounted := h.queueRefs.alloc (MqQueueHandle.new attr caller.cred.euid charge)
  have hqueue : entry.queue = s.queues.length := by rw [← hentry]
  subst hstate
  have hledger' := hledger.clone (i := s.queues.length)
    ((hcounted.strong_pos_iff _).mpr (mem_cons_self ..))
  refine ⟨⟨{ hledger' with }, ?_, h.objectRefs⟩, rfl⟩
  refine (hcounted.clone (mem_cons_self ..)).perm (perm_iff_count.mpr fun j => ?_)
  simp only [heldQueues, hqueue, map_append, map_cons, map_nil, count_append, count_cons, count_nil]
  omega

theorem Balanced.clearNotify (h : Balanced s Q O) (object p : ℕ) :
    Balanced (s.clearNotify object p) Q O := by
  have hledger := h.ledger.clearNotify object p
  unfold MqSystem.clearNotify at hledger ⊢
  split
  · exact h
  rename_i c hc
  rw [hc] at hledger
  refine ⟨hledger, fun i => ?_, h.objectRefs⟩
  rw [Arc.strong_update]
  exact h.queueRefs i

/-! ## The calls -/

theorem Balanced.openExisting (h : Balanced s Q O) {oflag : BitVec 32} (hp : ¬s.tables.length ≤ p)
    (hentry : entry.queue ∈ s.names.map fun e => e.2.queue) :
    Balanced (s.openExisting p caller entry oflag).2 Q O := by
  have hclone := h.cloneQueue
    (mem_append_right Q (mem_append_left (Arc.live s.objects) hentry))
  unfold MqSystem.openExisting
  split
  · exact hclone.dropQueue
  · split
    · exact hclone.dropQueue
    · exact hclone.openEntry hp

theorem lookup_some (h : s.lookup ns name = some entry) : (s.names.map fun e => e.2.queue).Perm
      (entry.queue :: (s.names.eraseP fun e => e.1 = (ns, name)).map fun e => e.2.queue) := by
  obtain ⟨e, hfind, rfl⟩ := Option.map_eq_some_iff.mp h
  obtain ⟨hkey, before, after, hnames, hbefore⟩ := find?_eq_some_iff_append.mp hfind
  have hrest : s.names.eraseP (fun e => e.1 = (ns, name)) = before ++ after := by
    have hskip : ∀ x ∈ before, ¬decide (x.1 = (ns, name)) = true := fun x hx => by
      simpa using hbefore x hx
    rw [hnames, eraseP_append_right _ hskip]
    simp only [eraseP_cons, hkey, cond_true]
  rw [hrest, hnames, map_append, map_append, map_cons]
  exact perm_middle

theorem Balanced.mqOpen (h : Balanced s [] []) (p ns : ℕ) (caller : Caller)
    (attr : Except Errno (Option MqAttr)) (name : Except Errno String) (oflag mode : BitVec 32) :
    Balanced (s.mqOpen p ns caller attr name oflag mode).2 [] [] := by
  unfold MqSystem.mqOpen
  split
  · exact h
  · exact h
  rename_i attr name
  split
  · exact h
  split
  · exact h
  rename_i hp
  split
  · rename_i entry hlookup
    exact h.openExisting hp ((lookup_some hlookup).mem_iff.mpr (mem_cons_self ..))
  split
  · exact h
  split
  · exact h
  rename_i entry s' hcreate
  obtain ⟨hbalanced, htables⟩ := h.create hcreate
  exact hbalanced.openEntry (by rw [htables]; exact hp)

theorem Balanced.mqUnlink (h : Balanced s [] []) (p ns : ℕ) (name : Except Errno String) :
    Balanced (s.mqUnlink p ns name).2 [] [] := by
  unfold MqSystem.mqUnlink
  split
  · exact h
  split
  · exact h
  split
  · exact h
  rename_i entry hlookup
  apply Balanced.dropQueue
  exact ⟨{ h.ledger with }, h.queueRefs.perm ((lookup_some hlookup).append_right _), h.objectRefs⟩

theorem Balanced.sysClose (h : Balanced s [] []) (p fd : ℕ) :
    Balanced (s.sysClose p fd).2 [] [] := by
  unfold MqSystem.sysClose
  split
  · exact h
  rename_i hp
  dsimp only
  split
  · exact h
  rename_i desc hslot
  have hclosed : Balanced
      { s with tables := s.tables.set p ((s.tables.getD p []).set fd none) } []
      (Descriptor.objects (some desc)) := by
    obtain ⟨before, after, hheld, hset⟩ :=
      flatMap_set (Option.join_eq_some_iff.mp hslot) Descriptor.objects
    refine h.setTable (getElem?_tables hp) (perm_iff_count.mpr fun j => ?_)
    rw [hheld, hset]
    simp only [count_append, Descriptor.objects, count_nil]
    omega
  cases desc with
  | other => exact hclosed
  | mqueue i =>
    dsimp only
    split
    · exact (hclosed.clearNotify i p).dropObject
    · exact hclosed.dropObject

theorem mem_heldObjects {fd : ℕ} (hp : ¬s.tables.length ≤ p)
    (hslot : (s.tables.getD p [])[fd]?.join = some d)
    (hi : i ∈ Descriptor.objects (some d)) : i ∈ s.heldObjects := by
  have htable := mem_of_getElem? (getElem?_tables hp)
  have hmem := mem_of_getElem? (Option.join_eq_some_iff.mp hslot)
  exact mem_flatMap.mpr ⟨_, htable, mem_flatMap.mpr ⟨_, hmem, hi⟩⟩

theorem cloneDescriptor_tables (s : MqSystem) (d : Option Descriptor) :
    (s.cloneDescriptor d).tables = s.tables := by
  unfold cloneDescriptor
  split <;> rfl

theorem Balanced.sysDup (h : Balanced s [] []) (p fd : ℕ) : Balanced (s.sysDup p fd).2 [] [] := by
  unfold MqSystem.sysDup
  split
  · exact h
  rename_i hp
  split
  · exact h
  rename_i desc hslot
  have hclone := h.cloneDescriptor (d := some desc) fun i hi => mem_heldObjects hp hslot hi
  apply hclone.installFd
  rw [cloneDescriptor_tables]
  exact hp

theorem Balanced.permObjects (h : Balanced s Q O) (hperm : O.Perm O') : Balanced s Q O' :=
  ⟨h.ledger, h.queueRefs, h.objectRefs.perm (hperm.append_right _)⟩

theorem Balanced.cloneTable (h : Balanced s Q O)
    (hheld : ∀ i ∈ table.flatMap Descriptor.objects, i ∈ s.heldObjects) :
    Balanced (table.foldl MqSystem.cloneDescriptor s) Q (table.flatMap Descriptor.objects ++ O) ∧
      (table.foldl MqSystem.cloneDescriptor s).tables = s.tables := by
  induction table generalizing s O with
  | nil => exact ⟨h, rfl⟩
  | cons d table ih =>
    rw [flatMap_cons] at hheld ⊢
    have htables := s.cloneDescriptor_tables d
    have hclone := h.cloneDescriptor (d := d) fun i hi =>
      mem_append_right O (hheld i (mem_append_left _ hi))
    have hsame : (s.cloneDescriptor d).heldObjects = s.heldObjects := by
      unfold heldObjects
      rw [htables]
    obtain ⟨hrest, hresttables⟩ := ih hclone fun i hi => by
      rw [hsame]
      exact hheld i (mem_append_right _ hi)
    refine ⟨hrest.permObjects ?_, hresttables.trans htables⟩
    rw [append_assoc]
    exact perm_append_comm_assoc ..

section

variable (h : Balanced s [] [])

include h

theorem Balanced.forkTable (p : ℕ) : Balanced (s.forkTable p).2 [] [] := by
  unfold MqSystem.forkTable
  split
  · exact h
  rename_i hp
  have hheld : ∀ i ∈ (s.tables.getD p []).flatMap Descriptor.objects, i ∈ s.heldObjects :=
    fun i hi => mem_flatMap.mpr ⟨_, mem_of_getElem? (getElem?_tables hp), hi⟩
  obtain ⟨hclone, htables⟩ := h.cloneTable hheld
  refine ⟨{ hclone.ledger with }, hclone.queueRefs, hclone.objectRefs.perm ?_⟩
  unfold heldObjects
  rw [append_nil, flatMap_append, flatMap_singleton]
  exact perm_append_comm

omit h in
theorem Balanced.dropTable (h : Balanced s Q (table.flatMap Descriptor.objects ++ O)) :
    Balanced (table.foldl (fun s desc =>
      match desc with
      | some (.mqueue i) => (s.clearNotify i p).dropObject i
      | some .other | none => s) s) Q O := by
  induction table generalizing s with
  | nil => exact h
  | cons d table ih =>
    apply ih
    cases d with
    | none => exact h
    | some d =>
      cases d with
      | other => exact h
      | mqueue i => exact (h.clearNotify i p).dropObject

theorem Balanced.exitTable (p : ℕ) : Balanced (s.exitTable p).2 [] [] := by
  unfold MqSystem.exitTable
  split
  · exact h
  rename_i hp
  apply Balanced.dropTable
  apply h.setTable (getElem?_tables hp)
  rw [append_nil, flatMap_nil, append_nil]
  exact List.Perm.refl _

theorem Balanced.exec (call : MqCall) :
    Balanced (s.exec call).2 [] [] := by
  cases call with
  | mqOpen p ns caller attr name oflag mode => exact h.mqOpen p ns caller attr name oflag mode
  | mqUnlink p ns name => exact h.mqUnlink p ns name
  | close p fd => exact h.sysClose p fd
  | dup p fd => exact h.sysDup p fd
  | fork p => exact h.forkTable p
  | exit p => exact h.exitTable p

theorem Balanced.run (calls : List MqCall) :
    Balanced (s.run calls) [] [] := by
  induction calls generalizing s with
  | nil => exact h
  | cons call calls ih => exact ih (h.exec call)

omit h in
theorem balanced_init (n : ℕ) : Balanced (init n) [] [] := by
  refine ⟨⟨fun _ => rfl, ?_, fun i => ?_⟩, Arc.counted_nil, ?_⟩
  · intro handle hmem
    cases hmem
  · simp [init]
  · have hheld : (init n).heldObjects = [] := by
      unfold heldObjects init
      rw [flatMap_eq_nil_iff]
      intro table htable
      rw [eq_of_mem_replicate htable]
      rfl
    rw [hheld]
    exact Arc.counted_nil

/-! ## Live queues -/

def referenced (s : MqSystem) : List ℕ :=
  s.names.map (fun e => e.2.queue) ++
    s.heldObjects.filterMap fun o => s.objects[o]?.map Cell.value

def liveBytes (s : MqSystem) (uid : BitVec 32) : ℕ :=
  ((s.queues.zipIdx.filter fun c => c.2 ∈ s.referenced ∧ c.1.value.ownerUid = uid).map fun c =>
    ((messageBytes (c.1.value.inner.getAttr 0)).toOption.getD 0)).sum

theorem Balanced.strong_pos_iff (i : ℕ) :
    0 < Arc.strong s.queues i ↔ i ∈ s.referenced := by
  rw [h.queueRefs.strong_pos_iff]
  unfold heldQueues referenced
  rw [nil_append, mem_append, mem_append]
  apply or_congr_right
  rw [mem_filterMap, Arc.live, mem_map]
  constructor
  · rintro ⟨c, hc, hvalue⟩
    obtain ⟨hmem, hpos⟩ := mem_filter.mp hc
    obtain ⟨o, ho⟩ := mem_iff_getElem?.mp hmem
    refine ⟨o, ?_, by rw [ho, Option.map_some, hvalue]⟩
    have hstrong : 0 < Arc.strong s.objects o := by
      rw [Arc.strong, ho]
      exact of_decide_eq_true hpos
    simpa using (h.objectRefs.strong_pos_iff o).mp hstrong
  · rintro ⟨o, ho, hvalue⟩
    obtain ⟨c, hc, hvalue⟩ := Option.map_eq_some_iff.mp hvalue
    have hstrong : 0 < Arc.strong s.objects o := (h.objectRefs.strong_pos_iff o).mpr ho
    rw [Arc.strong, hc] at hstrong
    exact ⟨c, mem_filter.mpr ⟨mem_of_getElem? hc, decide_eq_true hstrong⟩, hvalue⟩

omit h in
theorem sum_filter_eq {α : Type} (l : List α) (keep : α → Bool) (f : α → ℕ) :
    ((l.filter keep).map f).sum = (l.map fun a => if keep a then f a else 0).sum := by
  induction l with
  | nil => rfl
  | cons a l ih => cases hk : keep a <;> simp [hk, ih]

theorem Balanced.bytes_eq (uid : BitVec 32) :
    (s.bytes uid).getD 0 = s.liveBytes uid := by
  rw [h.ledger.account uid, Arc.live, map_map, liveBytes, sum_filter_eq, sum_filter_eq]
  -- both sums are taken cell by cell
  have hcells : s.queues.map (fun c => if decide (0 < c.strong) then (owed uid ∘ Cell.value) c else 0)
      = (s.queues.zipIdx.map fun c =>
        if decide (0 < c.1.strong) then (owed uid ∘ Cell.value) c.1 else 0) := by
    conv_lhs => rw [← zipIdx_map_fst 0 s.queues]
    rw [map_map]
    rfl
  rw [hcells]
  apply congrArg List.sum
  apply map_congr_left
  rintro ⟨c, i⟩ hmem
  have hget : s.queues[i]? = some c := mem_zipIdx_iff_getElem?.mp hmem
  have hlive : 0 < c.strong ↔ i ∈ s.referenced := by
    rw [← h.strong_pos_iff, Arc.strong, hget]
    rfl
  have hcharge := (h.ledger.charges c.value (mem_map_of_mem (mem_of_getElem? hget))).2
  simp only [Function.comp, owed, hcharge, Except.toOption, Option.getD_some, hlive]
  by_cases hi : i ∈ s.referenced <;> simp [hi]

end

/-- A creation beyond the limit is refused and changes nothing. -/
theorem mqOpen_over_limit (s : MqSystem) (p ns : ℕ) (caller : Caller) (attr : Option MqAttr)
    (name : String) (oflag mode : BitVec 32) (hnew : s.lookup ns name = none)
    (hover : caller.msgqueueLimit < (s.bytes caller.cred.euid).getD 0 +
      ((attr.getD .defaultAttrs).mqMaxmsg.toNat * (attr.getD .defaultAttrs).mqMsgsize.toNat +
        (attr.getD .defaultAttrs).mqMaxmsg.toNat * MQ_MSG_OVERHEAD)) :
    ∃ e, s.mqOpen p ns caller (.ok attr) (.ok name) oflag mode = (.error e, s) := by
  have hcreate : ∃ e, s.create ns caller (attr.getD .defaultAttrs) name mode = .error e := by
    unfold create
    split
    · exact ⟨_, rfl⟩
    cases hcharge : messageBytes (attr.getD .defaultAttrs) with
    | error e => exact ⟨e, rfl⟩
    | ok charge =>
      rw [← messageBytes_ok hcharge] at hover
      obtain ⟨e, he⟩ := chargeMsgbytes_error hover
      dsimp only
      split
      · exact ⟨_, rfl⟩
      · rw [he]
        exact ⟨e, rfl⟩
  obtain ⟨e, he⟩ := hcreate
  unfold mqOpen
  dsimp only
  split
  · exact ⟨_, rfl⟩
  split
  · exact ⟨_, rfl⟩
  rw [hnew]
  dsimp only
  split
  · exact ⟨_, rfl⟩
  · rw [he]
    exact ⟨e, rfl⟩

end MqSystem

/-- In every state reached, the bytes of each uid are those of its live queues, a creation
beyond the limit is refused and changes nothing, and the charge of a queue has been
released once if it is referenced no more and not at all otherwise. -/
theorem mqBytes_accounted (n : ℕ) (calls : List MqCall) :
    (∀ uid, (((init n).run calls).bytes uid).getD 0 =
      ((init n).run calls).liveBytes uid) ∧
    (∀ p ns caller attr name oflag mode, ((init n).run calls).lookup ns name = none →
      caller.msgqueueLimit < ((init n).run calls).liveBytes caller.cred.euid +
        ((attr.getD .defaultAttrs).mqMaxmsg.toNat * (attr.getD .defaultAttrs).mqMsgsize.toNat +
          (attr.getD .defaultAttrs).mqMaxmsg.toNat * MQ_MSG_OVERHEAD) →
      ∃ e, ((init n).run calls).mqOpen p ns caller (.ok attr) (.ok name) oflag mode =
        (.error e, (init n).run calls)) ∧
    ∀ i, ((init n).run calls).releases.count i =
      if i < ((init n).run calls).queues.length ∧
        i ∉ ((init n).run calls).referenced then 1 else 0 := by
  have h := (balanced_init n).run calls
  refine ⟨h.bytes_eq, ?_, ?_⟩
  · intro p ns caller attr name oflag mode hnew hover
    rw [← h.bytes_eq] at hover
    exact mqOpen_over_limit _ p ns caller attr name oflag mode hnew hover
  · intro i
    have hdead : Arc.strong ((init n).run calls).queues i = 0 ↔
        i ∉ ((init n).run calls).referenced := by
      rw [← h.strong_pos_iff, Nat.pos_iff_ne_zero, not_not]
    simp only [h.ledger.released i, hdead]

end Vahi.Ipc
