import Mathlib.Data.List.Nodup
import Vahi.Lib.Run
import Vahi.Lib.Stream
import Vahi.Net.Unix

/-!
# Byte streams over Unix sockets

`Links` says who is connected to whom and what each has sent and got. As long as nothing is sent to
a listening socket, a socket has sent what has come to its peer; the sockets refine it as long as
receives do not drop bytes.
-/

namespace Vahi.Net

open Vahi.Lib Vahi.Types List Function

/-! ### Connections -/

/-- `total h` is what has come to `h`. -/
@[ext] structure Links where
  peer : ℕ → Option ℕ
  listens : ℕ → Bool
  backlog : ℕ → List ℕ
  sent : ℕ → Bytes
  total : ℕ → Bytes

namespace Links

/-- A socket that is not connected, or waits to be accepted, has neither sent nor got anything;
the others have sent what has come to their peers. -/
structure Ok (k : Links) : Prop where
  listening : ∀ h, k.listens h = true → k.peer h = none
  idle : ∀ x, (∀ p, k.peer x = some p → k.listens p = true) → k.sent x = [] ∧ k.total x = []
  peers : ∀ x p, k.peer x = some p →
    k.listens p = true ∨ (k.peer p = some x ∧ k.sent x = k.total p)
  nodup : ∀ l, (k.backlog l).Nodup
  waiting : ∀ l, ∀ x ∈ k.backlog l, k.peer x = some l

def listen (k : Links) (h : ℕ) : Links := { k with listens := update k.listens h true }

def connect (k : Links) (x l : ℕ) : Links :=
  { k with
    peer := update k.peer x (some l)
    backlog := update k.backlog l (k.backlog l ++ [x]) }

/-- The client `x`, first of those that wait at `l`, gets the new peer `a`. -/
def accept (k : Links) (l x a : ℕ) (rest : List ℕ) : Links :=
  { k with
    peer := update (update k.peer x (some a)) a (some x)
    backlog := update k.backlog l rest }

def transfer (k : Links) (x p : ℕ) (data : Bytes) : Links :=
  { k with
    sent := update k.sent x (k.sent x ++ data)
    total := update k.total p (k.total p ++ data) }

variable (k : Links)

@[simp] theorem listen_listens (h : ℕ) : (k.listen h).listens = update k.listens h true := rfl

@[simp] theorem connect_peer (x l : ℕ) : (k.connect x l).peer = update k.peer x (some l) := rfl

@[simp] theorem accept_peer (l x a : ℕ) (rest : List ℕ) : (k.accept l x a rest).peer =
      update (update k.peer x (some a)) a (some x) := rfl

@[simp] theorem transfer_sent (x p : ℕ) (data : Bytes) :
    (k.transfer x p data).sent = update k.sent x (k.sent x ++ data) := rfl

@[simp] theorem transfer_total (x p : ℕ) (data : Bytes) :
    (k.transfer x p data).total = update k.total p (k.total p ++ data) := rfl

theorem transfer_nil (x p : ℕ) : k.transfer x p [] = k := by
  simp only [transfer, append_nil, update_eq_self]

namespace Ok

variable {k : Links}

variable (hok : k.Ok) {h : ℕ}

include hok

theorem listen (hpeer : k.peer h = none) : (k.listen h).Ok where
  listening := (forall_update_iff k.listens fun u b => b = true → k.peer u = none).mpr
    ⟨fun _ => hpeer, fun u _ => hok.listening u⟩
  idle x hx := by
    refine hok.idle x fun p hp => ?_
    have hlistens := hx p hp
    by_cases hph : p = h
    · subst hph
      rcases hok.peers x p hp with hold | ⟨hback, -⟩
      · exact hold
      · exact absurd (hpeer.symm.trans hback) (by simp)
    · rwa [listen_listens, update_of_ne hph] at hlistens
  peers x p hp := by
    refine (hok.peers x p hp).imp_left fun hold => ?_
    by_cases hph : p = h
    · subst hph
      exact update_self ..
    · rwa [listen_listens, update_of_ne hph]
  nodup := hok.nodup
  waiting := hok.waiting

/-- No socket has a peer that neither listens nor has a peer. -/
theorem peer_ne (hpeer : k.peer h = none) (hlistens : k.listens h = false)
    (x : ℕ) : k.peer x ≠ some h := by
  intro hx
  rcases hok.peers x h hx with hold | ⟨hback, -⟩
  · exact absurd (hlistens.symm.trans hold) (by decide)
  · exact absurd (hpeer.symm.trans hback) (by simp)

theorem not_mem_backlog {x : ℕ} (hpeer : k.peer x = none) (l : ℕ) :
    x ∉ k.backlog l := by
  intro hx
  exact absurd (hpeer.symm.trans (hok.waiting l x hx)) (by simp)

theorem connect {x l : ℕ} (hpeer : k.peer x = none) (hx : k.listens x = false)
    (hl : k.listens l = true) : (k.connect x l).Ok where
  listening u hu := by
    have hux : u ≠ x := ne_of_apply_ne k.listens (hx ▸ hu ▸ Bool.noConfusion)
    rw [connect_peer, update_of_ne hux]
    exact hok.listening u hu
  idle u hu := by
    by_cases hux : u = x
    · subst hux
      exact hok.idle u fun p hp => absurd (hpeer.symm.trans hp) (by simp)
    · refine hok.idle u fun p hp => hu p ?_
      rwa [connect_peer, update_of_ne hux]
  peers u p hp := by
    by_cases hux : u = x
    · subst hux
      rw [connect_peer, update_self] at hp
      cases hp
      exact .inl hl
    · rw [connect_peer, update_of_ne hux] at hp
      have hpx : p ≠ x := fun heq => hok.peer_ne hpeer hx u (heq ▸ hp)
      rw [connect_peer, update_of_ne hpx]
      exact hok.peers u p hp
  nodup := by
    refine (forall_update_iff k.backlog fun _ b => b.Nodup).mpr ⟨?_, fun m _ => hok.nodup m⟩
    rw [← concat_eq_append]
    exact (hok.nodup l).concat (hok.not_mem_backlog hpeer l)
  waiting := by
    have hold : ∀ m, ∀ u ∈ k.backlog m, (k.connect x l).peer u = some m := by
      intro m u hu
      have hux : u ≠ x := fun heq => hok.not_mem_backlog hpeer m (heq ▸ hu)
      rw [connect_peer, update_of_ne hux]
      exact hok.waiting m u hu
    exact (forall_update_iff k.backlog fun m b => ∀ u ∈ b, (k.connect x l).peer u = some m).mpr
      ⟨forall_mem_append.mpr ⟨hold l, forall_mem_singleton.mpr (update_self ..)⟩, fun m _ => hold m⟩

theorem accept {l x a : ℕ} {rest : List ℕ} (hl : k.listens l = true)
    (hbacklog : k.backlog l = x :: rest) (hpeer : k.peer a = none) (ha : k.listens a = false)
    (hidle : k.sent a = [] ∧ k.total a = []) : (k.accept l x a rest).Ok := by
  have hx : k.peer x = some l := hok.waiting l x (hbacklog ▸ mem_cons_self)
  have hnodup : x ∉ rest ∧ rest.Nodup := nodup_cons.mp (hbacklog ▸ hok.nodup l)
  have hnotListens : k.listens x = false := by
    rw [← Bool.not_eq_true]
    intro hlistens
    exact absurd ((hok.listening x hlistens).symm.trans hx) (by simp)
  have hxIdle : k.sent x = [] ∧ k.total x = [] := by
    refine hok.idle x fun p hp => ?_
    cases hx.symm.trans hp
    exact hl
  have hxa : x ≠ a := ne_of_apply_ne k.peer (by simp [hx, hpeer])
  have hpeer_a : (k.accept l x a rest).peer a = some x := update_self ..
  have hpeer_x : (k.accept l x a rest).peer x = some a := by
    rw [accept_peer, update_of_ne hxa, update_self]
  have hpeer_of_ne : ∀ u, u ≠ x → u ≠ a → (k.accept l x a rest).peer u = k.peer u := by
    intro u hux hua
    rw [accept_peer, update_of_ne hua, update_of_ne hux]
  refine ⟨fun u hu => ?_, fun u hu => ?_, fun u p hp => ?_, ?_, ?_⟩
  · have hux : u ≠ x := ne_of_apply_ne k.listens (hnotListens ▸ hu ▸ Bool.noConfusion)
    have hua : u ≠ a := ne_of_apply_ne k.listens (ha ▸ hu ▸ Bool.noConfusion)
    rw [hpeer_of_ne u hux hua]
    exact hok.listening u hu
  · by_cases hux : u = x
    · subst hux
      exact hxIdle
    · by_cases hua : u = a
      · subst hua
        exact hidle
      · rw [hpeer_of_ne u hux hua] at hu
        exact hok.idle u hu
  · by_cases hux : u = x
    · subst hux
      cases hpeer_x.symm.trans hp
      exact .inr ⟨hpeer_a, hxIdle.1.trans hidle.2.symm⟩
    · by_cases hua : u = a
      · subst hua
        cases hpeer_a.symm.trans hp
        exact .inr ⟨hpeer_x, hidle.1.trans hxIdle.2.symm⟩
      · rw [hpeer_of_ne u hux hua] at hp
        refine (hok.peers u p hp).imp_right fun ⟨hback, hsent⟩ => ⟨?_, hsent⟩
        -- the peer of a connected socket is neither the client nor the new socket
        have hpx : p ≠ x := by
          rintro rfl
          cases hx.symm.trans hback
          exact absurd ((hok.listening l hl).symm.trans hp) (by simp)
        have hpa : p ≠ a := ne_of_apply_ne k.peer (by simp [hback, hpeer])
        rw [hpeer_of_ne p hpx hpa]
        exact hback
  · exact (forall_update_iff k.backlog fun _ b => b.Nodup).mpr ⟨hnodup.2, fun m _ => hok.nodup m⟩
  · have hold : ∀ m, ∀ u ∈ k.backlog m, u ≠ x → (k.accept l x a rest).peer u = some m := by
      intro m u hu hux
      have hwaiting := hok.waiting m u hu
      have hua : u ≠ a := ne_of_apply_ne k.peer (by simp [hwaiting, hpeer])
      rw [hpeer_of_ne u hux hua]
      exact hwaiting
    refine (forall_update_iff k.backlog fun m b =>
        ∀ u ∈ b, (k.accept l x a rest).peer u = some m).mpr
      ⟨fun u hu => hold l u (hbacklog ▸ mem_cons_of_mem x hu) ?_, fun m hm u hu => hold m u hu ?_⟩
    · exact fun heq => hnodup.1 (heq ▸ hu)
    · exact ne_of_apply_ne k.peer (by simp [hx, hok.waiting m u hu, hm])

theorem transfer {x p : ℕ} (hx : k.peer x = some p) (hp : k.peer p = some x)
    (data : Bytes) : (k.transfer x p data).Ok where
  listening := hok.listening
  idle u hu := by
    -- a connected socket is not idle: its peer has a peer, and does not listen
    have hbusy : ∀ v w, k.peer v = some w → k.peer w = some v → u ≠ v := by
      intro v w hv hw huv
      have hlistens := hu w (by rw [huv]; exact hv)
      exact absurd ((hok.listening w hlistens).symm.trans hw) (by simp)
    have hux := hbusy x p hx hp
    have hup := hbusy p x hp hx
    rw [transfer_sent, transfer_total, update_of_ne hux, update_of_ne hup]
    exact hok.idle u hu
  peers u q hq := by
    refine (hok.peers u q hq).imp_right fun ⟨hback, hsent⟩ => ⟨hback, ?_⟩
    by_cases hux : u = x
    · subst hux
      cases hx.symm.trans hq
      rw [transfer_sent, transfer_total, update_self, update_self, hsent]
    have hqp : q ≠ p := by
      rintro rfl
      cases hp.symm.trans hback
      exact hux rfl
    rw [transfer_sent, transfer_total, update_of_ne hux, update_of_ne hqp]
    exact hsent
  nodup := hok.nodup
  waiting := hok.waiting

end Ok

end Links

/-! ### Sockets -/

structure SocketView where
  peer : Option ℕ
  listens : Bool
  backlog : List ℕ
  bytes : Bytes

def UnixSocketInner.view (sock : UnixSocketInner) : SocketView :=
  ⟨sock.peer, sock.isListening, sock.backlog, sock.recvQueue.flatten⟩

def UnixState.view (s : UnixState) (h : ℕ) : SocketView :=
  ((s.sockets h).map UnixSocketInner.view).getD ⟨none, false, [], []⟩

def linksOf (view : ℕ → SocketView) (sent received : ℕ → Bytes) : Links where
  peer u := (view u).peer
  listens u := (view u).listens
  backlog u := (view u).backlog
  sent := sent
  total u := received u ++ (view u).bytes

def UnixRun.links (s : UnixRun) : Links := linksOf s.net.view s.sent s.received

open UnixRun

section View

variable {s : UnixState} {h : ℕ} {sock : UnixSocketInner}

theorem view_of_some (hsock : s.sockets h = some sock) : s.view h = sock.view := by
  rw [UnixState.view, hsock]
  rfl

theorem view_insert (s : UnixState) (h : ℕ) (sock : UnixSocketInner) :
    (s.insert h sock).view = update s.view h sock.view := by
  funext u
  by_cases hu : u = h
  · subst hu
    simp only [UnixState.view, UnixState.insert, update_self]
    rfl
  · simp only [UnixState.view, UnixState.insert, update_of_ne hu]

theorem modify_of_some (f : UnixSocketInner → UnixSocketInner) (hsock : s.sockets h = some sock) :
    s.modify h f = s.insert h (f sock) := by
  rw [UnixState.modify, hsock]
  rfl

end View

section LinksOf

variable {view : ℕ → SocketView} {sent received : ℕ → Bytes}

variable {u v : SocketView} {h : ℕ}

theorem linksOf_listen (hu : view h = u) :
    linksOf (update view h { u with listens := true }) sent received =
      (linksOf view sent received).listen h := by
  subst hu
  ext1 <;> funext u <;> by_cases hu : u = h <;> simp [linksOf, Links.listen, hu]

theorem linksOf_connect {x l : ℕ} (hu : view l = u) (hv : view x = v) (hne : x ≠ l) :
    linksOf (update (update view l { u with backlog := u.backlog ++ [x] }) x
      { v with peer := some l }) sent received = (linksOf view sent received).connect x l := by
  subst hu hv
  ext1 <;> funext u <;> simp only [linksOf, Links.connect, update_apply] <;> grind

theorem linksOf_accept {l x a : ℕ} {rest : List ℕ} (hu : view l = u) (hv : view x = v)
    (hxl : x ≠ l) (hla : l ≠ a) (ha : view a = ⟨none, false, [], []⟩) :
    linksOf (update (update (update view l { u with backlog := rest }) x
      { v with peer := some a }) a ⟨some x, false, [], []⟩) sent received =
        (linksOf view sent received).accept l x a rest := by
  subst hu hv
  ext1 <;> funext u <;> simp only [linksOf, Links.accept, update_apply] <;> grind

theorem linksOf_transfer {x p : ℕ} {data bytes : Bytes} (hu : view p = u)
    (hbytes : bytes = u.bytes ++ data) :
    linksOf (update view p { u with bytes := bytes }) (update sent x (sent x ++ data)) received =
      (linksOf view sent received).transfer x p data := by
  subst hu hbytes
  ext1 <;> funext u <;> by_cases hp : u = p <;> simp [linksOf, Links.transfer, hp]

/-- Bytes that go from the queue to the receiver are where they were. -/
theorem linksOf_receive {data rest : Bytes} (hu : view h = u) (hbytes : u.bytes = data ++ rest) :
    linksOf (update view h { u with bytes := rest }) sent
      (update received h (received h ++ data)) = linksOf view sent received := by
  subst hu
  ext1 <;> funext u <;> by_cases hu : u = h <;> simp [linksOf, hbytes, hu]

end LinksOf

/-! ### Runs -/

def Connected (s : UnixState) (x y : ℕ) : Prop :=
  (s.view x).peer = some y ∧ (s.view y).peer = some x

instance (s : UnixState) (x y : ℕ) : Decidable (Connected s x y) :=
  inferInstanceAs (Decidable (_ ∧ _))

/-- What a socket has received comes first in what its peer was told it has sent. -/
def InOrder (s : UnixRun) : Prop := ∀ x y, Connected s.net x y → s.received y <+: s.sent x

/-- Sockets listen or connect, once; nothing is sent before the connection is accepted;
receives have room for the message; `read` is only used where there are no bytes to read.
The numbers of sockets do not wrap around. -/
def Careful (s : UnixRun) : UnixCall → Prop
  | .create => s.net.nextHandle + 1 < 2 ^ 64
  | .bind _ _ => True
  | .listen h => (s.net.view h).peer = none
  | .connect h _ => (s.net.view h).peer = none ∧ (s.net.view h).listens = false
  | .accept _ => s.net.nextHandle + 1 < 2 ^ 64
  | .send h buf _ => buf = [] ∨ ∀ p ∈ (s.net.view h).peer, Connected s.net h p
  | .recv h len faults => ∀ sock ∈ s.net.sockets h, ∀ data ∈ sock.recvQueue.head?,
    data = [] ∨ (data.length ≤ len ∧ faults = false)
  | .write _ _ _ => True
  | .read h _ _ => ∀ sock ∈ s.net.sockets h, ∀ data ∈ sock.recvQueue.head?, data = []

instance (s : UnixRun) : (call : UnixCall) → Decidable (Careful s call)
  | .create => inferInstanceAs (Decidable (_ < _))
  | .bind _ _ => inferInstanceAs (Decidable True)
  | .listen _ => inferInstanceAs (Decidable (_ = _))
  | .connect _ _ => inferInstanceAs (Decidable (_ ∧ _))
  | .accept _ => inferInstanceAs (Decidable (_ < _))
  | .send h _ _ => inferInstanceAs (Decidable (_ ∨ ∀ p ∈ (s.net.view h).peer, _))
  | .recv h _ _ => inferInstanceAs
      (Decidable (∀ sock ∈ s.net.sockets h, ∀ data ∈ sock.recvQueue.head?, _ ∨ _))
  | .write _ _ _ => inferInstanceAs (Decidable True)
  | .read h _ _ => inferInstanceAs
      (Decidable (∀ sock ∈ s.net.sockets h, ∀ data ∈ sock.recvQueue.head?, _ = _))

def UnixState.Unused (s : UnixState) : Prop := ∀ h, s.nextHandle ≤ h → s.sockets h = none

theorem UnixState.Unused.insert {s : UnixState} (hs : s.Unused) {h : ℕ} (hlt : h < s.nextHandle)
    (sock : UnixSocketInner) : (s.insert h sock).Unused := by
  intro u hu
  change s.nextHandle ≤ u at hu
  change update s.sockets h (some sock) u = none
  rw [update_of_ne (by omega)]
  exact hs u hu

structure UnixInv (s : UnixRun) : Prop where
  ok : s.links.Ok
  unused : s.net.Unused
  logs : ∀ h, s.net.nextHandle ≤ h → s.sent h = [] ∧ s.received h = []

namespace UnixInv

variable {s : UnixRun}

section

variable (hinv : UnixInv s)

include hinv

theorem inOrder : InOrder s := by
  rintro x y ⟨hx, hy⟩
  have hnot : ¬ s.links.listens y = true := by
    intro hlistens
    exact absurd ((hinv.ok.listening y hlistens).symm.trans hy) (by simp)
  obtain ⟨-, hsent⟩ := (hinv.ok.peers x y hx).resolve_left hnot
  exact ⟨(s.net.view y).bytes, hsent.symm⟩

variable {h : ℕ} {sock : UnixSocketInner} {buf : Bytes} {recvQueue : List Bytes}

theorem lt_next (hsock : s.net.sockets h = some sock) : h < s.net.nextHandle := by
  by_contra hle
  rw [hinv.unused h (by omega)] at hsock
  cases hsock

theorem view_next : s.net.view s.net.nextHandle = ⟨none, false, [], []⟩ := by
  rw [UnixState.view, hinv.unused _ (Nat.le_refl _)]
  rfl

theorem create (hroom : s.net.nextHandle + 1 < 2 ^ 64) : UnixInv (s.step .create) := by
  have hmod : (s.net.nextHandle + 1) % 2 ^ 64 = s.net.nextHandle + 1 := Nat.mod_eq_of_lt hroom
  rw [step, createUnixSocket, UnixState.allocHandle, hmod]
  have hunused : (⟨s.net.bound, s.net.sockets, s.net.nextHandle + 1⟩ : UnixState).Unused :=
    fun u hu => hinv.unused u (Nat.le_of_succ_le hu)
  refine ⟨?_, hunused.insert (Nat.lt_succ_self _) _, fun u hu => hinv.logs u (Nat.le_of_succ_le hu)⟩
  rw [links, view_insert]
  change (linksOf (update s.net.view s.net.nextHandle _) s.sent s.received).Ok
  have hsame := update_eq_self s.net.nextHandle s.net.view
  rw [hinv.view_next] at hsame
  rw [UnixSocketInner.view, flatten_nil, hsame]
  exact hinv.ok

theorem bind (h : ℕ) (path : Bytes) : UnixInv (s.step (.bind h path)) := by
  rw [step, bindUnix]
  split
  · exact hinv
  split
  · exact hinv
  next sock hsock =>
  rw [modify_of_some _ hsock]
  refine ⟨?_, hinv.unused.insert (hinv.lt_next hsock) _, hinv.logs⟩
  have hview := view_insert s.net h { sock with bindPath := some path }
  have hsame : ({ sock with bindPath := some path } : UnixSocketInner).view = s.net.view h :=
    (view_of_some hsock).symm
  rw [hsame, update_eq_self] at hview
  change (linksOf (s.net.insert h _).view s.sent s.received).Ok
  rw [hview]
  exact hinv.ok

theorem listen (hpeer : (s.net.view h).peer = none) : UnixInv (s.step (.listen h)) := by
  rw [step, listenUnix]
  split
  · exact hinv
  next sock hsock =>
  split
  · exact hinv
  rw [modify_of_some _ hsock]
  refine ⟨?_, hinv.unused.insert (hinv.lt_next hsock) _, hinv.logs⟩
  rw [links, view_insert]
  exact (congrArg Links.Ok (linksOf_listen (view_of_some hsock))).mpr (hinv.ok.listen hpeer)

theorem connect {path : Bytes} (hpeer : (s.net.view h).peer = none)
    (hnot : (s.net.view h).listens = false) : UnixInv (s.step (.connect h path)) := by
  rw [step, connectUnix]
  split
  · exact hinv
  next target _ =>
  split
  · exact hinv
  · exact hinv
  next sock inner hsock hinner =>
  split
  · exact hinv
  next hlistens =>
  have hl : (s.net.view target).listens = true := by
    rw [view_of_some hinner]
    change inner.isListening = true
    simpa using hlistens
  have hne : h ≠ target :=
    ne_of_apply_ne (SocketView.listens ∘ s.net.view) (by simp [hnot, hl])
  dsimp only
  rw [modify_of_some _ hinner]
  have hsock' : (s.net.insert target
      { inner with backlog := inner.backlog ++ [h] }).sockets h = some sock :=
    (update_of_ne hne _ _).trans hsock
  rw [modify_of_some _ hsock']
  refine ⟨?_, (hinv.unused.insert (hinv.lt_next hinner) _).insert (hinv.lt_next hsock) _,
    hinv.logs⟩
  rw [links, view_insert, view_insert]
  refine (congrArg Links.Ok (linksOf_connect (view_of_some hinner) (view_of_some hsock)
    hne)).mpr ?_
  exact hinv.ok.connect hpeer hnot hl

theorem accept (hroom : s.net.nextHandle + 1 < 2 ^ 64) : UnixInv (s.step (.accept h)) := by
  have hmod : (s.net.nextHandle + 1) % 2 ^ 64 = s.net.nextHandle + 1 := Nat.mod_eq_of_lt hroom
  rw [step, acceptUnix]
  cases hsock : s.net.sockets h with
  | none => exact hinv
  | some sock =>
    dsimp only
    cases hlistens : sock.isListening with
    | false => exact hinv
    | true =>
      cases hbacklog : sock.backlog with
      | nil => exact hinv
      | cons client backlog =>
        have hview := view_of_some hsock
        have hl : s.links.listens h = true := by
          change (s.net.view h).listens = true
          rw [hview]
          exact hlistens
        have hqueue : s.links.backlog h = client :: backlog := by
          change (s.net.view h).backlog = _
          rw [hview]
          exact hbacklog
        have hpeer : (s.net.view client).peer = some h :=
          hinv.ok.waiting h client (hqueue ▸ mem_cons_self)
        have hne : client ≠ h := by
          rintro rfl
          exact absurd ((hinv.ok.listening client hl).symm.trans hpeer) (by simp)
        obtain ⟨inner, hclient⟩ : ∃ inner, s.net.sockets client = some inner := by
          cases hclient : s.net.sockets client with
          | none =>
            rw [UnixState.view, hclient] at hpeer
            cases hpeer
          | some inner => exact ⟨inner, rfl⟩
        have hltClient := hinv.lt_next hclient
        have hltSock := hinv.lt_next hsock
        dsimp only
        rw [modify_of_some _ hsock, UnixState.allocHandle]
        have hclient' : update s.net.sockets h (some { sock with backlog := backlog })
            client = some inner := (update_of_ne hne _ _).trans hclient
        rw [modify_of_some _ hclient']
        -- taking a number and changing sockets are independent
        change UnixInv ⟨(((⟨s.net.bound, s.net.sockets, (s.net.nextHandle + 1) % 2 ^ 64⟩ :
          UnixState).insert h { sock with backlog := backlog }).insert client
            { inner with peer := some s.net.nextHandle }).insert s.net.nextHandle
              ⟨sock.bindPath, some client, false, [], [], false⟩, s.sent, s.received⟩
        rw [hmod]
        have hunused : (⟨s.net.bound, s.net.sockets, s.net.nextHandle + 1⟩ : UnixState).Unused :=
          fun u hu => hinv.unused u (Nat.le_of_succ_le hu)
        refine ⟨?_, ((hunused.insert (Nat.lt_succ_of_lt hltSock) _).insert
          (Nat.lt_succ_of_lt hltClient) _).insert (Nat.lt_succ_self _) _,
          fun u hu => hinv.logs u (Nat.le_of_succ_le hu)⟩
        rw [links, view_insert, view_insert, view_insert]
        refine (congrArg Links.Ok (linksOf_accept hview (view_of_some hclient) hne
          (Nat.ne_of_lt hltSock) hinv.view_next)).mpr ?_
        obtain ⟨hsent, hreceived⟩ := hinv.logs s.net.nextHandle (Nat.le_refl _)
        refine hinv.ok.accept hl hqueue ?_ ?_ ⟨hsent, ?_⟩
        · exact congrArg SocketView.peer hinv.view_next
        · exact congrArg SocketView.listens hinv.view_next
        · change s.received _ ++ (s.net.view s.net.nextHandle).bytes = []
          rw [hreceived, hinv.view_next]
          rfl

variable (hsock : s.net.sockets h = some sock)

include hsock

/-- The bytes of a message are in the queue of the receiver, and were sent. -/
theorem push {target : ℕ} {peer : UnixSocketInner} (hpeer : sock.peer = some target)
    (htarget : s.net.sockets target = some peer)
    (hcareful : buf = [] ∨ ∀ p ∈ (s.net.view h).peer, Connected s.net h p) :
    UnixInv (s.logSent h buf (.ok (buf.take MAX_UNIX_MSG).length, s.net.insert target { peer with
        recvQueue := peer.recvQueue ++ [buf.take MAX_UNIX_MSG] })) := by
  have htake : buf.take (buf.take MAX_UNIX_MSG).length = buf.take MAX_UNIX_MSG := by
    rw [length_take, ← take_take, take_length]
  rw [logSent, htake]
  generalize hdata : buf.take MAX_UNIX_MSG = data
  have hbytes : (peer.recvQueue ++ [data]).flatten = peer.view.bytes ++ data := by
    rw [flatten_append, flatten_singleton, UnixSocketInner.view]
  refine ⟨?_, hinv.unused.insert (hinv.lt_next htarget) _, fun u hu => ?_⟩
  · rw [links, view_insert]
    refine (congrArg Links.Ok (linksOf_transfer (view_of_some htarget) hbytes)).mpr ?_
    rcases hcareful with rfl | hconnected
    · rw [take_nil] at hdata
      subst hdata
      rw [Links.transfer_nil]
      exact hinv.ok
    · have hmem : target ∈ (s.net.view h).peer := by
        rw [view_of_some hsock]
        exact hpeer
      obtain ⟨hto, hback⟩ := hconnected target hmem
      exact hinv.ok.transfer hto hback data
  · have hlt := hinv.lt_next hsock
    change s.net.nextHandle ≤ u at hu
    have hne : u ≠ h := by omega
    exact ⟨(update_of_ne hne _ _).trans (hinv.logs u hu).1, (hinv.logs u hu).2⟩

omit hsock in
/-- A message of no bytes may go anywhere, any other goes to a connected peer. -/
theorem sendto (faults : Bool)
    (hcareful : buf = [] ∨ ∀ p ∈ (s.net.view h).peer, Connected s.net h p) :
    UnixInv (s.logSent h buf (sendtoUnix s.net h buf faults)) := by
  rw [sendtoUnix]
  split
  · exact hinv
  split
  · exact hinv
  next sock hsock =>
  split
  · exact hinv
  split
  · exact hinv
  next target hpeer =>
  split
  · exact hinv
  next peer htarget =>
  split
  · exact hinv
  rw [modify_of_some _ htarget]
  exact hinv.push hsock hpeer htarget hcareful

/-- A receive takes a message out of the queue; the receiver gets all of its bytes. -/
theorem pop {data : Bytes} (hqueue : sock.recvQueue = data :: recvQueue) :
    UnixInv ⟨s.net.insert h { sock with recvQueue := recvQueue }, s.sent,
      update s.received h (s.received h ++ data)⟩ := by
  have hbytes : sock.view.bytes = data ++ recvQueue.flatten := by
    rw [UnixSocketInner.view, hqueue, flatten_cons]
  refine ⟨?_, hinv.unused.insert (hinv.lt_next hsock) _, fun u hu => ?_⟩
  · rw [links, view_insert]
    exact (congrArg Links.Ok (linksOf_receive (view_of_some hsock) hbytes)).mpr hinv.ok
  · have hlt := hinv.lt_next hsock
    change s.net.nextHandle ≤ u at hu
    have hne : u ≠ h := by omega
    exact ⟨(hinv.logs u hu).1, (update_of_ne hne _ _).trans (hinv.logs u hu).2⟩

/-- Taking a message of no bytes out of the queue, whatever is then done with it. -/
theorem drop (hqueue : sock.recvQueue = [] :: recvQueue) :
    UnixInv { s with net := s.net.insert h { sock with recvQueue := recvQueue } } := by
  have hpop := hinv.pop hsock hqueue
  rwa [append_nil, update_eq_self] at hpop

end

/-- What a receive does: it waits, fails, or takes the first message. -/
theorem recvfrom_cases (net : UnixState) (h len : ℕ) (faults : Bool) :
    recvfromUnix net h len faults = none ∨
      (∃ ret, recvfromUnix net h len faults = some (ret, net) ∧
        (ret = .ok [] ∨ ret = .error .ebadf)) ∨
      ∃ sock data recvQueue, net.sockets h = some sock ∧ sock.recvQueue = data :: recvQueue ∧
        recvfromUnix net h len faults =
          some (if faults then .error .efault else .ok (data.take (min data.length len)),
            net.insert h { sock with recvQueue := recvQueue }) := by
  rw [recvfromUnix]
  cases hsock : net.sockets h with
  | none => exact .inr (.inl ⟨_, rfl, .inr rfl⟩)
  | some sock =>
    dsimp only
    cases hqueue : sock.recvQueue with
    | nil =>
      cases sock.closed with
      | true => exact .inr (.inl ⟨_, rfl, .inl rfl⟩)
      | false => exact .inl rfl
    | cons data recvQueue =>
      refine .inr (.inr ⟨sock, data, recvQueue, rfl, hqueue, ?_⟩)
      dsimp only
      rw [modify_of_some _ hsock]
      cases faults <;> rfl

/-- A receive without bytes. -/
theorem logReceived_nil {net : UnixState} (hinv : UnixInv { s with net := net }) {h : ℕ}
    {ret : Except Errno Bytes} (hret : ret = .ok [] ∨ ∃ e, ret = .error e) :
    UnixInv (s.logReceived h (some (ret, net))) := by
  rcases hret with rfl | ⟨e, rfl⟩
  · rw [logReceived, append_nil, update_eq_self]
    exact hinv
  · exact hinv

theorem recv (hinv : UnixInv s) {h len : ℕ} {faults : Bool}
    (hcareful : ∀ sock ∈ s.net.sockets h, ∀ data ∈ sock.recvQueue.head?,
      data = [] ∨ (data.length ≤ len ∧ faults = false)) :
    UnixInv (s.step (.recv h len faults)) := by
  rw [step]
  rcases recvfrom_cases s.net h len faults with
    hwait | ⟨ret, hret, hsame⟩ | ⟨sock, data, recvQueue, hsock, hqueue, hret⟩
  · rw [hwait]
    exact hinv
  · rw [hret]
    exact logReceived_nil hinv (hsame.imp_right fun he => ⟨_, he⟩)
  rw [hret]
  rcases hcareful sock hsock data (by rw [hqueue]; rfl) with rfl | ⟨hlen, rfl⟩
  · have hdrop := hinv.drop hsock hqueue
    cases faults with
    | true => exact hdrop
    | false => exact logReceived_nil hdrop (.inl rfl)
  · rw [Nat.min_eq_left hlen, take_length]
    exact hinv.pop hsock hqueue

theorem read (hinv : UnixInv s) {h count : ℕ} (faults : Bool)
    (hcareful : ∀ sock ∈ s.net.sockets h, ∀ data ∈ sock.recvQueue.head?, data = []) :
    UnixInv (s.step (.read h count faults)) := by
  rw [step, sysReadUnix]
  rcases recvfrom_cases s.net h count (kernelBufferFaults count) with
    hwait | ⟨ret, hret, hsame⟩ | ⟨sock, data, recvQueue, hsock, hqueue, hret⟩
  · rw [hwait]
    exact hinv
  · rw [hret]
    rcases hsame with rfl | rfl
    · cases faults with
      | true => exact hinv
      | false => exact logReceived_nil hinv (.inl rfl)
    · exact hinv
  · rw [hret]
    cases hcareful sock hsock data (by rw [hqueue]; rfl)
    have hdrop := hinv.drop hsock hqueue
    cases kernelBufferFaults count with
    | true => exact hdrop
    | false =>
      cases faults with
      | true => exact hdrop
      | false => exact logReceived_nil hdrop (.inl rfl)

/-- A `write` sends at most a message of no bytes. -/
theorem write (hinv : UnixInv s) (h : ℕ) (buf : Bytes) (faults : Bool) :
    UnixInv (s.step (.write h buf faults)) := by
  rw [step, sysWriteUnix]
  cases faults with
  | true => exact hinv
  | false =>
    rw [if_neg (by decide)]
    cases buf with
    | nil => exact hinv.sendto _ (.inl rfl)
    | cons b buf => exact hinv

theorem step (hinv : UnixInv s) {call : UnixCall} (hcareful : Careful s call) :
    UnixInv (s.step call) := by
  cases call with
  | create => exact hinv.create hcareful
  | bind h path => exact hinv.bind h path
  | listen h => exact hinv.listen hcareful
  | connect h path => exact hinv.connect hcareful.1 hcareful.2
  | accept h => exact hinv.accept hcareful
  | send h buf faults => exact hinv.sendto faults hcareful
  | recv h len faults => exact hinv.recv hcareful
  | write h buf faults => exact hinv.write h buf faults
  | read h count faults => exact hinv.read faults hcareful

theorem new : UnixInv .new where
  ok := by
    refine ⟨fun h _ => rfl, fun x _ => ⟨rfl, rfl⟩, fun x p hp => ?_, fun l => nodup_nil,
      fun l x hx => absurd hx not_mem_nil⟩
    cases hp
  unused _ _ := rfl
  logs _ _ := ⟨rfl, rfl⟩

end UnixInv

/-- Any number of sockets: after every call, what a connected socket has received comes
first in what its peer has sent. -/
theorem inOrder_of_careful (calls : List UnixCall) (h : Along step Careful .new calls) :
    Along step (fun s call => InOrder (s.step call)) .new calls :=
  along_of_inv (fun _ _ hinv hcareful => ⟨(hinv.step hcareful).inOrder, hinv.step hcareful⟩)
    UnixInv.new h

def acceptedPair : List UnixCall :=
  [.create, .bind 1000 [47], .listen 1000, .create, .connect 1001 [47], .accept 1000]

theorem inOrder_acceptedPair :
    Along step (fun s call => InOrder (s.step call)) .new
      (acceptedPair ++ [.send 1001 [1, 2] false, .recv 1002 8 false, .send 1002 [3] false,
        .write 1001 [4] false, .recv 1001 1 false]) :=
  inOrder_of_careful _ (by decide +kernel)

def UnixRun.after (calls : List UnixCall) : UnixRun := calls.foldl step .new

/-- Two bytes are sent and one is received, and once more. -/
def longMessage : List UnixCall :=
  acceptedPair ++ [.send 1001 [1, 2] false, .recv 1002 1 false, .send 1001 [3] false,
    .recv 1002 1 false]

/-- The client sends before it is accepted, and after. -/
def earlyMessage : List UnixCall :=
  [.create, .bind 1000 [47], .listen 1000, .create, .connect 1001 [47], .send 1001 [1] false,
    .accept 1000, .send 1001 [2] false, .recv 1002 8 false]

/-- A receive drops what does not fit, and what is sent before the client is accepted is not
delivered. -/
theorem message_dropped :
    (after longMessage).sent 1001 = [1, 2, 3] ∧
      (after longMessage).received 1002 = [1, 3] ∧ ¬ InOrder (.after longMessage) ∧
      (after earlyMessage).sent 1001 = [1, 2] ∧
      (after earlyMessage).received 1002 = [2] ∧ ¬ InOrder (.after earlyMessage) := by
  refine ⟨by decide +kernel, by decide +kernel, fun h => ?_, by decide +kernel, by decide +kernel,
    fun h => ?_⟩
  all_goals exact absurd (h 1001 1002 (by decide +kernel)) (by decide +kernel)

end Vahi.Net
