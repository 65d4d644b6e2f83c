import Mathlib.Data.List.Nodup
import Mathlib.Tactic.Ring
import Vahi.Ipc.Endpoint

/-!
# Ports

Server ports and their clients (`crates/ipc/src/lib.rs`), in one table. `port_connect` looks for an
endpoint with the name in one critical section; in a second one it adds the client, and looks again
for the endpoint that gets it.
-/

namespace Vahi.Ipc

open Vahi.Lib Vahi.Types List

/-- The endpoints are in ascending order of their numbers, by which they are found. -/
structure IpcState where
  endpoints : List IpcEndpoint
  nextEndpointId : ℕ
  deriving DecidableEq

namespace IpcState

def empty : IpcState := ⟨[], 1⟩

def insertEndpoint (ep : IpcEndpoint) : List IpcEndpoint → List IpcEndpoint
  | [] => [ep]
  | e :: es =>
    if ep.id < e.id then ep :: e :: es
    else if ep.id = e.id then ep :: es
    else e :: insertEndpoint ep es

def add (s : IpcState) (name : List (BitVec 8)) (ownerPid maxQueue : ℕ) : ℕ × IpcState :=
  let id := s.nextEndpointId
  (id, ⟨insertEndpoint (.new id name ownerPid maxQueue) s.endpoints,
    (s.nextEndpointId + 1) % 2 ^ 64⟩)

end IpcState

variable (s : IpcState) (name : List (BitVec 8))

def ipcCreateEndpoint (ownerPid maxQueue : ℕ) : ℕ × IpcState :=
  s.add name ownerPid maxQueue

/-- The port that is built beside the endpoint is not used. -/
def portCreateServer (ownerPid maxQueue : ℕ) : ℕ × IpcState :=
  s.add name ownerPid maxQueue

def ipcCloseEndpoint (id : ℕ) : Except Errno Unit × IpcState :=
  if s.endpoints.any (·.id = id) then
    (.ok (), { s with endpoints := s.endpoints.filter (·.id ≠ id) })
  else (.error .enoent, s)

/-- The endpoint of that name with the smallest id. -/
def findServer (endpoints : List IpcEndpoint) (name : List (BitVec 8)) : Option IpcEndpoint :=
  endpoints.find? (·.name = name)

def IpcEndpoint.pushClient (serverId client : ℕ) (ep : IpcEndpoint) : IpcEndpoint :=
  if ep.id = serverId then { ep with clients := ep.clients ++ [client] } else ep

/-- The second section of `port_connect`: a client whose server is gone is made nonetheless. -/
def linkClient (clientPid : ℕ) : ℕ × IpcState :=
  let (id, s) := s.add name clientPid 256
  let serverId := ((findServer s.endpoints name).map (·.id)).getD 0
  (id, { s with endpoints := s.endpoints.map (IpcEndpoint.pushClient serverId id) })

/-! ### Runs -/

inductive PortEvent where
  | createEndpoint (name : List (BitVec 8)) (ownerPid maxQueue : ℕ)
  | createServer (name : List (BitVec 8)) (ownerPid maxQueue : ℕ)
  | close (id : ℕ)
  /-- A caller of `port_connect` looks for the server; it goes on if there is one. -/
  | find (caller : ℕ) (name : List (BitVec 8)) (clientPid : ℕ)
  | link (caller : ℕ)
  deriving DecidableEq

/-- The table, the calls of `port_connect` that have found a server, and the
numbers that `port_create_server` returned. -/
structure PortRun where
  state : IpcState
  pending : ℕ → Option (List (BitVec 8) × ℕ)
  servers : List ℕ

namespace PortRun

def new : PortRun := ⟨.empty, fun _ => none, []⟩

def step (s : PortRun) : PortEvent → PortRun
  | .createEndpoint name ownerPid maxQueue =>
    { s with state := (ipcCreateEndpoint s.state name ownerPid maxQueue).2 }
  | .createServer name ownerPid maxQueue =>
    let (id, state) := portCreateServer s.state name ownerPid maxQueue
    { s with state := state, servers := s.servers ++ [id] }
  | .close id => { s with state := (ipcCloseEndpoint s.state id).2 }
  | .find t name clientPid =>
    { s with
      pending := Function.update s.pending t
        ((findServer s.state.endpoints name).map fun _ => (name, clientPid)) }
  | .link t =>
    match s.pending t with
    | none => s
    | some (name, clientPid) =>
      { s with
        state := (linkClient s.state name clientPid).2
        pending := Function.update s.pending t none }

end PortRun

/-- An open endpoint that was created as a server port with the name has the client
in its list, and no other endpoint has. -/
def Linked (servers : List ℕ) (endpoints : List IpcEndpoint) (name : List (BitVec 8))
    (client : ℕ) : Prop :=
  ∃ server ∈ endpoints, server.id ∈ servers ∧ server.name = name ∧ client ∈ server.clients ∧
    ∀ ep ∈ endpoints, client ∈ ep.clients → ep = server

instance (servers : List ℕ) (endpoints : List IpcEndpoint) (name : List (BitVec 8)) (client : ℕ) :
    Decidable (Linked servers endpoints name client) :=
  inferInstanceAs (Decidable (∃ server ∈ endpoints, _))

def ConnectOk (s : PortRun) : PortEvent → Prop
  | .link t => ∀ name clientPid, s.pending t = some (name, clientPid) →
    Linked s.servers (linkClient s.state name clientPid).2.endpoints name
      (linkClient s.state name clientPid).1
  | _ => True

/-- The endpoint of that name with the lowest number was created as a server port. -/
def ServerFirst (servers : List ℕ) (endpoints : List IpcEndpoint) (name : List (BitVec 8)) :
    Prop :=
  ∃ ep, findServer endpoints name = some ep ∧ ep.id ∈ servers

def FindsServer (s : PortRun) : PortEvent → Prop
  | .link t => ∀ name clientPid, s.pending t = some (name, clientPid) →
    ServerFirst s.servers s.state.endpoints name
  | _ => True

/-! ### Steps -/

/-- Numbers that are in use are below the next one, which does not wrap around for the next
`n` calls. -/
structure PortInv (n : ℕ) (s : PortRun) : Prop where
  sorted : (s.state.endpoints.map (·.id)).Pairwise (· < ·)
  below : ∀ ep ∈ s.state.endpoints, ep.id < s.state.nextEndpointId
  clients : ∀ ep ∈ s.state.endpoints, ∀ c ∈ ep.clients, c < s.state.nextEndpointId
  servers : ∀ id ∈ s.servers, id < s.state.nextEndpointId
  room : s.state.nextEndpointId + n < 2 ^ 64

theorem insertEndpoint_eq {ep : IpcEndpoint} {eps : List IpcEndpoint}
    (h : ∀ e ∈ eps, e.id < ep.id) : IpcState.insertEndpoint ep eps = eps ++ [ep] := by
  induction eps with
  | nil => rfl
  | cons e es ih =>
    have hlt := h e mem_cons_self
    rw [IpcState.insertEndpoint, if_neg (by omega), if_neg (by omega),
      ih fun e' he' => h e' (mem_cons_of_mem e he')]
    rfl

theorem map_id_pushClient (serverId client : ℕ) (eps : List IpcEndpoint) :
    (eps.map (IpcEndpoint.pushClient serverId client)).map (·.id) = eps.map (·.id) := by
  rw [map_map]
  refine map_congr_left fun ep _ => ?_
  rw [Function.comp_apply, IpcEndpoint.pushClient]
  split <;> rfl

namespace PortInv

variable {n : ℕ} {s : PortRun}

variable (h : PortInv (n + 1) s)

include h

theorem add_eq (ownerPid maxQueue : ℕ) :
    s.state.add name ownerPid maxQueue = (s.state.nextEndpointId,
      ⟨s.state.endpoints ++ [.new s.state.nextEndpointId name ownerPid maxQueue],
        s.state.nextEndpointId + 1⟩) := by
  have hroom := h.room
  rw [IpcState.add, insertEndpoint_eq h.below, Nat.mod_eq_of_lt (by omega)]

/-- A new endpoint, whatever clients it and the others then get of the numbers given out. -/
theorem add (ownerPid maxQueue : ℕ)
    {servers : List ℕ} (hservers : ∀ id ∈ servers, id ≤ s.state.nextEndpointId)
    (pending : ℕ → Option (List (BitVec 8) × ℕ)) :
    PortInv n ⟨(s.state.add name ownerPid maxQueue).2, pending, servers⟩ := by
  have hroom := h.room
  rw [h.add_eq]
  refine ⟨?_, fun ep hep => ?_, fun ep hep c hc => ?_, fun id hid => ?_, ?_⟩
  · rw [map_append, pairwise_append]
    refine ⟨h.sorted, pairwise_singleton _ _, fun i hi j hj => ?_⟩
    obtain ⟨ep, hep, rfl⟩ := mem_map.mp hi
    rw [mem_singleton.mp hj]
    exact h.below ep hep
  · rcases mem_append.mp hep with hep | hep
    · exact Nat.lt_succ_of_lt (h.below ep hep)
    · rw [mem_singleton.mp hep]
      exact Nat.lt_succ_self _
  · rcases mem_append.mp hep with hep | hep
    · exact Nat.lt_succ_of_lt (h.clients ep hep c hc)
    · rw [mem_singleton.mp hep] at hc
      exact absurd hc not_mem_nil
  · exact Nat.lt_succ_of_le (hservers id hid)
  · change s.state.nextEndpointId + 1 + n < 2 ^ 64
    omega

omit h in
theorem pushClient (h : PortInv n s) {serverId client : ℕ}
    (hclient : client < s.state.nextEndpointId) :
    PortInv n ⟨⟨s.state.endpoints.map (IpcEndpoint.pushClient serverId client),
      s.state.nextEndpointId⟩, s.pending, s.servers⟩ := by
  refine ⟨?_, fun ep hep => ?_, fun ep hep c hc => ?_, h.servers, h.room⟩
  · rw [map_id_pushClient]
    exact h.sorted
  all_goals
    obtain ⟨e, he, rfl⟩ := mem_map.mp hep
  · rw [IpcEndpoint.pushClient]
    split <;> exact h.below e he
  · rw [IpcEndpoint.pushClient] at hc
    split at hc
    · rcases mem_append.mp hc with hc | hc
      · exact h.clients e he c hc
      · rw [mem_singleton.mp hc]
        exact hclient
    · exact h.clients e he c hc

theorem weaken : PortInv n s :=
  ⟨h.sorted, h.below, h.clients, h.servers, by have := h.room; omega⟩

theorem link (clientPid : ℕ) (pending : ℕ → Option (List (BitVec 8) × ℕ)) :
    PortInv n ⟨(linkClient s.state name clientPid).2, pending, s.servers⟩ := by
  have hadd := h.add name clientPid 256 (fun id hid => Nat.le_of_lt (h.servers id hid)) pending
  rw [linkClient]
  rw [h.add_eq] at hadd ⊢
  exact hadd.pushClient (Nat.lt_succ_self _)

theorem step (e : PortEvent) : PortInv n (s.step e) := by
  cases e with
  | createEndpoint name ownerPid maxQueue =>
    exact h.add name ownerPid maxQueue (fun id hid => Nat.le_of_lt (h.servers id hid)) s.pending
  | createServer name ownerPid maxQueue =>
    refine h.add name ownerPid maxQueue (fun id hid => ?_) s.pending
    rcases mem_append.mp hid with hid | hid
    · exact Nat.le_of_lt (h.servers id hid)
    · exact Nat.le_of_eq (mem_singleton.mp hid)
  | close id =>
    rw [PortRun.step, ipcCloseEndpoint]
    split
    · refine ⟨?_, fun ep hep => h.below ep (mem_of_mem_filter hep),
        fun ep hep => h.clients ep (mem_of_mem_filter hep), h.servers, h.weaken.room⟩
      exact h.sorted.sublist (filter_sublist.map _)
    · exact h.weaken
  | find t name clientPid =>
    exact ⟨h.sorted, h.below, h.clients, h.servers, h.weaken.room⟩
  | link t =>
    rw [PortRun.step]
    split
    · exact h.weaken
    · exact h.link _ _ _

/-- The client is recorded where the lookup after its insertion ends; before the insertion
the lookup ends at the same endpoint, or nowhere. -/
theorem linkClient_eq (clientPid : ℕ) :
    let client := s.state.nextEndpointId
    linkClient s.state name clientPid = (client,
      ⟨(s.state.endpoints ++ [IpcEndpoint.new client name clientPid 256]).map
        (IpcEndpoint.pushClient
          (((findServer s.state.endpoints name).map IpcEndpoint.id).getD client) client),
        client + 1⟩) := by
  rw [linkClient, h.add_eq]
  dsimp only
  have hfind : findServer (s.state.endpoints ++
      [IpcEndpoint.new s.state.nextEndpointId name clientPid 256]) name =
        (findServer s.state.endpoints name).or
          (some (.new s.state.nextEndpointId name clientPid 256)) := by
    rw [findServer, find?_append]
    congr 1
    exact find?_cons_of_pos (by simp [IpcEndpoint.new])
  rw [hfind]
  cases findServer s.state.endpoints name <;> rfl

/-- Only the endpoint that the client is pushed to has it. -/
theorem mem_clients_iff (clientPid : ℕ) {serverId : ℕ} {ep : IpcEndpoint}
    (hep : ep ∈ s.state.endpoints ++ [.new s.state.nextEndpointId name clientPid 256]) :
    s.state.nextEndpointId ∈ (ep.pushClient serverId s.state.nextEndpointId).clients ↔
      ep.id = serverId := by
  have hfresh : s.state.nextEndpointId ∉ ep.clients := by
    intro hmem
    rcases mem_append.mp hep with hep | hep
    · exact absurd (h.clients ep hep _ hmem) (Nat.lt_irrefl _)
    · rw [mem_singleton.mp hep] at hmem
      exact absurd hmem not_mem_nil
  rw [IpcEndpoint.pushClient]
  split
  · next heq =>
    exact iff_of_true (mem_append_right _ mem_cons_self) heq
  · next hne => exact iff_of_false hfresh hne

theorem linked_iff (clientPid : ℕ) :
    Linked s.servers (linkClient s.state name clientPid).2.endpoints name
      (linkClient s.state name clientPid).1 ↔ ServerFirst s.servers s.state.endpoints name := by
  rw [h.linkClient_eq]
  generalize hserverId : ((findServer s.state.endpoints name).map IpcEndpoint.id).getD
    s.state.nextEndpointId = serverId
  constructor
  · rintro ⟨server, hserver, hid, -, hclient, -⟩
    obtain ⟨ep, hep, rfl⟩ := mem_map.mp hserver
    have heq := (h.mem_clients_iff name clientPid hep).mp hclient
    have hid' : (ep.pushClient serverId s.state.nextEndpointId).id = ep.id := by
      rw [IpcEndpoint.pushClient]
      split <;> rfl
    rw [hid', heq] at hid
    -- the number of a server port is below that of the client
    cases hfind : findServer s.state.endpoints name with
    | none =>
      rw [hfind] at hserverId
      have hlt := h.servers serverId hid
      rw [← hserverId] at hlt
      exact absurd hlt (Nat.lt_irrefl _)
    | some found =>
      rw [hfind] at hserverId
      rw [← hserverId] at hid
      exact ⟨found, hfind, hid⟩
  · rintro ⟨found, hfind, hid⟩
    rw [hfind] at hserverId
    change found.id = serverId at hserverId
    have hmem : found ∈ s.state.endpoints := mem_of_find?_eq_some hfind
    have hname : found.name = name := by simpa using find?_some hfind
    have hfound : found.pushClient serverId s.state.nextEndpointId =
        { found with clients := found.clients ++ [s.state.nextEndpointId] } := by
      rw [IpcEndpoint.pushClient, if_pos hserverId]
    refine ⟨found.pushClient serverId s.state.nextEndpointId,
      mem_map_of_mem (mem_append_left _ hmem), ?_, ?_, ?_, fun ep hep hclient => ?_⟩
    · rw [hfound]
      exact hid
    · rw [hfound]
      exact hname
    · exact (h.mem_clients_iff name clientPid (mem_append_left _ hmem)).mpr hserverId
    · obtain ⟨e, he, rfl⟩ := mem_map.mp hep
      have heq := (h.mem_clients_iff name clientPid he).mp hclient
      rcases mem_append.mp he with he | he
      · have hnodup : (s.state.endpoints.map (·.id)).Nodup := h.sorted.imp Nat.ne_of_lt
        rw [inj_on_of_nodup_map hnodup he hmem (heq.trans hserverId.symm)]
      rw [mem_singleton.mp he] at heq
      have hlt := h.below found hmem
      change s.state.nextEndpointId = serverId at heq
      omega

theorem connectOk_iff (e : PortEvent) :
    ConnectOk s e ↔ FindsServer s e := by
  cases e with
  | link t => exact forall₃_congr fun name clientPid _ => h.linked_iff name clientPid
  | _ => exact Iff.rfl

end PortInv

theorem portInv_new {n : ℕ} (h : n + 1 < 2 ^ 64) : PortInv n .new where
  sorted := .nil
  below _ hep := absurd hep not_mem_nil
  clients _ hep := absurd hep not_mem_nil
  servers _ hid := absurd hid not_mem_nil
  room := by
    change 1 + n < 2 ^ 64
    omega

/-- As long as the numbers of endpoints do not wrap around, every connection is to a server
port exactly if every `port_connect` finds a server port first. -/
theorem connectOk_iff_of_fewer (events : List PortEvent) (h : events.length + 1 < 2 ^ 64) :
    Along PortRun.step ConnectOk .new events ↔ Along PortRun.step FindsServer .new events :=
  along_iff_of_countdown (fun _ _ e hs => hs.connectOk_iff e) (fun _ _ e hs => hs.step e)
    (portInv_new h)

/-- A client connects to the only server. -/
theorem connectOk_server :
    Along PortRun.step ConnectOk .new [.createServer [97] 5 4, .find 0 [97] 6, .link 0] :=
  (connectOk_iff_of_fewer _ (by decide)).mpr ⟨trivial, trivial, fun name clientPid h => by
    cases h
    exact ⟨.new 1 [97] 5 4, by decide⟩, trivial⟩

/-- A client connects, the server closes, and another client connects: it is recorded
with the first client. -/
theorem closedServer_linked :
    let s := [.createServer [97] 5 4, .find 0 [97] 6, .link 0, .close 1,
      .find 1 [97] 7].foldl PortRun.step .new
    s.pending 1 = some ([97], 7) ∧
      (linkClient s.state [97] 7).2.endpoints.map (fun ep => (ep.id, ep.clients)) =
        [(2, [3]), (3, [])] ∧ ¬ ConnectOk s (.link 1) := by
  refine ⟨by decide, by decide, fun h => ?_⟩
  exact absurd (h [97] 7 (by decide)) (by decide)

end Vahi.Ipc
