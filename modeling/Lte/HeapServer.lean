import Lte.HeapIteration
import Lte.PingThread
/-!
# HeapServer — the server on its hash map in memory

The handlers of `packet_handler.c` and `client_handler.c` on the registry in memory: a handler writes through the pointer
that `get_client_by_socket` returns, and the callbacks of `hashmap_iter` read the records it comes to, in the order of
the table.  `server_in_memory` connects them to `Server`, whose registry is a finite map: in every run both answer alike
on every connection, and the one in memory touches nothing that is not allocated.
-/
namespace Lte

open Runs Store

structure HeapServer where
  socket : Nat
  openSockets : Finset Nat
  registry : ClientMap.HeapRegistry
  sent : List (Nat × SMessage)

namespace HeapServer

/-- A server with no client, listening on `socket`. -/
def init (socket : Nat) : HeapServer := ⟨socket, ∅, ClientMap.HeapRegistry.init, []⟩

def close (srv : HeapServer) (socket : Nat) : HeapServer := { srv with openSockets := srv.openSockets.erase socket }

def send (srv : HeapServer) (socket : Nat) (m : SMessage) : HeapServer := { srv with sent := srv.sent ++ [(socket, m)] }

/-- The record at an address. -/
def clientAt (srv : HeapServer) (client : Nat) : Option Client :=
  match srv.registry.heap.get client with
  | some (.value c) => some c
  | _ => none

/-- A write through a pointer to a record. -/
def setClient (srv : HeapServer) (client : Nat) (c : Client) : Option HeapServer :=
  (srv.registry.heap.write client (.value c)).map fun heap => { srv with registry := ⟨heap, srv.registry.clients⟩ }

variable (hash : List Char → UInt64)

/-- The pointer, `some none` when it is `NULL`. -/
def getClientBySocket (srv : HeapServer) (socket : Nat) : Option (Option Nat) :=
  (HeapMap.get hash srv.registry.heap srv.registry.clients (key socket)).map Option.join

def deleteClientFromHashmap (srv : HeapServer) (socket : Nat) : Option HeapServer :=
  (srv.registry.step hash (.delete socket)).map fun registry => { srv with registry := registry }

/-- `accept_client` when `accept` returned `socket`; `fresh` is what `malloc` returned. -/
def acceptClient (srv : HeapServer) (socket : Nat) (fresh : Client) : Option HeapServer :=
  (srv.registry.step hash (.put socket { fresh with socket := socket })).map fun registry =>
    { srv with openSockets := insert socket srv.openSockets, registry := registry }

/-- A write through the pointer a lookup returned. -/
def updateClient (srv : HeapServer) (socket : Nat) (f : Client → Client) : Option HeapServer :=
  match srv.getClientBySocket hash socket with
  | some (some client) => (srv.clientAt client).bind fun c => srv.setClient client (f c)
  | _ => none

def updateClientByRaRntiData (srv : HeapServer) (socket : Nat) (preambleIndex : Int8) (currentTimestamp : Int)
    (receivedRaRnti : Int16) : Option HeapServer :=
  match srv.getClientBySocket hash socket with
  | some none => some srv
  | _ => srv.updateClient hash socket fun c =>
      { c with
        preambleIndex := preambleIndex
        lastActivity := currentTimestamp
        firstConnectionTimestamp := currentTimestamp
        rnti := receivedRaRnti
        batteryState := .ok }

def getClientRnti (srv : HeapServer) (socket : Nat) : Option Int16 :=
  match srv.getClientBySocket hash socket with
  | some (some client) => (srv.clientAt client).map (·.rnti)
  | _ => none

def handleRandomAccessRequest (srv : HeapServer) (clientSocket : Nat) (message : SMessage) (now : Int) :
    Option HeapServer :=
  let receivedRaRnti := message.messageValue.raRnti
  let preambleIndex := (extractPreambleIndex receivedRaRnti).toUInt8
  let srv := srv.send clientSocket
    ⟨.randomAccessResponse, (SMessage.zero.messageValue.setRapid preambleIndex.toInt8).setUnixEpochTimestamp now⟩
  srv.updateClientByRaRntiData hash clientSocket preambleIndex.toInt8 now receivedRaRnti

def sendRrcSetup (srv : HeapServer) (socket : Nat) : Option HeapServer :=
  (srv.getClientRnti hash socket).map fun clientRnti =>
    srv.send socket ⟨.rrcSetup, SMessage.zero.messageValue.setRrcResponse (generateRrcConfig clientRnti)⟩

def handleClientPowerOff (srv : HeapServer) (clientSocket : Nat) : Option HeapServer :=
  (srv.close clientSocket).deleteClientFromHashmap hash clientSocket

/-- The switch of `parse_packet`. -/
def handlePacket (srv : HeapServer) (clientSocket : Nat) (message : SMessage) (now : Int) : Option HeapServer :=
  match message.messageType with
  | .randomAccessRequest => srv.handleRandomAccessRequest hash clientSocket message now
  | .rrcRequest => srv.sendRrcSetup hash clientSocket
  | .ueBatteryLow => srv.updateClient hash clientSocket fun c => { c with batteryState := .low }
  | .ueBatteryHigh => srv.updateClient hash clientSocket fun c => { c with batteryState := .ok }
  | .pong => srv.updateClient hash clientSocket fun c => { c with lastActivity := now }
  | .ueOff => srv.handleClientPowerOff hash clientSocket
  | _ => some srv

/-- `parse_packet`, where the read did not fail. -/
def parsePacket (srv : HeapServer) (clientSocket : Nat) (read : ReadOutcome) (now : Int) : Option HeapServer :=
  match read with
  | .failed _ => none
  | .eof => (srv.close clientSocket).deleteClientFromHashmap hash clientSocket
  | .bytes bs => srv.handlePacket hash clientSocket (SMessage.zero.readInto bs) now

/-! The callbacks of `hashmap_iter` that send. -/

/-- A callback that reads its record and may send to the record's socket. -/
def sendEach (message : Client → Option SMessage) (srv : HeapServer) (_key : Nat) (value : Option Nat) :
    Option (HeapServer × Bool) :=
  match value.bind srv.clientAt with
  | some c =>
    match message c with
    | some m => some (srv.send c.socket m, false)
    | none => some (srv, false)
  | none => none

def pingDue (now : Int) (c : Client) : Option SMessage :=
  if Server.shouldPing c now then some { SMessage.zero with messageType := .ping } else none

def measurementDue (_c : Client) : Option SMessage := some { SMessage.zero with messageType := .measurementControlRequest }

def shutdownDue (_c : Client) : Option SMessage := some { SMessage.zero with messageType := .enbOff }

def pingClient (now : Int) : HeapServer → Nat → Option Nat → Option (HeapServer × Bool) := sendEach (pingDue now)

def sendMeasurementControlRequest : HeapServer → Nat → Option Nat → Option (HeapServer × Bool) := sendEach measurementDue

def notifyClientOfShutdown : HeapServer → Nat → Option Nat → Option (HeapServer × Bool) := sendEach shutdownDue

/-- `hashmap_iter(server.clients, cb)` with a callback that sends. -/
def iter (cb : HeapServer → Nat → Option Nat → Option (HeapServer × Bool)) (srv : HeapServer) : Option HeapServer :=
  (HeapMap.iter (fun srv => srv.registry.heap) (fun srv => srv.registry.clients) cb srv).map Prod.fst

/-- `hashmap_iter(server.clients, handle_client_inactivity)`, and the sockets it closed. -/
def kickAll (srv : HeapServer) (now : Int) : Option (HeapServer × List Nat) :=
  (HeapInactivity.iteration hash now srv.registry).map fun st =>
    ({ srv with openSockets := srv.openSockets \ st.closed.toFinset, registry := st.registry }, st.closed)

end HeapServer

/-! ## Runs -/

/-- What the main thread and the ping thread do to the server; `kicked` is what an iteration closed. -/
inductive ServerLabel
  | accept (socket : Nat) (fresh : Client)
  | packet (socket : Nat) (read : ReadOutcome) (now : Int)
  | pings (now : Int)
  | kicks (now : Int) (kicked : List Nat)
  | measurements
  | shutdown

namespace Server

/-- `hashmap_iter(server.clients, send_measurement_control_request)` -/
def measureAll (srv : Server) : Server :=
  srv.clients.entries.foldl (fun srv e => srv.sendMeasurementControlRequest e.2) srv

/-- One client kicked, which has to be due. -/
def kickOne (now : Int) (srv : Server) (socket : Nat) : Option Server :=
  match srv.getClientBySocket socket with
  | some c => if shouldKick c now then some ((srv.close socket).deleteClientFromHashmap socket) else none
  | none => none

/-- Which of the clients that are due an iteration kicks is left open: it is decided by the order of the table. -/
def serve (srv : Server) : ServerLabel → Option Server
  | .accept socket fresh =>
    if socket ∉ srv.openSockets ∧ socket ≠ srv.socket ∧ socket < socketLimit then some (srv.acceptClient socket fresh)
    else none
  | .packet socket read now =>
    if socket ∈ srv.openSockets ∧ read.Succeeds then srv.parsePacket socket read now else none
  | .pings now => some (srv.pingAll now)
  | .kicks now kicked => run (kickOne now) srv kicked
  | .measurements => some srv.measureAll
  | .shutdown => some srv.broadcastShutdownNotification

end Server

def HeapServer.serve (hash : List Char → UInt64) (srv : HeapServer) : ServerLabel → Option HeapServer
  | .accept socket fresh =>
    if socket ∉ srv.openSockets ∧ socket ≠ srv.socket ∧ socket < socketLimit then srv.acceptClient hash socket fresh
    else none
  | .packet socket read now =>
    if socket ∈ srv.openSockets ∧ read.Succeeds then srv.parsePacket hash socket read now else none
  | .pings now => srv.iter (pingClient now)
  | .kicks now kicked =>
    match srv.kickAll hash now with
    | some (srv, closed) => if closed = kicked then some srv else none
    | none => none
  | .measurements => srv.iter sendMeasurementControlRequest
  | .shutdown => srv.iter notifyClientOfShutdown

/-- When the environment may do it.  An iteration that kicks has no condition, but closes what the table decides. -/
def HeapServer.Enabled (srv : HeapServer) : ServerLabel → Prop
  | .accept socket _ => socket ∉ srv.openSockets ∧ socket ≠ srv.socket ∧ socket < socketLimit
  | .packet socket read _ => socket ∈ srv.openSockets ∧ read.Succeeds
  | .kicks _ _ => False
  | _ => True

/-- What was sent on the connection of a socket, in order. -/
def sentTo (s : Nat) (sent : List (Nat × SMessage)) : List SMessage := (sent.filter (·.1 = s)).map Prod.snd

@[simp] theorem sentTo_append (s : Nat) (sent sent' : List (Nat × SMessage)) :
    sentTo s (sent ++ sent') = sentTo s sent ++ sentTo s sent' := by
  rw [sentTo, List.filter_append, List.map_append]
  rfl

namespace HeapServer

/-- **The server in memory is the server**: its heap holds a map that answers as the finite map does, and the same was
sent on each connection. -/
structure Sim (hash : List Char → UInt64) (srv : Server) (hsrv : HeapServer) : Prop where
  socket_eq : hsrv.socket = srv.socket
  openSockets_eq : hsrv.openSockets = srv.openSockets
  sent_eq : ∀ s, sentTo s hsrv.sent = sentTo s srv.sent
  clients : ∃ (M : ClientMap) (R : Multiset Nat), HeapMap.Represents hsrv.registry.heap hsrv.registry.clients M R ∧
    M.WellFormed hash ∧ ClientMap.Refines hash M srv

section
variable {hash : List Char → UInt64} {srv : Server} {hsrv : HeapServer}

theorem Sim.send (h : Sim hash srv hsrv) (s : Nat) (m : SMessage) : Sim hash (srv.send s m) (hsrv.send s m) := by
  refine ⟨h.socket_eq, h.openSockets_eq, fun t => ?_, h.clients⟩
  rw [HeapServer.send, Server.send, sentTo_append, sentTo_append, h.sent_eq]

theorem Sim.close (h : Sim hash srv hsrv) (s : Nat) : Sim hash (srv.close s) (hsrv.close s) := by
  refine ⟨h.socket_eq, ?_, h.sent_eq, h.clients⟩
  rw [HeapServer.close, Server.close, h.openSockets_eq]

theorem Sim.get_none (h : Sim hash srv hsrv) {s : Nat} (hs : srv.getClientBySocket s = none) :
    hsrv.getClientBySocket hash s = some none := by
  obtain ⟨M, R, hr, hwf, href⟩ := h.clients
  obtain ⟨-, hnone⟩ := HeapMap.get_spec hr hwf (key s)
  rw [getClientBySocket, hnone ((href.getClientBySocket s).trans hs)]
  rfl

/-- **A write through the pointer of a registered socket.** -/
theorem Sim.update (h : Sim hash srv hsrv) {s : Nat} {c : Client} (hs : srv.getClientBySocket s = some c) (c' : Client) :
    ∃ client hsrv', hsrv.getClientBySocket hash s = some (some client) ∧ hsrv.clientAt client = some c ∧
      hsrv.setClient client c' = some hsrv' ∧ Sim hash (srv.putClientInHashmap s c') hsrv' := by
  obtain ⟨M, R, hr, hwf, href⟩ := h.clients
  obtain ⟨vp, h', M', hget, hval, hw, hr', hwf', hget'⟩ :=
    HeapMap.update_spec hr hwf ((href.getClientBySocket s).trans hs) c'
  refine ⟨vp, { hsrv with registry := ⟨h', hsrv.registry.clients⟩ }, ?_, ?_, ?_,
    ⟨h.socket_eq, h.openSockets_eq, h.sent_eq, M', R, hr', hwf', fun k => ?_⟩⟩
  · rw [getClientBySocket, hget]
    rfl
  · rw [clientAt, hval]
  · rw [setClient, hw]
    rfl
  · rw [hget', Server.lookup_putClientInHashmap, href k]

theorem Sim.updateClient (h : Sim hash srv hsrv) {s : Nat} {f : Client → Client} {srv' : Server}
    (hs : srv.updateClient s f = some srv') :
    ∃ hsrv', hsrv.updateClient hash s f = some hsrv' ∧ Sim hash srv' hsrv' := by
  cases hget : srv.getClientBySocket s with
  | none =>
    rw [Server.updateClient, hget] at hs
    cases hs
  | some c =>
    rw [Server.updateClient_some hget] at hs
    cases hs
    obtain ⟨client, hsrv', hp, hc, hset, hsim⟩ := h.update hget (f c)
    refine ⟨hsrv', ?_, hsim⟩
    rw [HeapServer.updateClient, hp]
    simp only [hc, Option.bind_some, hset]

theorem Sim.delete (h : Sim hash srv hsrv) (s : Nat) :
    ∃ hsrv', hsrv.deleteClientFromHashmap hash s = some hsrv' ∧ Sim hash (srv.deleteClientFromHashmap s) hsrv' := by
  obtain ⟨M, R, hr, hwf, href⟩ := h.clients
  obtain ⟨h', m', hd, hr', -⟩ := HeapMap.delete_spec hr hwf (key s)
  obtain ⟨hwf', href'⟩ := ClientMap.refines_delete hwf href s
  refine ⟨{ hsrv with registry := ⟨h', m'⟩ }, ?_, h.socket_eq, h.openSockets_eq, h.sent_eq, _, R, hr', hwf', href'⟩
  rw [deleteClientFromHashmap, ClientMap.HeapRegistry.step, hd]
  rfl

theorem Sim.accept (h : Sim hash srv hsrv) (s : Nat) (fresh : Client) :
    ∃ hsrv', hsrv.acceptClient hash s fresh = some hsrv' ∧ Sim hash (srv.acceptClient s fresh) hsrv' := by
  obtain ⟨M, R, hr, hwf, href⟩ := h.clients
  obtain ⟨hr₁, hget, -⟩ := ClientMap.represents_alloc hr { fresh with socket := s }
  obtain ⟨h', m', M', E, V, hp, hp', hr', -⟩ := HeapMap.put_spec hr₁ hwf (key s) hget
  obtain ⟨M'', hp'', hwf', href'⟩ := ClientMap.refines_put hwf href s { fresh with socket := s }
  rw [ClientMap.putClientInHashmap, hp'] at hp''
  cases hp''
  refine ⟨{ hsrv with openSockets := insert s hsrv.openSockets, registry := ⟨h', m'⟩ }, ?_, h.socket_eq, ?_, h.sent_eq,
    M', _, hr', hwf', href'⟩
  · rw [acceptClient, ClientMap.HeapRegistry.step]
    simp only [Store.alloc] at hp ⊢
    rw [hp]
    rfl
  · show insert s hsrv.openSockets = insert s srv.openSockets
    rw [h.openSockets_eq]

/-! ## A packet -/

theorem Sim.ranti (h : Sim hash srv hsrv) {s : Nat} {preambleIndex : Int8} {now : Int} {raRnti : Int16} {srv' : Server}
    (hs : srv.updateClientByRaRntiData s preambleIndex now raRnti = srv') :
    ∃ hsrv', hsrv.updateClientByRaRntiData hash s preambleIndex now raRnti = some hsrv' ∧ Sim hash srv' hsrv' := by
  unfold Server.updateClientByRaRntiData at hs
  unfold HeapServer.updateClientByRaRntiData
  cases hget : srv.getClientBySocket s with
  | none =>
    rw [hget] at hs
    subst hs
    refine ⟨hsrv, ?_, h⟩
    rw [h.get_none hget]
  | some c =>
    rw [hget] at hs
    subst hs
    obtain ⟨client, hsrv', hp, hc, hset, hsim⟩ := h.update hget { c with
      preambleIndex := preambleIndex, lastActivity := now, firstConnectionTimestamp := now, rnti := raRnti
      batteryState := .ok }
    refine ⟨hsrv', ?_, hsim⟩
    rw [HeapServer.updateClient, hp]
    simp only [hc, Option.bind_some, hset]

theorem Sim.rrcSetup (h : Sim hash srv hsrv) {s : Nat} {srv' : Server} (hs : srv.sendRrcSetup s = some srv') :
    ∃ hsrv', hsrv.sendRrcSetup hash s = some hsrv' ∧ Sim hash srv' hsrv' := by
  unfold Server.sendRrcSetup Server.getClientRnti at hs
  cases hget : srv.getClientBySocket s with
  | none =>
    rw [hget] at hs
    cases hs
  | some c =>
    rw [hget] at hs
    cases hs
    obtain ⟨client, -, hp, hc, -, -⟩ := h.update hget c
    refine ⟨_, ?_, h.send s _⟩
    rw [HeapServer.sendRrcSetup, getClientRnti, hp]
    simp only [hc, Option.map_some]

theorem Sim.handlePacket (h : Sim hash srv hsrv) {s : Nat} {m : SMessage} {now : Int} {srv' : Server}
    (hs : srv.handlePacket s m now = some srv') :
    ∃ hsrv', hsrv.handlePacket hash s m now = some hsrv' ∧ Sim hash srv' hsrv' := by
  unfold Server.handlePacket at hs
  unfold HeapServer.handlePacket
  cases ht : m.messageType with
  | randomAccessRequest =>
    rw [ht] at hs
    have h₁ := h.send s ⟨.randomAccessResponse,
      (SMessage.zero.messageValue.setRapid (extractPreambleIndex m.messageValue.raRnti).toUInt8.toInt8
        ).setUnixEpochTimestamp now⟩
    simp only [Server.handleRandomAccessRequest, Option.some.injEq] at hs
    exact h₁.ranti hs
  | rrcRequest =>
    rw [ht] at hs
    exact h.rrcSetup hs
  | ueBatteryLow =>
    rw [ht] at hs
    exact h.updateClient hs
  | ueBatteryHigh =>
    rw [ht] at hs
    exact h.updateClient hs
  | pong =>
    rw [ht] at hs
    exact h.updateClient hs
  | ueOff =>
    rw [ht] at hs
    cases hs
    exact (h.close s).delete s
  | _ =>
    rw [ht] at hs
    cases hs
    exact ⟨hsrv, rfl, h⟩

theorem Sim.parsePacket (h : Sim hash srv hsrv) {s : Nat} {read : ReadOutcome} (hread : read.Succeeds) {now : Int}
    {srv' : Server} (hs : srv.parsePacket s read now = some srv') :
    ∃ hsrv', hsrv.parsePacket hash s read now = some hsrv' ∧ Sim hash srv' hsrv' := by
  cases read with
  | failed e => exact hread.elim
  | eof =>
    cases hs
    exact (h.close s).delete s
  | bytes bs => exact h.handlePacket hs

end

/-! ## An iteration that sends -/

/-- What the callbacks of `message` send over a list of entries. -/
def sendsOf (message : Client → Option SMessage) (ps : List (List Char × Client)) : List (Nat × SMessage) :=
  ps.flatMap fun p => ((message p.2).map fun m => (p.2.socket, m)).toList

/-- What such a callback does. -/
def sent1 (message : Client → Option SMessage) (srv : HeapServer) (p : List Char × Client) : HeapServer :=
  { srv with sent := srv.sent ++ sendsOf message [p] }

theorem foldl_sent1 (message : Client → Option SMessage) : ∀ (ps : List (List Char × Client)) (srv : HeapServer),
    ps.foldl (sent1 message) srv = { srv with sent := srv.sent ++ sendsOf message ps }
  | [], srv => by simp [sendsOf]
  | p :: ps, srv => by
    rw [List.foldl_cons, foldl_sent1 message ps, sent1]
    simp [sendsOf]

theorem reads_sendEach (message : Client → Option SMessage) :
    HeapMap.Reads (fun srv => srv.registry.heap) (fun srv => srv.registry.clients) (sendEach message)
      (sent1 message) where
  callback := by
    intro srv kp vp k c _ hval
    have hc : srv.clientAt vp = some c := by rw [clientAt, hval]
    rw [sendEach, Option.bind_some, hc]
    cases hm : message c with
    | none => simp [sent1, sendsOf, hm]
    | some m => simp [sent1, sendsOf, hm, HeapServer.send]
  heap_eq _ _ := rfl
  map_eq _ _ := rfl

/-- Each entry under the key of its own socket, and none twice. -/
structure Keyed (ps : List (List Char × Client)) : Prop where
  nodup : (ps.map Prod.fst).Nodup
  key_eq : ∀ p ∈ ps, p.1 = key p.2.socket

/-- **A connection gets the message of its own record**, and no other. -/
theorem sentTo_sendsOf (message : Client → Option SMessage) (s : Nat) : ∀ {ps : List (List Char × Client)}, Keyed ps →
    (∀ c, (key s, c) ∈ ps → sentTo s (sendsOf message ps) = (message c).toList) ∧
      ((∀ c, (key s, c) ∉ ps) → sentTo s (sendsOf message ps) = [])
  | [], _ => ⟨fun c hc => (by cases hc), fun _ => rfl⟩
  | (k, c) :: ps, h => by
    have hkey : k = key c.socket := h.key_eq (k, c) (List.mem_cons_self ..)
    have hnd : k ∉ ps.map Prod.fst ∧ (ps.map Prod.fst).Nodup := List.nodup_cons.1 h.nodup
    have hkeyed : Keyed ps := ⟨hnd.2, fun p hp => h.key_eq p (List.mem_cons_of_mem _ hp)⟩
    obtain ⟨hin, hout⟩ := sentTo_sendsOf message s hkeyed
    rw [sendsOf, List.flatMap_cons, sentTo_append]
    by_cases hs : c.socket = s
    · have hrest : sentTo s (sendsOf message ps) = [] := by
        refine hout fun c' hc' => hnd.1 ?_
        rw [hkey, hs]
        exact List.mem_map.2 ⟨_, hc', rfl⟩
      have hfirst : sentTo s ((message c).map fun m => (c.socket, m)).toList = (message c).toList := by
        cases message c with
        | none => rfl
        | some m => simp [sentTo, hs]
      rw [sendsOf] at hrest
      rw [hrest, List.append_nil, hfirst]
      refine ⟨fun c' hc' => ?_, fun hno => absurd (List.mem_cons_self ..) (hs ▸ hkey ▸ hno c)⟩
      rcases List.mem_cons.1 hc' with he | hc'
      · cases he
        rfl
      · exact absurd (List.mem_map.2 ⟨_, hc', by rw [hkey, hs]⟩) hnd.1
    · have hfirst : sentTo s ((message c).map fun m => (c.socket, m)).toList = [] := by
        cases message c with
        | none => rfl
        | some m => simp [sentTo, hs]
      rw [hfirst, List.nil_append]
      refine ⟨fun c' hc' => ?_, fun hno => hout fun c' hc' => hno c' (List.mem_cons_of_mem _ hc')⟩
      rcases List.mem_cons.1 hc' with he | hc'
      · cases he
        exact absurd (key_inj.1 hkey).symm hs
      · exact hin c' hc'

/-- Two lists with the same entries send the same on each connection. -/
theorem sentTo_sendsOf_congr (message : Client → Option SMessage) {ps qs : List (List Char × Client)} (hps : Keyed ps)
    (hqs : Keyed qs) (hmem : ∀ p, p ∈ ps ↔ p ∈ qs) (s : Nat) :
    sentTo s (sendsOf message ps) = sentTo s (sendsOf message qs) := by
  obtain ⟨hin, hout⟩ := sentTo_sendsOf message s hps
  obtain ⟨hin', hout'⟩ := sentTo_sendsOf message s hqs
  by_cases hc : ∃ c, (key s, c) ∈ ps
  · obtain ⟨c, hc⟩ := hc
    rw [hin c hc, hin' c ((hmem _).1 hc)]
  · rw [not_exists] at hc
    rw [hout hc, hout' fun c hc' => hc c ((hmem _).2 hc')]

/-- The entries of the finite map. -/
def entriesOf (srv : Server) : List (List Char × Client) := srv.clients.entries.map fun e => (e.1, e.2)

theorem mem_entriesOf {srv : Server} {p : List Char × Client} : p ∈ entriesOf srv ↔ srv.clients.lookup p.1 = some p.2 := by
  rw [entriesOf, List.mem_map, ← Option.mem_def, AList.mem_lookup_iff]
  constructor
  · rintro ⟨e, he, rfl⟩
    exact he
  · exact fun he => ⟨⟨p.1, p.2⟩, he, rfl⟩

theorem keyed_entriesOf {srv : Server} (h : srv.RegistryInv) : Keyed (entriesOf srv) where
  nodup := by
    rw [entriesOf, List.map_map]
    exact srv.clients.nodupKeys
  key_eq p hp := h.socket_key p.1 p.2 (mem_entriesOf.1 hp)

section
variable {hash : List Char → UInt64} {srv : Server} {hsrv : HeapServer}

/-- **An iteration that sends**, in memory and on the finite map. -/
theorem Sim.iter (h : Sim hash srv hsrv) (hreg : srv.RegistryInv) (message : Client → Option SMessage) :
    ∃ hsrv', hsrv.iter (sendEach message) = some hsrv' ∧
      Sim hash { srv with sent := srv.sent ++ sendsOf message (entriesOf srv) } hsrv' := by
  obtain ⟨M, R, hr, hwf, href⟩ := h.clients
  have hmem : ∀ p, p ∈ M.pairs ↔ p ∈ entriesOf srv := fun p => by
    rw [mem_entriesOf, ← href p.1]
    exact Hashmap.mem_pairs hwf.buckets hwf.positive
  have hkeyed : Keyed M.pairs := ⟨Hashmap.nodup_pairs hwf.buckets, fun p hp =>
    (keyed_entriesOf hreg).key_eq p ((hmem p).1 hp)⟩
  refine ⟨{ hsrv with sent := hsrv.sent ++ sendsOf message (Hashmap.pairs M) }, ?_, h.socket_eq, h.openSockets_eq,
    fun s => ?_, M, R, hr, hwf, href⟩
  · rw [HeapServer.iter, HeapMap.iter_reads (reads_sendEach message) hr hwf.buckets.linked, foldl_sent1]
    rfl
  · rw [sentTo_append, sentTo_append, h.sent_eq, sentTo_sendsOf_congr message hkeyed (keyed_entriesOf hreg) hmem]

/-! ## An iteration that kicks -/

/-- What an entry of the table holds is what the map answers. -/
theorem get_of_entry {m : ClientMap} (hreg : Inactivity.Registered hash m) {i j : Nat} {k : List Char} {c : Client}
    (hat : (m.table i)[j]? = some (some (k, c))) : m.get hash k = some c := by
  obtain ⟨tail, htail, hsplit⟩ := (hreg.wellFormed.buckets.linked i).split
  have hmem : (k, c) ∈ Chain.live (m.table i) := by
    have hin := List.mem_of_getElem? hat
    rw [hsplit, List.mem_append, List.mem_map] at hin
    rcases hin with ⟨p, hp, he⟩ | hin
    · cases he
      exact hp
    · rcases htail with rfl | rfl
      · cases hin
      · cases List.mem_singleton.1 hin
  refine hreg.wellFormed.buckets.find_eq_some.2 ?_
  rw [hreg.wellFormed.buckets.placed i k (Chain.mem_keys_of_mem hmem)]
  exact hmem

/-- The clients closed so far, kicked one after the other, leave the server that the map stands for. -/
structure Kicked (hash : List Char → UInt64) (now : Int) (srv : Server) (st : Inactivity) (srv' : Server) : Prop where
  registered : Inactivity.Registered hash st.clients
  run_eq : run (Server.kickOne now) srv st.closed = some srv'
  refines : ClientMap.Refines hash st.clients srv'
  socket_eq : srv'.socket = srv.socket
  sent_eq : srv'.sent = srv.sent
  openSockets_eq : srv'.openSockets = srv.openSockets \ st.closed.toFinset
  registryInv : srv'.RegistryInv

theorem Kicked.callback {now : Int} {st : Inactivity} {srv' : Server} (h : Kicked hash now srv st srv') {i j : Nat}
    {k : List Char} {c : Client} (hat : (st.clients.table i)[j]? = some (some (k, c))) :
    ∃ srv'', Kicked hash now srv (Inactivity.handleClientInactivity hash now st k c).1 srv'' := by
  by_cases hidle : Server.shouldKick c now = true
  · have hget := get_of_entry h.registered hat
    have hrec : srv'.getClientBySocket c.socket = some c := by
      rw [← h.refines.getClientBySocket, ClientMap.getClientBySocket, ← h.registered.keyed k c hget, hget]
    have hclose : ClientMap.Refines hash st.clients (srv'.close c.socket) := h.refines
    refine ⟨(srv'.close c.socket).deleteClientFromHashmap c.socket, ?_⟩
    rw [Inactivity.handleClientInactivity, if_pos hidle]
    exact
      { registered := HeapInactivity.registered_delete h.registered c.socket
        run_eq := by
          refine run_concat_some.2 ⟨srv', h.run_eq, ?_⟩
          rw [Server.kickOne, hrec]
          exact if_pos hidle
        refines := (ClientMap.refines_delete h.registered.wellFormed hclose c.socket).2
        socket_eq := h.socket_eq
        sent_eq := h.sent_eq
        openSockets_eq := by
          have herase : ((srv'.close c.socket).deleteClientFromHashmap c.socket).openSockets =
            srv'.openSockets.erase c.socket := rfl
          rw [herase, h.openSockets_eq]
          ext s
          simp only [Finset.mem_erase, Finset.mem_sdiff, List.mem_toFinset, List.mem_append, List.mem_singleton]
          tauto
        registryInv := h.registryInv.drop c.socket }
  · refine ⟨srv', ?_⟩
    rw [Inactivity.handleClientInactivity, if_neg hidle]
    exact h

/-- **An iteration kicks clients that are due**, in memory and on the finite map. -/
theorem Sim.kickAll (h : Sim hash srv hsrv) (hinv : srv.RegistryInv) (now : Int) :
    ∃ hsrv' kicked srv', hsrv.kickAll hash now = some (hsrv', kicked) ∧ run (Server.kickOne now) srv kicked = some srv' ∧
      Sim hash srv' hsrv' ∧ srv'.RegistryInv := by
  obtain ⟨M, R, hr, hwf, href⟩ := h.clients
  have hreg : Inactivity.Registered hash M :=
    ⟨hwf, fun k c hk => hinv.socket_key k c ((href k).symm.trans hk)⟩
  obtain ⟨st, hst, hi, hi', -, hclosed, hr', -⟩ := HeapInactivity.iteration_sim hreg hr now
  have hstart : Kicked hash now srv ⟨M, []⟩ srv := ⟨hreg, rfl, href, rfl, rfl, (Finset.sdiff_empty).symm, hinv⟩
  rw [Inactivity.iteration, Option.map_eq_some_iff] at hi
  obtain ⟨⟨st, b⟩, hi, rfl⟩ := hi
  obtain ⟨srv', hk⟩ : ∃ srv', Kicked hash now srv st srv' := by
    refine Hashmap.iter_inv (P := fun st => ∃ srv', Kicked hash now srv st srv') ?_ ⟨srv, hstart⟩ hi
    rintro st i j k c ⟨srv', hk⟩ hat
    exact hk.callback hat
  refine ⟨{ hsrv with openSockets := hsrv.openSockets \ hst.closed.toFinset, registry := hst.registry }, hst.closed, srv',
    ?_, ?_, ⟨h.socket_eq.trans hk.socket_eq.symm, ?_, fun s => ?_, st.clients, R, hr', hk.registered.wellFormed,
    hk.refines⟩, hk.registryInv⟩
  · rw [HeapServer.kickAll, hi']
    rfl
  · rw [hclosed]
    exact hk.run_eq
  · show hsrv.openSockets \ hst.closed.toFinset = srv'.openSockets
    rw [hclosed, hk.openSockets_eq, h.openSockets_eq]
  · rw [hk.sent_eq]
    exact h.sent_eq s

end

/-! ## The server -/

theorem foldl_sends {f : Server → Client → Server} {message : Client → Option SMessage}
    (hf : ∀ srv c, f srv c =
      { srv with sent := srv.sent ++ ((message c).map fun m => (c.socket, m)).toList }) :
    ∀ (es : List (Sigma fun _ : List Char => Client)) (srv : Server), es.foldl (fun srv e => f srv e.2) srv =
      { srv with sent := srv.sent ++ sendsOf message (es.map fun e => (e.1, e.2)) }
  | [], srv => by simp [sendsOf]
  | e :: es, srv => by
    rw [List.foldl_cons, foldl_sends hf es, hf]
    simp [sendsOf]

theorem pingAll_sends (srv : Server) (now : Int) :
    srv.pingAll now = { srv with sent := srv.sent ++ sendsOf (pingDue now) (entriesOf srv) } := by
  refine foldl_sends (f := fun srv c => srv.pingClient c now) (fun srv c => ?_) _ srv
  rw [Server.pingClient_eq, pingDue]
  by_cases hping : Server.shouldPing c now = true
  · rw [if_pos hping, if_pos hping]
    rfl
  · rw [if_neg hping, if_neg hping]
    rfl

theorem measureAll_sends (srv : Server) :
    srv.measureAll = { srv with sent := srv.sent ++ sendsOf measurementDue (entriesOf srv) } :=
  foldl_sends (f := Server.sendMeasurementControlRequest) (fun _ _ => rfl) _ srv

theorem broadcastShutdownNotification_sends (srv : Server) :
    srv.broadcastShutdownNotification = { srv with sent := srv.sent ++ sendsOf shutdownDue (entriesOf srv) } :=
  foldl_sends (f := Server.notifyClientOfShutdown) (fun _ _ => rfl) _ srv

section
variable {hash : List Char → UInt64} {srv : Server} {hsrv : HeapServer}

/-- **What is enabled is done**, in memory and on the finite map. -/
theorem Sim.serves (h : Sim hash srv hsrv) (hinv : srv.RegistryInv) {label : ServerLabel} (hl : hsrv.Enabled label) :
    ∃ srv' hsrv', srv.serve label = some srv' ∧ hsrv.serve hash label = some hsrv' ∧ Sim hash srv' hsrv' ∧
      srv'.RegistryInv := by
  cases label with
  | accept s fresh =>
    obtain ⟨hclosed, hne, hlt⟩ := hl
    obtain ⟨hsrv', hs, hsim⟩ := h.accept s fresh
    refine ⟨srv.acceptClient s fresh, hsrv', ?_, ?_, hsim, hinv.accept s fresh⟩
    · rw [h.openSockets_eq] at hclosed
      rw [h.socket_eq] at hne
      exact if_pos ⟨hclosed, hne, hlt⟩
    · rw [HeapServer.serve, if_pos ⟨hclosed, hne, hlt⟩, hs]
  | packet s read now =>
    obtain ⟨hopen, hread⟩ := hl
    have hopen' : s ∈ srv.openSockets := by rwa [← h.openSockets_eq]
    have hok : ∀ e, read ≠ .failed e := fun e he => by
      rw [he] at hread
      exact hread
    obtain ⟨srv', hp, hinv', -⟩ := hinv.parse hopen' hok now
    obtain ⟨hsrv', hs, hsim⟩ := h.parsePacket hread hp
    refine ⟨srv', hsrv', ?_, ?_, hsim, hinv'⟩
    · rw [Server.serve, if_pos ⟨hopen', hread⟩, hp]
    · rw [HeapServer.serve, if_pos ⟨hopen, hread⟩, hs]
  | pings now =>
    obtain ⟨hsrv', hs, hsim⟩ := h.iter hinv (pingDue now)
    exact ⟨_, hsrv', congrArg some (pingAll_sends srv now), hs, hsim, hinv.of_same rfl rfl⟩
  | kicks now kicked => exact hl.elim
  | measurements =>
    obtain ⟨hsrv', hs, hsim⟩ := h.iter hinv measurementDue
    exact ⟨_, hsrv', congrArg some (measureAll_sends srv), hs, hsim, hinv.of_same rfl rfl⟩
  | shutdown =>
    obtain ⟨hsrv', hs, hsim⟩ := h.iter hinv shutdownDue
    exact ⟨_, hsrv', congrArg some (broadcastShutdownNotification_sends srv), hs, hsim, hinv.of_same rfl rfl⟩

theorem enabled_of_serve {label : ServerLabel} {hsrv' : HeapServer} (hs : hsrv.serve hash label = some hsrv') :
    hsrv.Enabled label ∨ ∃ now kicked, label = .kicks now kicked := by
  cases label with
  | accept s fresh =>
    by_cases hl : s ∉ hsrv.openSockets ∧ s ≠ hsrv.socket ∧ s < socketLimit
    · exact .inl hl
    · rw [HeapServer.serve, if_neg hl] at hs
      cases hs
  | packet s read now =>
    by_cases hl : s ∈ hsrv.openSockets ∧ read.Succeeds
    · exact .inl hl
    · rw [HeapServer.serve, if_neg hl] at hs
      cases hs
  | kicks now kicked => exact .inr ⟨now, kicked, rfl⟩
  | _ => exact .inl trivial

/-- **One step**, in memory and on the finite map. -/
theorem Sim.serve (h : Sim hash srv hsrv) (hinv : srv.RegistryInv) {label : ServerLabel} {hsrv' : HeapServer}
    (hs : hsrv.serve hash label = some hsrv') :
    ∃ srv', srv.serve label = some srv' ∧ Sim hash srv' hsrv' ∧ srv'.RegistryInv := by
  rcases enabled_of_serve hs with hl | ⟨now, kicked, rfl⟩
  · obtain ⟨srv', hsrv'', hs', hs'', hsim, hinv'⟩ := h.serves hinv hl
    rw [hs] at hs''
    cases hs''
    exact ⟨srv', hs', hsim, hinv'⟩
  · obtain ⟨hsrv'', closed, srv', hk, hrun, hsim, hinv'⟩ := h.kickAll hinv now
    rw [HeapServer.serve, hk] at hs
    by_cases hclosed : closed = kicked
    · simp only [if_pos hclosed] at hs
      cases hs
      rw [hclosed] at hrun
      exact ⟨srv', hrun, hsim, hinv'⟩
    · simp only [if_neg hclosed] at hs
      cases hs

theorem sim_init (hash : List Char → UInt64) (socket : Nat) : Sim hash (Server.init socket) (HeapServer.init socket) := by
  obtain ⟨E, V, hr, -⟩ := ClientMap.holds_init
  exact ⟨rfl, rfl, fun s => rfl, _, _, hr, ClientMap.registered_init.wellFormed, fun k => rfl⟩

theorem Sim.recordOf (h : Sim hash srv hsrv) (s : Nat) :
    hsrv.registry.recordOf hash s = some (srv.getClientBySocket s) := by
  obtain ⟨M, R, hr, hwf, href⟩ := h.clients
  obtain ⟨hsome, hnone⟩ := HeapMap.get_spec hr hwf (key s)
  have hs := href.getClientBySocket s
  cases hget : srv.getClientBySocket s with
  | none => rw [ClientMap.HeapRegistry.recordOf, hnone (hs.trans hget)]
  | some c =>
    obtain ⟨vp, hvp, hc⟩ := hsome c (hs.trans hget)
    rw [ClientMap.HeapRegistry.recordOf, hvp]
    simp only [hc]

theorem sim_run : ∀ {labels : List ServerLabel} {srv : Server} {hsrv hsrv' : HeapServer},
    Sim hash srv hsrv → srv.RegistryInv → run (HeapServer.serve hash) hsrv labels = some hsrv' →
      ∃ srv', run Server.serve srv labels = some srv' ∧ Sim hash srv' hsrv' ∧ srv'.RegistryInv
  | [], srv, _, _, hsim, hinv, hrun => by
    cases hrun
    exact ⟨srv, rfl, hsim, hinv⟩
  | label :: labels, srv, hsrv, hsrv', hsim, hinv, hrun => by
    obtain ⟨hsrv₁, hs, hrun⟩ := run_cons_some.1 hrun
    obtain ⟨srv₁, hs₁, hsim₁, hinv₁⟩ := hsim.serve hinv hs
    obtain ⟨srv', hrun', hsim', hinv'⟩ := sim_run hsim₁ hinv₁ hrun
    exact ⟨srv', run_cons_some.2 ⟨srv₁, hs₁, hrun'⟩, hsim', hinv'⟩

/-- **The server in memory refines the server on the finite map**, whatever the hash function: after every run of its
threads' operations the latter has a run with the same labels, the same open sockets, the same messages sent on every
connection and the same record for every socket; and whatever is enabled then does not touch anything that is not
allocated. -/
theorem server_in_memory (hash : List Char → UInt64) (socket : Nat) {labels : List ServerLabel} {hsrv : HeapServer}
    (hrun : run (HeapServer.serve hash) (init socket) labels = some hsrv) :
    ∃ srv, run Server.serve (Server.init socket) labels = some srv ∧ hsrv.openSockets = srv.openSockets ∧
      (∀ s, sentTo s hsrv.sent = sentTo s srv.sent) ∧
      (∀ s, hsrv.registry.recordOf hash s = some (srv.getClientBySocket s)) ∧
      (∀ label, hsrv.Enabled label → (hsrv.serve hash label).isSome = true) ∧
      ∀ now, ∃ kicked, (hsrv.serve hash (.kicks now kicked)).isSome = true := by
  obtain ⟨srv, hs, hsim, hinv⟩ := sim_run (sim_init hash socket) (Server.registryInv_init socket) hrun
  refine ⟨srv, hs, hsim.openSockets_eq, hsim.sent_eq, hsim.recordOf, fun label hl => ?_, fun now => ?_⟩
  · obtain ⟨srv₂, hsrv₂, -, hs, -⟩ := hsim.serves hinv hl
    rw [hs]
    rfl
  · obtain ⟨hsrv₂, kicked, srv₂, hk, -⟩ := hsim.kickAll hinv now
    refine ⟨kicked, ?_⟩
    rw [HeapServer.serve, hk]
    simp

/-- Two clients of one chain: the second stays silent and is kicked, the first answers, asks for its parameters and
leaves. -/
def serving : List ServerLabel :=
  [.accept 5 ⟨0, 0, 0, 0, .ok, 0⟩, .accept 6 ⟨0, 0, 0, 0, .ok, 0⟩, .pings 4900,
    .packet 5 (.bytes (SMessage.mk .pong (fun _ => 0)).bytes) 4901, .kicks 5000 [6],
    .packet 5 (.bytes (SMessage.mk .rrcRequest (fun _ => 0)).bytes) 5001, .measurements, .packet 5 .eof 5002]

theorem run_serving : run (HeapServer.serve fun _ => 0) (init 3) serving =
    some (finish (HeapServer.serve fun _ => 0) (init 3) serving) := run_finish (by decide +kernel)

/-- Nobody is left, and the first got a ping, its parameters and a measurement request. -/
theorem server_in_memory_serving :
    ∃ hsrv srv, run (HeapServer.serve fun _ => 0) (init 3) serving = some hsrv ∧
      run Server.serve (Server.init 3) serving = some srv ∧ hsrv.openSockets = srv.openSockets ∧
      (sentTo 5 hsrv.sent).map SMessage.messageType = [.ping, .rrcSetup, .measurementControlRequest] ∧
      hsrv.registry.recordOf (fun _ => 0) 5 = some none := by
  obtain ⟨srv, hs, hopen, hsent, hrec, -⟩ := server_in_memory (fun _ => 0) 3 run_serving
  have hs' : srv = finish Server.serve (Server.init 3) serving := by
    rw [finish, hs]
    rfl
  refine ⟨_, srv, run_serving, hs, hopen, ?_, ?_⟩
  · rw [hsent, hs']
    decide +kernel
  · rw [hrec, hs']
    decide +kernel

end

end HeapServer

end Lte
