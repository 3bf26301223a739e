import Lte.ClientObject
/-!
# PacketHandler — `packet_handler.c`, `client_handler.c` and `server.c`

The server's main thread: `accept_client`, `parse_packet` and the handlers it dispatches to, and the callbacks its
background threads apply to a record.  A packet acts on its sender only: `handlePacket_handled` reduces every branch
of the dispatch but `ue_off` to `clientAfter` on the sender's record and `answersTo` sent to the sender.
-/
namespace Lte

open MessageValue

/-- `PING_TIME_NORMAL`, `PING_TIME_LOW_BATTERY` and `PING_TIMEOUT`, in seconds. -/
def pingTimeNormal : Int := 5
def pingTimeLowBattery : Int := 10
def pingTimeout : Int := 4000

/-- What `read` returned: -1 with its `errno`, zero, or bytes. -/
inductive ReadOutcome
  | failed (eintr : Bool)
  | eof
  | bytes (bs : List UInt8)
deriving DecidableEq

def extractPreambleIndex (raRnti : Int16) : Int8 := ((raRnti.toInt32 &&& 0b1100000000000000) >>> 8).toInt8

def generateRrcConfig (rnti : Int16) : RrcConfig :=
  { NULRB := 9, NSubframe := 0, NCellID := 10, RNTI := rnti.toInt32, cyclicPrefix := .normal, hopping := .off
    SegGroup := 0, CyclicShift := 0, ShortEnd := 0 }

namespace Server

/-! ## `client_handler.c` -/

def updateClientByRaRntiData (srv : Server) (socket : Nat) (preambleIndex : Int8) (currentTimestamp : Int)
    (receivedRaRnti : Int16) : Server :=
  match srv.getClientBySocket socket with
  | none => srv
  | some clientToUpdate =>
    srv.putClientInHashmap socket
      { clientToUpdate with
        preambleIndex := preambleIndex
        lastActivity := currentTimestamp
        firstConnectionTimestamp := currentTimestamp
        rnti := receivedRaRnti
        batteryState := .ok }

def getClientRnti (srv : Server) (socket : Nat) : Option Int16 := (srv.getClientBySocket socket).map (·.rnti)

def notifyClientOfShutdown (srv : Server) (clientNotified : Client) : Server :=
  srv.send clientNotified.socket { SMessage.zero with messageType := .enbOff }

def shouldKick (c : Client) (now : Int) : Bool := now - c.lastActivity > pingTimeout

def handleClientInactivity (srv : Server) (c : Client) (now : Int) : Server :=
  if shouldKick c now then (srv.close c.socket).deleteClientFromHashmap c.socket else srv

/-! ## `server.c` -/

/-- `accept_client` when `accept` returned `socket`; `fresh` is what `malloc` returned. -/
def acceptClient (srv : Server) (socket : Nat) (fresh : Client) : Server :=
  let client := { fresh with socket := socket }
  { srv with openSockets := insert socket srv.openSockets }.putClientInHashmap client.socket client

def broadcastShutdownNotification (srv : Server) : Server :=
  srv.clients.entries.foldl (fun srv e => notifyClientOfShutdown srv e.2) srv

/-- `server_t__destroy` -/
def destroy (srv : Server) : Server := { srv.closeClientsSockets with clients := ∅ }

def clean (srv : Server) : Server := srv.broadcastShutdownNotification.destroy

/-- `error`: the process ends, and its end closes what is still open. -/
def error (srv : Server) (eintr : Bool) : Server :=
  let srv := if eintr then srv else srv.clean
  { srv with openSockets := ∅, exited := true }

/-! ## `packet_handler.c` -/

def sendRandomAccessResponse (srv : Server) (socket : Nat) (preambleIndex : Int8) (timestamp : Int) : Server :=
  srv.send socket
    ⟨.randomAccessResponse, (SMessage.zero.messageValue.setRapid preambleIndex).setUnixEpochTimestamp timestamp⟩

/-- The index is kept in a `uint8_t` between the two calls that take an `int8_t`. -/
def handleRandomAccessRequest (srv : Server) (clientSocket : Nat) (message : SMessage) (now : Int) : Server :=
  let receivedRaRnti := message.messageValue.raRnti
  let preambleIndex := (extractPreambleIndex receivedRaRnti).toUInt8
  let srv := srv.sendRandomAccessResponse clientSocket preambleIndex.toInt8 now
  srv.updateClientByRaRntiData clientSocket preambleIndex.toInt8 now receivedRaRnti

def handlePong (srv : Server) (clientSocket : Nat) (now : Int) : Option Server :=
  srv.updateClient clientSocket (fun c => { c with lastActivity := now })

def handleClientPowerOff (srv : Server) (clientSocket : Nat) : Server :=
  (srv.close clientSocket).deleteClientFromHashmap clientSocket

def sendRrcSetup (srv : Server) (socket : Nat) : Option Server :=
  match srv.getClientRnti socket with
  | none => none
  | some clientRnti =>
    some (srv.send socket ⟨.rrcSetup, SMessage.zero.messageValue.setRrcResponse (generateRrcConfig clientRnti)⟩)

def handleLowBatteryRequest (srv : Server) (clientSocket : Nat) : Option Server :=
  srv.updateClient clientSocket (fun c => { c with batteryState := .low })

def handleHighBatteryRequest (srv : Server) (clientSocket : Nat) : Option Server :=
  srv.updateClient clientSocket (fun c => { c with batteryState := .ok })

/-- The switch of `parse_packet`. -/
def handlePacket (srv : Server) (clientSocket : Nat) (message : SMessage) (now : Int) : Option Server :=
  match message.messageType with
  | .randomAccessRequest => some (srv.handleRandomAccessRequest clientSocket message now)
  | .rrcRequest => srv.sendRrcSetup clientSocket
  | .ueBatteryLow => srv.handleLowBatteryRequest clientSocket
  | .ueBatteryHigh => srv.handleHighBatteryRequest clientSocket
  | .pong => srv.handlePong clientSocket now
  | .ueOff => some (srv.handleClientPowerOff clientSocket)
  | _ => some srv

/-- `parse_packet` of an event on `clientSocket`; the buffer is zeroed before the read. -/
def parsePacket (srv : Server) (clientSocket : Nat) (read : ReadOutcome) (now : Int) : Option Server :=
  match read with
  | .failed eintr => some (srv.error eintr)
  | .eof => some ((srv.close clientSocket).deleteClientFromHashmap clientSocket)
  | .bytes bs => srv.handlePacket clientSocket (SMessage.zero.readInto bs) now

def shouldPing (c : Client) (now : Int) : Bool :=
  (c.batteryState = .ok ∧ now - c.lastActivity > pingTimeNormal) ∨
    (c.batteryState = .low ∧ now - c.lastActivity > pingTimeLowBattery)

def pingClient (srv : Server) (c : Client) (now : Int) : Server :=
  if shouldPing c now then srv.send c.socket { SMessage.zero with messageType := .ping } else srv

def sendMeasurementControlRequest (srv : Server) (c : Client) : Server :=
  srv.send c.socket { SMessage.zero with messageType := .measurementControlRequest }

/-! ## What a packet does, seen from its sender -/

/-- The sender's record after a packet other than `ue_off`. -/
def clientAfter (c : Client) (m : SMessage) (now : Int) : Client :=
  match m.messageType with
  | .randomAccessRequest =>
    { c with
      preambleIndex := extractPreambleIndex m.messageValue.raRnti
      lastActivity := now
      firstConnectionTimestamp := now
      rnti := m.messageValue.raRnti
      batteryState := .ok }
  | .ueBatteryLow => { c with batteryState := .low }
  | .ueBatteryHigh => { c with batteryState := .ok }
  | .pong => { c with lastActivity := now }
  | _ => c

/-- What the server sends the sender. -/
def answersTo (c : Client) (m : SMessage) (now : Int) : List SMessage :=
  match m.messageType with
  | .randomAccessRequest =>
    [⟨.randomAccessResponse, (SMessage.zero.messageValue.setRapid (extractPreambleIndex m.messageValue.raRnti)
      ).setUnixEpochTimestamp now⟩]
  | .rrcRequest => [⟨.rrcSetup, SMessage.zero.messageValue.setRrcResponse (generateRrcConfig c.rnti)⟩]
  | _ => []

/-- `srv'` is `srv` after the sender on socket `s` got `out` and its record became `c`; all else is as it was. -/
structure Handled (srv : Server) (s : Nat) (c : Client) (out : List SMessage) (srv' : Server) : Prop where
  socket : srv'.socket = srv.socket
  openSockets : srv'.openSockets = srv.openSockets
  exited : srv'.exited = srv.exited
  clients : ∀ k, srv'.clients.lookup k = if k = key s then some c else srv.clients.lookup k
  sent : srv'.sent = srv.sent ++ out.map (fun m => (s, m))

theorem handled_put (srv : Server) (s : Nat) (c : Client) : Handled srv s c [] (srv.putClientInHashmap s c) where
  socket := rfl
  openSockets := rfl
  exited := rfl
  clients := lookup_putClientInHashmap srv s c
  sent := by simp [putClientInHashmap]

theorem handled_send {srv : Server} {s : Nat} {c : Client} (h : srv.getClientBySocket s = some c) (m : SMessage) :
    Handled srv s c [m] (srv.send s m) where
  socket := rfl
  openSockets := rfl
  exited := rfl
  clients k := by
    split
    · rename_i hk; rw [hk]; exact h
    · rfl
  sent := rfl

theorem handled_refl {srv : Server} {s : Nat} {c : Client} (h : srv.getClientBySocket s = some c) :
    Handled srv s c [] srv where
  socket := rfl
  openSockets := rfl
  exited := rfl
  clients k := by
    split
    · rename_i hk; rw [hk]; exact h
    · rfl
  sent := by simp

theorem updateClient_some {srv : Server} {s : Nat} {c : Client} (h : srv.getClientBySocket s = some c)
    (f : Client → Client) : srv.updateClient s f = some (srv.putClientInHashmap s (f c)) := by
  unfold updateClient; rw [h]

/-- `ue_off` closes its sender's connection and deletes its record. -/
theorem handlePacket_ueOff (srv : Server) (s : Nat) {m : SMessage} (now : Int) (hoff : m.messageType = .ueOff) :
    srv.handlePacket s m now = some ((srv.close s).deleteClientFromHashmap s) := by
  simp only [handlePacket, hoff, handleClientPowerOff]

/-- **A packet of a registered sender acts on its record and answers it, and on nothing else.** -/
theorem handlePacket_handled {srv : Server} {s : Nat} {c : Client} (h : srv.getClientBySocket s = some c)
    (m : SMessage) (now : Int) (hoff : m.messageType ≠ .ueOff) :
    ∃ srv', srv.handlePacket s m now = some srv' ∧ Handled srv s (clientAfter c m now) (answersTo c m now) srv' := by
  unfold handlePacket clientAfter answersTo
  cases ht : m.messageType with
  | randomAccessRequest =>
    refine ⟨_, rfl, ?_⟩
    have hget : (srv.sendRandomAccessResponse s (extractPreambleIndex m.messageValue.raRnti) now).getClientBySocket s
        = some c := h
    simp only [handleRandomAccessRequest, Int8.toInt8_toUInt8, updateClientByRaRntiData, hget]
    have hs := handled_send h ⟨.randomAccessResponse, (SMessage.zero.messageValue.setRapid
      (extractPreambleIndex m.messageValue.raRnti)).setUnixEpochTimestamp now⟩
    exact
      { socket := rfl, openSockets := rfl, exited := rfl, clients := lookup_putClientInHashmap _ s _, sent := hs.sent }
  | rrcRequest =>
    refine ⟨_, ?_, handled_send h _⟩
    simp [sendRrcSetup, getClientRnti, h]
  | ueBatteryLow => exact ⟨_, updateClient_some h _, handled_put srv s _⟩
  | ueBatteryHigh => exact ⟨_, updateClient_some h _, handled_put srv s _⟩
  | pong => exact ⟨_, updateClient_some h _, handled_put srv s _⟩
  | ueOff => exact absurd ht hoff
  | _ => exact ⟨_, rfl, handled_refl h⟩

theorem clientAfter_socket (c : Client) (m : SMessage) (now : Int) : (clientAfter c m now).socket = c.socket := by
  unfold clientAfter; split <;> rfl

end Server

end Lte
