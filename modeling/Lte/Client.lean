import Lte.UserEquipment
/-!
# Client — the calls of the UE's `main`

`random_access.c`, `rrc.c`, `handle_messages.c`, `shutdown.c` and the body of the receive loop of `main.c`.  A `recv`
takes what it returned: `none` when it failed or had no data, otherwise the bytes.  `attachStep` is `main` from its
first write to the start of the receive loop, one call at a time.
-/
namespace Lte

open MessageValue

/-! ## `random_access.c` -/

def sendPrachPreamble (u : Ue) (raRnti : Int16) (ok : Bool) : Ue × Int :=
  let u := { u with message := { u.message with messageValue := u.message.messageValue.setRaRnti raRnti } }
  u.writeMessage .randomAccessRequest ok

/-- `value_expected`: the first two bits of `ra_rnti`, as an `int8_t`. -/
def valueExpected (raRnti : Int16) : Int8 := ((raRnti.toInt32 &&& 0b1100000000000000) >>> 8).toInt8

def receivePrachResponse (u : Ue) (recv : Option (List UInt8)) : Ue × Int :=
  match recv with
  | none => (u, -1)
  | some bs =>
    let received := u.received.readInto bs
    let u := { u with received := received }.call (.recv received)
    if received.messageType = .randomAccessResponse then
      let valueReceived := received.messageValue.rapid
      let expected := valueExpected u.message.messageValue.raRnti
      let cRnti := (expected.toInt32 &&& 0b11000000).toInt8
      let u := { u with message := { u.message with messageValue := u.message.messageValue.setCRnti cRnti } }
      (u, if valueReceived = expected then 0 else 1)
    else (u, 1)

/-! ## `rrc.c` -/

def sendRrcConnectionRequest (u : Ue) (identity : SStmsi) (ok : Bool) : Ue × Int :=
  let v := (u.message.messageValue.setUeIdentity identity).setEstablishmentCause .moSignaling
  { u with message := { u.message with messageValue := v } }.writeMessage .rrcRequest ok

/-- Answers in the buffer the setup was received into. -/
def sendRrcSetupComplete (u : Ue) (ok : Bool) : Ue × Int :=
  if u.received.messageType = .rrcSetup then
    let received : SMessage := ⟨.rrcComplete, (u.received.messageValue.setMcc 234).setMnc 15⟩
    ({ u with received := received }.call (.write received ok), if ok then 0 else -1)
  else (u, -1)

def receiveRrcSetup (u : Ue) (recv : Option (List UInt8)) (ok : Bool) : Ue × Int :=
  match recv with
  | none => (u, -1)
  | some bs =>
    let received := u.received.readInto bs
    let u := { u with received := received }.call (.recv received)
    match sendRrcSetupComplete u ok with
    | (u, status) => (u, if status = -1 then -1 else 0)

/-! ## `shutdown.c` -/

/-- Looks at `received`, whichever of the two threads calls it. -/
def checkForShutdown (u : Ue) : Ue × Bool :=
  if u.received.messageType = .enbOff then (u.call .close, true) else (u, false)

/-! ## `handle_messages.c` -/

def receivePing (u : Ue) : Int := if u.message.messageType = .ping then 0 else 1

def sendPong (u : Ue) (ok : Bool) : Ue × Int := u.writeMessage .pong ok

def sendUeOffSignal (u : Ue) (ok : Bool) : Ue × Int := u.writeMessage .ueOff ok

def receiveMeasurementControlRequest (_u : Ue) : Bool := true

def sendMeasurementReport (u : Ue) (ok : Bool) : Ue :=
  let v := u.message.messageValue.setEvents u.cells.currentEvent
  ({ u with message := { u.message with messageValue := v } }.writeMessage .measurementReport ok).1

def downloadData (u : Ue) : Ue := u.call (.fwrite u.fileToRecv u.message.messageValue.buffer)

/-! ## The receive loop of `main.c` -/

/-- The string `fopen` is given: the bytes of the union before the first zero. -/
def fileName (v : MessageValue) : List UInt8 := (Mem.slice v 0 40).takeWhile (· ≠ 0)

/-- `recv(socket_fd, message_pointer, sizeof(message), MSG_DONTWAIT)` -/
def receiveMain (u : Ue) (recv : Option (List UInt8)) : Ue :=
  match recv with
  | none => u
  | some bs =>
    let message := u.message.readInto bs
    { u with message := message }.call (.recv message)

/-- What the environment decides during one dispatch. -/
structure DispatchEnv where
  pongOk : Bool
  noteOk : Bool
  reportOk : Bool
  timeNow : Int
  timeReset : Int
deriving DecidableEq

/-- The switch.  `fopen` of the name the server sent succeeds. -/
def handleMessage (u : Ue) (env : DispatchEnv) : Ue :=
  match u.message.messageType with
  | .ping =>
    if receivePing u = 0 then
      match sendPong u env.pongOk with
      | (u, status) => if status = -1 then u else decreaseAfterPing u env.noteOk
    else u
  | .dataStart =>
    let name := fileName u.message.messageValue
    { u with fileToRecv := .opened name }.call (.fopen name)
  | .data => downloadData u
  | .dataEnd =>
    let u := u.call (.fclose u.fileToRecv)
    match u.fileToRecv with
    | .opened name => { u with fileToRecv := .closed name }
    | _ => u
  | .measurementControlRequest =>
    if receiveMeasurementControlRequest u then sendMeasurementReport u env.reportOk else u
  | _ => u

/-- From the switch to the end of the iteration. -/
def dispatch (u : Ue) (env : DispatchEnv) : Ue :=
  let u := setCurrentSignalEvent (handleMessage u env) env.timeNow env.timeReset
  { u with message := { u.message with messageType := .minusOne } }

/-! ## The control points of `main` -/

inductive MainPc
  | sendPrachPreamble | receivePrachResponse | sendRrcConnectionRequest | receiveRrcSetup
  | loopTest | loopReceive | loopDispatch | join | sendUeOff | returned
deriving DecidableEq

def MainPc.attaching : MainPc → Bool
  | sendPrachPreamble | receivePrachResponse | sendRrcConnectionRequest | receiveRrcSetup => true
  | _ => false

inductive AttachLabel
  | sendPreamble (raRnti : Int16) (ok : Bool)
  | prachResponse (recv : Option (List UInt8))
  | sendRequest (identity : SStmsi) (ok : Bool)
  | setup (recv : Option (List UInt8)) (ok : Bool)

/-- What the call reads, where it is a `recv`. -/
def AttachLabel.received : AttachLabel → Option (List UInt8)
  | prachResponse recv => recv
  | setup recv _ => recv
  | _ => none

/-- One call of the attach sequence.  Three statuses are tested; that of `receive_rrc_setup` is not. -/
def attachStep (pc : MainPc) (u : Ue) : AttachLabel → Option (MainPc × Ue)
  | .sendPreamble raRnti ok =>
    if pc = .sendPrachPreamble then
      match sendPrachPreamble u raRnti ok with
      | (u, status) => some (if status = -1 then .returned else .receivePrachResponse, u)
    else none
  | .prachResponse recv =>
    if pc = .receivePrachResponse then
      match receivePrachResponse u recv with
      | (u, status) => some (if status = -1 ∨ status = 1 then .returned else .sendRrcConnectionRequest, u)
    else none
  | .sendRequest identity ok =>
    if pc = .sendRrcConnectionRequest then
      match sendRrcConnectionRequest u identity ok with
      | (u, status) => some (if status = -1 then .returned else .receiveRrcSetup, u)
    else none
  | .setup recv ok =>
    if pc = .receiveRrcSetup then some (.loopTest, (receiveRrcSetup u recv ok).1) else none

/-- A UE process before its first write: the buffers are zero, as globals are. -/
def Ue.start (startRsrp : Fin 2 → Int) (now : Int) : Ue :=
  { running := true
    message := .zero
    received := .zero
    battery := initializeBatteryLife now
    cells := initializeCells startRsrp now
    statics := .init
    fileToRecv := .uninitialised
    trace := [] }

end Lte
