import Mathlib.Logic.Function.Basic
import Lte.Client
import Lte.EventLoop
/-!
# Network — any number of clients and one server

Each client has its own connection: what it wrote and the server has not read yet, what the server sent it and it has
not received yet, both in order and in whole messages.  A UE takes the steps of its attach; a client past its attach
writes what it likes.  The server accepts, serves the next message or the end of a connection, and its background
threads send to the records.  A step of the server concerns one socket (`Local`): it sends there, and changes no other
record.
-/
namespace Lte

/-! ## A connection -/

/-- Where a connection is: not made, waiting for `accept`, accepted under a socket number, closed by the server. -/
inductive Link
  | unconnected | queued
  | accepted (socket : Nat)
  | closed
deriving DecidableEq

/-- One client and its connection: `ended` when its process is gone, `handled` of the messages it wrote the server has
read, `got` of the messages in `down` it has received. -/
structure Conn where
  ue : Ue
  pc : MainPc
  ended : Bool
  link : Link
  handled : Nat
  down : List SMessage
  got : Nat

namespace Conn

def written (c : Conn) : List SMessage := delivered c.ue.trace

def uplink (c : Conn) : List SMessage := c.written.drop c.handled

def next (c : Conn) : Option SMessage := c.down[c.got]?

/-- A `recv` fails, or takes the next message, or finds the end of a connection the server has closed. -/
def Offers (c : Conn) (a : AttachLabel) : Prop :=
  a.received = none ∨ (c.next ≠ none ∧ a.received = c.next.map SMessage.bytes) ∨
    (c.next = none ∧ c.link = .closed ∧ a.received = some [])

instance (c : Conn) (a : AttachLabel) : Decidable (c.Offers a) := by unfold Offers; infer_instance

def attach (c : Conn) (a : AttachLabel) : Option Conn :=
  if c.link ≠ .unconnected ∧ c.ended = false ∧ c.Offers a then
    match attachStep c.pc c.ue a with
    | none => none
    | some (pc, ue) => some { c with ue := ue, pc := pc, got := if a.received.isSome then c.got + 1 else c.got }
  else none

/-- The connection after the server went from `srv` to `srv'`: what was sent to its socket is on its way, and its
socket may have been closed. -/
def deliver (srv srv' : Server) (c : Conn) : Conn :=
  match c.link with
  | .accepted s =>
    { c with
      down := c.down ++ ((srv'.sent.drop srv.sent.length).filter (fun p => p.1 = s)).map (fun p => p.2)
      link := if s ∈ srv'.openSockets then .accepted s else .closed }
  | _ => c

end Conn

/-! ## The background threads -/

/-- What one callback of a background thread does to a record. -/
inductive Background
  | ping (now : Int)
  | measurementControlRequest
  | dataStart (v : MessageValue)
  | data (v : MessageValue)
  | dataEnd (v : MessageValue)

def Server.background (srv : Server) (c : Client) : Background → Server
  | .ping now => srv.pingClient c now
  | .measurementControlRequest => srv.sendMeasurementControlRequest c
  | .dataStart v => srv.send c.socket ⟨.dataStart, v⟩
  | .data v => srv.send c.socket ⟨.data, v⟩
  | .dataEnd v => srv.send c.socket ⟨.dataEnd, v⟩

def Background.messageType : Background → EMessageType
  | ping _ => .ping
  | measurementControlRequest => .measurementControlRequest
  | dataStart _ => .dataStart
  | data _ => .data
  | dataEnd _ => .dataEnd

/-- Only a ping may not be due. -/
def Background.sends (c : Client) : Background → Bool
  | ping now => Server.shouldPing c now
  | _ => true

/-! ## The network -/

structure Net (n : Nat) where
  server : Server
  conns : Fin n → Conn

inductive NetLabel (n : Nat)
  | connect (i : Fin n)
  | accept (i : Fin n) (socket : Nat) (fresh : Client)
  | serve (i : Fin n) (now : Int)
  | attach (i : Fin n) (a : AttachLabel)
  | write (i : Fin n) (m : SMessage)
  | hangUp (i : Fin n)
  | background (key : List Char) (b : Background)

namespace Net

variable {n : Nat}

def setConn (net : Net n) (i : Fin n) (c : Conn) : Net n := { net with conns := Function.update net.conns i c }

/-- The network after the server became `srv'`. -/
def after (net : Net n) (srv' : Server) : Net n :=
  { server := srv', conns := fun i => (net.conns i).deliver net.server srv' }

def step (net : Net n) : NetLabel n → Option (Net n)
  | .connect i =>
    if (net.conns i).link = .unconnected then some (net.setConn i { net.conns i with link := .queued }) else none
  | .accept i socket fresh =>
    if (net.conns i).link = .queued ∧ socket ∉ net.server.openSockets ∧ socket ≠ net.server.socket ∧
        socket < socketLimit then
      some ((net.setConn i { net.conns i with link := .accepted socket }).after (net.server.acceptClient socket fresh))
    else none
  | .serve i now =>
    match (net.conns i).link with
    | .accepted s =>
      match (net.conns i).uplink with
      | m :: _ =>
        match net.server.parsePacket s (.bytes m.bytes) now with
        | none => none
        | some srv' =>
          some ((net.setConn i { net.conns i with handled := (net.conns i).handled + 1 }).after srv')
      | [] =>
        if (net.conns i).ended = true then
          match net.server.parsePacket s .eof now with
          | none => none
          | some srv' => some (net.after srv')
        else none
    | _ => none
  | .attach i a =>
    match (net.conns i).attach a with
    | none => none
    | some c => some (net.setConn i c)
  | .write i m =>
    if (net.conns i).link ≠ .unconnected ∧ (net.conns i).ended = false ∧ (net.conns i).pc.attaching = false then
      some (net.setConn i { net.conns i with ue := (net.conns i).ue.call (.write m true) })
    else none
  | .hangUp i =>
    if (net.conns i).link ≠ .unconnected then some (net.setConn i { net.conns i with ended := true }) else none
  | .background key b =>
    match net.server.clients.lookup key with
    | none => none
    | some c => some (net.after (net.server.background c b))

/-- The ways through a step, one constructor for each. -/
inductive Stepped (net : Net n) : NetLabel n → Net n → Prop
  | connected {i : Fin n} (hl : (net.conns i).link = .unconnected) :
      Stepped net (.connect i) (net.setConn i { net.conns i with link := .queued })
  | accepted {i : Fin n} {s : Nat} {fresh : Client} (hl : (net.conns i).link = .queued)
      (hnew : s ∉ net.server.openSockets) :
      Stepped net (.accept i s fresh)
        ((net.setConn i { net.conns i with link := .accepted s }).after (net.server.acceptClient s fresh))
  | served {i : Fin n} {now : Int} {s : Nat} {m : SMessage} {ms : List SMessage} {srv' : Server}
      (hl : (net.conns i).link = .accepted s) (hup : (net.conns i).uplink = m :: ms)
      (hp : net.server.parsePacket s (.bytes m.bytes) now = some srv') :
      Stepped net (.serve i now)
        ((net.setConn i { net.conns i with handled := (net.conns i).handled + 1 }).after srv')
  | dropped {i : Fin n} {now : Int} {s : Nat} (hl : (net.conns i).link = .accepted s) :
      Stepped net (.serve i now) (net.after ((net.server.close s).deleteClientFromHashmap s))
  | attached {i : Fin n} {a : AttachLabel} {c : Conn} (hc : (net.conns i).attach a = some c) :
      Stepped net (.attach i a) (net.setConn i c)
  | wrote {i : Fin n} {m : SMessage} (hleft : (net.conns i).pc.attaching = false) :
      Stepped net (.write i m) (net.setConn i { net.conns i with ue := (net.conns i).ue.call (.write m true) })
  | hungUp {i : Fin n} : Stepped net (.hangUp i) (net.setConn i { net.conns i with ended := true })
  | background {key : List Char} {b : Background} {c : Client} (hc : net.server.clients.lookup key = some c) :
      Stepped net (.background key b) (net.after (net.server.background c b))

/-- **Every step is one of these.** -/
theorem step_cases {net net' : Net n} {a : NetLabel n} (hs : step net a = some net') : Stepped net a net' := by
  cases a with
  | connect i =>
    simp only [step] at hs
    split at hs
    · rename_i hl
      cases hs
      exact .connected hl
    · cases hs
  | accept i s fresh =>
    simp only [step] at hs
    split at hs
    · rename_i hc
      cases hs
      exact .accepted hc.1 hc.2.1
    · cases hs
  | serve i now =>
    simp only [step] at hs
    split at hs
    · rename_i s hl
      split at hs
      · rename_i m ms hup
        split at hs
        · cases hs
        · rename_i srv' hp
          cases hs
          exact .served hl hup hp
      · split at hs
        · simp only [Server.parsePacket, Option.some.injEq] at hs
          subst hs
          exact .dropped hl
        · cases hs
    · cases hs
  | attach i a =>
    simp only [step] at hs
    split at hs
    · cases hs
    · rename_i c hc
      cases hs
      exact .attached hc
  | write i m =>
    simp only [step] at hs
    split at hs
    · rename_i hc
      cases hs
      exact .wrote hc.2.2
    · cases hs
  | hangUp i =>
    simp only [step] at hs
    split at hs
    · cases hs
      exact .hungUp
    · cases hs
  | background key b =>
    simp only [step] at hs
    split at hs
    · cases hs
    · rename_i c hc
      cases hs
      exact .background hc

/-- A server with no client; each client a UE before its first write, or some other client. -/
structure Start (net : Net n) : Prop where
  server : ∃ socket, net.server = Server.init socket
  ue : ∀ i, ∃ startRsrp now, (net.conns i).ue = Ue.start startRsrp now
  pc : ∀ i, (net.conns i).pc = .sendPrachPreamble ∨ (net.conns i).pc = .loopTest
  link : ∀ i, (net.conns i).link = .unconnected
  handled : ∀ i, (net.conns i).handled = 0
  down : ∀ i, (net.conns i).down = []
  got : ∀ i, (net.conns i).got = 0

end Net

/-! ## What a step of the server concerns -/

/-- From `srv` to `srv'` the server sent `out` to socket `s`, and left every other socket and its record. -/
structure Local (srv : Server) (s : Nat) (out : List SMessage) (srv' : Server) : Prop where
  sent : srv'.sent = srv.sent ++ out.map (fun m => (s, m))
  openSockets : ∀ t, t ≠ s → (t ∈ srv'.openSockets ↔ t ∈ srv.openSockets)
  records : ∀ t, t ≠ s → srv'.getClientBySocket t = srv.getClientBySocket t

theorem Server.Handled.isLocal {srv srv' : Server} {s : Nat} {c : Client} {out : List SMessage}
    (h : Handled srv s c out srv') : Local srv s out srv' where
  sent := h.sent
  openSockets t _ := by rw [h.openSockets]
  records t ht := (h.clients (key t)).trans (if_neg (fun e => ht (key_inj.1 e)))

theorem local_drop (srv : Server) (s : Nat) : Local srv s [] ((srv.close s).deleteClientFromHashmap s) where
  sent := by simp [Server.deleteClientFromHashmap, Server.close]
  openSockets t ht := by simp [Server.deleteClientFromHashmap, Server.close, ht]
  records t ht := by
    unfold Server.getClientBySocket
    rw [Server.lookup_deleteClientFromHashmap, if_neg (fun e => ht (key_inj.1 e))]
    rfl

theorem local_accept (srv : Server) (s : Nat) (fresh : Client) : Local srv s [] (srv.acceptClient s fresh) where
  sent := by simp [Server.acceptClient, Server.putClientInHashmap]
  openSockets t ht := by simp [Server.acceptClient, Server.putClientInHashmap, ht]
  records t ht := by
    unfold Server.getClientBySocket Server.acceptClient
    rw [Server.lookup_putClientInHashmap, if_neg (fun e => ht (key_inj.1 e))]

theorem local_send (srv : Server) (s : Nat) (m : SMessage) : Local srv s [m] (srv.send s m) where
  sent := rfl
  openSockets _ _ := Iff.rfl
  records _ _ := rfl

/-- A callback sends to its record's socket at most, and writes no record. -/
theorem Server.background_local (srv : Server) (c : Client) (b : Background) :
    ∃ out, Local srv c.socket out (srv.background c b) ∧ (out ≠ [] → b.sends c = true) ∧
      (srv.background c b).openSockets = srv.openSockets ∧ (srv.background c b).clients = srv.clients ∧
      ∀ m ∈ out, m.messageType = b.messageType := by
  cases b with
  | ping now =>
    cases hp : shouldPing c now with
    | false =>
      have hsame : srv.background c (.ping now) = srv := by simp [background, pingClient, hp]
      rw [hsame]
      exact ⟨[], ⟨by simp, fun _ _ => Iff.rfl, fun _ _ => rfl⟩, fun h => absurd rfl h, rfl, rfl, by simp⟩
    | true =>
      have hsend : srv.background c (.ping now) = srv.send c.socket { SMessage.zero with messageType := .ping } := by
        simp [background, pingClient, hp]
      rw [hsend]
      exact ⟨_, local_send srv c.socket _, fun _ => hp, rfl, rfl, by simp [Background.messageType]⟩
  | _ => exact ⟨_, local_send srv c.socket _, fun _ => rfl, rfl, rfl, by simp [Background.messageType]⟩

/-- Nothing changes for a connection under another socket, or under none. -/
theorem Conn.deliver_away {srv srv' : Server} {s : Nat} {out : List SMessage} (h : Local srv s out srv') {c : Conn}
    (hc : c.link ≠ .accepted s) (hopen : ∀ t, c.link = .accepted t → t ∈ srv.openSockets) :
    c.deliver srv srv' = c := by
  unfold deliver
  split
  · rename_i t ht
    have hts : t ≠ s := fun e => hc (e ▸ ht)
    have hin : t ∈ srv'.openSockets := (h.openSockets t hts).2 (hopen t ht)
    have hnone : ((srv'.sent.drop srv.sent.length).filter (fun p => decide (p.1 = t))) = [] := by
      rw [h.sent, List.drop_left, List.filter_eq_nil_iff]
      intro p hp
      obtain ⟨m, -, rfl⟩ := List.mem_map.1 hp
      simpa using hts.symm
    rw [hnone, if_pos hin, ← ht]
    simp
  · rfl

/-- The connection under the socket gets what was sent to it. -/
theorem Conn.deliver_at {srv srv' : Server} {s : Nat} {out : List SMessage} (h : Local srv s out srv') {c : Conn}
    (hc : c.link = .accepted s) :
    c.deliver srv srv' =
      { c with down := c.down ++ out, link := if s ∈ srv'.openSockets then .accepted s else .closed } := by
  have hall : ((srv'.sent.drop srv.sent.length).filter (fun p => decide (p.1 = s))).map (fun p => p.2) = out := by
    rw [h.sent, List.drop_left, List.filter_eq_self.2, List.map_map]
    · exact List.map_id' out
    · intro p hp
      obtain ⟨m, -, rfl⟩ := List.mem_map.1 hp
      simp
  unfold deliver
  rw [hc]
  simp only [hall]

/-- Delivering gives no connection a socket it did not have. -/
theorem Conn.link_of_deliver {srv srv' : Server} {c : Conn} {s : Nat} (h : (c.deliver srv srv').link = .accepted s) :
    c.link = .accepted s := by
  unfold deliver at h
  split at h
  · rename_i t ht
    simp only at h
    split at h
    · rw [ht, h]
    · cases h
  · exact h

end Lte
