import Mathlib.Data.List.AList
import Mathlib.Data.Finset.Basic
import Lte.Message
/-!
# ClientObject — `client_object.c` and the state of the server

The registry is the finite map the hash map stands for, from the decimal form of a socket number to a record.
`openSockets` are the client descriptors the kernel holds open and `sent` lists, oldest first, what was passed to
`send`.  A function that dereferences the result of a lookup returns `none` where the C code dereferences NULL.
-/
namespace Lte

/-- `battery_state_t`; a record fresh from `malloc` may hold any other value. -/
inductive BatteryState
  | ok | low
  | unlisted (code : Nat)
deriving DecidableEq

/-- `client_t` without the two members nothing reads or writes. -/
structure Client where
  rnti : Int16
  preambleIndex : Int8
  firstConnectionTimestamp : Int
  lastActivity : Int
  batteryState : BatteryState
  socket : Nat
deriving DecidableEq

abbrev Clients := AList (fun _ : List Char => Client)

/-- `sprintf(key, "%d", socket)` -/
def key (socket : Nat) : List Char := Nat.toDigits 10 socket

def atoi (key : List Char) : Nat := Nat.ofDigitChars 10 key 0

@[simp] theorem atoi_key (socket : Nat) : atoi (key socket) = socket :=
  Nat.ofDigitChars_toDigits (by decide) (by decide)

@[simp] theorem key_inj {s t : Nat} : key s = key t ↔ s = t :=
  ⟨fun h => by rw [← atoi_key s, h, atoi_key], fun h => by rw [h]⟩

structure Server where
  socket : Nat
  openSockets : Finset Nat
  clients : Clients
  sent : List (Nat × SMessage)
  exited : Bool

namespace Server

def getClientBySocket (srv : Server) (socket : Nat) : Option Client := srv.clients.lookup (key socket)

def putClientInHashmap (srv : Server) (socket : Nat) (clientInserted : Client) : Server :=
  { srv with clients := srv.clients.insert (key socket) clientInserted }

def deleteClientFromHashmap (srv : Server) (socket : Nat) : Server :=
  { srv with clients := srv.clients.erase (key socket) }

/-- `close(socket)` -/
def close (srv : Server) (socket : Nat) : Server := { srv with openSockets := srv.openSockets.erase socket }

/-- `send(socket, &m, sizeof(m), 0)`, its result ignored. -/
def send (srv : Server) (socket : Nat) (m : SMessage) : Server := { srv with sent := srv.sent ++ [(socket, m)] }

def closeClientSocket (srv : Server) (key : List Char) : Server := srv.close (atoi key)

def closeClientsSockets (srv : Server) : Server := srv.clients.keys.foldl closeClientSocket srv

/-- A write through the pointer a lookup returned. -/
def updateClient (srv : Server) (socket : Nat) (f : Client → Client) : Option Server :=
  match srv.getClientBySocket socket with
  | none => none
  | some c => some (srv.putClientInHashmap socket (f c))

/-- A server with no client, listening on `socket`. -/
def init (socket : Nat) : Server := { socket, openSockets := ∅, clients := ∅, sent := [], exited := false }

theorem lookup_putClientInHashmap (srv : Server) (s : Nat) (c : Client) (k : List Char) :
    (srv.putClientInHashmap s c).clients.lookup k = if k = key s then some c else srv.clients.lookup k := by
  unfold putClientInHashmap
  by_cases h : k = key s
  · subst h; simp
  · rw [if_neg h, AList.lookup_insert_ne h]

theorem lookup_deleteClientFromHashmap (srv : Server) (s : Nat) (k : List Char) :
    (srv.deleteClientFromHashmap s).clients.lookup k = if k = key s then none else srv.clients.lookup k := by
  unfold deleteClientFromHashmap
  by_cases h : k = key s
  · subst h; simp
  · rw [if_neg h, AList.lookup_erase_ne h]

end Server

end Lte
