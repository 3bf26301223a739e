import Lte.EventLoop
/-!
# Kick — the inactivity kick beside the main thread

`handle_client_inactivity` closes a socket and then deletes its number from the registry, in the ping thread; between
the two the main thread may accept a new connection under that number.  The delete then takes the record of the new
connection (`registered_breaks`).  `registered_throughout_iff` is exact: the open sockets keep their records through
a run exactly when every delete of the kick finds its socket not open.
-/
namespace Lte

open Runs

/-- The server, and the socket the ping thread has closed and not deleted yet. -/
structure KickLoop where
  server : Server
  kicking : Option Nat

inductive KickLabel
  | accept (socket : Nat) (fresh : Client)
  | packet (socket : Nat) (read : ReadOutcome) (now : Int)
  | kickClose (key : List Char) (now : Int)
  | kickDelete

namespace KickLoop

def step (l : KickLoop) : KickLabel → Option KickLoop
  | .accept socket fresh =>
    if l.server.exited = false ∧ socket ∉ l.server.openSockets ∧ socket ≠ l.server.socket ∧
        socket < socketLimit then
      some { l with server := l.server.acceptClient socket fresh }
    else none
  | .packet socket read now =>
    if l.server.exited = false ∧ l.server.CanRead socket read then
      match l.server.parsePacket socket read now with
      | none => none
      | some server => some { l with server := server }
    else none
  | .kickClose key now =>
    if l.server.exited = false ∧ l.kicking = none then
      match l.server.clients.lookup key with
      | none => none
      | some client =>
        if Server.shouldKick client now then
          some { server := l.server.close client.socket, kicking := some client.socket }
        else some l
    else none
  | .kickDelete =>
    match l.kicking with
    | none => none
    | some socket => some { server := l.server.deleteClientFromHashmap socket, kicking := none }

def init (socket : Nat) : KickLoop := { server := Server.init socket, kicking := none }

/-- The two steps without anything between them are the callback. -/
theorem kick_eq_handleClientInactivity {l : KickLoop} {key : List Char} {client : Client} (now : Int)
    (hx : l.server.exited = false) (hk : l.kicking = none) (hc : l.server.clients.lookup key = some client)
    (hidle : Server.shouldKick client now = true) :
    run step l [.kickClose key now, .kickDelete] =
      some { server := l.server.handleClientInactivity client now, kicking := none } := by
  simp [step, hx, hk, hc, hidle, Server.handleClientInactivity]

/-- Every open client socket has a record. -/
def Registered (l : KickLoop) : Prop := ∀ s ∈ l.server.openSockets, l.server.getClientBySocket s ≠ none

/-- When the ping thread deletes a number, no connection is open under it. -/
def DeletesClosed (l : KickLoop) : KickLabel → Prop
  | .kickDelete => ∀ s ∈ l.kicking, s ∉ l.server.openSockets
  | _ => True

instance (l : KickLoop) (a : KickLabel) : Decidable (DeletesClosed l a) := by
  unfold DeletesClosed; cases a <;> infer_instance

theorem registered_init (socket : Nat) : Registered (init socket) := by
  intro s hs
  simp [init, Server.init] at hs

/-- Deleting a number under which nothing is open takes no open socket's record. -/
theorem registered_delete {srv : Server} {t : Nat} (h : ∀ s ∈ srv.openSockets, srv.getClientBySocket s ≠ none)
    {closed : Server} (hsub : closed.openSockets ⊆ srv.openSockets) (hcl : closed.clients = srv.clients)
    (ht : t ∉ closed.openSockets) :
    ∀ s ∈ (closed.deleteClientFromHashmap t).openSockets,
      (closed.deleteClientFromHashmap t).getClientBySocket s ≠ none := by
  intro s hs
  have hne : ¬ key s = key t := by
    rw [key_inj]
    rintro rfl
    exact ht hs
  unfold Server.getClientBySocket
  rw [Server.lookup_deleteClientFromHashmap, if_neg hne, hcl]
  exact h s (hsub hs)

theorem registered_packet {l l' : KickLoop} {s : Nat} {read : ReadOutcome} {now : Int} (h : Registered l)
    (hs : step l (.packet s read now) = some l') : Registered l' := by
  simp only [step] at hs
  split at hs
  · rename_i hc
    cases read with
    | failed e =>
      simp only [Server.parsePacket, Option.some.injEq] at hs
      subst hs
      intro t ht
      simp [Server.error] at ht
    | eof =>
      simp only [Server.parsePacket, Option.some.injEq] at hs
      subst hs
      exact registered_delete h (Finset.erase_subset _ _) rfl (Finset.notMem_erase s _)
    | bytes bs =>
      by_cases hoff : (SMessage.zero.readInto bs).messageType = .ueOff
      · simp only [Server.parsePacket, Server.handlePacket_ueOff _ _ _ hoff, Option.some.injEq] at hs
        subst hs
        exact registered_delete h (Finset.erase_subset _ _) rfl (Finset.notMem_erase s _)
      · have hopen : s ∈ l.server.openSockets := by
          rcases hc.2 with ⟨e, he⟩ | hr
          · cases he
          · exact hr.2
        obtain ⟨c, hrec⟩ := Option.ne_none_iff_exists'.1 (h s hopen)
        obtain ⟨srv', hp, hh⟩ := Server.handlePacket_handled hrec _ now hoff
        simp only [Server.parsePacket, hp, Option.some.injEq] at hs
        subst hs
        intro t ht
        have hget : srv'.getClientBySocket t = _ := hh.clients (key t)
        rw [hget]
        split
        · exact Option.some_ne_none _
        · exact h t (hh.openSockets ▸ ht)
  · cases hs

/-- A step whose delete, if it is one, finds its socket closed keeps every open socket's record. -/
theorem registered_step {l l' : KickLoop} {a : KickLabel} (h : Registered l) (hC : DeletesClosed l a)
    (hs : step l a = some l') : Registered l' := by
  cases a with
  | accept socket fresh =>
    simp only [step] at hs
    split at hs
    · cases hs
      intro t ht
      unfold Server.getClientBySocket Server.acceptClient
      rw [Server.lookup_putClientInHashmap]
      split
      · exact Option.some_ne_none _
      · rename_i hne
        refine h t ((Finset.mem_insert.1 ht).resolve_left ?_)
        rintro rfl
        exact hne rfl
    · cases hs
  | packet socket read now => exact registered_packet h hs
  | kickClose key now =>
    simp only [step] at hs
    split at hs
    · split at hs
      · cases hs
      · split at hs
        · cases hs
          intro t ht
          exact h t (Finset.mem_of_mem_erase ht)
        · cases hs
          exact h
    · cases hs
  | kickDelete =>
    simp only [step] at hs
    split at hs
    · cases hs
    · rename_i socket hk
      cases hs
      exact registered_delete h (Finset.Subset.refl _) rfl (hC socket hk)

/-- A delete that finds its socket open leaves that connection without a record. -/
theorem not_registered_step {l l' : KickLoop} {a : KickLabel} (hC : ¬ DeletesClosed l a)
    (hs : step l a = some l') : ¬ Registered l' := by
  cases a with
  | kickDelete =>
    simp only [DeletesClosed, not_forall, not_not] at hC
    obtain ⟨s, hk, hopen⟩ := hC
    rw [Option.mem_def] at hk
    simp only [step, hk, Option.some.injEq] at hs
    subst hs
    intro h
    refine h s hopen ?_
    exact (Server.lookup_deleteClientFromHashmap _ _ _).trans (if_pos rfl)
  | accept _ _ => exact absurd trivial hC
  | packet _ _ _ => exact absurd trivial hC
  | kickClose _ _ => exact absurd trivial hC

/-- **Exactly when the kick is safe.**  Through a whole run every open socket keeps its record if and only if every
delete of the ping thread finds its socket not open. -/
theorem registered_throughout_iff {socket : Nat} {as : List KickLabel} {l : KickLoop}
    (hrun : run step (init socket) as = some l) :
    Throughout step Registered (init socket) as ↔ Along step DeletesClosed (init socket) as :=
  throughout_iff_along (I := Registered) (fun _ h => h) (fun _ _ _ h hC hs => registered_step h hC hs)
    (fun _ _ _ _ hC hs => not_registered_step hC hs) (registered_init socket) hrun

/-- Socket 5 is idle for too long; its number is accepted again between the close and the delete. -/
def reused : List KickLabel :=
  [.accept 5 ⟨0, 0, 0, 0, .ok, 0⟩, .packet 5 (.bytes SMessage.zero.bytes) 0, .kickClose (key 5) 4001,
    .accept 5 ⟨0, 0, 0, 0, .ok, 0⟩, .kickDelete]

/-- **The kick unregisters a live connection**: the number is open and has no record, and a pong of the new client
dereferences NULL. -/
theorem registered_breaks :
    run step (init 3) reused = some (finish step (init 3) reused) ∧
      5 ∈ (finish step (init 3) reused).server.openSockets ∧
      (finish step (init 3) reused).server.getClientBySocket 5 = none ∧
      (finish step (init 3) reused).server.parsePacket 5 (.bytes (SMessage.mk .pong (fun _ => 0)).bytes) 4002 =
        none := by
  have hrun : run step (init 3) reused = some (finish step (init 3) reused) := run_finish (by decide +kernel)
  have hnone : ((finish step (init 3) reused).server.getClientBySocket 5).isNone = true := by decide +kernel
  refine ⟨hrun, by decide +kernel, Option.isNone_iff_eq_none.1 hnone, ?_⟩
  have hget := Option.isNone_iff_eq_none.1 hnone
  simp [Server.parsePacket, Server.handlePacket, Server.handlePong, Server.updateClient, hget]

/-- The same kick with the number given to nobody in between. -/
theorem registered_throughout_kick :
    Throughout step Registered (init 3)
      [.accept 5 ⟨0, 0, 0, 0, .ok, 0⟩, .packet 5 (.bytes SMessage.zero.bytes) 0, .kickClose (key 5) 4001,
        .kickDelete, .accept 5 ⟨0, 0, 0, 0, .ok, 0⟩] := by
  exact (registered_throughout_iff (run_finish (by decide +kernel))).2 (by decide +kernel)

end KickLoop

end Lte
