import Lte.Runs
import Lte.PacketHandler
/-!
# EventLoop — `receive_packets` and the invariant of the registry

The server's main thread alone: `epoll_wait` fills the batch, `handle_connection` takes its events in order, and an
event is an accept on the listening socket or a packet of a client.  The keys of the registry are the open client
sockets (`RegistryInv`) after every event, so no handler of a packet dereferences NULL.
-/
namespace Lte

open Runs

namespace Server

/-- The keys are exactly the decimal forms of the open sockets, and a record's socket is its key. -/
structure RegistryInv (srv : Server) : Prop where
  mem_iff : ∀ k, k ∈ srv.clients ↔ ∃ s ∈ srv.openSockets, k = key s
  socket_key : ∀ k c, srv.clients.lookup k = some c → k = key c.socket

theorem mem_clients_iff {srv : Server} {k : List Char} : k ∈ srv.clients ↔ ∃ c, srv.clients.lookup k = some c := by
  rw [← AList.lookup_isSome, Option.isSome_iff_exists]

theorem RegistryInv.lookup_iff {srv : Server} (h : RegistryInv srv) (k : List Char) :
    (∃ c, srv.clients.lookup k = some c) ↔ ∃ t ∈ srv.openSockets, k = key t :=
  mem_clients_iff.symm.trans (h.mem_iff k)

theorem RegistryInv.record {srv : Server} (h : RegistryInv srv) {s : Nat} (hs : s ∈ srv.openSockets) :
    ∃ c, srv.getClientBySocket s = some c ∧ c.socket = s := by
  obtain ⟨c, hc⟩ := (h.lookup_iff (key s)).2 ⟨s, hs, rfl⟩
  exact ⟨c, hc, (key_inj.1 (h.socket_key _ _ hc)).symm⟩

theorem registryInv_init (socket : Nat) : RegistryInv (init socket) where
  mem_iff k := by simp [init]
  socket_key k c hc := by simp [init] at hc

theorem RegistryInv.of_same {srv srv' : Server} (h : RegistryInv srv) (hopen : srv'.openSockets = srv.openSockets)
    (hclients : srv'.clients = srv.clients) : RegistryInv srv' where
  mem_iff := by
    rw [hopen, hclients]
    exact h.mem_iff
  socket_key := by
    rw [hclients]
    exact h.socket_key

/-- A record rewritten in place, under the same socket, keeps the invariant. -/
theorem RegistryInv.handled {srv srv' : Server} {s : Nat} {c : Client} {out : List SMessage} (h : RegistryInv srv)
    (hs : s ∈ srv.openSockets) (hc : c.socket = s) (hh : Handled srv s c out srv') : RegistryInv srv' where
  mem_iff k := by
    rw [mem_clients_iff, hh.clients k, hh.openSockets]
    split
    · rename_i hk
      exact iff_of_true ⟨c, rfl⟩ ⟨s, hs, hk⟩
    · exact h.lookup_iff k
  socket_key k c' hc' := by
    rw [hh.clients k] at hc'
    split at hc'
    · rename_i hk
      cases hc'
      rw [hk, hc]
    · exact h.socket_key k c' hc'

/-- A socket closed and deleted in one go, as on EOF and on `ue_off`. -/
theorem RegistryInv.drop {srv : Server} (h : RegistryInv srv) (s : Nat) :
    RegistryInv ((srv.close s).deleteClientFromHashmap s) where
  mem_iff k := by
    rw [mem_clients_iff, lookup_deleteClientFromHashmap]
    by_cases hk : k = key s
    · subst hk
      simp [deleteClientFromHashmap, close]
    · rw [if_neg hk]
      refine (h.lookup_iff k).trans ⟨?_, ?_⟩
      · rintro ⟨t, ht, rfl⟩
        exact ⟨t, Finset.mem_erase.2 ⟨fun e => hk (by rw [e]), ht⟩, rfl⟩
      · rintro ⟨t, ht, rfl⟩
        exact ⟨t, (Finset.mem_erase.1 ht).2, rfl⟩
  socket_key k c hc := by
    rw [lookup_deleteClientFromHashmap] at hc
    split at hc
    · cases hc
    · exact h.socket_key k c hc

/-- A fresh socket registered, whatever its record held before. -/
theorem RegistryInv.accept {srv : Server} (h : RegistryInv srv) (s : Nat) (fresh : Client) :
    RegistryInv (srv.acceptClient s fresh) where
  mem_iff k := by
    have hopen : (srv.acceptClient s fresh).openSockets = insert s srv.openSockets := rfl
    rw [mem_clients_iff, hopen]
    unfold acceptClient
    rw [lookup_putClientInHashmap]
    by_cases hk : k = key s
    · rw [if_pos hk]
      exact iff_of_true ⟨_, rfl⟩ ⟨s, Finset.mem_insert_self s _, hk⟩
    · rw [if_neg hk]
      refine (h.lookup_iff k).trans ⟨fun ⟨t, ht, e⟩ => ⟨t, Finset.mem_insert_of_mem ht, e⟩, ?_⟩
      rintro ⟨t, ht, rfl⟩
      rcases Finset.mem_insert.1 ht with rfl | ht
      · exact absurd rfl hk
      · exact ⟨t, ht, rfl⟩
  socket_key k c hc := by
    unfold acceptClient at hc
    rw [lookup_putClientInHashmap] at hc
    split at hc
    · rename_i hk
      cases hc
      exact hk
    · exact h.socket_key k c hc

/-- **A packet of an open socket**, whatever it holds, is handled without a NULL dereference: its record is
rewritten, or its socket is closed and deleted. -/
theorem RegistryInv.parse {srv : Server} (h : RegistryInv srv) {s : Nat} (hs : s ∈ srv.openSockets)
    {read : ReadOutcome} (hread : ∀ e, read ≠ .failed e) (now : Int) :
    ∃ srv', srv.parsePacket s read now = some srv' ∧ RegistryInv srv' ∧ srv'.socket = srv.socket ∧
      srv.openSockets.erase s ⊆ srv'.openSockets ∧ srv'.openSockets ⊆ srv.openSockets := by
  have hdrop : RegistryInv ((srv.close s).deleteClientFromHashmap s) := h.drop s
  cases read with
  | failed e => exact absurd rfl (hread e)
  | eof => exact ⟨_, rfl, hdrop, rfl, Finset.Subset.refl _, Finset.erase_subset _ _⟩
  | bytes bs =>
    by_cases hoff : (SMessage.zero.readInto bs).messageType = .ueOff
    · refine ⟨_, ?_, hdrop, rfl, Finset.Subset.refl _, Finset.erase_subset _ _⟩
      exact handlePacket_ueOff srv s now hoff
    · obtain ⟨c, hc, hcs⟩ := h.record hs
      obtain ⟨srv', hp, hh⟩ := handlePacket_handled hc _ now hoff
      refine ⟨srv', hp, h.handled hs ((clientAfter_socket c _ now).trans hcs) hh, hh.socket, ?_, ?_⟩
      · rw [hh.openSockets]; exact Finset.erase_subset _ _
      · rw [hh.openSockets]

end Server

/-! ## The event loop -/

/-- `MAX_EVENTS`, and the numbers whose decimal form fits `char key[8]`. -/
def maxEvents : Nat := 100
def socketLimit : Nat := 10 ^ 7

/-- The server and the events of the current batch that `handle_connection` has not taken yet. -/
structure EventLoop where
  server : Server
  batch : List Nat

inductive EventLabel
  | wait (batch : List Nat)
  | accept (socket : Nat) (fresh : Client)
  | packet (read : ReadOutcome) (now : Int)

/-- A read that did not fail: EOF, or between one byte and a whole struct. -/
def ReadOutcome.Succeeds : ReadOutcome → Prop
  | .failed _ => False
  | .eof => True
  | .bytes bs => bs ≠ [] ∧ bs.length ≤ sizeofSMessage

instance (read : ReadOutcome) : Decidable read.Succeeds := by
  unfold ReadOutcome.Succeeds; cases read <;> infer_instance

/-- What a read of `s` can return: a descriptor that is not open cannot be read. -/
def Server.CanRead (srv : Server) (s : Nat) (read : ReadOutcome) : Prop :=
  (∃ e, read = .failed e) ∨ (read.Succeeds ∧ s ∈ srv.openSockets)

instance (srv : Server) (s : Nat) (read : ReadOutcome) : Decidable (srv.CanRead s read) := by
  unfold Server.CanRead; infer_instance

namespace EventLoop

def step (l : EventLoop) : EventLabel → Option EventLoop
  | .wait batch =>
    -- `epoll_wait` reports a descriptor once, and only descriptors that are open
    if l.batch = [] ∧ batch.Nodup ∧ batch.length ≤ maxEvents ∧
        ∀ s ∈ batch, s = l.server.socket ∨ s ∈ l.server.openSockets then
      some { l with batch := batch }
    else none
  | .accept socket fresh =>
    match l.batch with
    | [] => none
    | fd :: batch =>
      if fd = l.server.socket ∧ socket ∉ l.server.openSockets ∧ socket ≠ l.server.socket ∧ socket < socketLimit then
        some { server := l.server.acceptClient socket fresh, batch := batch }
      else none
  | .packet read now =>
    match l.batch with
    | [] => none
    | fd :: batch =>
      if fd ≠ l.server.socket ∧ read.Succeeds then
        match l.server.parsePacket fd read now with
        | none => none
        | some server => some { server := server, batch := batch }
      else none

def init (socket : Nat) : EventLoop := { server := Server.init socket, batch := [] }

structure Inv (l : EventLoop) : Prop where
  registry : l.server.RegistryInv
  nodup : l.batch.Nodup
  ready : ∀ s ∈ l.batch, s = l.server.socket ∨ s ∈ l.server.openSockets

theorem inv_init (socket : Nat) : Inv (init socket) where
  registry := Server.registryInv_init socket
  nodup := List.nodup_nil
  ready s hs := by cases hs

theorem succeeds_not_failed {read : ReadOutcome} (h : read.Succeeds) (e : Bool) : read ≠ .failed e := by
  rintro rfl
  exact h

theorem inv_step {l l' : EventLoop} {a : EventLabel} (h : Inv l) (hs : step l a = some l') : Inv l' := by
  cases a with
  | wait batch =>
    simp only [step] at hs
    split at hs
    · rename_i hb
      cases hs
      exact ⟨h.registry, hb.2.1, hb.2.2.2⟩
    · cases hs
  | accept socket fresh =>
    simp only [step] at hs
    split at hs
    · cases hs
    rename_i fd batch hb
    split at hs
    · cases hs
      have hnd := h.nodup
      have hready := h.ready
      rw [hb] at hnd hready
      refine ⟨h.registry.accept socket fresh, hnd.of_cons, fun s hs => ?_⟩
      rcases hready s (List.mem_cons_of_mem fd hs) with e | e
      · exact .inl e
      · exact .inr (Finset.mem_insert_of_mem e)
    · cases hs
  | packet read now =>
    simp only [step] at hs
    split at hs
    · cases hs
    rename_i fd batch hb
    split at hs
    · rename_i hc
      have hnd := h.nodup
      have hready := h.ready
      rw [hb] at hnd hready
      have hopen : fd ∈ l.server.openSockets := (hready fd List.mem_cons_self).resolve_left hc.1
      obtain ⟨srv', hp, hreg, hsock, hkept, -⟩ := h.registry.parse hopen (succeeds_not_failed hc.2) now
      rw [hp] at hs
      cases hs
      refine ⟨hreg, hnd.of_cons, fun s hs => ?_⟩
      rcases hready s (List.mem_cons_of_mem fd hs) with e | e
      · exact .inl (e.trans hsock.symm)
      · -- the batch names `fd` once, so closing it leaves the rest of the batch open
        have hne : s ≠ fd := fun e' => (List.nodup_cons.1 hnd).1 (e' ▸ hs)
        exact .inr (hkept (Finset.mem_erase.2 ⟨hne, e⟩))
    · cases hs

/-- **The registry of the event loop.**  In every state of every run the keys are the open client sockets, every
record is under its own socket, and no packet of an open socket or of the batch, whatever was read, dereferences
NULL. -/
theorem registry_of_run {socket : Nat} {as : List EventLabel} {l : EventLoop}
    (hrun : run step (init socket) as = some l) :
    (∀ k, k ∈ l.server.clients ↔ ∃ s ∈ l.server.openSockets, k = key s) ∧
    (∀ k c, l.server.clients.lookup k = some c → k = key c.socket) ∧
    (∀ s, s ∈ l.server.openSockets ∨ (s ∈ l.batch ∧ s ≠ l.server.socket) →
      l.server.getClientBySocket s ≠ none ∧
      ∀ (read : ReadOutcome) (now : Int), l.server.parsePacket s read now ≠ none) := by
  have h : Inv l := run_inv (fun _ _ _ => inv_step) (inv_init socket) hrun
  refine ⟨h.registry.mem_iff, h.registry.socket_key, fun s hs => ?_⟩
  have hopen : s ∈ l.server.openSockets :=
    hs.elim id (fun ⟨hb, hne⟩ => (h.ready s hb).resolve_left hne)
  constructor
  · intro hn
    obtain ⟨c, hc, -⟩ := h.registry.record hopen
    rw [hc] at hn
    cases hn
  · intro read now
    by_cases hf : ∃ e, read = .failed e
    · obtain ⟨e, rfl⟩ := hf
      simp [Server.parsePacket]
    · obtain ⟨srv', hp, -⟩ := h.registry.parse hopen (fun e he => hf ⟨e, he⟩) now
      rw [hp]
      exact Option.some_ne_none srv'

/-- A batch that closes socket 5 and accepts it again. -/
def reuse : List EventLabel :=
  [.wait [3], .accept 5 ⟨0, 0, 0, 0, .low, 0⟩, .wait [5, 3], .packet .eof 1, .accept 5 ⟨7, 7, 7, 7, .unlisted 9, 7⟩]

theorem registry_of_reuse :
    5 ∈ (finish step (init 3) reuse).server.openSockets ∧
      (finish step (init 3) reuse).server.getClientBySocket 5 ≠ none := by
  have hrun : run step (init 3) reuse = some (finish step (init 3) reuse) := run_finish (by decide +kernel)
  have hopen : 5 ∈ (finish step (init 3) reuse).server.openSockets := by decide +kernel
  exact ⟨hopen, ((registry_of_run hrun).2.2 5 (.inl hopen)).1⟩

end EventLoop

end Lte
