import Lte.Hashmap
import Lte.Histories
import Lte.Runs
import Lte.EventLoop
/-!
# Registry — the registry of `client_object.c` on the hash map

`put_client_in_hashmap`, `get_client_by_socket` and `delete_client_from_hashmap` on the map that `server_t__init`
creates, for an arbitrary hash function.  A run of them is a history of operations, and the map answers from it
(`registry_is_map`).  `refines_put` and `refines_delete` connect the map to the finite map that stands for it in the
state of the server.
-/
namespace Lte

open Runs Histories

abbrev ClientMap := Hashmap (List Char) Client

namespace ClientMap

variable (hash : List Char → UInt64)

def getClientBySocket (m : ClientMap) (socket : Nat) : Option Client := m.get hash (key socket)

/-- `put_client_in_hashmap`, the put calling itself once at most. -/
def putClientInHashmap (m : ClientMap) (socket : Nat) (clientInserted : Client) : Option ClientMap :=
  (m.put hash 2 (key socket) clientInserted).map Prod.fst

def deleteClientFromHashmap (m : ClientMap) (socket : Nat) : ClientMap := m.delete hash (key socket)

inductive RegistryOp
  | put (socket : Nat) (clientInserted : Client)
  | get (socket : Nat)
  | delete (socket : Nat)

def RegistryOp.socket : RegistryOp → Nat
  | .put socket _ => socket
  | .get socket => socket
  | .delete socket => socket

def step (m : ClientMap) : RegistryOp → Option ClientMap
  | .put socket clientInserted => m.putClientInHashmap hash socket clientInserted
  | .get _ => some m
  | .delete socket => some (m.deleteClientFromHashmap hash socket)

/-- The `clients` of `server_t__init`. -/
def init : ClientMap := Hashmap.init 0

/-- `c` is the record of the last put for `socket`, and no delete of `socket` came after it. -/
def LastPut (socket : Nat) (c : Client) (ops : List RegistryOp) : Prop :=
  Since (· = .put socket c) (fun op => op.socket = socket → op = .get socket) ops

variable {hash}

/-- The decimal form of a socket number fits `char key[8]`, its terminator included. -/
theorem length_key_lt {socket : Nat} : (key socket).length < 8 ↔ socket < socketLimit :=
  Nat.lt_succ_iff.trans (Nat.length_toDigits_le_iff (by decide) (by decide))

/-- The sockets a map holds a record of. -/
def sockets (hash : List Char → UInt64) (m : ClientMap) : Finset Nat :=
  (Finset.range socketLimit).filter (fun s => (m.getClientBySocket hash s).isSome)

theorem putClientInHashmap_spec {m : ClientMap} (h : m.WellFormed hash) (s : Nat) (c : Client) :
    ∃ m', m.putClientInHashmap hash s c = some m' ∧ Hashmap.Put hash (key s) c m m' := by
  obtain ⟨m', hp, hput⟩ := Hashmap.put_spec h (key s) c
  exact ⟨m', by rw [putClientInHashmap, hp 0]; rfl, hput⟩

/-- **What the registry keeps along a history.** -/
structure Answers (hash : List Char → UInt64) (ops : List RegistryOp) (m : ClientMap) : Prop where
  wellFormed : m.WellFormed hash
  keys : ∀ k ∈ m.keys, ∃ s < socketLimit, k = key s
  get : ∀ s c, m.getClientBySocket hash s = some c ↔ LastPut s c ops
  load : 3 * m.tableSize = 4 * m.maxSize
  bounded : m.maxSize ≤ 2 * socketLimit

theorem answers_nil : Answers hash [] init := by
  have hwf : Hashmap.WellFormed hash init := Hashmap.wellFormed_init
  have hget : ∀ k, Hashmap.get hash init k = (none : Option Client) := fun _ => rfl
  refine ⟨hwf, fun k hk => ?_, fun s c => ⟨fun h => ?_, fun h => absurd h not_since_nil⟩, rfl, by decide⟩
  · rw [Hashmap.mem_keys_iff hwf.buckets hwf.positive, hget] at hk
    cases hk
  · rw [getClientBySocket, hget] at h
    cases h

/-- **The count is the number of sockets mapped.** -/
theorem Answers.count_eq {ops : List RegistryOp} {m : ClientMap} (h : Answers hash ops m) :
    m.count = (m.sockets hash).card := by
  have hkeys : m.keys = (m.sockets hash).image key := by
    ext k
    rw [Finset.mem_image]
    constructor
    · intro hk
      obtain ⟨s, hs, rfl⟩ := h.keys k hk
      refine ⟨s, Finset.mem_filter.2 ⟨Finset.mem_range.2 hs, ?_⟩, rfl⟩
      exact (Hashmap.mem_keys_iff h.wellFormed.buckets h.wellFormed.positive).1 hk
    · rintro ⟨s, hs, rfl⟩
      exact (Hashmap.mem_keys_iff h.wellFormed.buckets h.wellFormed.positive).2 (Finset.mem_filter.1 hs).2
  have hinj : Function.Injective key := fun _ _ he => key_inj.1 he
  rw [h.wellFormed.count_eq, hkeys, Finset.card_image_of_injective _ hinj]

theorem Answers.count_le {ops : List RegistryOp} {m : ClientMap} (h : Answers hash ops m) : m.count ≤ socketLimit := by
  rw [h.count_eq]
  exact (Finset.card_filter_le _ _).trans_eq (Finset.card_range _)

/-- The sizes never leave the range of an `int`. -/
theorem Answers.tableSize_lt {ops : List RegistryOp} {m : ClientMap} (h : Answers hash ops m) :
    m.tableSize < 2 ^ 31 := by
  have hload := h.load
  have hbounded := h.bounded
  unfold socketLimit at hbounded
  omega

/-- A change of the record of one socket, with the operation that made it. -/
theorem Answers.change {ops : List RegistryOp} {m m' : ClientMap} (h : Answers hash ops m)
    (hwf : m'.WellFormed hash) {s : Nat} (hs : s < socketLimit) {found : Option Client} {op : RegistryOp}
    (hget : ∀ k, m'.get hash k = if k = key s then found else m.get hash k)
    (hsizes : (m'.tableSize = m.tableSize ∧ m'.maxSize = m.maxSize) ∨
      (m.maxSize ≤ m.count ∧ m'.tableSize = m.tableSize * 2 ∧ m'.maxSize = m.maxSize * 2))
    (hop : op.socket = s) (hlast : ∀ c, found = some c ↔ LastPut s c (ops ++ [op])) : Answers hash (ops ++ [op]) m' := by
  have hcount := h.count_le
  have hload := h.load
  have hbounded := h.bounded
  refine ⟨hwf, fun k hk => ?_, fun t c => ?_, by omega, by omega⟩
  · by_cases hks : k = key s
    · exact ⟨s, hs, hks⟩
    · rw [Hashmap.mem_keys_iff hwf.buckets hwf.positive, hget, if_neg hks] at hk
      exact h.keys k ((Hashmap.mem_keys_iff h.wellFormed.buckets h.wellFormed.positive).2 hk)
  · by_cases hts : t = s
    · subst hts
      rw [getClientBySocket, hget, if_pos rfl]
      exact hlast c
    · have hkey : key t ≠ key s := fun he => hts (key_inj.1 he)
      rw [getClientBySocket, hget, if_neg hkey]
      refine (h.get t c).trans ?_
      rw [LastPut, LastPut, since_concat]
      constructor
      · exact fun hsince => .inr ⟨hsince, fun he => absurd (he.symm.trans hop) hts⟩
      · rintro (rfl | ⟨hsince, -⟩)
        · exact absurd hop hts
        · exact hsince

theorem answers_step {ops : List RegistryOp} {m : ClientMap} (h : Answers hash ops m) {op : RegistryOp}
    (hs : op.socket < socketLimit) : ∃ m', step hash m op = some m' ∧ Answers hash (ops ++ [op]) m' := by
  cases op with
  | put s c =>
    obtain ⟨m', hp, hput⟩ := putClientInHashmap_spec h.wellFormed s c
    refine ⟨m', hp, h.change hput.wellFormed hs hput.get_eq hput.sizes rfl fun c' => ?_⟩
    rw [LastPut, since_concat]
    constructor
    · rintro ⟨⟩
      exact .inl rfl
    · rintro (he | ⟨-, he⟩)
      · cases he
        rfl
      · cases he rfl
  | get s =>
    refine ⟨m, rfl, h.wellFormed, h.keys, fun t c => (h.get t c).trans ?_, h.load, h.bounded⟩
    rw [LastPut, LastPut, since_concat]
    constructor
    · exact fun hsince => .inr ⟨hsince, fun he => by rw [← he]; rfl⟩
    · rintro (he | ⟨hsince, -⟩)
      · cases he
      · exact hsince
  | delete s =>
    obtain ⟨hwf, hget, hsizes⟩ := Hashmap.delete_spec h.wellFormed (key s)
    refine ⟨_, rfl, h.change hwf hs hget (.inl hsizes) rfl fun c => ⟨fun he => (by cases he), fun hlast => ?_⟩⟩
    rcases since_concat.1 hlast with he | ⟨-, he⟩
    · cases he
    · cases he rfl

theorem answers_run (hash : List Char → UInt64) {ops : List RegistryOp}
    (hops : ∀ op ∈ ops, op.socket < socketLimit) : ∃ m, run (step hash) init ops = some m ∧ Answers hash ops m := by
  induction ops using List.reverseRecOn with
  | nil => exact ⟨init, rfl, answers_nil⟩
  | append_singleton ops op ih =>
    obtain ⟨m, hrun, hm⟩ := ih fun op' hop' => hops op' (List.mem_append_left _ hop')
    obtain ⟨m', hs, hm'⟩ := answers_step hm (hops op (by simp))
    exact ⟨m', run_concat_some.2 ⟨m, hrun, hs⟩, hm'⟩

/-- **The registry is a finite map**, whatever the hash function: after every history each socket has the record of its
last put not followed by a delete, the count is the number of sockets with one, and no put doubles the table twice. -/
theorem registry_is_map (hash : List Char → UInt64) {ops : List RegistryOp}
    (hops : ∀ op ∈ ops, op.socket < socketLimit) :
    ∃ m, run (step hash) init ops = some m ∧
      (∀ s c, m.getClientBySocket hash s = some c ↔ LastPut s c ops) ∧
      (∀ s, m.getClientBySocket hash s = none ↔ ∀ c, ¬ LastPut s c ops) ∧
      m.count = (m.sockets hash).card ∧
      ∀ s c, ∃ m', m.putClientInHashmap hash s c = some m' := by
  obtain ⟨m, hrun, hm⟩ := answers_run hash hops
  refine ⟨m, hrun, hm.get, fun s => ?_, hm.count_eq, fun s c => ?_⟩
  · rw [Option.eq_none_iff_forall_ne_some]
    exact ⟨fun h c hc => h c ((hm.get s c).2 hc), fun h c hc => h c ((hm.get s c).1 hc)⟩
  · obtain ⟨m', hp, -⟩ := putClientInHashmap_spec hm.wellFormed s c
    exact ⟨m', hp⟩

/-- Two sockets, the first put twice and the second deleted. -/
def twoSockets : List RegistryOp :=
  [.put 5 ⟨0, 0, 0, 0, .ok, 5⟩, .put 6 ⟨0, 0, 0, 0, .ok, 6⟩, .put 5 ⟨0, 0, 0, 1, .ok, 5⟩, .delete 6]

/-- They are registered so with both keys in one chain. -/
theorem registry_is_map_twoSockets :
    ∃ m, run (step fun _ => 0) init twoSockets = some m ∧
      (∀ s c, m.getClientBySocket (fun _ => 0) s = some c ↔ LastPut s c twoSockets) := by
  have hops : ∀ op ∈ twoSockets, op.socket < socketLimit := by
    intro op hop
    simp only [twoSockets, List.mem_cons, List.not_mem_nil, or_false] at hop
    rcases hop with rfl | rfl | rfl | rfl <;> decide
  obtain ⟨m, hrun, hget, -⟩ := registry_is_map (fun _ => 0) hops
  exact ⟨m, hrun, hget⟩

/-! ## The finite map of the server's state -/

/-- The map and the finite map answer alike. -/
def Refines (hash : List Char → UInt64) (m : ClientMap) (srv : Server) : Prop :=
  ∀ k, m.get hash k = srv.clients.lookup k

theorem Refines.getClientBySocket {m : ClientMap} {srv : Server} (h : Refines hash m srv) (s : Nat) :
    m.getClientBySocket hash s = srv.getClientBySocket s := h (key s)

theorem refines_put {m : ClientMap} {srv : Server} (hm : m.WellFormed hash) (h : Refines hash m srv) (s : Nat)
    (c : Client) :
    ∃ m', m.putClientInHashmap hash s c = some m' ∧ m'.WellFormed hash ∧
      Refines hash m' (srv.putClientInHashmap s c) := by
  obtain ⟨m', hp, hput⟩ := putClientInHashmap_spec hm s c
  refine ⟨m', hp, hput.wellFormed, fun k => ?_⟩
  rw [hput.get_eq, Server.lookup_putClientInHashmap, h]

theorem refines_delete {m : ClientMap} {srv : Server} (hm : m.WellFormed hash) (h : Refines hash m srv) (s : Nat) :
    (m.deleteClientFromHashmap hash s).WellFormed hash ∧
      Refines hash (m.deleteClientFromHashmap hash s) (srv.deleteClientFromHashmap s) := by
  obtain ⟨hwf, hget, -⟩ := Hashmap.delete_spec hm (key s)
  refine ⟨hwf, fun k => ?_⟩
  rw [deleteClientFromHashmap, hget, Server.lookup_deleteClientFromHashmap, h]

end ClientMap

end Lte
