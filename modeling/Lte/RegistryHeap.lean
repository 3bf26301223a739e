import Lte.HeapTables
import Lte.Registry
/-!
# RegistryHeap — the registry of the server in memory

The registry of `client_object.c` on a map that lives in memory: `accept_client` allocates a record and puts it, and
`get_client_by_socket` returns its address.  No history of the registry reads, writes or frees outside of what is
allocated, and the address found for a socket is that of its last record (`registry_in_memory`).  `Ledger` counts what
the map lets go of without freeing it.
-/
namespace Lte

open Runs Histories Store

namespace ClientMap

/-- What the process has allocated, and the map of the server. -/
structure HeapRegistry where
  heap : Heap (List Char) Client
  clients : HeapMap

namespace HeapRegistry

variable (hash : List Char → UInt64)

/-- The map that `server_t__init` creates. -/
def init : HeapRegistry :=
  match HeapMap.init Store.empty 0 with
  | (heap, clients) => ⟨heap, clients⟩

/-- `accept_client` allocates the record that it puts. -/
def step (r : HeapRegistry) : RegistryOp → Option HeapRegistry
  | .put socket clientInserted =>
    match r.heap.alloc (.value clientInserted) with
    | (client, heap) => (HeapMap.put hash 2 heap r.clients (key socket) (some client)).map fun p => ⟨p.1, p.2.1⟩
  | .get socket => (HeapMap.get hash r.heap r.clients (key socket)).map fun _ => r
  | .delete socket => (HeapMap.delete hash r.heap r.clients (key socket)).map fun p => ⟨p.1, p.2.1⟩

/-- The record at the address that `get_client_by_socket` returns, `some none` when it returns `NULL`. -/
def recordOf (r : HeapRegistry) (socket : Nat) : Option (Option Client) :=
  match HeapMap.get hash r.heap r.clients (key socket) with
  | some none => some none
  | some (some (some client)) =>
    match r.heap.get client with
    | some (.value c) => some (some c)
    | _ => none
  | _ => none

end HeapRegistry

/-- What a history has let go of without freeing it: emptied entries, and records that a put replaced. -/
structure Ledger where
  clients : ClientMap
  stranded : Nat
  replaced : List Client

namespace Ledger

variable (hash : List Char → UInt64)

def init : Ledger := ⟨ClientMap.init, 0, []⟩

def step (l : Ledger) : RegistryOp → Option Ledger
  | .put socket clientInserted =>
    (l.clients.putClientInHashmap hash socket clientInserted).map fun clients =>
      { clients := clients
        stranded := l.stranded + HeapMap.strandedPut hash l.clients (key socket)
        replaced := l.replaced ++ (l.clients.getClientBySocket hash socket).toList }
  | .get _ => some l
  | .delete socket => some { l with clients := l.clients.deleteClientFromHashmap hash socket }

end Ledger

/-! ## The memory keeps the map -/

section
variable {hash : List Char → UInt64}

/-- **The memory holds the map of the ledger**, and besides it what the ledger counts. -/
def Holds (l : Ledger) (r : HeapRegistry) : Prop :=
  ∃ E V, HeapMap.Represents r.heap r.clients l.clients (E + addrs V) ∧ HeapMap.Leaked r.heap E V ∧
    Multiset.card E = l.stranded ∧ V.map Prod.snd = l.replaced

theorem holds_init : Holds Ledger.init HeapRegistry.init := by
  obtain ⟨h', m, hi, hr, -⟩ := HeapMap.init_spec (exactly_empty : Exactly (Store.empty : Heap (List Char) Client) 0) 0
  refine ⟨0, [], ?_, ⟨fun a ha => absurd ha (Multiset.notMem_zero a), fun c hc => (by cases hc)⟩, rfl, rfl⟩
  rw [HeapRegistry.init, hi]
  exact hr.of_eq (by simp)

/-- The record that a put allocates, before the table knows of it. -/
theorem represents_alloc {M : ClientMap} {R : Multiset Nat} {r : HeapRegistry}
    (hr : HeapMap.Represents r.heap r.clients M R) (c : Client) :
    HeapMap.Represents (r.heap.alloc (.value c)).2 r.clients M ({r.heap.fresh} + R) ∧
      (r.heap.alloc (.value c)).2.get r.heap.fresh = some (.value c) ∧ Agrees R r.heap (r.heap.alloc (.value c)).2 := by
  obtain ⟨⟨nodes, ht⟩, hsize, hmax, hcount⟩ := hr
  obtain ⟨hex, hget, hag⟩ := ht.account.alloc (.value c)
  exact ⟨⟨⟨nodes, ht.rest (hex.of_eq (by abel)) hag.left⟩, hsize, hmax, hcount⟩, hget, hag.right⟩

theorem holds_put {l : Ledger} {r : HeapRegistry} (hwf : l.clients.WellFormed hash) (hh : Holds l r) (s : Nat)
    (c : Client) : ∃ l' r', l.step hash (.put s c) = some l' ∧ r.step hash (.put s c) = some r' ∧ Holds l' r' := by
  obtain ⟨E, V, hr, hleak, hE, hV⟩ := hh
  obtain ⟨hr₁, hget, hag⟩ := represents_alloc hr c
  obtain ⟨h', m', M', E', V', hp, hp', hr', hag', hleak', hV', hE'⟩ := HeapMap.put_spec hr₁ hwf (key s) hget
  refine ⟨⟨M', l.stranded + HeapMap.strandedPut hash l.clients (key s),
    l.replaced ++ (l.clients.getClientBySocket hash s).toList⟩, ⟨h', m'⟩, ?_, ?_, E + E', V ++ V', hr'.of_eq ?_,
    (hleak.congr (hag.trans hag')).append hleak', ?_, ?_⟩
  · rw [Ledger.step, putClientInHashmap, hp']
    rfl
  · rw [HeapRegistry.step]
    simp only [Store.alloc] at hp ⊢
    rw [hp]
    rfl
  · rw [addrs_append]
    abel
  · rw [Multiset.card_add, hE, hE']
  · rw [List.map_append, hV, hV']
    rfl

/-- A lookup finds its way and changes nothing. -/
theorem step_get {M : ClientMap} {R : Multiset Nat} {r : HeapRegistry} (hr : HeapMap.Represents r.heap r.clients M R)
    (hwf : M.WellFormed hash) (s : Nat) : r.step hash (.get s) = some r := by
  obtain ⟨hsome, hnone⟩ := HeapMap.get_spec hr hwf (key s)
  rw [HeapRegistry.step]
  cases hget : M.get hash (key s) with
  | none =>
    rw [hnone hget]
    rfl
  | some c =>
    obtain ⟨vp, hvp, -⟩ := hsome c hget
    rw [hvp]
    rfl

theorem holds_step {l : Ledger} {r : HeapRegistry} (hwf : l.clients.WellFormed hash) (hh : Holds l r)
    (op : RegistryOp) :
    ∃ l' r', l.step hash op = some l' ∧ r.step hash op = some r' ∧ Holds l' r' ∧
      ClientMap.step hash l.clients op = some l'.clients := by
  cases op with
  | put s c =>
    obtain ⟨l', r', hl, hr, hh'⟩ := holds_put hwf hh s c
    refine ⟨l', r', hl, hr, hh', ?_⟩
    rw [Ledger.step, Option.map_eq_some_iff] at hl
    obtain ⟨m, hm, rfl⟩ := hl
    exact hm
  | get s =>
    obtain ⟨E, V, hr, hrest⟩ := hh
    exact ⟨l, r, rfl, step_get hr hwf s, ⟨E, V, hr, hrest⟩, rfl⟩
  | delete s =>
    obtain ⟨E, V, hr, hleak, hE, hV⟩ := hh
    obtain ⟨h', m', hd, hr', hag⟩ := HeapMap.delete_spec hr hwf (key s)
    refine ⟨_, ⟨h', m'⟩, rfl, ?_, ⟨E, V, hr', hleak.congr hag, hE, hV⟩, rfl⟩
    rw [HeapRegistry.step, hd]
    rfl

theorem holds_run (hash : List Char → UInt64) {ops : List RegistryOp} (hops : ∀ op ∈ ops, op.socket < socketLimit) :
    ∃ l r, run (Ledger.step hash) Ledger.init ops = some l ∧ run (HeapRegistry.step hash) HeapRegistry.init ops = some r ∧
      Holds l r ∧ Answers hash ops l.clients := by
  induction ops using List.reverseRecOn with
  | nil => exact ⟨_, _, rfl, rfl, holds_init, answers_nil⟩
  | append_singleton ops op ih =>
    obtain ⟨l, r, hl, hr, hh, hans⟩ := ih fun op' hop' => hops op' (List.mem_append_left _ hop')
    obtain ⟨l', r', hl', hr', hh', hm⟩ := holds_step hans.wellFormed hh op
    obtain ⟨m', hm', hans'⟩ := answers_step hans (hops op (by simp))
    rw [hm] at hm'
    cases hm'
    exact ⟨l', r', run_concat_some.2 ⟨l, hl, hl'⟩, run_concat_some.2 ⟨r, hr, hr'⟩, hh', hans'⟩

theorem recordOf_eq {l : Ledger} {r : HeapRegistry} (hwf : l.clients.WellFormed hash) (hh : Holds l r) (s : Nat) :
    r.recordOf hash s = some (l.clients.getClientBySocket hash s) := by
  obtain ⟨E, V, hr, -⟩ := hh
  obtain ⟨hsome, hnone⟩ := HeapMap.get_spec hr hwf (key s)
  rw [getClientBySocket]
  cases hget : l.clients.get hash (key s) with
  | none => rw [HeapRegistry.recordOf, hnone hget]
  | some c =>
    obtain ⟨vp, hvp, hc⟩ := hsome c hget
    rw [HeapRegistry.recordOf, hvp]
    simp only [hc]

/-- **The registry in memory answers from its history**, whatever the hash function: no operation of a history touches
anything that is not allocated, and afterwards the address of each socket is that of an allocated record, the one of its
last put not followed by a delete. -/
theorem registry_in_memory (hash : List Char → UInt64) {ops : List RegistryOp}
    (hops : ∀ op ∈ ops, op.socket < socketLimit) :
    ∃ r, run (HeapRegistry.step hash) HeapRegistry.init ops = some r ∧
      (∀ s c, r.recordOf hash s = some (some c) ↔ LastPut s c ops) ∧
      ∀ s, r.recordOf hash s = some none ↔ ∀ c, ¬ LastPut s c ops := by
  obtain ⟨l, r, -, hr, hh, hans⟩ := holds_run hash hops
  refine ⟨r, hr, fun s c => ?_, fun s => ?_⟩
  · rw [recordOf_eq hans.wellFormed hh, Option.some.injEq]
    exact hans.get s c
  · rw [recordOf_eq hans.wellFormed hh, Option.some.injEq, Option.eq_none_iff_forall_ne_some]
    exact ⟨fun h c hc => h c ((hans.get s c).2 hc), fun h c hc => h c ((hans.get s c).1 hc)⟩

/-- With every key in one chain. -/
theorem registry_in_memory_twoSockets :
    ∃ r, run (HeapRegistry.step fun _ => 0) HeapRegistry.init twoSockets = some r ∧
      ∀ s c, r.recordOf (fun _ => 0) s = some (some c) ↔ LastPut s c twoSockets := by
  have hops : ∀ op ∈ twoSockets, op.socket < socketLimit := by
    intro op hop
    simp only [twoSockets, List.mem_cons, List.not_mem_nil, or_false] at hop
    rcases hop with rfl | rfl | rfl | rfl <;> decide
  obtain ⟨r, hr, hrec, -⟩ := registry_in_memory (fun _ => 0) hops
  exact ⟨r, hr, hrec⟩

end

end ClientMap

end Lte
