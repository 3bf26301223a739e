import Lte.RegistryHeap
import Lte.Inactivity
/-!
# HeapIteration — `hashmap_iter` in memory

`handle_client_inactivity` frees the record it is called with and the key of the entry that the iterator stands on, and
the iterator reads the link of that entry afterwards.  It may: a delete never frees the node of the entry it deletes but
the next one.  So the iteration of the ping thread stays within what is allocated, and does in memory what
`Inactivity.iteration` says.  `uses_in_memory` and `destroyed_leaves` are about whole histories of the registry, the
iterations of the ping thread among them.
-/
namespace Lte

open Runs Store Chain

/-- The registry in memory during an iteration, and the sockets closed so far. -/
structure HeapInactivity where
  registry : ClientMap.HeapRegistry
  closed : List Nat

namespace HeapInactivity

/-- `handle_client_inactivity` -/
def handleClientInactivity (hash : List Char → UInt64) (now : Int) (st : HeapInactivity) (_key : Nat)
    (value : Option Nat) : Option (HeapInactivity × Bool) :=
  match value.bind st.registry.heap.get with
  | some (.value currentClient) =>
    if Server.shouldKick currentClient now then
      (st.registry.step hash (.delete currentClient.socket)).map fun registry =>
        ({ registry := registry, closed := st.closed ++ [currentClient.socket] }, false)
    else some (st, false)
  | _ => none

/-- The ping thread's `hashmap_iter` with `handle_client_inactivity`. -/
def iteration (hash : List Char → UInt64) (now : Int) (r : ClientMap.HeapRegistry) : Option HeapInactivity :=
  (HeapMap.iter (fun st => st.registry.heap) (fun st => st.registry.clients) (handleClientInactivity hash now)
    { registry := r, closed := [] }).map Prod.fst

variable {hash : List Char → UInt64} {now : Int}

/-- **The memory is at the state of the iteration**, its table at `table` with the nodes `nodes`. -/
structure At (hash : List Char → UInt64) (R : Multiset Nat) (table : Nat)
    (nodes : Nat → List (Nat × HashmapEntry)) (st : Inactivity) (hst : HeapInactivity) : Prop where
  registered : Inactivity.Registered hash st.clients
  clients_eq : hst.registry.clients = ⟨st.clients.count, st.clients.tableSize, st.clients.maxSize, table⟩
  holds : HeapMap.Table hst.registry.heap table st.clients.tableSize st.clients.table nodes R
  closed_eq : hst.closed = st.closed

/-- The iterator is at the entry `p` of the chain `i`, behind the entries `l₁`. -/
structure Stands (nodes : Nat → List (Nat × HashmapEntry)) (table i : Nat) (st : Inactivity) (hst : HeapInactivity)
    (l₁ l₂ : List (Nat × HashmapEntry)) (qs : List (List Char × Client)) (es : Chain (List Char) Client)
    (p : Option Nat) : Prop where
  nodes_eq : nodes i = l₁ ++ l₂
  chain_eq : st.clients.table i = qs.map some ++ es
  front : HeapMap.Chained hst.registry.heap (some (table + i)) l₁ (qs.map some) p
  rest : HeapMap.Chained hst.registry.heap p l₂ es none

variable {R : Multiset Nat} {table i : Nat} {nodes : Nat → List (Nat × HashmapEntry)} {st : Inactivity}
  {hst : HeapInactivity}

theorem registered_delete {m : ClientMap} (h : Inactivity.Registered hash m) (s : Nat) :
    Inactivity.Registered hash (m.deleteClientFromHashmap hash s) := by
  obtain ⟨hwf, hget, -⟩ := Hashmap.delete_spec h.wellFormed (key s)
  refine ⟨hwf, fun k c hk => ?_⟩
  rw [ClientMap.deleteClientFromHashmap, hget] at hk
  by_cases hks : k = key s
  · rw [if_pos hks] at hk
    cases hk
  · rw [if_neg hks] at hk
    exact h.keyed k c hk

/-- The entry that the iterator stands on has the record of its own socket. -/
theorem Stands.keyed {l₁ l₂ : List (Nat × HashmapEntry)} {qs : List (List Char × Client)} {c : List Char × Client}
    {es : Chain (List Char) Client} {p : Option Nat} (hat : At hash R table nodes st hst)
    (hs : Stands nodes table i st hst l₁ l₂ qs (some c :: es) p) : c.1 = key c.2.socket := by
  have hmem : c ∈ live (st.clients.table i) := by
    rw [hs.chain_eq, HeapMap.live_at]
    simp
  refine hat.registered.keyed c.1 c.2 (hat.registered.wellFormed.buckets.find_eq_some.2 ?_)
  rw [hat.registered.wellFormed.buckets.placed i c.1 (mem_keys_of_mem hmem)]
  exact hmem

/-- **The callback on an idle entry** deletes it, and its node is still there. -/
theorem kick_here (kp : Nat) {l₁ l₂ : List (Nat × HashmapEntry)} {qs : List (List Char × Client)}
    {c : List Char × Client} {es : Chain (List Char) Client} {a : Nat} {e : HashmapEntry}
    (hat : At hash R table nodes st hst)
    (hs : Stands nodes table i st hst l₁ ((a, e) :: l₂) qs (some c :: es) (some a))
    (hidle : Server.shouldKick c.2 now = true) :
    ∃ hst' st' nodes' l₂', Inactivity.handleClientInactivity hash now st c.1 c.2 = (st', false) ∧
      handleClientInactivity hash now hst kp e.value = some (hst', false) ∧ At hash R table nodes' st' hst' ∧
      st'.clients.tableSize = st.clients.tableSize ∧
      Stands nodes' table i st' hst' l₁ l₂' qs (HeapMap.orEmpty es) (some a) ∧
      Agrees R hst.registry.heap hst'.registry.heap := by
  have hkey := hs.keyed hat
  obtain ⟨hreg, hclients, hholds, hclosed⟩ := hat
  obtain ⟨-, -, ⟨kp', vp, -, hvp, -, hval⟩, -⟩ := Store.seg_cons.1 hs.rest
  obtain ⟨h', l₂', nodes', M', hM, hsize, hchain, hnodes, hd, ht', hfront, hrest, hag⟩ :=
    HeapMap.delete_entry hreg.wellFormed hholds hs.nodes_eq hs.chain_eq hs.front hs.rest
  have hM' : M' = st.clients.deleteClientFromHashmap hash c.2.socket := by
    rw [hM, hkey]
    rfl
  refine ⟨⟨⟨h', ⟨M'.count, M'.tableSize, M'.maxSize, table⟩⟩, hst.closed ++ [c.2.socket]⟩,
    ⟨M', st.closed ++ [c.2.socket]⟩, nodes', l₂', ?_, ?_, ⟨?_, rfl, ht', by rw [hclosed]⟩, hsize,
    ⟨hnodes, hchain, hfront, hrest⟩, hag⟩
  · rw [Inactivity.handleClientInactivity, if_pos hidle, hM']
  · rw [handleClientInactivity, hvp, Option.bind_some, hval]
    simp only [if_pos hidle, ClientMap.HeapRegistry.step, hclients, ← hkey, hd, Option.map_some]
  · rw [hM']
    exact registered_delete hreg _

/-- The callback on any other entry. -/
theorem pass_here (hash : List Char → UInt64) (kp : Nat) {l₁ l₂ : List (Nat × HashmapEntry)}
    {qs : List (List Char × Client)} {c : List Char × Client} {es : Chain (List Char) Client} {a : Nat}
    {e : HashmapEntry} (hs : Stands nodes table i st hst l₁ ((a, e) :: l₂) qs (some c :: es) (some a))
    (hidle : ¬ Server.shouldKick c.2 now = true) :
    Inactivity.handleClientInactivity hash now st c.1 c.2 = (st, false) ∧
      handleClientInactivity hash now hst kp e.value = some (hst, false) := by
  obtain ⟨-, -, ⟨kp', vp, -, hvp, -, hval⟩, -⟩ := Store.seg_cons.1 hs.rest
  refine ⟨if_neg hidle, ?_⟩
  rw [handleClientInactivity, hvp, Option.bind_some, hval]
  exact if_neg hidle

/-- The iterator goes on to the next entry. -/
theorem Stands.next {l₁ l₂ : List (Nat × HashmapEntry)} {qs : List (List Char × Client)} {c : List Char × Client}
    {es : Chain (List Char) Client} {a : Nat} {e : HashmapEntry}
    (hs : Stands nodes table i st hst l₁ ((a, e) :: l₂) qs (some c :: es) (some a)) :
    Stands nodes table i st hst (l₁ ++ [(a, e)]) l₂ (qs ++ [c]) es e.next := by
  obtain ⟨hnodes, hchain, hfront, hrest⟩ := hs
  obtain ⟨-, he, hh, hnext⟩ := Store.seg_cons.1 hrest
  refine ⟨?_, ?_, ?_, hnext⟩
  · rw [hnodes, List.append_assoc, List.singleton_append]
  · rw [hchain, List.map_append, List.append_assoc]
    rfl
  · rw [List.map_append]
    exact hfront.append (HeapMap.Chained.single he hh)

theorem Stands.getElem? {l₁ l₂ : List (Nat × HashmapEntry)} {qs : List (List Char × Client)}
    {es : Chain (List Char) Client} {p : Option Nat} (hs : Stands nodes table i st hst l₁ l₂ qs es p) :
    (st.clients.table i)[qs.length]? = es[0]? := by
  rw [hs.chain_eq, List.getElem?_append_right (by simp)]
  simp

/-- What an entry is left with when its key is deleted: nothing, at the end of the chain, or the next key. -/
theorem orEmpty_cases {qs : List (List Char × Client)} {es : Chain (List Char) Client}
    (hw : WellLinked (qs.map some ++ HeapMap.orEmpty es)) :
    HeapMap.orEmpty es = [none] ∨ ∃ q es', HeapMap.orEmpty es = some q :: es' := by
  rcases es with _ | ⟨_ | q, es⟩
  · exact .inl rfl
  · obtain ⟨tail, ht, hsplit⟩ := hw.split
    have hlive : live (qs.map some ++ HeapMap.orEmpty (none :: es)) = qs := by
      clear hw hsplit
      induction qs with
      | nil => rfl
      | cons q qs ih => rw [List.map_cons, List.cons_append, live, ih]
    rw [hlive] at hsplit
    rcases ht with rfl | rfl
    · cases List.append_cancel_left hsplit
    · exact .inl (List.append_cancel_left hsplit)
  · exact .inr ⟨q, es, rfl⟩

/-- **The iteration over one chain** does in memory what it does in `Hashmap`. -/
theorem iterChain_sim : ∀ (fuel : Nat) {nodes : Nat → List (Nat × HashmapEntry)} {st : Inactivity}
    {hst : HeapInactivity} {l₁ l₂ : List (Nat × HashmapEntry)} {qs : List (List Char × Client)}
    {es : Chain (List Char) Client} {p : Option Nat} {st' : Inactivity} {b : Bool}, At hash R table nodes st hst →
    Stands nodes table i st hst l₁ l₂ qs es p →
    Hashmap.iterChain Inactivity.clients (Inactivity.handleClientInactivity hash now) i fuel qs.length st =
      some (st', b) → ∀ fuel' ≥ fuel,
    ∃ hst' nodes', HeapMap.iterChain (fun st => st.registry.heap) (handleClientInactivity hash now) fuel' p hst =
        some (hst', b) ∧ At hash R table nodes' st' hst' ∧ st'.clients.tableSize = st.clients.tableSize ∧
      Agrees R hst.registry.heap hst'.registry.heap
  | 0, _, _, _, _, _, _, _, _, _, _, _, _, hrun, _, _ => by cases hrun
  | fuel + 1, nodes, st, hst, l₁, l₂, qs, [], p, st', b, hat, hs, hrun, fuel' + 1, hle => by
    obtain ⟨rfl, rfl⟩ := Store.Seg.of_nil hs.rest
    rw [Hashmap.iterChain, hs.getElem?] at hrun
    cases hrun
    exact ⟨hst, nodes, rfl, hat, rfl, Agrees.refl _ _⟩
  | fuel + 1, nodes, st, hst, l₁, l₂, qs, none :: es, p, st', b, hat, hs, hrun, fuel' + 1, hle => by
    obtain ⟨a, e, l₂, rfl, rfl, he, ⟨hk, -⟩, -⟩ := Store.Seg.of_cons hs.rest
    rw [Hashmap.iterChain, hs.getElem?] at hrun
    cases hrun
    refine ⟨hst, nodes, ?_, hat, rfl, Agrees.refl _ _⟩
    rw [HeapMap.iterChain, he]
    simp only [hk]
  | fuel + 1, nodes, st, hst, l₁, l₂, qs, some c :: es, p, st', b, hat, hs, hrun, fuel' + 1, hle => by
    obtain ⟨a, e, l₂, rfl, rfl, he, ⟨kp, vp, hk, -⟩, -⟩ := Store.Seg.of_cons hs.rest
    rw [Hashmap.iterChain, hs.getElem?] at hrun
    have hlen : ∀ c : List Char × Client, (qs ++ [c]).length = qs.length + 1 := fun c => by
      rw [List.length_append, List.length_singleton]
    by_cases hidle : Server.shouldKick c.2 now = true
    · obtain ⟨hst₁, st₁, nodes₁, l₃, hcb, hcb', hat₁, hsize₁, hs₁, hag₁⟩ := kick_here kp hat hs hidle
      simp only [List.getElem?_cons_zero, hcb] at hrun
      have hw := hat₁.registered.wellFormed.buckets.linked i
      rw [hs₁.chain_eq] at hw
      rcases orEmpty_cases hw with hnone | ⟨q, es', hsome⟩
      · -- the last entry of the chain: nothing moves up, and the iterator runs off the chain
        rw [hnone] at hs₁
        obtain ⟨a', e', l₄, rfl, ha', he', -, hend⟩ := Store.Seg.of_cons hs₁.rest
        obtain ⟨-, hnext⟩ := Store.Seg.of_nil hend
        cases ha'
        have hoff : (st₁.clients.table i)[qs.length + 1]? = none := by
          rw [hs₁.chain_eq]
          exact List.getElem?_eq_none (by simp)
        cases fuel with
        | zero => cases hrun
        | succ fuel =>
          rw [Hashmap.iterChain, hoff] at hrun
          cases hrun
          refine ⟨hst₁, nodes₁, ?_, hat₁, hsize₁, hag₁⟩
          obtain ⟨fuel', rfl⟩ : ∃ n, fuel' = n + 1 := ⟨fuel' - 1, by omega⟩
          rw [HeapMap.iterChain, he]
          simp only [hk, hcb', he', Option.bind_some, hnext]
          rfl
      · -- the next key has moved up into the node: the iterator passes over it
        rw [hsome] at hs₁
        obtain ⟨a', e', l₄, rfl, ha', he', -⟩ := Store.Seg.of_cons hs₁.rest
        cases ha'
        rw [← hlen q] at hrun
        obtain ⟨hst', nodes', hrun', hat', hsize', hag'⟩ :=
          iterChain_sim fuel hat₁ hs₁.next hrun fuel' (Nat.le_of_succ_le_succ hle)
        refine ⟨hst', nodes', ?_, hat', hsize'.trans hsize₁, hag₁.trans hag'⟩
        rw [HeapMap.iterChain, he]
        simp only [hk, hcb', he', Option.bind_some]
        exact hrun'
    · obtain ⟨hcb, hcb'⟩ := pass_here hash kp hs hidle
      simp only [List.getElem?_cons_zero, hcb] at hrun
      rw [← hlen c] at hrun
      obtain ⟨hst', nodes', hrun', hat', hsize', hag'⟩ :=
        iterChain_sim fuel hat hs.next hrun fuel' (Nat.le_of_succ_le_succ hle)
      refine ⟨hst', nodes', ?_, hat', hsize', hag'⟩
      rw [HeapMap.iterChain, he]
      simp only [hk, hcb', he, Option.bind_some]
      exact hrun'

/-- The iteration over a table. -/
theorem iterFrom_sim : ∀ (fuel : Nat) {i : Nat} {nodes : Nat → List (Nat × HashmapEntry)} {st : Inactivity}
    {hst : HeapInactivity} {st' : Inactivity} {b : Bool}, At hash R table nodes st hst →
    Hashmap.iterFrom Inactivity.clients (Inactivity.handleClientInactivity hash now) fuel i st = some (st', b) →
    ∃ hst' nodes', HeapMap.iterFrom (fun st => st.registry.heap) (fun st => st.registry.clients)
        (handleClientInactivity hash now) fuel i hst = some (hst', b) ∧ At hash R table nodes' st' hst' ∧
      Agrees R hst.registry.heap hst'.registry.heap
  | 0, _, _, _, _, _, _, _, hrun => by cases hrun
  | fuel + 1, i, nodes, st, hst, st', b, hat, hrun => by
    have hclients := hat.clients_eq
    rw [Hashmap.iterFrom] at hrun
    by_cases hi : i < st.clients.tableSize
    · rw [if_pos hi] at hrun
      have hstands : Stands nodes table i st hst [] (nodes i) [] (st.clients.table i) (some (table + i)) :=
        ⟨rfl, rfl, rfl, hat.holds.chained i hi⟩
      have hfuel : (st.clients.table i).length + 1 ≤ hst.registry.heap.fresh + 1 := by
        rw [← Store.Seg.length_eq (hat.holds.chained i hi)]
        exact Nat.succ_le_succ (HeapMap.length_le_fresh (hat.holds.account_at hi))
      cases hchain : Hashmap.iterChain Inactivity.clients (Inactivity.handleClientInactivity hash now) i
          ((st.clients.table i).length + 1) 0 st with
      | none =>
        rw [hchain] at hrun
        cases hrun
      | some r =>
        obtain ⟨st₁, b₁⟩ := r
        obtain ⟨hst₁, nodes₁, hrun₁, hat₁, -, hag₁⟩ := iterChain_sim _ hat hstands hchain _ hfuel
        rw [hchain] at hrun
        rw [HeapMap.iterFrom]
        simp only [hclients, if_pos hi, hrun₁]
        cases b₁ with
        | true =>
          cases hrun
          exact ⟨hst₁, nodes₁, rfl, hat₁, hag₁⟩
        | false =>
          obtain ⟨hst', nodes', hrun', hat', hag'⟩ := iterFrom_sim fuel hat₁ hrun
          exact ⟨hst', nodes', hrun', hat', hag₁.trans hag'⟩
    · rw [if_neg hi] at hrun
      cases hrun
      refine ⟨hst, nodes, ?_, hat, Agrees.refl _ _⟩
      rw [HeapMap.iterFrom]
      simp only [hclients, if_neg hi]

/-- **An iteration of the ping thread in memory** touches nothing that is not allocated, and does what it does to the
map. -/
theorem iteration_sim {m : ClientMap} {r : ClientMap.HeapRegistry} (hreg : Inactivity.Registered hash m)
    (hr : HeapMap.Represents r.heap r.clients m R) (now : Int) :
    ∃ st hst, Inactivity.iteration hash now m = some st ∧ iteration hash now r = some hst ∧
      Inactivity.Registered hash st.clients ∧ hst.closed = st.closed ∧
      HeapMap.Represents hst.registry.heap hst.registry.clients st.clients R ∧ Agrees R r.heap hst.registry.heap := by
  obtain ⟨st, hst, -⟩ := Inactivity.iteration_spec hreg now
  rw [Inactivity.iteration, Option.map_eq_some_iff] at hst
  obtain ⟨⟨st', b⟩, hiter, rfl⟩ := hst
  obtain ⟨nodes, table, hclients, ht⟩ := hr.elim
  have hat : At hash R table nodes ⟨m, []⟩ ⟨r, []⟩ := ⟨hreg, hclients, ht, rfl⟩
  obtain ⟨hst', nodes', hiter', hat', hag⟩ := iterFrom_sim _ hat hiter
  refine ⟨st', hst', ?_, ?_, hat'.registered, hat'.closed_eq, ?_, hag⟩
  · rw [Inactivity.iteration, hiter]
    rfl
  · rw [iteration, HeapMap.iter]
    simp only [hclients, hiter', Option.map_some]
  · rw [hat'.clients_eq]
    exact ⟨⟨nodes', hat'.holds⟩, rfl, rfl, rfl⟩

end HeapInactivity

/-! ## Histories with the ping thread -/

namespace ClientMap

inductive RegistryUse
  | registry (op : RegistryOp)
  | inactivity (now : Int)

/-- A socket number that fits the key, and a record under its own socket, as `accept_client` puts it. -/
def RegistryUse.Accepted : RegistryUse → Prop
  | .registry (.put socket clientInserted) => socket < socketLimit ∧ clientInserted.socket = socket
  | .registry op => op.socket < socketLimit
  | .inactivity _ => True

variable (hash : List Char → UInt64)

def HeapRegistry.use (r : HeapRegistry) : RegistryUse → Option HeapRegistry
  | .registry op => r.step hash op
  | .inactivity now => (HeapInactivity.iteration hash now r).map HeapInactivity.registry

def Ledger.use (l : Ledger) : RegistryUse → Option Ledger
  | .registry op => l.step hash op
  | .inactivity now => (Inactivity.iteration hash now l.clients).map fun st => { l with clients := st.clients }

variable {hash}

theorem registered_put {m m' : ClientMap} {s : Nat} {c : Client} (h : Inactivity.Registered hash m)
    (hput : Hashmap.Put hash (key s) c m m') (hc : c.socket = s) : Inactivity.Registered hash m' := by
  refine ⟨hput.wellFormed, fun k c' hk => ?_⟩
  rw [hput.get_eq] at hk
  by_cases hks : k = key s
  · rw [if_pos hks] at hk
    cases hk
    rw [hks, hc]
  · rw [if_neg hks] at hk
    exact h.keyed k c' hk

theorem registered_step {m m' : ClientMap} (h : Inactivity.Registered hash m) {op : RegistryOp}
    (hop : (RegistryUse.registry op).Accepted) (hs : step hash m op = some m') : Inactivity.Registered hash m' := by
  cases op with
  | put s c =>
    obtain ⟨m₁, hp, hput⟩ := putClientInHashmap_spec h.wellFormed s c
    rw [step, hp] at hs
    cases hs
    exact registered_put h hput hop.2
  | get s =>
    cases hs
    exact h
  | delete s =>
    cases hs
    exact HeapInactivity.registered_delete h s

/-- **One use of the registry**, in memory and in the ledger. -/
theorem holds_use {l : Ledger} {r : HeapRegistry} (hreg : Inactivity.Registered hash l.clients) (hh : Holds l r)
    {use : RegistryUse} (hu : use.Accepted) :
    ∃ l' r', l.use hash use = some l' ∧ r.use hash use = some r' ∧ Inactivity.Registered hash l'.clients ∧
      Holds l' r' := by
  cases use with
  | registry op =>
    obtain ⟨l', r', hl, hr, hh', hm⟩ := holds_step hreg.wellFormed hh op
    exact ⟨l', r', hl, hr, registered_step hreg hu hm, hh'⟩
  | inactivity now =>
    obtain ⟨E, V, hr, hleak, hE, hV⟩ := hh
    obtain ⟨st, hst, hi, hi', hreg', -, hr', hag⟩ := HeapInactivity.iteration_sim hreg hr now
    refine ⟨{ l with clients := st.clients }, hst.registry, ?_, ?_, hreg', E, V, hr', hleak.congr hag, hE, hV⟩
    · rw [Ledger.use, hi]
      rfl
    · rw [HeapRegistry.use, hi']
      rfl

theorem registered_init : Inactivity.Registered hash ClientMap.init :=
  ⟨Hashmap.wellFormed_init, fun _ _ h => by cases h⟩

theorem holds_uses (hash : List Char → UInt64) {uses : List RegistryUse} (hu : ∀ use ∈ uses, use.Accepted) :
    ∃ l r, run (Ledger.use hash) Ledger.init uses = some l ∧ run (HeapRegistry.use hash) HeapRegistry.init uses = some r ∧
      Inactivity.Registered hash l.clients ∧ Holds l r := by
  induction uses using List.reverseRecOn with
  | nil => exact ⟨_, _, rfl, rfl, registered_init, holds_init⟩
  | append_singleton uses use ih =>
    obtain ⟨l, r, hl, hr, hreg, hh⟩ := ih fun use' h => hu use' (List.mem_append_left _ h)
    obtain ⟨l', r', hl', hr', hreg', hh'⟩ := holds_use hreg hh (hu use (by simp))
    exact ⟨l', r', run_concat_some.2 ⟨l, hl, hl'⟩, run_concat_some.2 ⟨r, hr, hr'⟩, hreg', hh'⟩

/-- **No history of the registry leaves what is allocated**, whatever the hash function: with puts, gets, deletes and the
ping thread's iterations in any order, the memory does what the map does, and every address found is that of the record
that the map has for the socket. -/
theorem uses_in_memory (hash : List Char → UInt64) {uses : List RegistryUse} (hu : ∀ use ∈ uses, use.Accepted) :
    ∃ l r, run (Ledger.use hash) Ledger.init uses = some l ∧ run (HeapRegistry.use hash) HeapRegistry.init uses = some r ∧
      r.clients.count = l.clients.count ∧ ∀ s, r.recordOf hash s = some (l.clients.getClientBySocket hash s) := by
  obtain ⟨l, r, hl, hr, hreg, hh⟩ := holds_uses hash hu
  refine ⟨l, r, hl, hr, ?_, recordOf_eq hreg.wellFormed hh⟩
  obtain ⟨E, V, hrep, -⟩ := hh
  exact hrep.count_eq

/-- Three sockets of one chain, two of them idle when the ping thread looks: it frees the first and passes over the
second. -/
def idlePair : List RegistryUse :=
  [.registry (.put 5 ⟨0, 0, 0, 0, .ok, 5⟩), .registry (.put 6 ⟨0, 0, 0, 0, .ok, 6⟩),
    .registry (.put 7 ⟨0, 0, 0, 6000, .ok, 7⟩), .inactivity 6000, .registry (.get 6)]

theorem accepted_idlePair : ∀ use ∈ idlePair, use.Accepted := by
  intro use h
  simp only [idlePair, List.mem_cons, List.not_mem_nil, or_false] at h
  rcases h with rfl | rfl | rfl | rfl | rfl <;> simp [RegistryUse.Accepted, RegistryOp.socket, socketLimit]

/-- The second is still registered, and the first is gone. -/
theorem uses_in_memory_idlePair :
    ∃ l r, run (Ledger.use fun _ => 0) Ledger.init idlePair = some l ∧
      run (HeapRegistry.use fun _ => 0) HeapRegistry.init idlePair = some r ∧
      r.recordOf (fun _ => 0) 6 = some (some ⟨0, 0, 0, 0, .ok, 6⟩) ∧ r.recordOf (fun _ => 0) 5 = some none := by
  obtain ⟨l, r, hl, hr, -, hrec⟩ := uses_in_memory (fun _ => 0) accepted_idlePair
  have hl' : l = finish (Ledger.use fun _ => 0) Ledger.init idlePair := by
    rw [finish, hl]
    rfl
  refine ⟨l, r, hl, hr, ?_, ?_⟩
  · rw [hrec, hl']
    decide +kernel
  · rw [hrec, hl']
    decide +kernel

/-- **What `server_t__destroy` leaves allocated** after any history: the records that puts replaced, and the emptied
entries that were linked behind others when the map let go of them or was destroyed.  All keys, all other records and
all other entries are freed, each once. -/
theorem destroyed_leaves (hash : List Char → UInt64) {uses : List RegistryUse} (hu : ∀ use ∈ uses, use.Accepted) :
    ∃ l r h', run (Ledger.use hash) Ledger.init uses = some l ∧
      run (HeapRegistry.use hash) HeapRegistry.init uses = some r ∧ HeapMap.destroy r.heap r.clients = some h' ∧
      ∃ (E : Multiset Nat) (V : List (Nat × Client)), Exactly h' (E + addrs V) ∧ HeapMap.Leaked h' E V ∧
        Multiset.card E = l.stranded + HeapMap.strandedTotal l.clients ∧ V.map Prod.snd = l.replaced := by
  obtain ⟨l, r, hl, hr, hreg, E, V, hrep, hleak, hE, hV⟩ := holds_uses hash hu
  obtain ⟨h', E', hd, hex, hag, hemp, hcard⟩ := HeapMap.destroy_spec hrep hreg.wellFormed.buckets.linked
  refine ⟨l, r, h', hl, hr, hd, E + E', V, hex.of_eq (by abel), ?_, ?_, hV⟩
  · have hleak' := (hleak.congr hag).append ⟨hemp, fun c (hc : c ∈ ([] : List (Nat × Client))) => (by cases hc)⟩
    rwa [List.append_nil] at hleak'
  · rw [Multiset.card_add, hE, hcard]

/-- Three sockets of one chain: the ping thread deletes the second, which empties its entry, and the third is put behind
the first. -/
def strandingOne : List RegistryUse :=
  [.registry (.put 5 ⟨0, 0, 0, 6000, .ok, 5⟩), .registry (.put 6 ⟨0, 0, 0, 0, .ok, 6⟩), .inactivity 6000,
    .registry (.put 7 ⟨0, 0, 0, 6000, .ok, 7⟩)]

/-- One entry is left. -/
theorem destroyed_leaves_strandingOne :
    ∃ l r h', run (Ledger.use fun _ => 0) Ledger.init strandingOne = some l ∧
      l.stranded + HeapMap.strandedTotal l.clients = 1 ∧
      run (HeapRegistry.use fun _ => 0) HeapRegistry.init strandingOne = some r ∧
      HeapMap.destroy r.heap r.clients = some h' ∧
      ∃ (E : Multiset Nat) (V : List (Nat × Client)), Exactly h' (E + addrs V) ∧ HeapMap.Leaked h' E V ∧
        Multiset.card E = l.stranded + HeapMap.strandedTotal l.clients ∧ V.map Prod.snd = l.replaced := by
  have hu : ∀ use ∈ strandingOne, use.Accepted := by
    intro use h
    simp only [strandingOne, List.mem_cons, List.not_mem_nil, or_false] at h
    rcases h with rfl | rfl | rfl | rfl <;> simp [RegistryUse.Accepted, socketLimit]
  obtain ⟨l, r, h', hl, hr, hd, hleft⟩ := destroyed_leaves (fun _ => 0) hu
  have hl' : l = finish (Ledger.use fun _ => 0) Ledger.init strandingOne := by
    rw [finish, hl]
    rfl
  have hone : l.stranded + HeapMap.strandedTotal l.clients = 1 := by
    rw [hl']
    decide +kernel
  exact ⟨l, r, h', hl, hone, hr, hd, hleft⟩

end ClientMap

end Lte
