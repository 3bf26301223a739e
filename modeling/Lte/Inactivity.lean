import Lte.Registry
/-!
# Inactivity — `hashmap_iter` with `handle_client_inactivity`

The callback deletes the entry the iterator stands on.  A deletion moves the next entry's contents up into that node,
so the iterator, which follows the node's link, passes over them: of a run of idle entries in one chain every second
one stays (`sweep`).  `iteration_iff` says when an iteration kicks exactly the idle clients.
-/
namespace Lte

namespace Hashmap

variable {σ κ ν : Type}

/-- The inner loop of `hashmap_iter`, standing on the entry at position `j` of the chain `i`.  A callback may delete the
entry it is called on: the nodes up to it stay where they are. -/
def iterChain (map : σ → Hashmap κ ν) (cb : σ → κ → ν → σ × Bool) (i : Nat) : Nat → Nat → σ → Option (σ × Bool)
  | 0, _, _ => none
  | fuel + 1, j, st =>
    match ((map st).table i)[j]? with
    | none => some (st, false)
    | some none => some (st, false)
    | some (some (key, value)) =>
      match cb st key value with
      | (st, true) => some (st, true)
      | (st, false) => iterChain map cb i fuel (j + 1) st

/-- The outer loop of `hashmap_iter`, from the chain `i`. -/
def iterFrom (map : σ → Hashmap κ ν) (cb : σ → κ → ν → σ × Bool) : Nat → Nat → σ → Option (σ × Bool)
  | 0, _, _ => none
  | fuel + 1, i, st =>
    if i < (map st).tableSize then
      match iterChain map cb i (((map st).table i).length + 1) 0 st with
      | none => none
      | some (st, true) => some (st, true)
      | some (st, false) => iterFrom map cb fuel (i + 1) st
    else some (st, false)

/-- `hashmap_iter`, which calls back with every entry it comes to. -/
def iter (map : σ → Hashmap κ ν) (cb : σ → κ → ν → σ × Bool) (st : σ) : Option (σ × Bool) :=
  iterFrom map cb ((map st).tableSize + 1) 0 st

section
variable {map : σ → Hashmap κ ν} {cb : σ → κ → ν → σ × Bool} {P : σ → Prop}

theorem iterChain_inv (hcb : ∀ st (i j : Nat) key value, P st → ((map st).table i)[j]? = some (some (key, value)) →
    P (cb st key value).1) {i : Nat} : ∀ (fuel : Nat) {j : Nat} {st st' : σ} {b : Bool}, P st →
      iterChain map cb i fuel j st = some (st', b) → P st'
  | 0, _, _, _, _, _, hrun => by cases hrun
  | fuel + 1, j, st, st', b, hst, hrun => by
    rw [iterChain] at hrun
    cases hat : ((map st).table i)[j]? with
    | none =>
      rw [hat] at hrun
      cases hrun
      exact hst
    | some entry =>
      rcases entry with _ | ⟨key, value⟩
      · rw [hat] at hrun
        cases hrun
        exact hst
      · have hnext : P (cb st key value).1 := hcb st i j key value hst hat
        simp only [hat] at hrun
        rcases hres : cb st key value with ⟨st₁, _ | _⟩
        · rw [hres] at hrun hnext
          exact iterChain_inv hcb fuel hnext hrun
        · rw [hres] at hrun hnext
          cases hrun
          exact hnext

theorem iterFrom_inv (hcb : ∀ st (i j : Nat) key value, P st → ((map st).table i)[j]? = some (some (key, value)) →
    P (cb st key value).1) : ∀ (fuel : Nat) {i : Nat} {st st' : σ} {b : Bool}, P st →
      iterFrom map cb fuel i st = some (st', b) → P st'
  | 0, _, _, _, _, _, hrun => by cases hrun
  | fuel + 1, i, st, st', b, hst, hrun => by
    rw [iterFrom] at hrun
    by_cases hi : i < (map st).tableSize
    · rw [if_pos hi] at hrun
      cases hchain : iterChain map cb i (((map st).table i).length + 1) 0 st with
      | none =>
        rw [hchain] at hrun
        cases hrun
      | some r =>
        obtain ⟨st₁, b₁⟩ := r
        have hst₁ := iterChain_inv hcb _ hst hchain
        rw [hchain] at hrun
        cases b₁ with
        | true =>
          cases hrun
          exact hst₁
        | false => exact iterFrom_inv hcb fuel hst₁ hrun
    · rw [if_neg hi] at hrun
      cases hrun
      exact hst

/-- **What the callback keeps, an iteration keeps**, when it is called with the entries of the table. -/
theorem iter_inv (hcb : ∀ st (i j : Nat) key value, P st → ((map st).table i)[j]? = some (some (key, value)) →
    P (cb st key value).1) {st st' : σ} {b : Bool} (hst : P st) (hrun : iter map cb st = some (st', b)) : P st' :=
  iterFrom_inv hcb _ hst hrun

end

end Hashmap

/-! ## What an iteration that deletes passes over -/

section Sweep

variable {α : Type} (idle : α → Bool)

/-- The entries an iteration that deletes the idle ones leaves in a chain, and those it deletes: the entry after a
deleted one is not looked at. -/
def sweep : List α → List α × List α
  | [] => ([], [])
  | [p] => if idle p then ([], [p]) else ([p], [])
  | p :: q :: ps =>
    if idle p then (q :: (sweep ps).1, p :: (sweep ps).2)
    else (p :: (sweep (q :: ps)).1, (sweep (q :: ps)).2)

/-- No two entries in a row are idle. -/
abbrev Spaced (ps : List α) : Prop := ps.IsChain (fun p q => ¬ (idle p = true ∧ idle q = true))

variable {idle}

theorem sweep_cons_of_not_idle {p : α} (h : idle p = false) (ps : List α) :
    sweep idle (p :: ps) = (p :: (sweep idle ps).1, (sweep idle ps).2) := by
  cases ps with
  | nil => simp [sweep, h]
  | cons q ps => simp [sweep, h]

theorem Spaced.tail {p : α} {ps : List α} (h : Spaced idle (p :: ps)) : Spaced idle ps := by
  cases ps with
  | nil => exact .nil
  | cons q ps => exact (List.isChain_cons_cons.1 h).2

/-- **Of a spaced chain exactly the idle entries go.** -/
theorem sweep_of_spaced : ∀ {ps : List α}, Spaced idle ps →
    sweep idle ps = (ps.filter (fun p => !idle p), ps.filter idle)
  | [], _ => rfl
  | [p], _ => by
    cases hp : idle p with
    | false => simp [sweep, hp]
    | true => simp [sweep, hp]
  | p :: q :: ps, h => by
    cases hp : idle p with
    | false =>
      rw [sweep_cons_of_not_idle hp, sweep_of_spaced h.tail]
      simp [hp]
    | true =>
      have hq : idle q = false := by
        rw [← Bool.not_eq_true]
        exact fun hq => (List.isChain_cons_cons.1 h).1 ⟨hp, hq⟩
      simp [sweep, hp, hq, sweep_of_spaced h.tail.tail]

/-- **Of any other chain an idle entry stays.** -/
theorem sweep_of_not_spaced : ∀ {ps : List α}, ¬ Spaced idle ps → ∃ p ∈ (sweep idle ps).1, idle p = true
  | [], h => absurd .nil h
  | [p], h => absurd (List.isChain_singleton p) h
  | p :: q :: ps, h => by
    cases hp : idle p with
    | false =>
      have hrest : ¬ Spaced idle (q :: ps) := by
        intro hs
        refine h (List.isChain_cons_cons.2 ⟨fun hboth => ?_, hs⟩)
        rw [hp] at hboth
        cases hboth.1
      obtain ⟨r, hr, hidle⟩ := sweep_of_not_spaced hrest
      rw [sweep_cons_of_not_idle hp]
      exact ⟨r, List.mem_cons_of_mem p hr, hidle⟩
    | true =>
      have hs : sweep idle (p :: q :: ps) = (q :: (sweep idle ps).1, p :: (sweep idle ps).2) := by simp [sweep, hp]
      rw [hs]
      by_cases hq : idle q = true
      · exact ⟨q, List.mem_cons_self .., hq⟩
      · have hrest : ¬ Spaced idle ps := by
          intro hsp
          have hqps : Spaced idle (q :: ps) := by
            cases ps with
            | nil => exact List.isChain_singleton q
            | cons r ps => exact List.isChain_cons_cons.2 ⟨fun hboth => hq hboth.1, hsp⟩
          exact h (List.isChain_cons_cons.2 ⟨fun hboth => hq hboth.2, hqps⟩)
        obtain ⟨r, hr, hidle⟩ := sweep_of_not_spaced hrest
        exact ⟨r, List.mem_cons_of_mem q hr, hidle⟩

end Sweep

/-- The registry during an iteration, and the sockets closed so far. -/
structure Inactivity where
  clients : ClientMap
  closed : List Nat

namespace Inactivity

open Hashmap Chain

/-- `handle_client_inactivity` -/
def handleClientInactivity (hash : List Char → UInt64) (now : Int) (st : Inactivity) (_key : List Char)
    (currentClient : Client) : Inactivity × Bool :=
  if Server.shouldKick currentClient now then
    ({ clients := st.clients.deleteClientFromHashmap hash currentClient.socket
       closed := st.closed ++ [currentClient.socket] }, false)
  else (st, false)

/-- The ping thread's `hashmap_iter` with `handle_client_inactivity`. -/
def iteration (hash : List Char → UInt64) (now : Int) (m : ClientMap) : Option Inactivity :=
  (iter clients (handleClientInactivity hash now) { clients := m, closed := [] }).map Prod.fst

variable {hash : List Char → UInt64} {now : Int}

/-- A registry with every record under its own socket, as `accept_client` puts it. -/
structure Registered (hash : List Char → UInt64) (m : ClientMap) : Prop where
  wellFormed : m.WellFormed hash
  keyed : ∀ k c, m.get hash k = some c → k = key c.socket

/-- Whether an entry's client is to be kicked. -/
def idle (now : Int) (p : List Char × Client) : Bool := Server.shouldKick p.2 now

/-- The entry at position `pre.length` of the chain `i` of a registry deleted: what stood after it moves up. -/
theorem delete_here {m : ClientMap} (h : Registered hash m) {i : Nat} {pre ps : List (List Char × Client)}
    {p : List Char × Client} {tail : Chain (List Char) Client} (ht : Tail tail)
    (htab : m.table i = (pre ++ p :: ps).map some ++ tail) :
    Registered hash (m.deleteClientFromHashmap hash p.2.socket) ∧
      (m.deleteClientFromHashmap hash p.2.socket).tableSize = m.tableSize ∧
      (∀ i', i' ≠ i → (m.deleteClientFromHashmap hash p.2.socket).table i' = m.table i') ∧
      ∃ tail', Tail tail' ∧
        (m.deleteClientFromHashmap hash p.2.socket).table i = (pre ++ ps).map some ++ tail' := by
  have hlive : live (m.table i) = pre ++ p :: ps := by rw [htab, live_append ht]
  have hmem : p ∈ live (m.table i) := by rw [hlive]; simp
  have hidx : index hash m.tableSize p.1 = i := h.wellFormed.buckets.placed i p.1 (mem_keys_of_mem hmem)
  have hkey : p.1 = key p.2.socket := by
    refine h.keyed p.1 p.2 (h.wellFormed.buckets.find_eq_some.2 ?_)
    rw [hidx]
    exact hmem
  have hnd : ((pre ++ p :: ps).map Prod.fst).Nodup := by
    rw [← hlive]
    exact h.wellFormed.buckets.unique i
  have hin : p.1 ∈ (pre ++ p :: ps).map Prod.fst := by simp
  obtain ⟨tail', ht', hd, -⟩ := delete_append hnd hin ht
  obtain ⟨hwf, hget, -⟩ := delete_spec h.wellFormed p.1
  have hw : without p.1 (pre ++ p :: ps) = pre ++ ps := by
    rw [List.map_append, List.map_cons, List.nodup_append] at hnd
    obtain ⟨-, hps, hdis⟩ := hnd
    have hpre : p.1 ∉ pre.map Prod.fst := fun hm => hdis _ hm _ (List.mem_cons_self ..) rfl
    rw [without, List.filter_append, List.filter_cons_of_neg (by simp)]
    exact congrArg₂ _ (without_of_notMem hpre) (without_of_notMem (List.nodup_cons.1 hps).1)
  have htable : (m.delete hash p.1).table = Function.update m.table i ((pre ++ ps).map some ++ tail') := by
    rw [Hashmap.delete, hidx, htab, hd, hw]
  rw [ClientMap.deleteClientFromHashmap, ← hkey]
  refine ⟨⟨hwf, fun k c hk => ?_⟩, ?_, fun i' hi' => ?_, tail', ht', ?_⟩
  · rw [hget] at hk
    by_cases hkp : k = p.1
    · rw [if_pos hkp] at hk
      cases hk
    · rw [if_neg hkp] at hk
      exact h.keyed k c hk
  · exact (delete_spec h.wellFormed p.1).2.2.1
  · rw [htable, Function.update_of_ne hi']
  · rw [htable, Function.update_self]

/-- The callback on an idle entry. -/
theorem kick_here {st : Inactivity} (h : Registered hash st.clients) {i : Nat} {pre ps : List (List Char × Client)}
    {p : List Char × Client} {tail : Chain (List Char) Client} (ht : Tail tail) (hp : idle now p = true)
    (htab : st.clients.table i = (pre ++ p :: ps).map some ++ tail) :
    ∃ st', handleClientInactivity hash now st p.1 p.2 = (st', false) ∧ Registered hash st'.clients ∧
      st'.clients.tableSize = st.clients.tableSize ∧ st'.closed = st.closed ++ [p.2.socket] ∧
      (∀ i', i' ≠ i → st'.clients.table i' = st.clients.table i') ∧
      ∃ tail', Tail tail' ∧ st'.clients.table i = (pre ++ ps).map some ++ tail' := by
  obtain ⟨hreg, hsize, helse, htail⟩ := delete_here h ht htab
  refine ⟨{ clients := st.clients.deleteClientFromHashmap hash p.2.socket, closed := st.closed ++ [p.2.socket] }, ?_,
    hreg, hsize, rfl, helse, htail⟩
  rw [handleClientInactivity, if_pos (by rw [← idle, hp])]

/-- What an iteration over the chain `i` has made of the state. -/
structure Swept (hash : List Char → UInt64) (i : Nat) (left kicked : List (List Char × Client))
    (st st' : Inactivity) : Prop where
  registered : Registered hash st'.clients
  tableSize : st'.clients.tableSize = st.clients.tableSize
  elsewhere : ∀ i', i' ≠ i → st'.clients.table i' = st.clients.table i'
  live_eq : live (st'.clients.table i) = left
  closed : st'.closed = st.closed ++ kicked.map (·.2.socket)

/-- The end of a chain. -/
theorem iterChain_end {st : Inactivity} {i j fuel : Nat} (h : (st.clients.table i)[j]? = none ∨
    (st.clients.table i)[j]? = some none) :
    iterChain clients (handleClientInactivity hash now) i (fuel + 1) j st = some (st, false) := by
  rcases h with h | h
  · rw [iterChain, h]
  · rw [iterChain, h]

theorem getElem?_tail (ps : List (List Char × Client)) {tail : Chain (List Char) Client} (ht : Tail tail) {j : Nat}
    (hj : ps.length ≤ j) : (ps.map some ++ tail)[j]? = none ∨ (ps.map some ++ tail)[j]? = some none := by
  rw [List.getElem?_append_right (by simpa using hj)]
  rcases ht with rfl | rfl
  · exact .inl rfl
  · by_cases h0 : j - (ps.map some).length = 0
    · rw [h0]
      exact .inr rfl
    · refine .inl (List.getElem?_eq_none ?_)
      simp only [List.length_singleton]
      omega

/-- A call back with the entry the iterator stands on. -/
theorem iterChain_at {i j fuel : Nat} {st st' : Inactivity} {p : List Char × Client}
    (h : (st.clients.table i)[j]? = some (some p)) (hcb : handleClientInactivity hash now st p.1 p.2 = (st', false)) :
    iterChain clients (handleClientInactivity hash now) i (fuel + 1) j st =
      iterChain clients (handleClientInactivity hash now) i fuel (j + 1) st' := by
  rw [iterChain, h]
  simp only [hcb]

theorem getElem?_here (pre ps : List (List Char × Client)) (p : List Char × Client) (tail : Chain (List Char) Client) :
    ((pre ++ p :: ps).map some ++ tail)[pre.length]? = some (some p) := by
  rw [List.map_append, List.append_assoc, List.getElem?_append_right (by simp)]
  simp

/-- The swept part of a chain grows at its front by an entry that stays. -/
theorem Swept.of_append {i : Nat} {pre left kicked : List (List Char × Client)} {p : List Char × Client}
    {st st' : Inactivity} (h : Swept hash i ((pre ++ [p]) ++ left) kicked st st') :
    Swept hash i (pre ++ p :: left) kicked st st' := by
  rwa [List.append_assoc, List.singleton_append] at h

/-- An entry deleted before the rest of the chain is swept. -/
theorem Swept.of_delete {i : Nat} {left kicked : List (List Char × Client)} {p : List Char × Client}
    {st st₁ st' : Inactivity} (hsize : st₁.clients.tableSize = st.clients.tableSize)
    (helse : ∀ i', i' ≠ i → st₁.clients.table i' = st.clients.table i')
    (hclosed : st₁.closed = st.closed ++ [p.2.socket]) (h : Swept hash i left kicked st₁ st') :
    Swept hash i left (p :: kicked) st st' where
  registered := h.registered
  tableSize := h.tableSize.trans hsize
  elsewhere i' hi' := (h.elsewhere i' hi').trans (helse i' hi')
  live_eq := h.live_eq
  closed := by rw [h.closed, hclosed, List.append_assoc, List.map_cons, List.singleton_append]

/-- **The iteration over one chain sweeps it.** -/
theorem iterChain_sweep {i : Nat} : ∀ {ps pre : List (List Char × Client)} {tail : Chain (List Char) Client}
    {st : Inactivity} {fuel : Nat}, Registered hash st.clients → Tail tail →
    st.clients.table i = (pre ++ ps).map some ++ tail → ps.length < fuel →
    ∃ st', iterChain clients (handleClientInactivity hash now) i fuel pre.length st = some (st', false) ∧
      Swept hash i (pre ++ (sweep (idle now) ps).1) (sweep (idle now) ps).2 st st'
  | ps, pre, tail, st, 0, _, _, _, hf => absurd hf (Nat.not_lt_zero _)
  | [], pre, tail, st, fuel + 1, h, ht, htab, _ => by
    have hend := getElem?_tail pre ht (Nat.le_refl pre.length)
    rw [List.append_nil] at htab
    rw [← htab] at hend
    refine ⟨st, iterChain_end hend, h, rfl, fun _ _ => rfl, ?_, ?_⟩
    · rw [htab, live_append ht, sweep, List.append_nil]
    · rw [sweep, List.map_nil, List.append_nil]
  | p :: ps, pre, tail, st, fuel + 1, h, ht, htab, hf => by
    have hat : (st.clients.table i)[pre.length]? = some (some p) := by
      rw [htab]
      exact getElem?_here pre ps p tail
    have hlen : (pre ++ [p]).length = pre.length + 1 := by rw [List.length_append, List.length_singleton]
    cases hp : idle now p with
    | false =>
      have hcb : handleClientInactivity hash now st p.1 p.2 = (st, false) := by
        rw [handleClientInactivity, if_neg (by rw [← idle, hp]; decide)]
      have htab' : st.clients.table i = ((pre ++ [p]) ++ ps).map some ++ tail := by
        rw [htab, List.append_assoc, List.singleton_append]
      obtain ⟨st', hst', hsw⟩ := iterChain_sweep h ht htab' (Nat.lt_of_succ_lt_succ hf)
      rw [hlen] at hst'
      refine ⟨st', (iterChain_at hat hcb).trans hst', ?_⟩
      rw [sweep_cons_of_not_idle hp]
      exact hsw.of_append
    | true =>
      obtain ⟨st₁, hcb, hreg, hsize, hclosed, helse, tail', ht', htab'⟩ := kick_here h ht hp htab
      cases ps with
      | nil =>
        -- the last entry: nothing moves up, and the iterator runs off the chain
        obtain ⟨fuel, rfl⟩ : ∃ n, fuel = n + 1 := Nat.exists_eq_succ_of_ne_zero (by rintro rfl; simp at hf)
        rw [List.append_nil] at htab'
        have hend := getElem?_tail pre ht' (Nat.le_add_right pre.length 1)
        rw [← htab'] at hend
        have hlive : live (st₁.clients.table i) = pre := by rw [htab', live_append ht']
        have hs : sweep (idle now) [p] = ([], [p]) := by simp [sweep, hp]
        refine ⟨st₁, (iterChain_at hat hcb).trans (iterChain_end hend), ?_⟩
        rw [hs, List.append_nil]
        exact Swept.of_delete hsize helse hclosed ⟨hreg, rfl, fun _ _ => rfl, hlive, (List.append_nil _).symm⟩
      | cons q ps =>
        -- the next entry has moved up to where the iterator stands: it stays, and the sweep goes on after it
        have htab'' : st₁.clients.table i = ((pre ++ [q]) ++ ps).map some ++ tail' := by
          rw [htab', List.append_assoc, List.singleton_append]
        have hfuel : ps.length < fuel := by
          simp only [List.length_cons] at hf
          omega
        have hlen' : (pre ++ [q]).length = pre.length + 1 := by rw [List.length_append, List.length_singleton]
        have hs : sweep (idle now) (p :: q :: ps) = (q :: (sweep (idle now) ps).1, p :: (sweep (idle now) ps).2) := by
          simp [sweep, hp]
        obtain ⟨st', hst', hsw⟩ := iterChain_sweep hreg ht' htab'' hfuel
        rw [hlen'] at hst'
        refine ⟨st', (iterChain_at hat hcb).trans hst', ?_⟩
        rw [hs]
        exact Swept.of_delete hsize helse hclosed hsw.of_append

/-- The chain `i` after an iteration. -/
def chainAfter (now : Int) (m : ClientMap) (i : Nat) : List (List Char × Client) × List (List Char × Client) :=
  sweep (idle now) (live (m.table i))

/-- **The iteration from the chain `i` sweeps it and those after it.** -/
theorem iterFrom_sweep (now : Int) : ∀ (n : Nat) {i : Nat} {st : Inactivity}, Registered hash st.clients →
    i + n = st.clients.tableSize →
    ∃ st', iterFrom clients (handleClientInactivity hash now) (n + 1) i st = some (st', false) ∧
      Registered hash st'.clients ∧ st'.clients.tableSize = st.clients.tableSize ∧
      (∀ i', i' < i → st'.clients.table i' = st.clients.table i') ∧
      (∀ i', i ≤ i' → i' < st.clients.tableSize → live (st'.clients.table i') = (chainAfter now st.clients i').1) ∧
      st'.closed = st.closed ++
        ((List.range' i n).flatMap (fun i' => (chainAfter now st.clients i').2)).map (·.2.socket)
  | 0, i, st, h, hi => by
    rw [iterFrom, if_neg (by omega)]
    exact ⟨st, rfl, h, rfl, fun _ _ => rfl, fun i' h1 h2 => by omega, by simp⟩
  | n + 1, i, st, h, hi => by
    obtain ⟨tail, ht, htab⟩ := (h.wellFormed.buckets.linked i).split
    have hlen : (live (st.clients.table i)).length < (st.clients.table i).length + 1 := by
      have hle := congrArg List.length htab
      rw [List.length_append, List.length_map] at hle
      omega
    have htab' : st.clients.table i = (([] : List (List Char × Client)) ++ live (st.clients.table i)).map some ++ tail :=
      htab
    obtain ⟨st₁, hst₁, hsw⟩ := iterChain_sweep h ht htab' hlen
    have hi' : i + 1 + n = st₁.clients.tableSize := by
      rw [hsw.tableSize]
      omega
    obtain ⟨st', hst', hreg, hsize, hbefore, hafter, hclosed⟩ := iterFrom_sweep now n hsw.registered hi'
    have hsame : ∀ i', i' ≠ i → chainAfter now st₁.clients i' = chainAfter now st.clients i' := by
      intro i' hne
      rw [chainAfter, chainAfter, hsw.elsewhere i' hne]
    refine ⟨st', ?_, hreg, hsize.trans hsw.tableSize, fun i' hlt => ?_, fun i' hle hlt => ?_, ?_⟩
    · rw [iterFrom, if_pos (by omega)]
      have hzero : iterChain clients (handleClientInactivity hash now) i ((st.clients.table i).length + 1) 0 st =
          some (st₁, false) := hst₁
      simp only [hzero, hst']
    · rw [hbefore i' (by omega), hsw.elsewhere i' (by omega)]
    · by_cases hii : i' = i
      · subst hii
        rw [hbefore i' (Nat.lt_succ_self i'), hsw.live_eq, List.nil_append]
        rfl
      · rw [hafter i' (by omega) (by rw [hsw.tableSize]; exact hlt), hsame i' hii]
    · have hrest : (List.range' (i + 1) n).flatMap (fun i' => (chainAfter now st₁.clients i').2) =
          (List.range' (i + 1) n).flatMap (fun i' => (chainAfter now st.clients i').2) := by
        refine List.flatMap_congr fun i' hmem => ?_
        rw [hsame i' (by have := (List.mem_range'_1.1 hmem).1; omega)]
      rw [hclosed, hsw.closed, hrest, List.range'_succ, List.flatMap_cons, List.map_append, List.append_assoc]
      rfl

/-- What one iteration makes of a registry. -/
theorem iteration_spec {m : ClientMap} (h : Registered hash m) (now : Int) :
    ∃ st', iteration hash now m = some st' ∧ Registered hash st'.clients ∧ st'.clients.tableSize = m.tableSize ∧
      (∀ i < m.tableSize, live (st'.clients.table i) = (chainAfter now m i).1) ∧
      st'.closed = ((List.range m.tableSize).flatMap (fun i => (chainAfter now m i).2)).map (·.2.socket) := by
  have hm : Registered hash (Inactivity.mk m []).clients := h
  obtain ⟨st', hst', hreg, hsize, -, hlive, hclosed⟩ := iterFrom_sweep now m.tableSize hm (Nat.zero_add _)
  refine ⟨st', ?_, hreg, hsize, fun i hi => hlive i (Nat.zero_le i) hi, ?_⟩
  · rw [iteration, iter, hst']
    rfl
  · rw [hclosed, List.nil_append, List.range_eq_range']

/-- **An iteration kicks exactly the idle clients**: the records left are the others, unchanged, and the sockets closed
are those of the idle ones, each once. -/
structure KicksIdle (hash : List Char → UInt64) (now : Int) (m : ClientMap) (st' : Inactivity) : Prop where
  left : ∀ k c, st'.clients.get hash k = some c ↔ m.get hash k = some c ∧ Server.shouldKick c now = false
  nodup : st'.closed.Nodup
  closed : ∀ s, s ∈ st'.closed ↔ ∃ c, m.getClientBySocket hash s = some c ∧ Server.shouldKick c now = true

/-- An idle entry that an iteration leaves in its chain. -/
theorem not_kicksIdle {m : ClientMap} {st' : Inactivity} (hreg : Registered hash st'.clients) {i : Nat}
    {p : List Char × Client} (hp : p ∈ live (st'.clients.table i)) (hidle : idle now p = true) :
    ¬ KicksIdle hash now m st' := by
  intro hk
  have hidx := hreg.wellFormed.buckets.placed i p.1 (mem_keys_of_mem hp)
  have hget : st'.clients.get hash p.1 = some p.2 := by
    refine hreg.wellFormed.buckets.find_eq_some.2 ?_
    rw [hidx]
    exact hp
  have hnot := ((hk.left p.1 p.2).1 hget).2
  rw [idle, hnot] at hidle
  cases hidle

theorem kicksIdle_of_spaced {m : ClientMap} {st' : Inactivity} (h : Registered hash m)
    (hreg : Registered hash st'.clients) (hsize : st'.clients.tableSize = m.tableSize)
    (hlive : ∀ i < m.tableSize, live (st'.clients.table i) = (chainAfter now m i).1)
    (hclosed : st'.closed = ((List.range m.tableSize).flatMap (fun i => (chainAfter now m i).2)).map (·.2.socket))
    (hsp : ∀ i < m.tableSize, Spaced (idle now) (live (m.table i))) : KicksIdle hash now m st' := by
  have hpairs : (List.range m.tableSize).flatMap (fun i => (chainAfter now m i).2) = m.pairs.filter (idle now) := by
    rw [pairs, List.filter_flatMap]
    refine List.flatMap_congr fun i hi => ?_
    rw [chainAfter, sweep_of_spaced (hsp i (List.mem_range.1 hi))]
  have hmem : ∀ p, p ∈ m.pairs ↔ m.get hash p.1 = some p.2 := fun p => mem_pairs h.wellFormed.buckets h.wellFormed.positive
  refine ⟨fun k c => ?_, ?_, fun s => ?_⟩
  · have hidx : index hash m.tableSize k < m.tableSize := index_lt h.wellFormed.positive k
    rw [get_eq_find, hreg.wellFormed.buckets.find_eq_some, hsize, hlive _ hidx, chainAfter, sweep_of_spaced (hsp _ hidx),
      List.mem_filter, get_eq_find, h.wellFormed.buckets.find_eq_some]
    simp [idle]
  · rw [hclosed, hpairs]
    -- the keys of the entries are different, and so are their sockets
    refine List.Nodup.of_map key ?_
    have hkeys : ((m.pairs.filter (idle now)).map (·.2.socket)).map key = (m.pairs.filter (idle now)).map Prod.fst := by
      rw [List.map_map]
      refine List.map_congr_left fun p hp => ?_
      exact (h.keyed p.1 p.2 ((hmem p).1 (List.mem_filter.1 hp).1)).symm
    rw [hkeys]
    exact (List.filter_sublist.map Prod.fst).nodup (nodup_pairs h.wellFormed.buckets)
  · rw [hclosed, hpairs, List.mem_map]
    constructor
    · rintro ⟨p, hp, rfl⟩
      obtain ⟨hp, hidle⟩ := List.mem_filter.1 hp
      have hget := (hmem p).1 hp
      refine ⟨p.2, ?_, hidle⟩
      rw [ClientMap.getClientBySocket, ← h.keyed p.1 p.2 hget]
      exact hget
    · rintro ⟨c, hget, hidle⟩
      have hs : key s = key c.socket := h.keyed _ c hget
      exact ⟨(key s, c), List.mem_filter.2 ⟨(hmem (key s, c)).2 hget, hidle⟩, (key_inj.1 hs).symm⟩

/-- **One iteration kicks exactly the idle clients if and only if** no chain of the registry has two idle entries in a
row. -/
theorem iteration_iff {m : ClientMap} (h : Registered hash m) (now : Int) :
    ∃ st', iteration hash now m = some st' ∧
      (KicksIdle hash now m st' ↔ ∀ i < m.tableSize, Spaced (idle now) (live (m.table i))) := by
  obtain ⟨st', hst', hreg, hsize, hlive, hclosed⟩ := iteration_spec h now
  refine ⟨st', hst', fun hk i hi => ?_, fun hsp => kicksIdle_of_spaced h hreg hsize hlive hclosed hsp⟩
  by_contra hsp
  obtain ⟨p, hp, hidle⟩ := sweep_of_not_spaced hsp
  refine not_kicksIdle hreg (i := i) ?_ hidle hk
  rw [hlive i hi]
  exact hp

/-- The records that histories of `accept_client` leave in the registry are under their own sockets. -/
theorem registered_of_answers {ops : List ClientMap.RegistryOp} {m : ClientMap} (h : ClientMap.Answers hash ops m)
    (hput : ∀ s c, ClientMap.RegistryOp.put s c ∈ ops → c.socket = s) : Registered hash m where
  wellFormed := h.wellFormed
  keyed k c hget := by
    have hk : k ∈ m.keys := by
      rw [mem_keys_iff h.wellFormed.buckets h.wellFormed.positive, hget]
      rfl
    obtain ⟨s, -, rfl⟩ := h.keys k hk
    obtain ⟨pre, op, post, rfl, rfl, -⟩ := (h.get s c).1 hget
    rw [hput s c (by simp)]

/-- Two clients put into one chain. -/
def twoColliding : List ClientMap.RegistryOp := [.put 5 ⟨0, 0, 0, 0, .ok, 5⟩, .put 6 ⟨0, 0, 0, 1000, .ok, 6⟩]

theorem registered_twoColliding : ∃ m, Runs.run (ClientMap.step fun _ => 0) ClientMap.init twoColliding = some m ∧
    Registered (fun _ => 0) m := by
  have hops : ∀ op ∈ twoColliding, op.socket < socketLimit := by
    intro op hop
    simp only [twoColliding, List.mem_cons, List.not_mem_nil, or_false] at hop
    rcases hop with rfl | rfl <;> decide
  obtain ⟨m, hrun, hm⟩ := ClientMap.answers_run (fun _ => 0) hops
  refine ⟨m, hrun, registered_of_answers hm fun s c hput => ?_⟩
  simp only [twoColliding, List.mem_cons, List.not_mem_nil, or_false] at hput
  rcases hput with h | h <;> cases h <;> rfl

/-- **Both idle, the second stays registered**: the iterator passes over the entry that moved up. -/
theorem idle_client_skipped :
    ∃ m st', Runs.run (ClientMap.step fun _ => 0) ClientMap.init twoColliding = some m ∧ Registered (fun _ => 0) m ∧
      iteration (fun _ => 0) 6000 m = some st' ∧ ¬ KicksIdle (fun _ => 0) 6000 m st' := by
  obtain ⟨m, hrun, hm⟩ := registered_twoColliding
  obtain ⟨st', hst', hreg, -, hlive, -⟩ := iteration_spec hm 6000
  refine ⟨m, st', hrun, hm, hst', ?_⟩
  have hm' : m = Runs.finish (ClientMap.step fun _ => 0) ClientMap.init twoColliding := by rw [Runs.finish, hrun]; rfl
  have hleft : (chainAfter 6000 m 0).1 = [(key 6, ⟨0, 0, 0, 1000, .ok, 6⟩)] := by
    rw [hm']
    decide +kernel
  refine not_kicksIdle (i := 0) hreg (p := (key 6, ⟨0, 0, 0, 1000, .ok, 6⟩)) ?_ (by decide)
  rw [hlive 0 hm.wellFormed.positive, hleft]
  exact List.mem_singleton_self _

/-- Only the first idle. -/
theorem iteration_iff_twoColliding :
    ∃ m st', Registered (fun _ => 0) m ∧ iteration (fun _ => 0) 5000 m = some st' ∧
      KicksIdle (fun _ => 0) 5000 m st' := by
  obtain ⟨m, hrun, hm⟩ := registered_twoColliding
  obtain ⟨st', hst', hiff⟩ := iteration_iff hm 5000
  have hm' : m = Runs.finish (ClientMap.step fun _ => 0) ClientMap.init twoColliding := by rw [Runs.finish, hrun]; rfl
  refine ⟨m, st', hm, hst', hiff.2 ?_⟩
  rw [hm']
  decide +kernel

/-- On the finite map of the server's state the callback does what `handleClientInactivity` does to it. -/
theorem refines_handleClientInactivity {st : Inactivity} {srv : Server} (h : Registered hash st.clients)
    (hr : ClientMap.Refines hash st.clients srv) (k : List Char) (c : Client) :
    ClientMap.Refines hash (handleClientInactivity hash now st k c).1.clients (srv.handleClientInactivity c now) := by
  unfold handleClientInactivity Server.handleClientInactivity
  by_cases hk : Server.shouldKick c now = true
  · rw [if_pos hk, if_pos hk]
    have hclose : ClientMap.Refines hash st.clients (srv.close c.socket) := hr
    exact (ClientMap.refines_delete h.wellFormed hclose c.socket).2
  · rw [if_neg hk, if_neg hk]
    exact hr

end Inactivity

end Lte
