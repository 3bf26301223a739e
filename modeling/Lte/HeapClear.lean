import Lte.HeapIteration
/-!
# HeapClear — `hashmap_clear` leaves the links of its slots

`hashmap_clear` frees the keys and the linked entries of a map and takes the key out of each slot, but it leaves the link
of the slot.  The next put of a key into the slot brings the link back into the chain, and a search for another key of
that chain follows it.  `get_after_clear` says when that reads a freed entry.
-/
namespace Lte

namespace HeapMap

open Store Chain

variable {κ ν : Type}

/-- Where the link of a cleared slot leads, when the entries of `ps` were linked behind it: nowhere or to an emptied
entry, or else to the first of them, which is freed. -/
def Severed (h : Heap κ ν) (K : Multiset Nat) (p : Option Nat) (ps : List (κ × ν)) : Prop :=
  match ps with
  | [] => p = none ∨ ∃ b ∈ K, p = some b ∧ entryAt h b = some .zero
  | _ :: _ => ∃ b, p = some b ∧ Gone h b

theorem Severed.congr {h h' : Heap κ ν} {K K' : Multiset Nat} {p : Option Nat} {ps : List (κ × ν)}
    (hs : Severed h K p ps) (hle : K ≤ K') (hag : Agrees K h h') (hgone : Shrinks h h') : Severed h' K' p ps := by
  cases ps with
  | nil =>
    rcases hs with hp | ⟨b, hb, hp, he⟩
    · exact .inl hp
    · exact .inr ⟨b, Multiset.mem_of_le hle hb, hp, (entryAt_of_agrees hag hb).trans he⟩
  | cons c ps =>
    obtain ⟨b, hp, hb⟩ := hs
    exact ⟨b, hp, hgone b hb⟩

section
variable {h : Heap κ ν} {p : Option Nat} {l : List (Nat × HashmapEntry)} {es : Chain κ ν} {R : Multiset Nat}

/-- The entries behind a slot: their keys and nodes are freed, their records are not. -/
theorem clearLinked_spec {tail : Chain κ ν} (htail : Tail tail) (fuel : Nat) : ∀ (ps : List (κ × ν)) {h : Heap κ ν}
    {p : Option Nat} {l : List (Nat × HashmapEntry)} {R : Multiset Nat}, Exactly h (own l + R) →
    Chained h p l (ps.map some ++ tail) none →
    ∃ h' K, clearChain (ps.length + (fuel + 1)) h p false = some h' ∧ Exactly h' (K + R) ∧ Severed h' K p ps ∧
      Agrees R h h' ∧ Shrinks h h'
  | [], h, p, l, R, hex, hc => by
    rw [List.length_nil, Nat.zero_add]
    rcases Chained.tail hc htail with ⟨-, rfl, rfl⟩ | ⟨a, -, rfl, rfl, he⟩
    · exact ⟨h, 0, rfl, hex, .inl rfl, Agrees.refl R h, fun b hb => hb⟩
    · refine ⟨h, {a}, ?_, hex.of_eq ?_, .inr ⟨a, Multiset.mem_singleton_self a, rfl, he⟩, Agrees.refl R h,
        fun b hb => hb⟩
      · rw [clearChain, he]
        rfl
      · simp only [own_cons, own_nil, HashmapEntry.zero, ptr_none]
        abel
  | c :: ps, h, p, l, R, hex, hc => by
    obtain ⟨a, e, l, rfl, rfl, he, ⟨kp, vp, hk, hv, -, -⟩, hrest⟩ := Seg.of_cons hc
    obtain ⟨h₁, hf₁, hex₁, -, -, hag₁⟩ := (hex.of_eq (t := {kp} + ({a} + (own l + ({vp} + R)))) (by
      simp only [own_cons, hk, hv, ptr_some]
      abel)).free
    obtain ⟨h₂, hf₂, hex₂, -, -, hag₂⟩ := hex₁.free
    have hag := hag₁.right.trans hag₂
    obtain ⟨h', K, hclear, hex', -, hag', hgone'⟩ := clearLinked_spec htail fuel ps hex₂
      (Chained.congr hrest hag.left)
    refine ⟨h', K + {vp}, ?_, hex'.of_eq (by abel), ⟨a, rfl, hgone' a (gone_of_free hf₂)⟩,
      hag.right.right.trans hag'.right,
      fun b hb => hgone' b ((hb.set hf₁).set hf₂)⟩
    have hlen : (c :: ps).length + (fuel + 1) = (ps.length + (fuel + 1)) + 1 := by
      rw [List.length_cons]
      omega
    rw [hlen, clearChain, he]
    simp only [hk, hf₁, Option.bind_some, Bool.false_eq_true, if_false, hf₂]
    exact hclear

/-- **One slot** loses its key and keeps its link. -/
theorem clearSlot_spec {a : Nat} (hes : WellLinked es) (hex : Exactly h (own l + R))
    (hc : Chained h (some a) l es none) :
    ∃ h' e K, clearChain (h.fresh + 1) h (some a) true = some h' ∧ Exactly h' ({a} + (K + R)) ∧
      entryAt h' a = some e ∧ e.key = none ∧ Severed h' K e.next ((live es).drop 1) ∧ Agrees R h h' ∧
      Shrinks h h' := by
  obtain ⟨tail, htail, hsplit⟩ := hes.split
  cases hlive : live es with
  | nil =>
    rw [hlive, List.map_nil, List.nil_append] at hsplit
    subst hsplit
    rcases Chained.tail hc htail with ⟨-, -, hp⟩ | ⟨b, rfl, rfl, hb, he⟩
    · cases hp
    cases hb
    refine ⟨h, .zero, 0, ?_, hex.of_eq ?_, he, rfl, .inl rfl, Agrees.refl R h, fun b hb => hb⟩
    · rw [clearChain, he]
      rfl
    · simp only [own_cons, own_nil, HashmapEntry.zero, ptr_none]
      abel
  | cons c ps =>
    rw [hlive, List.map_cons, List.cons_append] at hsplit
    rw [hsplit] at hc
    obtain ⟨b, e, l, rfl, hb, he, ⟨kp, vp, hk, hv, -, -⟩, hrest⟩ := Seg.of_cons hc
    cases hb
    obtain ⟨fuel, hfuel⟩ := fuel_of_chained hc hex
    obtain ⟨h₁, hf₁, hex₁, -, -, hag₁⟩ := (hex.of_eq (t := {kp} + ({a} + (own l + ({vp} + R)))) (by
      simp only [own_cons, hk, hv, ptr_some]
      abel)).free
    obtain ⟨h₂, hw₂, hex₂, hget₂, -, hag₂⟩ := hex₁.write (.entry { e with key := none })
    have hag := hag₁.right.trans hag₂
    obtain ⟨h', K, hclear, hex', hsev, hag', hgone'⟩ := clearLinked_spec (R := {a} + ({vp} + R)) htail fuel ps
      (hex₂.of_eq (by abel)) (Chained.congr hrest hag.left)
    refine ⟨h', { e with key := none }, K + {vp}, ?_, hex'.of_eq (by abel), ?_, rfl, ?_, hag.right.right.trans
      hag'.right.right, fun b hb => hgone' b ((hb.set hf₁).set hw₂)⟩
    · rw [hfuel, clearChain, he]
      simp only [hk, hf₁, Option.bind_some, if_true, hw₂]
      exact hclear
    · exact (entryAt_of_agrees hag'.left (Multiset.mem_singleton_self a)).trans (entryAt_of_get hget₂)
    · exact hsev.congr (Multiset.le_add_right _ _) (Agrees.refl K h') fun b hb => hb

/-- The slots `is` without their keys. -/
def Cleared (h : Heap κ ν) (base : Nat) (chains : Nat → Chain κ ν) (K : Multiset Nat) (is : List Nat) : Prop :=
  ∀ i ∈ is, ∃ e, entryAt h (base + i) = some e ∧ e.key = none ∧ Severed h K e.next ((live (chains i)).drop 1)

/-- **The loop of `hashmap_clear`.** -/
theorem clearTable_spec {base : Nat} {nodes : Nat → List (Nat × HashmapEntry)} {chains : Nat → Chain κ ν}
    (R : Multiset Nat) : ∀ (is : List Nat) {h : Heap κ ν}, Slots h base nodes chains is →
    Exactly h ((is.map fun i => own (nodes i)).sum + R) →
    ∃ h' K, is.foldlM (fun h i => clearChain (h.fresh + 1) h (some (base + i)) true) h = some h' ∧
      Exactly h' ((is.map fun i => ({base + i} : Multiset Nat)).sum + (K + R)) ∧ Cleared h' base chains K is ∧
      Agrees R h h' ∧ Shrinks h h'
  | [], h, _, hex =>
    ⟨h, 0, rfl, hex.of_eq (by simp), fun i hi => absurd hi List.not_mem_nil, Agrees.refl R h, fun b hb => hb⟩
  | i :: is, h, hs, hex => by
    obtain ⟨hes, hc⟩ := hs i (List.mem_cons_self ..)
    obtain ⟨h₁, e, K₁, hc₁, hex₁, he₁, hk₁, hsev₁, hag₁, hgone₁⟩ := clearSlot_spec
      (R := (is.map fun i => own (nodes i)).sum + R) hes (hex.of_eq (by
        rw [List.map_cons, List.sum_cons]
        abel)) hc
    obtain ⟨h₂, K₂, hc₂, hex₂, hcl₂, hag₂, hgone₂⟩ := clearTable_spec ({base + i} + (K₁ + R)) is (hs.tail hag₁.left)
      (hex₁.of_eq (by abel))
    refine ⟨h₂, K₁ + K₂, ?_, hex₂.of_eq ?_, ?_, hag₁.right.trans hag₂.right.right, fun b hb => hgone₂ b (hgone₁ b hb)⟩
    · rw [List.foldlM_cons]
      simp only [bind, hc₁, Option.bind_some]
      exact hc₂
    · rw [List.map_cons, List.sum_cons]
      abel
    · intro j hj
      rcases List.mem_cons.1 hj with rfl | hj
      · refine ⟨e, (entryAt_of_agrees hag₂.left (Multiset.mem_singleton_self _)).trans he₁, hk₁, ?_⟩
        exact hsev₁.congr (Multiset.le_add_right _ _) hag₂.right.left hgone₂
      · obtain ⟨e', he', hk', hsev'⟩ := hcl₂ j hj
        exact ⟨e', he', hk', hsev'.congr (Multiset.le_add_left _ _) (Agrees.refl K₂ h₂) fun b hb => hb⟩

/-- **A map that is cleared** keeps its slots. -/
theorem clear_spec {m : HeapMap} {M : Hashmap κ ν} (hr : Represents h m M R) (hlinked : ∀ i, WellLinked (M.table i)) :
    ∃ h' K, clear h m = some (h', { m with count := 0 }) ∧ m.tableSize = M.tableSize ∧ m.maxSize = M.maxSize ∧
      Exactly h' (cells m.table M.tableSize + (K + R)) ∧ Cleared h' m.table M.table K (List.range M.tableSize) ∧
      Agrees R h h' := by
  obtain ⟨nodes, table, rfl, ht⟩ := hr.elim
  obtain ⟨h', K, hc, hex, hcl, hag, -⟩ := clearTable_spec R (List.range M.tableSize)
    (Represents.slots (m := ⟨M.count, M.tableSize, M.maxSize, table⟩) hlinked ht) (ht.account.of_eq (by rw [total_eq]))
  rw [← cells_eq] at hex
  refine ⟨h', K, ?_, rfl, rfl, hex, hcl, hag⟩
  rw [clear, hc]
  rfl

end

/-! ## A put after it -/

section
variable [DecidableEq κ] (hash : κ → UInt64) {h : Heap κ ν} {base size : Nat} {F : Multiset Nat} {key : κ} {vp : Nat}

/-- A put into a slot without a key leaves the link that it finds there. -/
theorem insertTable_cleared (hpos : 0 < size) (hex : Exactly h (cells base size + ({vp} + F))) {e : HashmapEntry}
    (he : entryAt h (slot hash base size key) = some e) (hk : e.key = none) :
    ∃ h' kp, insertTable hash h base size key none (some vp) true = some (h', true) ∧
      entryAt h' (slot hash base size key) = some { e with key := some kp, value := some vp } ∧
      h'.get kp = some (.key key) ∧ Agrees ((cells base size).erase (slot hash base size key) + ({vp} + F)) h h' ∧
      Shrinks h h' := by
  have hmem : slot hash base size key ∈ cells base size :=
    mem_cells.2 ⟨Nat.le_add_right .., Nat.add_lt_add_left (Hashmap.index_lt hpos key) _⟩
  have hcells : cells base size = {slot hash base size key} + (cells base size).erase (slot hash base size key) := by
    rw [Multiset.singleton_add, Multiset.cons_erase hmem]
  rw [hcells, add_assoc] at hex
  generalize (cells base size).erase (slot hash base size key) = C at hex
  obtain ⟨hex₁, hget₁, hag₁⟩ := hex.alloc (.key key)
  have he₁ : entryAt (h.alloc (.key key)).2 (slot hash base size key) = some e :=
    (entryAt_of_agrees hag₁.left (Multiset.mem_singleton_self _)).trans he
  obtain ⟨h₂, hw₂, -, hget₂, -, hag₂⟩ := (hex₁.of_eq
    (t := {slot hash base size key} + ({h.fresh} + (C + ({vp} + F)))) (by abel)).write
      (.entry { e with key := some h.fresh, value := some vp })
  refine ⟨h₂, h.fresh, ?_, entryAt_of_get hget₂, ?_, hag₁.right.trans hag₂.right, fun b hb => (hb.alloc _).set hw₂⟩
  · rw [insertTable, walk, he]
    simp only [hk, storeKey]
    simp only [Store.alloc] at he₁ hw₂ ⊢
    rw [he₁, Option.bind_some, hw₂]
    rfl
  · rw [hag₂.left _ (Multiset.mem_singleton_self _), hget₁]

variable {table : Nat → Chain κ ν} {K : Multiset Nat}

/-- **A search after the put**: it fails if and only if it follows the link of the slot to a freed entry. -/
theorem get_cleared (key : κ) (hpos : 0 < size) (hcl : Cleared h base table K (List.range size)) (hle : K ≤ F)
    (hex : Exactly h (cells base size + ({vp} + F))) {m : HeapMap} (hbase : m.table = base)
    (hsize : m.tableSize = size) :
    ∃ h', insertTable hash h base size key none (some vp) true = some (h', true) ∧ Agrees ({vp} + F) h h' ∧
      get hash h' m key = some (some (some vp)) ∧ ∀ key', key' ≠ key →
        get hash h' m key' =
          if Hashmap.index hash size key' = Hashmap.index hash size key ∧
            2 ≤ (live (table (Hashmap.index hash size key))).length then none else some none := by
  subst hbase hsize
  have hi : Hashmap.index hash m.tableSize key < m.tableSize := Hashmap.index_lt hpos key
  obtain ⟨e, he, hk, hsev⟩ := hcl _ (List.mem_range.2 hi)
  obtain ⟨h', kp, hins, he', hkey, hag, hgone⟩ := insertTable_cleared hash hpos hex he hk
  refine ⟨h', hins, hag.right, ?_, fun key' hne => ?_⟩
  · rw [get, walk, he']
    simp only [keyAt_of_get hkey, and_self, if_true]
    rw [he']
    rfl
  · by_cases hidx : Hashmap.index hash m.tableSize key' = Hashmap.index hash m.tableSize key
    · -- the same slot: the search passes the new key and follows the link
      have hslot : slot hash m.table m.tableSize key' = slot hash m.table m.tableSize key := by rw [slot, slot, hidx]
      obtain ⟨fuel, hfuel⟩ : ∃ n, h'.fresh = n + 1 := by
        have hlt : slot hash m.table m.tableSize key < h'.fresh := by
          apply Store.lt_fresh
          rw [get_of_entryAt he']
          rfl
        exact ⟨h'.fresh - 1, by omega⟩
      have hpass : walk h' key' true (h'.fresh + 1) (some (slot hash m.table m.tableSize key')) none =
          walk h' key' true (fuel + 1) e.next (some (slot hash m.table m.tableSize key)) := by
        rw [hslot, walk, he', hfuel]
        simp only [keyAt_of_get hkey, true_and, if_neg (Ne.symm hne)]
      have hsev' := hsev.congr (hle.trans (Multiset.le_add_left F {vp})) (hag.right.right.mono hle) hgone
      rw [get, hpass]
      cases hlive : (live (table (Hashmap.index hash m.tableSize key))).drop 1 with
      | nil =>
        have hlen : ¬ 2 ≤ (live (table (Hashmap.index hash m.tableSize key))).length := by
          have := List.drop_eq_nil_iff.1 hlive
          omega
        rw [if_neg fun hc => hlen hc.2]
        rw [hlive] at hsev'
        rcases hsev' with hnext | ⟨b, -, hnext, hb⟩
        · rw [hnext]
          rfl
        · rw [hnext, walk, hb]
          rfl
      | cons c ps =>
        have hlen : 2 ≤ (live (table (Hashmap.index hash m.tableSize key))).length := by
          have := congrArg List.length hlive
          rw [List.length_drop, List.length_cons] at this
          omega
        rw [if_pos ⟨hidx, hlen⟩]
        rw [hlive] at hsev'
        obtain ⟨b, hnext, hb⟩ := hsev'
        have hnone : entryAt h' b = none := by rw [entryAt, hb.2]
        rw [hnext, walk, hnone]
    · -- another slot, still without a key
      rw [if_neg fun hc => hidx hc.1]
      have hlt : Hashmap.index hash m.tableSize key' < m.tableSize := Hashmap.index_lt hpos key'
      obtain ⟨e', he₁, hk', -⟩ := hcl _ (List.mem_range.2 hlt)
      have hother : slot hash m.table m.tableSize key' ∈
          (cells m.table m.tableSize).erase (slot hash m.table m.tableSize key) := by
        refine (Multiset.mem_erase_of_ne ?_).2 (mem_cells.2 ⟨Nat.le_add_right .., Nat.add_lt_add_left hlt _⟩)
        rw [slot, slot]
        omega
      have he₂ : entryAt h' (slot hash m.table m.tableSize key') = some e' :=
        (entryAt_of_agrees hag.left hother).trans he₁
      rw [get, walk, he₂]
      simp only [hk']

end

end HeapMap

namespace ClientMap

open Runs Store

/-- `hashmap_clear` of the registry. -/
def HeapRegistry.clear (r : HeapRegistry) : Option HeapRegistry :=
  (HeapMap.clear r.heap r.clients).map fun p => ⟨p.1, p.2⟩

/-- **A map that was cleared is not a map again**, after any history: once a socket is put into it, the search for any
other socket of the same slot reads a freed entry if and only if two or more had been in the chain of that slot.  All
other searches answer as in a map with that one socket. -/
theorem get_after_clear (hash : List Char → UInt64) {uses : List RegistryUse} (hu : ∀ use ∈ uses, use.Accepted)
    (s : Nat) (c : Client) :
    ∃ l r r₁ r₂, run (Ledger.use hash) Ledger.init uses = some l ∧
      run (HeapRegistry.use hash) HeapRegistry.init uses = some r ∧ r.clear = some r₁ ∧
      r₁.step hash (.put s c) = some r₂ ∧ r₂.recordOf hash s = some (some c) ∧ ∀ s', s' ≠ s →
        r₂.recordOf hash s' =
          if Hashmap.index hash l.clients.tableSize (key s') = Hashmap.index hash l.clients.tableSize (key s) ∧
            2 ≤ (Chain.live (l.clients.table (Hashmap.index hash l.clients.tableSize (key s)))).length
          then none else some none := by
  obtain ⟨l, r, hl, hr, hreg, E, V, hrep, -⟩ := holds_uses hash hu
  obtain ⟨h₁, K, hclear, hsize, hmax, hex, hcl, -⟩ := HeapMap.clear_spec hrep hreg.wellFormed.buckets.linked
  obtain ⟨hex₁, hget₁, hag₁⟩ := hex.alloc (.value c)
  have hcl₁ : HeapMap.Cleared (h₁.alloc (.value c)).2 r.clients.table l.clients.table K
      (List.range l.clients.tableSize) := by
    intro i hi
    obtain ⟨e, he, hk, hsev⟩ := hcl i hi
    refine ⟨e, ?_, hk, hsev.congr (le_refl K) hag₁.right.left fun b hb => hb.alloc _⟩
    refine (HeapMap.entryAt_of_agrees hag₁.left (mem_cells.2 ⟨Nat.le_add_right .., ?_⟩)).trans he
    exact Nat.add_lt_add_left (List.mem_range.1 hi) _
  obtain ⟨h₂, hins, hag₂, hself, hothers⟩ := HeapMap.get_cleared hash (key s) hreg.wellFormed.positive hcl₁
    (Multiset.le_add_right K (E + addrs V)) (hex₁.of_eq (by abel)) (m := ⟨1, r.clients.tableSize, r.clients.maxSize,
      r.clients.table⟩) rfl hsize
  have hroom : ¬ 0 + 1 > r.clients.maxSize := by
    have := hreg.wellFormed.room
    omega
  refine ⟨l, r, ⟨h₁, ⟨0, r.clients.tableSize, r.clients.maxSize, r.clients.table⟩⟩,
    ⟨h₂, ⟨1, r.clients.tableSize, r.clients.maxSize, r.clients.table⟩⟩, hl, hr, ?_, ?_, ?_, fun s' hs' => ?_⟩
  · rw [HeapRegistry.clear, hclear]
    rfl
  · rw [HeapRegistry.step]
    simp only [Store.alloc] at hins ⊢
    rw [HeapMap.put, if_neg hroom]
    simp only [hsize, hins]
    rfl
  · rw [HeapRegistry.recordOf, hself]
    simp only [hag₂.left _ (Multiset.mem_singleton_self _), hget₁]
  · rw [HeapRegistry.recordOf, hothers (key s') fun he => hs' (key_inj.1 he)]
    by_cases hc : Hashmap.index hash l.clients.tableSize (key s') = Hashmap.index hash l.clients.tableSize (key s) ∧
        2 ≤ (Chain.live (l.clients.table (Hashmap.index hash l.clients.tableSize (key s)))).length
    · rw [if_pos hc, if_pos hc]
    · rw [if_neg hc, if_neg hc]

/-- Two of the sockets were in one chain, and after the put of a third the search for a fourth reads freed memory. -/
theorem get_after_clear_idlePair :
    ∃ r r₁ r₂, run (HeapRegistry.use fun _ => 0) HeapRegistry.init idlePair = some r ∧ r.clear = some r₁ ∧
      r₁.step (fun _ => 0) (.put 8 ⟨0, 0, 0, 0, .ok, 8⟩) = some r₂ ∧
      r₂.recordOf (fun _ => 0) 8 = some (some ⟨0, 0, 0, 0, .ok, 8⟩) ∧ r₂.recordOf (fun _ => 0) 9 = none := by
  obtain ⟨l, r, r₁, r₂, hl, hr, h₁, h₂, hself, hothers⟩ :=
    get_after_clear (fun _ => 0) accepted_idlePair 8 ⟨0, 0, 0, 0, .ok, 8⟩
  have hl' : l = finish (Ledger.use fun _ => 0) Ledger.init idlePair := by
    rw [finish, hl]
    rfl
  refine ⟨r, r₁, r₂, hr, h₁, h₂, hself, ?_⟩
  rw [hothers 9 (by decide), hl']
  decide +kernel

end ClientMap

end Lte
