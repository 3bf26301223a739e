import Lte.HeapChains
import Mathlib.Algebra.Order.BigOperators.Group.Finset
import Mathlib.Algebra.Order.BigOperators.Group.List
/-!
# HeapTables — the hash map on the heap does what `Hashmap` does

`Represents` says that the heap holds a map of `Hashmap`, its table an array of slots and its chains linked behind them,
and that the account of the heap is what the map owns and a rest.  Each operation of `lib/hashmap.c` on such a heap ends
without an access outside of it, gives what the operation gives in `Hashmap`, and keeps the rest as it is.
-/
namespace Lte

namespace HeapMap

open Store Chain

variable {κ ν : Type}

/-! ## Tables -/

/-- What the chains of a table own. -/
def total (nodes : Nat → List (Nat × HashmapEntry)) (size : Nat) : Multiset Nat :=
  ∑ i ∈ Finset.range size, own (nodes i)

def others (nodes : Nat → List (Nat × HashmapEntry)) (size i : Nat) : Multiset Nat :=
  ∑ j ∈ (Finset.range size).erase i, own (nodes j)

theorem total_split {nodes : Nat → List (Nat × HashmapEntry)} {size i : Nat} (hi : i < size) :
    total nodes size = own (nodes i) + others nodes size i :=
  (Finset.add_sum_erase _ _ (Finset.mem_range.2 hi)).symm

theorem others_update {nodes : Nat → List (Nat × HashmapEntry)} {size i : Nat} (l : List (Nat × HashmapEntry)) :
    others (Function.update nodes i l) size i = others nodes size i := by
  apply Finset.sum_congr rfl
  intro j hj
  rw [Function.update_of_ne (Finset.ne_of_mem_erase hj)]

/-- **The slots from `table` on, and what is linked behind them, hold the chains.** -/
structure Table (h : Heap κ ν) (table size : Nat) (chains : Nat → Chain κ ν)
    (nodes : Nat → List (Nat × HashmapEntry)) (R : Multiset Nat) : Prop where
  chained : ∀ i < size, Chained h (some (table + i)) (nodes i) (chains i) none
  account : Exactly h (total nodes size + R)

section
variable {h h' : Heap κ ν} {table size : Nat} {chains : Nat → Chain κ ν} {nodes : Nat → List (Nat × HashmapEntry)}
  {R R' : Multiset Nat} {a : Nat}

theorem Table.of_eq (ht : Table h table size chains nodes R) (he : R = R') : Table h table size chains nodes R' :=
  he ▸ ht

theorem Table.account_at (ht : Table h table size chains nodes R) {i : Nat} (hi : i < size) :
    Exactly h (own (nodes i) + (others nodes size i + R)) :=
  ht.account.of_eq (by rw [total_split hi, add_assoc])

/-- **An entry that is not of the rest** is of a chain. -/
theorem Table.mem_nodes (ht : Table h table size chains nodes R) {e : HashmapEntry} (he : entryAt h a = some e)
    (ha : a ∉ R) : ∃ i < size, (a, e) ∈ nodes i := by
  have hin : a ∈ total nodes size + R := by
    rw [← ht.account.mem_iff, get_of_entryAt he]
    rfl
  obtain ⟨i, hi, hown⟩ := Multiset.mem_sum.1 ((Multiset.mem_add.1 hin).resolve_right ha)
  exact ⟨i, Finset.mem_range.1 hi, (ht.chained i (Finset.mem_range.1 hi)).mem_of_own he hown⟩

/-- One chain changes. -/
theorem Table.update (ht : Table h table size chains nodes R) {i : Nat} (hi : i < size)
    {l : List (Nat × HashmapEntry)} {es : Chain κ ν} (hc : Chained h' (some (table + i)) l es none)
    (hex : Exactly h' (own l + (others nodes size i + R'))) (hag : Agrees (others nodes size i) h h') :
    Table h' table size (Function.update chains i es) (Function.update nodes i l) R' := by
  refine ⟨fun j hj => ?_, hex.of_eq ?_⟩
  · by_cases hji : j = i
    · subst hji
      rw [Function.update_self, Function.update_self]
      exact hc
    · rw [Function.update_of_ne hji, Function.update_of_ne hji]
      refine (ht.chained j hj).congr (hag.mono ?_)
      exact Finset.single_le_sum (f := fun j => own (nodes j)) (fun j _ => Multiset.zero_le _)
        (Finset.mem_erase.2 ⟨hji, Finset.mem_range.2 hj⟩)
  · rw [total_split hi, others_update, Function.update_self, add_assoc]

/-- Something of the rest changes. -/
theorem Table.rest (ht : Table h table size chains nodes R) (hex : Exactly h' (total nodes size + R'))
    (hag : Agrees (total nodes size) h h') : Table h' table size chains nodes R' := by
  refine ⟨fun i hi => (ht.chained i hi).congr (hag.mono ?_), hex⟩
  rw [total_split hi]
  exact Multiset.le_add_right _ _

theorem Table.free (ht : Table h table size chains nodes ({a} + R)) :
    ∃ h', h.free a = some h' ∧ Table h' table size chains nodes R ∧ Agrees R h h' := by
  obtain ⟨h', hf, hex, -, -, hag⟩ := (ht.account.of_eq (t := {a} + (total nodes size + R)) (by abel)).free
  exact ⟨h', hf, ht.rest hex hag.left, hag.right⟩

end

/-- A walk over a chain that is part of the account has fuel for it. -/
theorem fuel_of_chained {h : Heap κ ν} {p : Option Nat} {b : Nat} {e : HashmapEntry} {l : List (Nat × HashmapEntry)}
    {R : Multiset Nat} {c : κ × ν} {ps : List (κ × ν)} {tail : Chain κ ν}
    (hc : Chained h p ((b, e) :: l) (some c :: (ps.map some ++ tail)) none)
    (hex : Exactly h (own ((b, e) :: l) + R)) : ∃ fuel, h.fresh = ps.length + (fuel + 1) := by
  have hle := length_le_fresh hex
  have hlen := Seg.length_eq hc
  rw [List.length_cons, List.length_cons, List.length_append, List.length_map] at hlen
  rw [List.length_cons] at hle
  exact ⟨h.fresh - ps.length - 1, by omega⟩

theorem strandedBy_eq {es tail : Chain κ ν} {c : κ × ν} {ps : List (κ × ν)} (hes : es = some c :: (ps.map some ++ tail))
    (hlive : live es = c :: ps) : strandedBy es = tail.length := by
  have hlen : es.length = ps.length + 1 + tail.length := by
    rw [hes, List.length_cons, List.length_append, List.length_map]
    omega
  rw [strandedBy, hlive, if_neg (by simp), List.length_cons, hlen]
  omega

/-! ## Insertion -/

/-- A well-linked chain that strands nothing. -/
def Tight (es : Chain κ ν) : Prop := WellLinked es ∧ strandedBy es = 0

theorem tight_empty : Tight ([none] : Chain κ ν) := ⟨wellLinked_empty, rfl⟩

section
variable [DecidableEq κ] {h : Heap κ ν} {table size : Nat} {chains : Nat → Chain κ ν}
  {nodes : Nat → List (Nat × HashmapEntry)} {R : Multiset Nat} {key : κ} {x : ν} {vp : Nat} (hash : κ → UInt64)

theorem tight_insert {es : Chain κ ν} (hes : WellLinked es) (key : κ) (x : ν) :
    Tight (Chain.insert key x false es).1 := by
  rw [insert_new hes x fun hc => by cases hc]
  refine ⟨⟨by simp, .inl (by rw [live_map_some])⟩, ?_⟩
  rw [strandedBy, live_map_some, List.length_map, Nat.sub_self, ite_self]

theorem tight_insertTable (ht : ∀ i, Tight (chains i)) (p : κ × ν) (i : Nat) :
    Tight ((Hashmap.insertTable hash size false chains p).1 i) := by
  show Tight (Function.update chains _ (Chain.insert p.1 p.2 false _).1 i)
  by_cases hi : i = Hashmap.index hash size p.1
  · rw [hi, Function.update_self]
    exact tight_insert (ht _).1 _ _
  · rw [Function.update_of_ne hi]
    exact ht i

theorem Table.insert_new (owned : Option Nat) (ht : Table h table size chains nodes (ptr owned + ({vp} + R)))
    (hpos : 0 < size) (hes : WellLinked (chains (Hashmap.index hash size key))) {shouldCmp : Bool}
    (hno : shouldCmp = true → key ∉ keys (chains (Hashmap.index hash size key)))
    (hown : ∀ kp, owned = some kp → h.get kp = some (.key key)) (hvp : h.get vp = some (.value x)) :
    ∃ h' nodes' E, insertTable hash h table size key owned (some vp) shouldCmp = some (h', true) ∧
      Table h' table size (Hashmap.insertTable hash size shouldCmp chains (key, x)).1 nodes' (E + R) ∧
      Agrees R h h' ∧ Emptied h' E ∧
      Multiset.card E = strandedBy (chains (Hashmap.index hash size key)) := by
  have hi : Hashmap.index hash size key < size := Hashmap.index_lt hpos key
  obtain ⟨h', l', E, hins, hc, hex, hag, hemp, hcard⟩ := insertTable_new hash hes (ht.chained _ hi) hno owned
    ((ht.account_at hi).of_eq (t := own (nodes (Hashmap.index hash size key)) +
      (ptr owned + ({vp} + (others nodes size (Hashmap.index hash size key) + R)))) (by abel)) hown hvp
  refine ⟨h', Function.update nodes (Hashmap.index hash size key) l', E, hins, ?_, hag.right, hemp, hcard⟩
  have hchain : (Hashmap.insertTable hash size shouldCmp chains (key, x)).1 = Function.update chains
      (Hashmap.index hash size key) ((live (chains (Hashmap.index hash size key)) ++ [(key, x)]).map some) := by
    show Function.update chains _ (Chain.insert key x shouldCmp _).1 = _
    rw [Chain.insert_new hes x hno]
  rw [hchain]
  exact ht.update hi hc (hex.of_eq (by abel)) hag.left

theorem Table.insert_known (ht : Table h table size chains nodes ({vp} + R)) (hpos : 0 < size)
    (hk : key ∈ keys (chains (Hashmap.index hash size key))) (hvp : h.get vp = some (.value x)) :
    ∃ h' nodes' old u, insertTable hash h table size key none (some vp) true = some (h', false) ∧
      Table h' table size (Hashmap.insertTable hash size true chains (key, x)).1 nodes' ({old} + R) ∧
      Agrees R h h' ∧ h'.get old = some (.value u) ∧ Hashmap.find hash size chains key = some u := by
  have hi : Hashmap.index hash size key < size := Hashmap.index_lt hpos key
  obtain ⟨h', l', old, u, hins, hc, hex, hag, hold, hscan⟩ := insertTable_known hash
    (ht.chained _ hi) hk none ((ht.account_at hi).of_eq (t := own (nodes (Hashmap.index hash size key)) +
      ({vp} + (others nodes size (Hashmap.index hash size key) + R))) (by abel)) hvp
  refine ⟨h', Function.update nodes (Hashmap.index hash size key) l', old, u, hins, ?_, hag.right, hold, hscan⟩
  exact ht.update hi hc (hex.of_eq (by abel)) hag.left

/-! ## Doubling -/

variable {p : Option Nat} {l : List (Nat × HashmapEntry)} {es : Chain κ ν}

/-- What becomes of an entry linked in the old table: one with a key is freed, an emptied one is stranded. -/
structure Moved (h : Heap κ ν) (E : Multiset Nat) (d : Nat × HashmapEntry) : Prop where
  freed : d.2.key ≠ none → Gone h d.1
  stranded : d.2.key = none → d.1 ∈ E

omit [DecidableEq κ] in
theorem Moved.mono {h h' : Heap κ ν} {E E' : Multiset Nat} {d : Nat × HashmapEntry} (hd : Moved h E d)
    (hgone : Shrinks h h') (hle : E ≤ E') : Moved h' E' d :=
  ⟨fun hk => hgone _ (hd.freed hk), fun hk => Multiset.mem_of_le hle (hd.stranded hk)⟩

/-- The step of the inner loop at an entry with a key: it is in the new table, and its node is not yet freed. -/
theorem Table.move {a : Nat} {e : HashmapEntry} {c : κ × ν}
    (ht : Table h table size chains nodes (own ((a, e) :: l) + R)) (hpos : 0 < size) (htight : ∀ i, Tight (chains i))
    (hc : Chained h p ((a, e) :: l) (some c :: es) none) :
    ∃ kp h₁ nodes₁, p = some a ∧ entryAt h a = some e ∧ e.key = some kp ∧ keyAt h kp = some c.1 ∧
      insertTable hash h table size c.1 (some kp) e.value false = some (h₁, true) ∧
      Table h₁ table size (Hashmap.insertTable hash size false chains c).1 nodes₁ ({a} + (own l + R)) ∧
      Chained h₁ e.next l es none ∧ Agrees ({a} + (own l + R)) h h₁ := by
  obtain ⟨rfl, he, ⟨kp, vp, hk, hv, hgk, hgv⟩, hrest⟩ := seg_cons.1 hc
  obtain ⟨h₁, nodes₁, E, hins, ht₁, hag, -, hcard⟩ := Table.insert_new hash (some kp)
    (R := {a} + (own l + R)) (x := c.2) (ht.of_eq (by
      simp only [own_cons, hk, hv, ptr_some]
      abel)) hpos (htight (Hashmap.index hash size c.1)).1 (fun hcmp : false = true => by cases hcmp)
    (fun kp' hkp' => by cases hkp'; exact hgk) hgv
  rw [(htight _).2, Multiset.card_eq_zero] at hcard
  subst hcard
  rw [zero_add] at ht₁
  exact ⟨kp, h₁, nodes₁, rfl, he, hk, keyAt_of_get hgk, by rw [hv]; exact hins, ht₁,
    Chained.congr hrest hag.right.left, hag⟩

/-- **The entries behind a slot** move to the new table and are freed; an emptied one at the end stays where it is. -/
theorem moveLinked_spec {ps : List (κ × ν)} {tail : Chain κ ν} (htail : Tail tail) (hpos : 0 < size)
    (ht : Table h table size chains nodes (own l + R)) (htight : ∀ i, Tight (chains i))
    (hc : Chained h p l (ps.map some ++ tail) none) (fuel : Nat) :
    ∃ h' nodes' E, moveChain hash table size (ps.length + (fuel + 1)) h p false = some h' ∧
      Table h' table size (ps.foldl (fun t c => (Hashmap.insertTable hash size false t c).1) chains) nodes' (E + R) ∧
      Agrees R h h' ∧ Emptied h' E ∧ Multiset.card E = tail.length ∧
      (∀ i, Tight (ps.foldl (fun t c => (Hashmap.insertTable hash size false t c).1) chains i)) ∧
      ∀ d ∈ l, Moved h' E d := by
  induction ps generalizing h p l chains nodes with
  | nil =>
    obtain ⟨hemp, hcard⟩ := Chained.emptied hc htail
    refine ⟨h, nodes, own l, ?_, ht, Agrees.refl R h, hemp, hcard, htight, fun d hd => ?_⟩
    · rw [List.length_nil, Nat.zero_add]
      rcases Chained.tail hc htail with ⟨-, -, rfl⟩ | ⟨a, -, -, rfl, he⟩
      · rfl
      · rw [moveChain, he]
        rfl
    · refine ⟨fun hk => absurd ?_ hk, fun _ => Multiset.mem_of_le (addrs_le_own l) (mem_addrs hd)⟩
      rcases Chained.tail hc htail with ⟨-, rfl, -⟩ | ⟨a, -, rfl, -, -⟩
      · cases hd
      · rw [List.mem_singleton.1 hd]
        rfl
  | cons c ps ih =>
    obtain ⟨a, e, l, rfl, -⟩ := Seg.of_cons hc
    obtain ⟨kp, h₁, nodes₁, rfl, he, hk, hkey, hins, ht₁, hc₁, hag₁⟩ := ht.move hash hpos htight hc
    obtain ⟨h₂, hf, ht₂, hag₂⟩ := ht₁.free
    obtain ⟨h', nodes', E, hmove, ht', hag', hemp, hcard, htight', hmoved⟩ :=
      ih ht₂ (tight_insertTable hash htight c) (hc₁.congr hag₂.left)
    refine ⟨h', nodes', E, ?_, ht', (hag₁.right.right.trans hag₂.right).trans hag', hemp, hcard, htight', ?_⟩
    · have hlen : (c :: ps).length + (fuel + 1) = (ps.length + (fuel + 1)) + 1 := by
        rw [List.length_cons]
        omega
      rw [hlen, moveChain, he]
      simp only [hk, hkey, Option.bind_some, hins, Bool.false_eq_true, if_false, hf]
      exact hmove
    · intro d hd
      rcases List.mem_cons.1 hd with rfl | hd
      · have hgone : Gone h₂ a := gone_of_free hf
        exact ⟨fun _ => shrinks_moveChain hmove a hgone, fun hnone => by rw [hk] at hnone; cases hnone⟩
      · exact hmoved d hd

/-- **One slot** keeps its address in the old table. -/
theorem moveSlot_spec {a : Nat} (hes : WellLinked es) (hpos : 0 < size)
    (ht : Table h table size chains nodes (own l + R)) (htight : ∀ i, Tight (chains i))
    (hc : Chained h (some a) l es none) :
    ∃ h' nodes' E, moveChain hash table size (h.fresh + 1) h (some a) true = some h' ∧
      Table h' table size ((live es).foldl (fun t c => (Hashmap.insertTable hash size false t c).1) chains) nodes'
        ({a} + (E + R)) ∧
      Agrees R h h' ∧ Emptied h' E ∧ Multiset.card E = strandedBy es ∧
      (∀ i, Tight ((live es).foldl (fun t c => (Hashmap.insertTable hash size false t c).1) chains i)) ∧
      ∀ d ∈ l, d.1 = a ∨ Moved h' E d := by
  obtain ⟨tail, htail, hsplit⟩ := hes.split
  cases hlive : live es with
  | nil =>
    rw [hlive, List.map_nil, List.nil_append] at hsplit
    subst hsplit
    rcases Chained.tail hc htail with ⟨-, -, hp⟩ | ⟨b, rfl, rfl, hb, he⟩
    · cases hp
    cases hb
    refine ⟨h, nodes, 0, ?_, ht.of_eq ?_, Agrees.refl R h, fun b hb => absurd hb (Multiset.notMem_zero b), ?_, htight,
      fun d hd => .inl (congrArg Prod.fst (List.mem_singleton.1 hd))⟩
    · rw [moveChain, he]
      rfl
    · simp only [own_cons, own_nil, HashmapEntry.zero, ptr_none]
      abel
    · rw [strandedBy, if_pos hlive]
      rfl
  | cons c ps =>
    rw [hlive, List.map_cons, List.cons_append] at hsplit
    rw [hsplit] at hc
    obtain ⟨b, e, l, rfl, -⟩ := Seg.of_cons hc
    obtain ⟨fuel, hfuel⟩ := fuel_of_chained hc
      (ht.account.of_eq (t := own ((b, e) :: l) + (total nodes size + R)) (by abel))
    obtain ⟨kp, h₁, nodes₁, hb, he, hk, hkey, hins, ht₁, hc₁, hag₁⟩ := ht.move hash hpos htight hc
    cases hb
    obtain ⟨h', nodes', E, hmove, ht', hag', hemp, hcard, htight', hmoved⟩ := moveLinked_spec hash (R := {a} + R) htail
      hpos (ht₁.of_eq (by abel)) (tight_insertTable hash htight c) hc₁ fuel
    refine ⟨h', nodes', E, ?_, ht'.of_eq (by abel), hag₁.right.right.trans hag'.right, hemp, ?_, htight', fun d hd =>
      (List.mem_cons.1 hd).imp (congrArg Prod.fst) (hmoved d)⟩
    · rw [hfuel, moveChain, he]
      simp only [hk, hkey, Option.bind_some, hins, if_true]
      exact hmove
    · rw [hcard, strandedBy_eq hsplit hlive]

end

/-! ## The loop over a table -/

theorem total_eq (nodes : Nat → List (Nat × HashmapEntry)) (size : Nat) :
    total nodes size = ((List.range size).map fun i => own (nodes i)).sum := by
  unfold total
  induction size with
  | zero => rfl
  | succ size ih =>
    rw [Finset.sum_range_succ, List.range_succ, List.map_append, List.sum_append, ih, List.map_singleton,
      List.sum_singleton]

theorem cells_eq (table size : Nat) :
    cells table size = ((List.range size).map fun i => ({table + i} : Multiset Nat)).sum := by
  unfold cells
  induction size with
  | zero => rfl
  | succ size ih =>
    rw [Finset.sum_range_succ, List.range_succ, List.map_append, List.sum_append, ih, List.map_singleton,
      List.sum_singleton]

/-- The chains of the slots `is` of the table from `base` on. -/
def Slots (h : Heap κ ν) (base : Nat) (nodes : Nat → List (Nat × HashmapEntry)) (chains : Nat → Chain κ ν)
    (is : List Nat) : Prop :=
  ∀ i ∈ is, WellLinked (chains i) ∧ Chained h (some (base + i)) (nodes i) (chains i) none

theorem Slots.tail {h h' : Heap κ ν} {base : Nat} {nodes : Nat → List (Nat × HashmapEntry)} {chains : Nat → Chain κ ν}
    {i : Nat} {is : List Nat} (hs : Slots h base nodes chains (i :: is))
    (hag : Agrees (is.map fun i => own (nodes i)).sum h h') : Slots h' base nodes chains is := by
  intro j hj
  obtain ⟨hes, hc⟩ := hs j (List.mem_cons_of_mem i hj)
  exact ⟨hes, hc.congr (hag.mono (List.le_sum_of_mem (List.mem_map_of_mem hj)))⟩

/-- The emptied entries that the chains of a map strand. -/
def strandedTotal (m : Hashmap κ ν) : Nat := ((List.range m.tableSize).map fun i => strandedBy (m.table i)).sum

section
variable [DecidableEq κ] (hash : κ → UInt64)

/-- **The loop of `hashmap_double_size`.** -/
theorem moveTable_spec {base : Nat} {old : Nat → List (Nat × HashmapEntry)} {oldChains : Nat → Chain κ ν}
    {table size : Nat} (hpos : 0 < size) (R : Multiset Nat) :
    ∀ (is : List Nat) {h : Heap κ ν} {chains : Nat → Chain κ ν} {nodes : Nat → List (Nat × HashmapEntry)},
      Slots h base old oldChains is →
      Table h table size chains nodes ((is.map fun i => own (old i)).sum + R) → (∀ i, Tight (chains i)) →
      ∃ h' nodes' E,
        is.foldlM (fun h i => moveChain hash table size (h.fresh + 1) h (some (base + i)) true) h = some h' ∧
        Table h' table size ((is.flatMap fun i => live (oldChains i)).foldl
          (fun t c => (Hashmap.insertTable hash size false t c).1) chains) nodes'
          ((is.map fun i => ({base + i} : Multiset Nat)).sum + (E + R)) ∧
        Agrees R h h' ∧ Emptied h' E ∧ Multiset.card E = (is.map fun i => strandedBy (oldChains i)).sum ∧
        (∀ i, Tight ((is.flatMap fun i => live (oldChains i)).foldl
          (fun t c => (Hashmap.insertTable hash size false t c).1) chains i)) ∧
        ∀ i ∈ is, ∀ d ∈ old i, d.1 = base + i ∨ Moved h' E d
  | [], h, chains, nodes, _, ht, htight =>
    ⟨h, nodes, 0, rfl, ht.of_eq (by simp), Agrees.refl R h, fun a ha => absurd ha (Multiset.notMem_zero a), rfl, htight,
      fun i hi => absurd hi List.not_mem_nil⟩
  | i :: is, h, chains, nodes, hs, ht, htight => by
    obtain ⟨hes, hc⟩ := hs i (List.mem_cons_self ..)
    obtain ⟨h₁, nodes₁, E₁, hm₁, ht₁, hag₁, hemp₁, hcard₁, htight₁, hmoved₁⟩ := moveSlot_spec hash
      (R := (is.map fun i => own (old i)).sum + R) hes hpos (ht.of_eq (by
        rw [List.map_cons, List.sum_cons]
        abel)) htight hc
    obtain ⟨h₂, nodes₂, E₂, hm₂, ht₂, hag₂, hemp₂, hcard₂, htight₂, hmoved₂⟩ := moveTable_spec hpos
      ({base + i} + (E₁ + R)) is (hs.tail hag₁.left) (ht₁.of_eq (by abel)) htight₁
    have hgone : Shrinks h₁ h₂ := fun b hb => foldlM_keeps (fun hm hb => shrinks_moveChain hm b hb) hm₂ hb
    refine ⟨h₂, nodes₂, E₁ + E₂, ?_, ?_, hag₁.right.trans hag₂.right.right, ?_, ?_, ?_, ?_⟩
    · rw [List.foldlM_cons]
      simp only [bind, hm₁, Option.bind_some]
      exact hm₂
    · rw [List.flatMap_cons, List.foldl_append]
      exact ht₂.of_eq (by
        rw [List.map_cons, List.sum_cons]
        abel)
    · intro a ha
      rcases Multiset.mem_add.1 ha with ha | ha
      · exact hemp₁.congr hag₂.right.left a ha
      · exact hemp₂ a ha
    · rw [Multiset.card_add, hcard₁, hcard₂, List.map_cons, List.sum_cons]
    · rw [List.flatMap_cons, List.foldl_append]
      exact htight₂
    · intro j hj d hd
      rcases List.mem_cons.1 hj with rfl | hj
      · exact (hmoved₁ d hd).imp_right fun hm => hm.mono hgone (Multiset.le_add_right _ _)
      · exact (hmoved₂ j hj d hd).imp_right fun hm => hm.mono (fun b hb => hb) (Multiset.le_add_left _ _)

end

/-- **The heap holds the map**, and `R` is the rest of its account. -/
structure Represents (h : Heap κ ν) (m : HeapMap) (M : Hashmap κ ν) (R : Multiset Nat) : Prop where
  table : ∃ nodes, Table h m.table m.tableSize M.table nodes R
  tableSize_eq : m.tableSize = M.tableSize
  maxSize_eq : m.maxSize = M.maxSize
  count_eq : m.count = M.count

theorem Represents.elim {h : Heap κ ν} {m : HeapMap} {M : Hashmap κ ν} {R : Multiset Nat} (hr : Represents h m M R) :
    ∃ nodes table, m = ⟨M.count, M.tableSize, M.maxSize, table⟩ ∧ Table h table M.tableSize M.table nodes R := by
  obtain ⟨count, tableSize, maxSize, table⟩ := m
  obtain ⟨⟨nodes, ht⟩, hsize, hmax, hcount⟩ := hr
  dsimp only at ht hsize hmax hcount
  subst hsize hmax hcount
  exact ⟨nodes, table, rfl, ht⟩

theorem Represents.of_eq {h : Heap κ ν} {m : HeapMap} {M : Hashmap κ ν} {R R' : Multiset Nat}
    (hr : Represents h m M R) (he : R = R') : Represents h m M R' := he ▸ hr

section
variable [DecidableEq κ] {hash : κ → UInt64} {h : Heap κ ν} {m : HeapMap} {M : Hashmap κ ν} {R : Multiset Nat}

omit [DecidableEq κ] in
theorem tight_emptyTable (i : Nat) : Tight (Hashmap.emptyTable i : Chain κ ν) := tight_empty

omit [DecidableEq κ] in
/-- A table that `calloc` gives. -/
theorem table_alloc (hex : Exactly h R) (size : Nat) :
    ∃ nodes, Table (h.allocArray size (.entry .zero)).2 h.fresh size (Hashmap.emptyTable : Nat → Chain κ ν) nodes R ∧
      Agrees R h (h.allocArray size (.entry .zero)).2 := by
  obtain ⟨hex', hget, hag⟩ := hex.allocArray size (.entry .zero)
  refine ⟨fun i => [(h.fresh + i, .zero)], ⟨fun i hi => ?_, hex'.of_eq ?_⟩, hag⟩
  · exact Chained.single (entryAt_of_get (hget i hi)) ⟨rfl, rfl⟩
  · unfold cells total
    rfl

omit [DecidableEq κ] in
theorem Represents.slots (hlinked : ∀ i, WellLinked (M.table i)) {nodes : Nat → List (Nat × HashmapEntry)}
    (ht : Table h m.table m.tableSize M.table nodes R) : Slots h m.table nodes M.table (List.range m.tableSize) :=
  fun i hi => ⟨hlinked i, ht.chained i (List.mem_range.1 hi)⟩

/-- **Doubling** frees the old table and its nodes; the emptied entries at the ends of its chains are stranded, and the
new table has none. -/
theorem doubleSize_spec (hash : κ → UInt64) (hr : Represents h m M R) (hlinked : ∀ i, WellLinked (M.table i))
    (hpos : 0 < M.tableSize) :
    ∃ h' m' E, doubleSize hash h m = some (h', m') ∧ Represents h' m' (M.doubleSize hash) (E + R) ∧ Agrees R h h' ∧
      Emptied h' E ∧ Multiset.card E = strandedTotal M ∧ (∀ i, Tight ((M.doubleSize hash).table i)) ∧
      ∀ a e, entryAt h a = some e → a ∉ R →
        (m.table ≤ a ∧ a < m.table + m.tableSize → Gone h' a) ∧
          (¬ (m.table ≤ a ∧ a < m.table + m.tableSize) → Moved h' E (a, e)) := by
  obtain ⟨nodes, ht⟩ := hr.table
  have hslots := Represents.slots hlinked ht
  have hsize := hr.tableSize_eq
  obtain ⟨nodes₁, ht₁, hag₁⟩ := table_alloc ht.account (m.tableSize * 2)
  have hpos₂ : 0 < m.tableSize * 2 := by omega
  have hslots₁ : Slots (h.allocArray (m.tableSize * 2) (.entry .zero)).2 m.table nodes M.table
      (List.range m.tableSize) := by
    intro i hi
    refine ⟨(hslots i hi).1, (hslots i hi).2.congr (hag₁.left.mono ?_)⟩
    rw [total_eq]
    exact List.le_sum_of_mem (List.mem_map_of_mem hi)
  obtain ⟨h₂, nodes₂, E, hm₂, ht₂, hag₂, hemp₂, hcard₂, htight₂, hmoved₂⟩ := moveTable_spec hash hpos₂ R
    (List.range m.tableSize) hslots₁ (ht₁.of_eq (by rw [total_eq])) tight_emptyTable
  rw [← cells_eq] at ht₂
  obtain ⟨h₃, hf₃, hex₃, hag₃⟩ := (ht₂.account.of_eq
    (t := cells m.table m.tableSize + (total nodes₂ (m.tableSize * 2) + (E + R))) (by abel)).freeArray
  refine ⟨h₃, ⟨m.count, m.tableSize * 2, m.maxSize * 2, h.fresh⟩, E, ?_, ⟨⟨nodes₂, ?_⟩, ?_, ?_, hr.count_eq⟩,
    (hag₁.right.trans hag₂).trans hag₃.right.right, hemp₂.congr hag₃.right.left, ?_, ?_,
    fun a e he ha => ⟨gone_of_freeArray hf₃, fun hout => ?_⟩⟩
  · rw [doubleSize]
    simp only [Store.allocArray] at hm₂ ⊢
    rw [hm₂, Option.bind_some, hf₃]
    rfl
  · have ht₃ := ht₂.rest hex₃ hag₃.left
    rw [hsize] at ht₃ ⊢
    exact ht₃
  · show m.tableSize * 2 = M.tableSize * 2
    rw [hsize]
  · show m.maxSize * 2 = M.maxSize * 2
    rw [hr.maxSize_eq]
  · rw [hcard₂, strandedTotal, hsize]
  · intro i
    have := htight₂ i
    rw [hsize] at this
    exact this
  · obtain ⟨i, hi, hd⟩ := ht.mem_nodes he ha
    rcases hmoved₂ i (List.mem_range.2 hi) (a, e) hd with hslot | hm
    · exact absurd (by omega) hout
    · exact hm.mono (fun b hb => hb.freeArray hf₃) (le_refl E)

/-- What every insertion keeps, and every `free` of an entry, a doubling keeps until it frees the old table. -/
theorem doubleSize_keeps {P : Heap κ ν → Prop} (hins : ∀ {h h₁}, Extends h h₁ → P h → P h₁)
    (hfree : ∀ {h h₁ a}, (entryAt h a).isSome = true → h.free a = some h₁ → P h → P h₁) {h' : Heap κ ν} {m' : HeapMap}
    (hd : doubleSize hash h m = some (h', m')) (hP : P (h.allocArray (m.tableSize * 2) (.entry .zero)).2) :
    ∃ h₁, P h₁ ∧ h₁.freeArray m.table m.tableSize = some h' := by
  obtain ⟨h₁, hm, hd⟩ := Option.bind_eq_some_iff.1 hd
  obtain ⟨h₂, hf, he⟩ := Option.map_eq_some_iff.1 hd
  cases he
  exact ⟨h₁, foldlM_keeps (fun hm => moveChain_keeps hins hfree hm) hm hP, hf⟩

theorem shrinks_doubleSize {h' : Heap κ ν} {m' : HeapMap} (hd : doubleSize hash h m = some (h', m')) :
    Shrinks h h' := by
  intro b hb
  obtain ⟨h₁, hb₁, hf⟩ := doubleSize_keeps (P := fun h => Gone h b) (fun hext hb => hext.gone b hb)
    (fun _ hf hb => hb.set hf) hd (hb.allocArray _ _)
  exact hb₁.freeArray hf

theorem record_of_doubleSize {h' : Heap κ ν} {m' : HeapMap} (hd : doubleSize hash h m = some (h', m')) {v : Nat} {x : ν}
    (hv : h.get v = some (.value x)) (hout : ¬ (m.table ≤ v ∧ v < m.table + m.tableSize)) :
    h'.get v = some (.value x) := by
  obtain ⟨h₁, hv₁, hf⟩ := doubleSize_keeps (P := fun h => h.get v = some (.value x)) (fun hext => hext.records v x)
    (fun ha hf => record_of_free ha hf) hd ((get_of_allocArray (by rw [hv]; rfl) _ _).trans hv)
  rw [get_of_freeArray hf hout, hv₁]

/-! ## The operations -/

/-- What the map has let go of without freeing it: emptied entries, and records under their addresses. -/
structure Leaked (h : Heap κ ν) (E : Multiset Nat) (V : List (Nat × ν)) : Prop where
  emptied : Emptied h E
  records : ∀ c ∈ V, h.get c.1 = some (.value c.2)

omit [DecidableEq κ] in
theorem Leaked.congr {h' : Heap κ ν} {E : Multiset Nat} {V : List (Nat × ν)} (hl : Leaked h E V)
    (hag : Agrees (E + addrs V) h h') : Leaked h' E V :=
  ⟨hl.emptied.congr hag.left, fun c hc => by rw [hag.right c.1 (mem_addrs hc), hl.records c hc]⟩

omit [DecidableEq κ] in
theorem Leaked.append {E E' : Multiset Nat} {V V' : List (Nat × ν)} (hl : Leaked h E V) (hl' : Leaked h E' V') :
    Leaked h (E + E') (V ++ V') := by
  refine ⟨fun a ha => ?_, fun c hc => ?_⟩
  · rcases Multiset.mem_add.1 ha with ha | ha
    · exact hl.emptied a ha
    · exact hl'.emptied a ha
  · rcases List.mem_append.1 hc with hc | hc
    · exact hl.records c hc
    · exact hl'.records c hc

variable {key : κ} {x : ν} {vp : Nat}

theorem get_spec (hr : Represents h m M R) (hwf : M.WellFormed hash) (key : κ) :
    (∀ x, M.get hash key = some x → ∃ vp, get hash h m key = some (some (some vp)) ∧ h.get vp = some (.value x)) ∧
      (M.get hash key = none → get hash h m key = some none) := by
  obtain ⟨nodes, table, rfl, ht⟩ := hr.elim
  have hi : Hashmap.index hash M.tableSize key < M.tableSize := Hashmap.index_lt hwf.positive key
  have hc := ht.chained _ hi
  have hex := ht.account_at hi
  have hget : M.get hash key = scan key (M.table (Hashmap.index hash M.tableSize key)) := rfl
  have hes := hwf.buckets.linked (Hashmap.index hash M.tableSize key)
  have hnd := hwf.buckets.unique (Hashmap.index hash M.tableSize key)
  generalize M.table (Hashmap.index hash M.tableSize key) = es at hc hget hes hnd
  generalize nodes (Hashmap.index hash M.tableSize key) = l at hc hex
  by_cases hk : key ∈ keys es
  · obtain ⟨qs, u, es', rfl, hno⟩ := exists_at hk
    obtain ⟨l₁, l₂, r, rfl, hfront, hrest⟩ := Seg.split hc
    obtain ⟨a, e, l₂, rfl, rfl, he, ⟨kp, vp, hkp, hvp, hgk, hgv⟩, hback⟩ := Seg.of_cons hrest
    rw [hget, scan_at hno]
    refine ⟨fun x hx => ?_, fun hx => by cases hx⟩
    cases hx
    refine ⟨vp, ?_, hgv⟩
    rw [get, slot, walk_known hfront hrest hno hex]
    simp only [he, Option.map_some, hvp]
  · obtain ⟨tail, htail, hsplit⟩ := hes.split
    rw [hget, (scan_eq_none hnd).2 hk]
    refine ⟨fun x hx => (by cases hx), fun _ => ?_⟩
    rw [hsplit] at hc
    obtain ⟨l₁, l₂, r, rfl, hfront, hrest⟩ := Seg.split hc
    rw [get, slot, walk_unknown hfront hrest htail (fun _ => hk) hex]

/-- **A write through the pointer that a search returned** gives its key the record written, and nothing else. -/
theorem update_spec (hr : Represents h m M R) (hwf : M.WellFormed hash) {u : ν} (hget : M.get hash key = some u)
    (x : ν) :
    ∃ vp h' M', get hash h m key = some (some (some vp)) ∧ h.get vp = some (.value u) ∧
      h.write vp (.value x) = some h' ∧ Represents h' m M' R ∧ M'.WellFormed hash ∧
      ∀ k, M'.get hash k = if k = key then some x else M.get hash k := by
  obtain ⟨nodes, table, rfl, ht⟩ := hr.elim
  have hi : Hashmap.index hash M.tableSize key < M.tableSize := Hashmap.index_lt hwf.positive key
  have hk : key ∈ keys (M.table (Hashmap.index hash M.tableSize key)) :=
    mem_keys_of_mem (mem_of_scan hget)
  obtain ⟨a, e, vp, u', h', hwalk, he, hvp, hgv, hscan, hw, hc', hex', hag⟩ :=
    writeRecord_spec (ht.chained _ hi) hk (ht.account_at hi) x
  obtain ⟨hb, -, hfind⟩ := Hashmap.insertTable_spec hwf.buckets (key, x) (fun hc : true = false => by cases hc)
  have hu : u' = u := Option.some.inj (hscan.symm.trans hget)
  subst hu
  obtain ⟨M', hM'⟩ : ∃ M', M' = { M with table := (Hashmap.insertTable hash M.tableSize true M.table (key, x)).1 } :=
    ⟨_, rfl⟩
  have hb' : Hashmap.Buckets hash M'.tableSize M'.table := by
    rw [hM']
    exact hb
  have hsizes : M'.tableSize = M.tableSize ∧ M'.maxSize = M.maxSize ∧ M'.count = M.count := by
    rw [hM']
    exact ⟨rfl, rfl, rfl⟩
  obtain ⟨hsize, hmax, hcount⟩ := hsizes
  have hpos' : 0 < M'.tableSize := by
    rw [hsize]
    exact hwf.positive
  have hget' : ∀ k, M'.get hash k = if k = key then some x else M.get hash k := by
    rw [hM']
    exact hfind
  have hmem : key ∈ M.keys := by
    rw [Hashmap.mem_keys_iff hwf.buckets hwf.positive, hget]
    rfl
  refine ⟨vp, h', M', ?_, hgv, hw, ⟨⟨nodes, ?_⟩, hsize.symm, hmax.symm, hcount.symm⟩, ⟨hb', hpos', ?_, ?_, ?_⟩, hget'⟩
  · rw [get, slot, hwalk]
    simp only [he, Option.map_some, hvp]
  · have ht' := ht.update hi hc' hex' hag.left
    rw [Function.update_eq_self] at ht'
    rw [hM']
    exact ht'
  · rw [hmax]
    exact hwf.room
  · rw [hmax, hcount]
    exact hwf.fits
  · rw [hcount, Hashmap.keys_insert hwf hb' hpos' hget', Finset.insert_eq_of_mem hmem]
    exact hwf.count_eq

/-- The entries that a put strands: those of all the chains when it doubles the table. -/
def strandedPut (hash : κ → UInt64) (M : Hashmap κ ν) (key : κ) : Nat :=
  if M.count + 1 > M.maxSize then strandedTotal M
  else if (M.get hash key).isSome then 0
  else strandedBy (M.table (Hashmap.index hash M.tableSize key))

theorem put_eq_of_room (hwf : M.WellFormed hash) (hroom : M.count + 1 ≤ M.maxSize) (key : κ) (x : ν) (fuel : Nat) :
    M.put hash (fuel + 1) key x = some ({ M with
      table := (Hashmap.insertTable hash M.tableSize true M.table (key, x)).1
      count := if (M.get hash key).isNone then M.count + 1 else M.count }, (M.get hash key).isNone) := by
  obtain ⟨-, hnew, -⟩ := Hashmap.insertTable_spec hwf.buckets (key, x) (fun hc : true = false => by cases hc)
  rw [Hashmap.put, if_neg (by omega)]
  simp only [hnew]
  rfl

theorem put_of_room (hr : Represents h m M ({vp} + R)) (hwf : M.WellFormed hash) (hroom : M.count + 1 ≤ M.maxSize)
    (key : κ) (hvp : h.get vp = some (.value x)) (fuel : Nat) :
    ∃ h' m' M' E V, put hash (fuel + 1) h m key (some vp) = some (h', m', (M.get hash key).isNone) ∧
      M.put hash (fuel + 1) key x = some (M', (M.get hash key).isNone) ∧ Represents h' m' M' (E + addrs V + R) ∧
      Agrees R h h' ∧ Leaked h' E V ∧ V.map Prod.snd = (M.get hash key).toList ∧
      Multiset.card E = if (M.get hash key).isSome then 0
        else strandedBy (M.table (Hashmap.index hash M.tableSize key)) := by
  obtain ⟨nodes, table, rfl, ht⟩ := hr.elim
  have hput := put_eq_of_room hwf hroom key x fuel
  by_cases hk : key ∈ keys (M.table (Hashmap.index hash M.tableSize key))
  · obtain ⟨h', nodes', old, u, hins, ht', hag, hold, hfind⟩ := ht.insert_known hash hwf.positive hk hvp
    have hget : M.get hash key = some u := hfind
    rw [hget] at hput ⊢
    refine ⟨h', ⟨M.count, M.tableSize, M.maxSize, table⟩, _, 0, [(old, u)], ?_, hput,
      ⟨⟨nodes', ht'.of_eq (by simp)⟩, rfl, rfl, rfl⟩, hag, ⟨?_, ?_⟩, rfl, rfl⟩
    · rw [put, if_neg (Nat.not_lt.2 hroom), hins]
      rfl
    · exact fun a ha => absurd ha (Multiset.notMem_zero a)
    · intro c hc
      rw [List.mem_singleton] at hc
      rw [hc, hold]
  · obtain ⟨h', nodes', E, hins, ht', hag, hemp, hcard⟩ := Table.insert_new hash none (R := R)
      (ht.of_eq (by rw [ptr_none, zero_add])) hwf.positive (hwf.buckets.linked _) (fun _ : true = true => hk)
      (fun kp hkp => by cases hkp) hvp
    have hget : M.get hash key = none := (scan_eq_none (hwf.buckets.unique _)).2 hk
    rw [hget] at hput ⊢
    refine ⟨h', ⟨M.count + 1, M.tableSize, M.maxSize, table⟩, _, E, [], ?_, hput,
      ⟨⟨nodes', ht'.of_eq (by simp)⟩, rfl, rfl, rfl⟩, hag, ⟨hemp, fun c hc => by cases hc⟩, rfl, hcard⟩
    rw [put, if_neg (Nat.not_lt.2 hroom), hins]
    rfl

/-- **A put** ends after at most one doubling and does what `Hashmap.put` does; the record of the key that it replaces,
and the emptied entries at the ends of the chains it extends, are let go of. -/
theorem put_spec (hr : Represents h m M ({vp} + R)) (hwf : M.WellFormed hash) (key : κ)
    (hvp : h.get vp = some (.value x)) :
    ∃ h' m' M' E V, put hash 2 h m key (some vp) = some (h', m', (M.get hash key).isNone) ∧
      M.put hash 2 key x = some (M', (M.get hash key).isNone) ∧ Represents h' m' M' (E + addrs V + R) ∧
      Agrees R h h' ∧ Leaked h' E V ∧ V.map Prod.snd = (M.get hash key).toList ∧
      Multiset.card E = strandedPut hash M key := by
  by_cases hroom : M.count + 1 ≤ M.maxSize
  · obtain ⟨h', m', M', E, V, hp, hp', hr', hag, hl, hV, hE⟩ := put_of_room hr hwf hroom key hvp 1
    refine ⟨h', m', M', E, V, hp, hp', hr', hag, hl, hV, ?_⟩
    rw [strandedPut, if_neg (by omega), hE]
  · obtain ⟨h₁, m₁, E₁, hd, hr₁, hag₁, hemp₁, hcard₁, htight₁, -⟩ := doubleSize_spec hash hr hwf.buckets.linked
      hwf.positive
    obtain ⟨hwf₁, hget₁⟩ := Hashmap.doubleSize_spec hwf
    have hroom₁ : (M.doubleSize hash).count + 1 ≤ (M.doubleSize hash).maxSize := by
      show M.count + 1 ≤ M.maxSize * 2
      have hone := hwf.room
      have hfits := hwf.fits
      omega
    have hvp₁ : h₁.get vp = some (.value x) := by
      rw [hag₁.left vp (Multiset.mem_singleton_self vp), hvp]
    obtain ⟨h', m', M', E, V, hp, hp', hr', hag, hl, hV, hE⟩ := put_of_room (R := E₁ + R)
      (hr₁.of_eq (by abel)) hwf₁ hroom₁ key hvp₁ 0
    rw [hget₁] at hp hp' hV
    have hE' : E = 0 := by
      rw [← Multiset.card_eq_zero, hE, (htight₁ _).2, ite_self]
    subst hE'
    refine ⟨h', m', M', E₁, V, ?_, ?_, hr'.of_eq (by abel), hag₁.right.trans hag.right,
      ⟨hemp₁.congr hag.left, hl.records⟩, hV, ?_⟩
    · rw [put, if_pos (by rw [hr.count_eq, hr.maxSize_eq]; omega), hd, Option.bind_some, hp]
    · rw [Hashmap.put, if_pos (by omega), hp']
    · rw [hcard₁, strandedPut, if_pos (by omega)]

/-- **The delete of the key of an entry**, in its chain: the entries before it stay where they are, and so does its
node. -/
theorem delete_entry (hwf : M.WellFormed hash) {table : Nat} {nodes : Nat → List (Nat × HashmapEntry)}
    (ht : Table h table M.tableSize M.table nodes R) {i : Nat} {a : Nat} {e : HashmapEntry}
    {l₁ l₂ : List (Nat × HashmapEntry)} {qs : List (κ × ν)} {c : κ × ν} {es : Chain κ ν}
    (hnodes : nodes i = l₁ ++ (a, e) :: l₂) (hchain : M.table i = qs.map some ++ some c :: es)
    (hfront : Chained h (some (table + i)) l₁ (qs.map some) (some a))
    (hrest : Chained h (some a) ((a, e) :: l₂) (some c :: es) none) :
    ∃ h' l₂' nodes' M', M' = M.delete hash c.1 ∧ M'.tableSize = M.tableSize ∧
      M'.table i = qs.map some ++ orEmpty es ∧ nodes' i = l₁ ++ l₂' ∧
      delete hash h ⟨M.count, M.tableSize, M.maxSize, table⟩ c.1 =
        some (h', ⟨M'.count, M'.tableSize, M'.maxSize, table⟩, true) ∧
      Table h' table M'.tableSize M'.table nodes' R ∧ Chained h' (some (table + i)) l₁ (qs.map some) (some a) ∧
      Chained h' (some a) l₂' (orEmpty es) none ∧ Agrees R h h' := by
  have hlive : live (M.table i) = qs ++ c :: live es := by rw [hchain, live_at]
  have hmem : c.1 ∈ keys (M.table i) := by
    rw [keys, hlive]
    simp
  have hidx : Hashmap.index hash M.tableSize c.1 = i := hwf.buckets.placed i c.1 hmem
  have hi : i < M.tableSize := by
    rw [← hidx]
    exact Hashmap.index_lt hwf.positive c.1
  have hno : c.1 ∉ qs.map Prod.fst := by
    have hnd := hwf.buckets.unique i
    rw [keys, hlive, List.map_append, List.map_cons, List.nodup_append] at hnd
    exact fun hq => hnd.2.2 _ hq _ (List.mem_cons_self ..) rfl
  have hex := ht.account_at hi
  rw [hnodes] at hex
  obtain ⟨h', l₂', hd, hfront', hrest', hex', hag⟩ := deleteEntry_spec hfront hrest hex
  have hM : M.delete hash c.1 =
      { M with count := M.count - 1, table := Function.update M.table i (qs.map some ++ orEmpty es) } := by
    rw [Hashmap.delete, hidx, hchain, delete_at hno]
  refine ⟨h', l₂', Function.update nodes i (l₁ ++ l₂'), _, hM.symm, rfl, Function.update_self ..,
    Function.update_self .., ?_, ht.update hi (hfront'.append hrest') hex' hag.left, hfront', hrest', hag.right⟩
  rw [delete, slot, hidx, walk_known hfront hrest hno hex]
  simp only [hd, Option.map_some]

/-- **A delete** frees the key, the record and one entry, or leaves the last entry of the chain empty. -/
theorem delete_spec (hr : Represents h m M R) (hwf : M.WellFormed hash) (key : κ) :
    ∃ h' m', delete hash h m key = some (h', m', (M.get hash key).isSome) ∧ Represents h' m' (M.delete hash key) R ∧
      Agrees R h h' := by
  obtain ⟨nodes, table, rfl, ht⟩ := hr.elim
  have hi : Hashmap.index hash M.tableSize key < M.tableSize := Hashmap.index_lt hwf.positive key
  have hc := ht.chained _ hi
  have hget : M.get hash key = scan key (M.table (Hashmap.index hash M.tableSize key)) := rfl
  by_cases hk : key ∈ keys (M.table (Hashmap.index hash M.tableSize key))
  · obtain ⟨qs, u, es, hes, hno⟩ := exists_at hk
    rw [hes] at hc hget
    obtain ⟨l₁, l₂, r, hl, hfront, hrest⟩ := Seg.split hc
    obtain ⟨a, e, l₂, rfl, rfl, -⟩ := Seg.of_cons hrest
    obtain ⟨h', l₂', nodes', M', hM, -, -, -, hd, ht', -, -, hag⟩ := delete_entry hwf ht hl hes hfront hrest
    rw [hget, scan_at hno, ← hM]
    exact ⟨h', _, hd, ⟨⟨nodes', ht'⟩, rfl, rfl, rfl⟩, hag⟩
  · have hM : M.delete hash key = M := by rw [Hashmap.delete, delete_unknown hk]
    have hex := ht.account_at hi
    obtain ⟨tail, htail, hsplit⟩ := (hwf.buckets.linked (Hashmap.index hash M.tableSize key)).split
    rw [hget, (scan_eq_none (hwf.buckets.unique _)).2 hk, hM]
    refine ⟨h, _, ?_, hr, Agrees.refl R h⟩
    rw [hsplit] at hc
    obtain ⟨l₁, l₂, r, hl, hfront, hrest⟩ := Seg.split hc
    rw [hl] at hex
    rw [delete, slot, walk_unknown hfront hrest htail (fun _ => hk) hex]
    rfl

end

/-! ## Destruction -/

section
variable {h : Heap κ ν} {p : Option Nat} {l : List (Nat × HashmapEntry)} {es : Chain κ ν} {R : Multiset Nat}

/-- The step of the loop at an entry with a key: its key and its record are freed, its node is not. -/
theorem free_entry {a : Nat} {e : HashmapEntry} {c : κ × ν} (hex : Exactly h (own ((a, e) :: l) + R))
    (hc : Chained h p ((a, e) :: l) (some c :: es) none) :
    ∃ kp h₁ h₂, p = some a ∧ entryAt h a = some e ∧ e.key = some kp ∧ h.free kp = some h₁ ∧
      freePtr h₁ e.value = some h₂ ∧ Exactly h₂ ({a} + (own l + R)) ∧ Chained h₂ e.next l es none ∧
      Agrees R h h₂ := by
  obtain ⟨rfl, he, ⟨kp, vp, hk, hv, -, -⟩, hrest⟩ := seg_cons.1 hc
  obtain ⟨h₁, hf₁, hex₁, -, -, hag₁⟩ := (hex.of_eq (t := {kp} + ({vp} + ({a} + (own l + R)))) (by
    simp only [own_cons, hk, hv, ptr_some]
    abel)).free
  obtain ⟨h₂, hf₂, hex₂, -, -, hag₂⟩ := hex₁.free
  have hag := hag₁.right.trans hag₂
  exact ⟨kp, h₁, h₂, rfl, he, hk, hf₁, by rw [hv]; exact hf₂, hex₂, Chained.congr hrest hag.right.left,
    hag.right.right⟩

theorem freeLinked_spec {ps : List (κ × ν)} {tail : Chain κ ν} (htail : Tail tail) (hex : Exactly h (own l + R))
    (hc : Chained h p l (ps.map some ++ tail) none) (fuel : Nat) :
    ∃ h' E, freeChain (ps.length + (fuel + 1)) h p false = some h' ∧ Exactly h' (E + R) ∧ Agrees R h h' ∧
      Emptied h' E ∧ Multiset.card E = tail.length := by
  induction ps generalizing h p l with
  | nil =>
    obtain ⟨hemp, hcard⟩ := Chained.emptied hc htail
    refine ⟨h, own l, ?_, hex, Agrees.refl R h, hemp, hcard⟩
    rw [List.length_nil, Nat.zero_add]
    rcases Chained.tail hc htail with ⟨-, -, rfl⟩ | ⟨a, -, -, rfl, he⟩
    · rfl
    · rw [freeChain, he]
      rfl
  | cons c ps ih =>
    obtain ⟨a, e, l, rfl, -⟩ := Seg.of_cons hc
    obtain ⟨kp, h₁, h₂, rfl, he, hk, hf₁, hf₂, hex₂, hc₂, hag₂⟩ := free_entry hex hc
    obtain ⟨h₃, hf₃, hex₃, -, -, hag₃⟩ := hex₂.free
    obtain ⟨h', E, hfree, hex', hag', hemp, hcard⟩ := ih hex₃ (Chained.congr hc₂ hag₃.left)
    refine ⟨h', E, ?_, hex', (hag₂.trans hag₃.right).trans hag', hemp, hcard⟩
    have hlen : (c :: ps).length + (fuel + 1) = (ps.length + (fuel + 1)) + 1 := by
      rw [List.length_cons]
      omega
    rw [hlen, freeChain, he]
    simp only [hk, hf₁, Option.bind_some, hf₂, Bool.false_eq_true, if_false, hf₃]
    exact hfree

theorem freeSlot_spec {a : Nat} (hes : WellLinked es) (hex : Exactly h (own l + R))
    (hc : Chained h (some a) l es none) :
    ∃ h' E, freeChain (h.fresh + 1) h (some a) true = some h' ∧ Exactly h' ({a} + (E + R)) ∧ Agrees R h h' ∧
      Emptied h' E ∧ Multiset.card E = strandedBy es := by
  obtain ⟨tail, htail, hsplit⟩ := hes.split
  cases hlive : live es with
  | nil =>
    rw [hlive, List.map_nil, List.nil_append] at hsplit
    subst hsplit
    rcases Chained.tail hc htail with ⟨-, -, hp⟩ | ⟨b, rfl, rfl, hb, he⟩
    · cases hp
    cases hb
    refine ⟨h, 0, ?_, hex.of_eq ?_, Agrees.refl R h, fun b hb => absurd hb (Multiset.notMem_zero b), ?_⟩
    · rw [freeChain, he]
      rfl
    · simp only [own_cons, own_nil, HashmapEntry.zero, ptr_none]
      abel
    · rw [strandedBy, if_pos hlive]
      rfl
  | cons c ps =>
    rw [hlive, List.map_cons, List.cons_append] at hsplit
    rw [hsplit] at hc
    obtain ⟨b, e, l, rfl, -⟩ := Seg.of_cons hc
    obtain ⟨fuel, hfuel⟩ := fuel_of_chained hc hex
    obtain ⟨kp, h₁, h₂, hb, he, hk, hf₁, hf₂, hex₂, hc₂, hag₂⟩ := free_entry hex hc
    cases hb
    obtain ⟨h', E, hfree, hex', hag', hemp, hcard⟩ := freeLinked_spec (R := {a} + R) htail
      (hex₂.of_eq (by abel)) hc₂ fuel
    refine ⟨h', E, ?_, hex'.of_eq (by abel), hag₂.trans hag'.right, hemp, ?_⟩
    · rw [hfuel, freeChain, he]
      simp only [hk, hf₁, Option.bind_some, hf₂, if_true]
      exact hfree
    · rw [hcard, strandedBy_eq hsplit hlive]

/-- **The loop of `hashmap_destroy`.** -/
theorem freeTable_spec {base : Nat} {nodes : Nat → List (Nat × HashmapEntry)} {chains : Nat → Chain κ ν}
    (R : Multiset Nat) :
    ∀ (is : List Nat) {h : Heap κ ν}, Slots h base nodes chains is →
      Exactly h ((is.map fun i => own (nodes i)).sum + R) →
      ∃ h' E, is.foldlM (fun h i => freeChain (h.fresh + 1) h (some (base + i)) true) h = some h' ∧
        Exactly h' ((is.map fun i => ({base + i} : Multiset Nat)).sum + (E + R)) ∧ Agrees R h h' ∧ Emptied h' E ∧
        Multiset.card E = (is.map fun i => strandedBy (chains i)).sum
  | [], h, _, hex =>
    ⟨h, 0, rfl, hex.of_eq (by simp), Agrees.refl R h, fun a ha => absurd ha (Multiset.notMem_zero a), rfl⟩
  | i :: is, h, hs, hex => by
    obtain ⟨hes, hc⟩ := hs i (List.mem_cons_self ..)
    obtain ⟨h₁, E₁, hf₁, hex₁, hag₁, hemp₁, hcard₁⟩ := freeSlot_spec (R := (is.map fun i => own (nodes i)).sum + R) hes
      (hex.of_eq (by
        rw [List.map_cons, List.sum_cons]
        abel)) hc
    obtain ⟨h₂, E₂, hf₂, hex₂, hag₂, hemp₂, hcard₂⟩ := freeTable_spec ({base + i} + (E₁ + R)) is (hs.tail hag₁.left)
      (hex₁.of_eq (by abel))
    refine ⟨h₂, E₁ + E₂, ?_, hex₂.of_eq ?_, hag₁.right.trans hag₂.right.right, ?_, ?_⟩
    · rw [List.foldlM_cons]
      simp only [bind, hf₁, Option.bind_some]
      exact hf₂
    · rw [List.map_cons, List.sum_cons]
      abel
    · intro a ha
      rcases Multiset.mem_add.1 ha with ha | ha
      · exact hemp₁.congr hag₂.right.left a ha
      · exact hemp₂ a ha
    · rw [Multiset.card_add, hcard₁, hcard₂, List.map_cons, List.sum_cons]

/-- **Destroying a map** frees all it owns but the emptied entries at the ends of its chains. -/
theorem destroy_spec {m : HeapMap} {M : Hashmap κ ν} (hr : Represents h m M R) (hlinked : ∀ i, WellLinked (M.table i)) :
    ∃ h' E, destroy h m = some h' ∧ Exactly h' (E + R) ∧ Agrees R h h' ∧ Emptied h' E ∧
      Multiset.card E = strandedTotal M := by
  obtain ⟨nodes, table, rfl, ht⟩ := hr.elim
  obtain ⟨h₁, E, hf₁, hex₁, hag₁, hemp₁, hcard₁⟩ := freeTable_spec R (List.range M.tableSize)
    (Represents.slots (m := ⟨M.count, M.tableSize, M.maxSize, table⟩) hlinked ht)
    (ht.account.of_eq (by rw [total_eq]))
  rw [← cells_eq] at hex₁
  obtain ⟨h₂, hf₂, hex₂, hag₂⟩ := hex₁.freeArray
  refine ⟨h₂, E, ?_, hex₂, hag₁.trans hag₂.right, hemp₁.congr hag₂.left, hcard₁⟩
  rw [destroy, hf₁, Option.bind_some, hf₂]

/-- The map that `hashmap_init` creates. -/
theorem init_spec (hex : Exactly h R) (initialSize : Int) :
    ∃ h' m, init h initialSize = (h', m) ∧ Represents h' m (Hashmap.init initialSize) R ∧ Agrees R h h' := by
  obtain ⟨nodes, ht, hag⟩ := table_alloc hex (Hashmap.init initialSize : Hashmap κ ν).tableSize
  exact ⟨_, _, rfl, ⟨⟨nodes, ht⟩, rfl, rfl, rfl⟩, hag⟩

end

/-! ## Iteration with a callback that reads -/

section
variable {σ : Type} {heap : σ → Heap κ ν} {map : σ → HeapMap} {cb : σ → Nat → Option Nat → Option (σ × Bool)}
  {f : σ → κ × ν → σ}

/-- The callback reads the key and the record it is called with, does `f` with them, and leaves the memory as it is. -/
structure Reads (heap : σ → Heap κ ν) (map : σ → HeapMap) (cb : σ → Nat → Option Nat → Option (σ × Bool))
    (f : σ → κ × ν → σ) : Prop where
  callback : ∀ {st kp vp k x}, (heap st).get kp = some (.key k) → (heap st).get vp = some (.value x) →
    cb st kp (some vp) = some (f st (k, x), false)
  heap_eq : ∀ st p, heap (f st p) = heap st
  map_eq : ∀ st p, map (f st p) = map st

theorem Reads.foldl_heap (hf : Reads heap map cb f) :
    ∀ (ps : List (κ × ν)) (st : σ), heap (ps.foldl f st) = heap st ∧ map (ps.foldl f st) = map st
  | [], _ => ⟨rfl, rfl⟩
  | p :: ps, st => by
    obtain ⟨h1, h2⟩ := Reads.foldl_heap hf ps (f st p)
    exact ⟨h1.trans (hf.heap_eq st p), h2.trans (hf.map_eq st p)⟩

theorem iterChain_reads (hf : Reads heap map cb f) {tail : Chain κ ν} (htail : Tail tail) (fuel : Nat) :
    ∀ (ps : List (κ × ν)) {st : σ} {p : Option Nat} {l : List (Nat × HashmapEntry)},
      Chained (heap st) p l (ps.map some ++ tail) none →
      iterChain heap cb (ps.length + (fuel + 1)) p st = some (ps.foldl f st, false)
  | [], st, p, l, hc => by
    rw [List.length_nil, Nat.zero_add]
    rcases Chained.tail hc htail with ⟨-, -, rfl⟩ | ⟨a, -, -, rfl, he⟩
    · rfl
    · rw [iterChain, he]
      rfl
  | c :: ps, st, p, l, hc => by
    obtain ⟨a, e, l, rfl, rfl, he, ⟨kp, vp, hk, hv, hgk, hgv⟩, hrest⟩ := Seg.of_cons hc
    have hlen : (c :: ps).length + (fuel + 1) = (ps.length + (fuel + 1)) + 1 := by
      rw [List.length_cons]
      omega
    have hheap := hf.heap_eq st c
    have he' : entryAt (heap (f st c)) a = some e := by rw [hheap, he]
    rw [← hheap] at hrest
    rw [hlen, iterChain, he]
    simp only [hk, hv, hf.callback hgk hgv, he', Option.bind_some]
    exact iterChain_reads hf htail fuel ps hrest

/-- **An iteration with such a callback** calls it with every entry of the map, in the order of the table. -/
theorem iterFrom_reads (hf : Reads heap map cb f) {table size : Nat} {chains : Nat → Chain κ ν}
    (hlinked : ∀ i, WellLinked (chains i)) {nodes : Nat → List (Nat × HashmapEntry)} {R : Multiset Nat} :
    ∀ (n i : Nat) (st : σ), Table (heap st) table size chains nodes R → (map st).table = table →
      (map st).tableSize = size → i + n = size →
      iterFrom heap map cb (n + 1) i st =
        some (((List.range' i n).flatMap fun i => live (chains i)).foldl f st, false)
  | 0, i, st, ht, htable, hsize, hi => by
    rw [iterFrom, if_neg (by omega)]
    rfl
  | n + 1, i, st, ht, htable, hsize, hi => by
    have hlt : i < size := by omega
    obtain ⟨tail, htail, hsplit⟩ := (hlinked i).split
    have hc := ht.chained i hlt
    have hle := length_le_fresh (ht.account_at hlt)
    have hlen := Seg.length_eq hc
    rw [hsplit, List.length_append, List.length_map] at hlen
    obtain ⟨fuel, hfuel⟩ : ∃ k, (heap st).fresh = (live (chains i)).length + k :=
      ⟨_, (Nat.add_sub_of_le (by omega)).symm⟩
    rw [hsplit] at hc
    obtain ⟨hheap, hmap⟩ := hf.foldl_heap (live (chains i)) st
    have hrest := iterFrom_reads hf hlinked n (i + 1) ((live (chains i)).foldl f st)
      (by rw [hheap]; exact ht) (by rw [hmap, htable]) (by rw [hmap, hsize]) (by omega)
    rw [iterFrom, if_pos (by omega), htable, hfuel, Nat.add_assoc, iterChain_reads hf htail fuel _ hc]
    simp only [hrest]
    rw [List.range'_succ, List.flatMap_cons, List.foldl_append]

theorem iter_reads (hf : Reads heap map cb f) {M : Hashmap κ ν} {R : Multiset Nat} {st : σ}
    (hr : Represents (heap st) (map st) M R) (hlinked : ∀ i, WellLinked (M.table i)) :
    iter heap map cb st = some (M.pairs.foldl f st, false) := by
  obtain ⟨nodes, ht⟩ := hr.table
  rw [hr.tableSize_eq] at ht
  rw [iter, hr.tableSize_eq, iterFrom_reads hf hlinked M.tableSize 0 st ht rfl hr.tableSize_eq (Nat.zero_add _),
    Hashmap.pairs, List.range_eq_range']

end

end HeapMap

end Lte
