import Mathlib.Data.List.Basic
import Mathlib.Algebra.BigOperators.Group.Finset.Basic
/-!
# Hashmap — `lib/hashmap.c`

A table of chains: the first entry of a chain lies in the table, the others are linked after it, and a search stops at
the first entry without a key.  `hashmap_delete` never assigns its `last_entry`, so it always acts as in the table:
it moves the next entry's contents up, or leaves the last entry of the chain without a key.  `WellLinked` is what the
chains keep: their live entries, then at most one empty one at the end.
-/
namespace Lte

/-- A `hashmap_entry` without its link: a key and its value, or `NULL` for both. -/
abbrev Entry (κ ν : Type) := Option (κ × ν)

/-- The entries reached from a pointer, in the order of the links; `[]` is `NULL`. -/
abbrev Chain (κ ν : Type) := List (Entry κ ν)

structure Hashmap (κ ν : Type) where
  count : Nat
  tableSize : Nat
  maxSize : Nat
  table : Nat → Chain κ ν

/-- `DEFAULT_CAPACITY` -/
def defaultCapacity : Nat := 128

namespace Chain

variable {κ ν : Type} [DecidableEq κ]

/-- The loop of `hashmap_get`. -/
def scan (key : κ) : Chain κ ν → Option ν
  | [] => none
  | none :: _ => none
  | some (k, v) :: es => if k = key then some v else scan key es

/-- The rest of the loop of `hashmap_insert_table` once there is a `last_entry`: a new entry takes the place of
whatever it ends at. -/
def insertLinked (key : κ) (value : ν) (shouldCmp : Bool) : Chain κ ν → Chain κ ν × Bool
  | [] => ([some (key, value)], true)
  | none :: _ => ([some (key, value)], true)
  | some (k, v) :: es =>
    if shouldCmp ∧ k = key then (some (k, value) :: es, false)
    else
      match insertLinked key value shouldCmp es with
      | (es, new) => (some (k, v) :: es, new)

/-- `hashmap_insert_table` on the chain of its index: an empty table slot is filled in place. -/
def insert (key : κ) (value : ν) (shouldCmp : Bool) : Chain κ ν → Chain κ ν × Bool
  | [] => ([], false)
  | none :: es => (some (key, value) :: es, true)
  | some (k, v) :: es => insertLinked key value shouldCmp (some (k, v) :: es)

/-- `hashmap_delete` on the chain of its index, `none` when the key is not found. -/
def delete (key : κ) : Chain κ ν → Option (Chain κ ν)
  | [] => none
  | none :: _ => none
  | some (k, v) :: es =>
    if k = key then
      match es with
      | n :: es => some (n :: es)
      | [] => some [none]
    else (delete key es).map (some (k, v) :: ·)

/-- The entries a walk visits: those before the first without a key. -/
def live : Chain κ ν → List (κ × ν)
  | [] => []
  | none :: _ => []
  | some p :: es => p :: live es

end Chain

namespace Hashmap

variable {κ ν : Type} [DecidableEq κ] (hash : κ → UInt64)

/-- `calloc` of a table: every slot is an entry without a key. -/
def emptyTable : Nat → Chain κ ν := fun _ => [none]

/-- `out[1] % table_size` -/
def index (size : Nat) (key : κ) : Nat := (hash key).toNat % size

def init (initialSize : Int) : Hashmap κ ν :=
  let size :=
    if initialSize ≤ 0 then defaultCapacity
    else
      let mostSigBit := initialSize.toNat.log2
      if 2 ^ mostSigBit ≠ initialSize.toNat then 2 ^ (mostSigBit + 1) else 2 ^ mostSigBit
  { count := 0, tableSize := size, maxSize := size * 3 / 4, table := emptyTable }

def get (m : Hashmap κ ν) (key : κ) : Option ν := Chain.scan key (m.table (index hash m.tableSize key))

/-- `hashmap_insert_table` -/
def insertTable (size : Nat) (shouldCmp : Bool) (table : Nat → Chain κ ν) (p : κ × ν) : (Nat → Chain κ ν) × Bool :=
  match Chain.insert p.1 p.2 shouldCmp (table (index hash size p.1)) with
  | (es, new) => (Function.update table (index hash size p.1) es, new)

/-- The entries of the table, in the order of the loops over it. -/
def pairs (m : Hashmap κ ν) : List (κ × ν) := (List.range m.tableSize).flatMap (fun i => Chain.live (m.table i))

def doubleSize (m : Hashmap κ ν) : Hashmap κ ν :=
  { count := m.count
    tableSize := m.tableSize * 2
    maxSize := m.maxSize * 2
    table := m.pairs.foldl (fun table p => (insertTable hash (m.tableSize * 2) false table p).1) emptyTable }

/-- `hashmap_put`, its calls of itself bounded by the fuel. -/
def put : Nat → Hashmap κ ν → κ → ν → Option (Hashmap κ ν × Bool)
  | 0, _, _, _ => none
  | fuel + 1, m, key, value =>
    if m.count + 1 > m.maxSize then put fuel (doubleSize hash m) key value
    else
      match insertTable hash m.tableSize true m.table (key, value) with
      | (table, new) => some ({ m with table := table, count := if new then m.count + 1 else m.count }, new)

/-- `hashmap_delete`; the map as it was when the key is not found. -/
def delete (m : Hashmap κ ν) (key : κ) : Hashmap κ ν :=
  match Chain.delete key (m.table (index hash m.tableSize key)) with
  | none => m
  | some es =>
    { m with count := m.count - 1, table := Function.update m.table (index hash m.tableSize key) es }

end Hashmap

/-! ## The chains -/

namespace Chain

variable {κ ν : Type}

/-- Live entries, then at most one entry without a key; and the entry in the table is always there. -/
structure WellLinked (es : Chain κ ν) : Prop where
  ne_nil : es ≠ []
  shape : es = (live es).map some ∨ es = (live es).map some ++ [none]

@[simp] theorem live_map_some (ps : List (κ × ν)) : live (ps.map some) = ps := by
  induction ps with
  | nil => rfl
  | cons p ps ih => rw [List.map_cons, live, ih]

@[simp] theorem live_map_some_none (ps : List (κ × ν)) : live (ps.map some ++ [none]) = ps := by
  induction ps with
  | nil => rfl
  | cons p ps ih => rw [List.map_cons, List.cons_append, live, ih]

theorem wellLinked_empty : WellLinked ([none] : Chain κ ν) := ⟨by simp, .inr rfl⟩

/-- What may stand behind the live entries of a chain. -/
abbrev Tail (tail : Chain κ ν) : Prop := tail = [] ∨ tail = [none]

theorem live_append {tail : Chain κ ν} (ht : Tail tail) (ps : List (κ × ν)) : live (ps.map some ++ tail) = ps := by
  rcases ht with rfl | rfl
  · rw [List.append_nil, live_map_some]
  · exact live_map_some_none ps

theorem WellLinked.split {es : Chain κ ν} (h : WellLinked es) : ∃ tail, Tail tail ∧ es = (live es).map some ++ tail := by
  rcases h.shape with h | h
  · exact ⟨[], .inl rfl, by rw [List.append_nil]; exact h⟩
  · exact ⟨[none], .inr rfl, h⟩

theorem wellLinked_append {ps : List (κ × ν)} {tail : Chain κ ν} (ht : Tail tail) (hne : ps.map some ++ tail ≠ []) :
    WellLinked (ps.map some ++ tail) := by
  refine ⟨hne, ?_⟩
  rw [live_append ht]
  rcases ht with rfl | rfl
  · exact .inl (List.append_nil _)
  · exact .inr rfl

theorem wellLinked_none {es : Chain κ ν} (h : WellLinked (none :: es)) : es = [] := by
  rcases h.shape with h | h
  · cases h
  · exact (List.cons.inj h).2

/-- The keys a walk visits. -/
def keys (es : Chain κ ν) : List κ := (live es).map Prod.fst

theorem mem_keys {es : Chain κ ν} {k : κ} : k ∈ keys es ↔ ∃ v, (k, v) ∈ live es := by
  unfold keys
  rw [List.mem_map]
  exact ⟨fun ⟨p, hp, he⟩ => ⟨p.2, he ▸ hp⟩, fun ⟨v, hv⟩ => ⟨(k, v), hv, rfl⟩⟩

theorem mem_keys_of_mem {es : Chain κ ν} {p : κ × ν} (h : p ∈ live es) : p.1 ∈ keys es := mem_keys.2 ⟨p.2, h⟩

variable [DecidableEq κ]

theorem mem_of_scan {es : Chain κ ν} {k : κ} {v : ν} (h : scan k es = some v) : (k, v) ∈ live es := by
  induction es with
  | nil => cases h
  | cons e es ih =>
    cases e with
    | none => cases h
    | some p =>
      simp only [scan] at h
      by_cases hk : p.1 = k
      · rw [if_pos hk] at h
        cases h
        exact List.mem_cons.2 (.inl (by rw [← hk]))
      · rw [if_neg hk] at h
        exact List.mem_cons_of_mem p (ih h)

/-- **A search finds the entry of its key**, when no key occurs twice. -/
theorem scan_eq_some {es : Chain κ ν} (hnd : (keys es).Nodup) {k : κ} {v : ν} :
    scan k es = some v ↔ (k, v) ∈ live es := by
  refine ⟨mem_of_scan, fun h => ?_⟩
  induction es with
  | nil => cases h
  | cons e es ih =>
    cases e with
    | none => cases h
    | some p =>
      obtain ⟨hfresh, hnd⟩ := List.nodup_cons.1 hnd
      simp only [scan]
      rcases List.mem_cons.1 h with rfl | h
      · rw [if_pos rfl]
      · have hne : p.1 ≠ k := fun he => hfresh (he ▸ mem_keys_of_mem h)
        rw [if_neg hne]
        exact ih hnd h

/-! A new key goes to the end of the walk. -/

theorem insertLinked_new {es : Chain κ ν} {k : κ} (v : ν) {shouldCmp : Bool} (h : shouldCmp = true → k ∉ keys es) :
    insertLinked k v shouldCmp es = ((live es ++ [(k, v)]).map some, true) := by
  induction es with
  | nil => rfl
  | cons e es ih =>
    cases e with
    | none => rfl
    | some p =>
      have hne : ¬ (shouldCmp = true ∧ p.1 = k) := by
        rintro ⟨hc, rfl⟩
        exact h hc (List.mem_cons_self ..)
      have hrest : shouldCmp = true → k ∉ keys es := fun hc hm => h hc (List.mem_cons_of_mem _ hm)
      simp only [insertLinked, if_neg hne, ih hrest, live, List.cons_append, List.map_cons]

theorem insert_new {es : Chain κ ν} (hes : WellLinked es) {k : κ} (v : ν) {shouldCmp : Bool}
    (h : shouldCmp = true → k ∉ keys es) :
    insert k v shouldCmp es = ((live es ++ [(k, v)]).map some, true) := by
  rcases es with _ | ⟨_ | p, es⟩
  · exact absurd rfl hes.ne_nil
  · rw [wellLinked_none hes]
    rfl
  · exact insertLinked_new v h

/-! A known key keeps its place. -/

/-- The pair `p`, with the value of the key `k` replaced. -/
def replace (k : κ) (v : ν) (p : κ × ν) : κ × ν := if p.1 = k then (p.1, v) else p

theorem replace_fst (k : κ) (v : ν) (p : κ × ν) : (replace k v p).1 = p.1 := by
  unfold replace
  by_cases h : p.1 = k
  · rw [if_pos h]
  · rw [if_neg h]

theorem map_replace_of_notMem {ps : List (κ × ν)} {k : κ} (v : ν) (h : k ∉ ps.map Prod.fst) :
    ps.map (replace k v) = ps := by
  rw [List.map_congr_left (g := id), List.map_id]
  intro p hp
  have hne : p.1 ≠ k := fun he => h (he ▸ List.mem_map_of_mem hp)
  exact if_neg hne

theorem insertLinked_known {ps : List (κ × ν)} (hnd : (ps.map Prod.fst).Nodup) {k : κ} (v : ν)
    (h : k ∈ ps.map Prod.fst) (tail : Chain κ ν) :
    insertLinked k v true (ps.map some ++ tail) = ((ps.map (replace k v)).map some ++ tail, false) := by
  induction ps with
  | nil => cases h
  | cons p ps ih =>
    obtain ⟨hfresh, hnd⟩ := List.nodup_cons.1 hnd
    simp only [List.map_cons, List.cons_append, insertLinked]
    by_cases hk : p.1 = k
    · subst hk
      have hp : replace p.1 v p = (p.1, v) := if_pos rfl
      rw [if_pos ⟨trivial, rfl⟩, hp, map_replace_of_notMem v hfresh]
    · have hin : k ∈ ps.map Prod.fst := (List.mem_cons.1 h).resolve_left (Ne.symm hk)
      have hp : replace k v p = p := if_neg hk
      rw [if_neg (fun hc => hk hc.2), ih hnd hin, hp]

theorem insert_known {es : Chain κ ν} (hes : WellLinked es) (hnd : (keys es).Nodup) {k : κ} (v : ν)
    (h : k ∈ keys es) :
    ∃ tail, Tail tail ∧ es = (live es).map some ++ tail ∧
      insert k v true es = (((live es).map (replace k v)).map some ++ tail, false) := by
  obtain ⟨tail, ht, hs⟩ := hes.split
  refine ⟨tail, ht, hs, ?_⟩
  have hin := insertLinked_known hnd v h tail
  rw [← hs] at hin
  rw [← hin]
  rcases es with _ | ⟨_ | p, es⟩
  · cases h
  · cases h
  · rfl

/-! A deleted key leaves its place to the next entry. -/

theorem delete_unknown {es : Chain κ ν} {k : κ} (h : k ∉ keys es) : delete k es = none := by
  induction es with
  | nil => rfl
  | cons e es ih =>
    cases e with
    | none => rfl
    | some p =>
      have hne : p.1 ≠ k := fun he => h (List.mem_cons.2 (.inl he.symm))
      have hrest : k ∉ keys es := fun hm => h (List.mem_cons_of_mem _ hm)
      simp only [delete, if_neg hne, ih hrest, Option.map_none]

/-- The pairs of a chain without those of the key `k`. -/
def without (k : κ) (ps : List (κ × ν)) : List (κ × ν) := ps.filter (fun p => p.1 ≠ k)

theorem without_of_notMem {ps : List (κ × ν)} {k : κ} (h : k ∉ ps.map Prod.fst) : without k ps = ps := by
  refine List.filter_eq_self.2 fun p hp => ?_
  have hne : p.1 ≠ k := fun he => h (he ▸ List.mem_map_of_mem hp)
  exact decide_eq_true hne

theorem delete_append {ps : List (κ × ν)} (hnd : (ps.map Prod.fst).Nodup) {k : κ} (h : k ∈ ps.map Prod.fst)
    {tail : Chain κ ν} (ht : Tail tail) :
    ∃ tail', Tail tail' ∧ delete k (ps.map some ++ tail) = some ((without k ps).map some ++ tail') ∧
      (without k ps).map some ++ tail' ≠ [] := by
  induction ps with
  | nil => cases h
  | cons p ps ih =>
    obtain ⟨hfresh, hnd⟩ := List.nodup_cons.1 hnd
    simp only [List.map_cons, List.cons_append, delete]
    by_cases hk : p.1 = k
    · subst hk
      have hw : without p.1 (p :: ps) = ps := by
        rw [without, List.filter_cons_of_neg (by simp)]
        exact without_of_notMem hfresh
      rw [if_pos rfl, hw]
      cases hc : ps.map some ++ tail with
      | cons n es => exact ⟨tail, ht, by rw [hc], by rw [hc]; simp⟩
      | nil =>
        -- the last entry of the chain: it stays in place without a key
        have hps : ps = [] := List.map_eq_nil_iff.1 (List.append_eq_nil_iff.1 hc).1
        exact ⟨[none], .inr rfl, by rw [hps]; rfl, by simp⟩
    · have hin : k ∈ ps.map Prod.fst := (List.mem_cons.1 h).resolve_left (Ne.symm hk)
      obtain ⟨tail', ht', hd, -⟩ := ih hnd hin
      have hw : without k (p :: ps) = p :: without k ps := List.filter_cons_of_pos (decide_eq_true hk)
      refine ⟨tail', ht', ?_, ?_⟩
      · rw [if_neg hk, hd, hw]
        rfl
      · rw [hw]
        simp

/-- **Deleting a key takes its pair out of the walk** and leaves the chain well linked. -/
theorem delete_known {es : Chain κ ν} (hes : WellLinked es) (hnd : (keys es).Nodup) {k : κ} (h : k ∈ keys es) :
    ∃ es', delete k es = some es' ∧ WellLinked es' ∧ live es' = without k (live es) := by
  obtain ⟨tail, ht, hs⟩ := hes.split
  obtain ⟨tail', ht', hd, hne⟩ := delete_append hnd h ht
  rw [← hs] at hd
  exact ⟨_, hd, wellLinked_append ht' hne, live_append ht' _⟩

/-- What an insertion leaves of a chain, when a key that is there already is compared. -/
theorem insert_spec {es : Chain κ ν} (hes : WellLinked es) (hnd : (keys es).Nodup) {k : κ} (v : ν) {shouldCmp : Bool}
    (hcmp : shouldCmp = false → k ∉ keys es) :
    WellLinked (insert k v shouldCmp es).1 ∧ (insert k v shouldCmp es).2 = decide (k ∉ keys es) ∧
      live (insert k v shouldCmp es).1 =
        if k ∈ keys es then (live es).map (replace k v) else live es ++ [(k, v)] := by
  by_cases h : k ∈ keys es
  · have htrue : shouldCmp = true := by
      by_contra hc
      exact hcmp (Bool.eq_false_iff.2 hc) h
    obtain ⟨tail, ht, hs, hin⟩ := insert_known hes hnd v h
    have hne : ((live es).map (replace k v)).map some ++ tail ≠ [] := by
      intro he
      obtain ⟨p, hp⟩ := mem_keys.1 h
      have hnil := List.map_eq_nil_iff.1 (List.map_eq_nil_iff.1 (List.append_eq_nil_iff.1 he).1)
      rw [hnil] at hp
      cases hp
    rw [htrue, hin, if_pos h]
    exact ⟨wellLinked_append ht hne, by simp [h], live_append ht _⟩
  · rw [insert_new hes v (fun _ => h), if_neg h]
    refine ⟨⟨by simp, .inl ?_⟩, by simp [h], live_map_some _⟩
    rw [live_map_some]

theorem mem_replaced {ps : List (κ × ν)} {k k' : κ} {v v' : ν} (h : k ∈ ps.map Prod.fst) :
    (k', v') ∈ ps.map (replace k v) ↔ if k' = k then v' = v else (k', v') ∈ ps := by
  rw [List.mem_map]
  by_cases hk : k' = k
  · subst hk
    rw [if_pos rfl]
    constructor
    · rintro ⟨p, hp, he⟩
      have hpk : p.1 = k' := by rw [← replace_fst k' v p, he]
      rw [replace, if_pos hpk] at he
      exact (Prod.mk.inj he).2.symm
    · rintro rfl
      obtain ⟨p, hp, he⟩ := List.mem_map.1 h
      exact ⟨p, hp, by rw [replace, if_pos he, he]⟩
  · rw [if_neg hk]
    constructor
    · rintro ⟨p, hp, he⟩
      have hpk : p.1 ≠ k := by rw [← replace_fst k v p, he]; exact hk
      rw [replace, if_neg hpk] at he
      exact he ▸ hp
    · exact fun hp => ⟨(k', v'), hp, if_neg hk⟩

/-- **A search after an insertion** finds the new value under its key and the old ones elsewhere. -/
theorem scan_insert {es : Chain κ ν} (hes : WellLinked es) (hnd : (keys es).Nodup) {k : κ} (v : ν) {shouldCmp : Bool}
    (hcmp : shouldCmp = false → k ∉ keys es) :
    (keys (insert k v shouldCmp es).1).Nodup ∧
      ∀ k', scan k' (insert k v shouldCmp es).1 = if k' = k then some v else scan k' es := by
  obtain ⟨-, -, hl⟩ := insert_spec hes hnd v hcmp
  have hnd' : (keys (insert k v shouldCmp es).1).Nodup := by
    rw [keys, hl]
    by_cases h : k ∈ keys es
    · have hf : Prod.fst ∘ replace k v = (Prod.fst : κ × ν → κ) := funext (replace_fst k v)
      rw [if_pos h, List.map_map, hf]
      exact hnd
    · rw [if_neg h, List.map_append]
      exact List.nodup_append.2 ⟨hnd, List.nodup_singleton k, fun a ha b hb hab => h (by
        rw [List.map_singleton, List.mem_singleton] at hb
        rwa [hab, hb] at ha)⟩
  refine ⟨hnd', fun k' => ?_⟩
  apply Option.ext
  intro v'
  rw [scan_eq_some hnd', hl]
  by_cases h : k ∈ keys es
  · rw [if_pos h, mem_replaced h]
    by_cases hk : k' = k
    · rw [if_pos hk, if_pos hk, Option.some.injEq]
      exact eq_comm
    · rw [if_neg hk, if_neg hk, scan_eq_some hnd]
  · rw [if_neg h, List.mem_append, List.mem_singleton, Prod.mk.injEq]
    by_cases hk : k' = k
    · subst hk
      rw [if_pos rfl, Option.some.injEq]
      exact ⟨fun hm => (hm.resolve_left fun hm => h (mem_keys.2 ⟨v', hm⟩)).2.symm, fun he => .inr ⟨rfl, he.symm⟩⟩
    · rw [if_neg hk, scan_eq_some hnd]
      exact ⟨fun hm => hm.resolve_right fun hm => hk hm.1, .inl⟩

theorem scan_eq_none {es : Chain κ ν} (hnd : (keys es).Nodup) {k : κ} : scan k es = none ↔ k ∉ keys es := by
  rw [Option.eq_none_iff_forall_ne_some, mem_keys]
  exact ⟨fun h ⟨v, hv⟩ => h v ((scan_eq_some hnd).2 hv), fun h v hv => h ⟨v, mem_of_scan hv⟩⟩

theorem mem_without {ps : List (κ × ν)} {k : κ} {p : κ × ν} : p ∈ without k ps ↔ p ∈ ps ∧ p.1 ≠ k := by
  rw [without, List.mem_filter, decide_eq_true_iff]

theorem scan_without {es es' : Chain κ ν} (hnd : (keys es).Nodup) {k : κ} (hl : live es' = without k (live es)) :
    (keys es').Nodup ∧ ∀ k', scan k' es' = if k' = k then none else scan k' es := by
  have hnd' : (keys es').Nodup := by
    rw [keys, hl]
    exact (List.filter_sublist.map Prod.fst).nodup hnd
  refine ⟨hnd', fun k' => ?_⟩
  apply Option.ext
  intro v'
  rw [scan_eq_some hnd', hl, mem_without]
  by_cases hk : k' = k
  · rw [if_pos hk]
    exact ⟨fun h => absurd hk h.2, fun h => by cases h⟩
  · rw [if_neg hk, scan_eq_some hnd]
    exact ⟨fun h => h.1, fun h => ⟨h, hk⟩⟩

end Chain

namespace Hashmap

open Chain

variable {κ ν : Type} {hash : κ → UInt64}

/-- **What the table keeps**: well-linked chains without a repeated key, every key in the chain of its index. -/
structure Buckets (hash : κ → UInt64) (size : Nat) (table : Nat → Chain κ ν) : Prop where
  linked : ∀ i, WellLinked (table i)
  unique : ∀ i, (Chain.keys (table i)).Nodup
  placed : ∀ i k, k ∈ Chain.keys (table i) → index hash size k = i

theorem buckets_emptyTable (hash : κ → UInt64) (size : Nat) : Buckets hash size (emptyTable : Nat → Chain κ ν) :=
  ⟨fun _ => wellLinked_empty, fun _ => List.nodup_nil, fun _ _ h => by cases h⟩

/-- One chain, that of the key `k`, is replaced. -/
theorem Buckets.update {size : Nat} {table : Nat → Chain κ ν} (h : Buckets hash size table) {k : κ} {es : Chain κ ν}
    (hes : WellLinked es) (hnd : (Chain.keys es).Nodup) (hsub : ∀ k' ∈ Chain.keys es, k' = k ∨
      k' ∈ Chain.keys (table (index hash size k))) :
    Buckets hash size (Function.update table (index hash size k) es) := by
  refine ⟨fun i => ?_, fun i => ?_, fun i k' hk' => ?_⟩
  · by_cases hi : i = index hash size k
    · rw [hi, Function.update_self]
      exact hes
    · rw [Function.update_of_ne hi]
      exact h.linked i
  · by_cases hi : i = index hash size k
    · rw [hi, Function.update_self]
      exact hnd
    · rw [Function.update_of_ne hi]
      exact h.unique i
  · by_cases hi : i = index hash size k
    · rw [hi, Function.update_self] at hk'
      rw [hi]
      rcases hsub k' hk' with rfl | hk'
      · rfl
      · exact h.placed _ k' hk'
    · rw [Function.update_of_ne hi] at hk'
      exact h.placed i k' hk'

theorem index_lt {size : Nat} (h : 0 < size) (k : κ) : index hash size k < size := Nat.mod_lt _ h

theorem nodup_pairs {m : Hashmap κ ν} (h : Buckets hash m.tableSize m.table) : (m.pairs.map Prod.fst).Nodup := by
  rw [pairs, List.map_flatMap, List.nodup_flatMap]
  refine ⟨fun i _ => h.unique i, List.nodup_range.imp ?_⟩
  intro i j hij k hi hj
  exact hij ((h.placed i k hi).symm.trans (h.placed j k hj))

variable [DecidableEq κ]

/-- The value a table holds for a key. -/
def find (hash : κ → UInt64) (size : Nat) (table : Nat → Chain κ ν) (k : κ) : Option ν :=
  scan k (table (index hash size k))

theorem Buckets.find_eq_some {size : Nat} {table : Nat → Chain κ ν} (h : Buckets hash size table) {k : κ} {v : ν} :
    find hash size table k = some v ↔ (k, v) ∈ live (table (index hash size k)) :=
  scan_eq_some (h.unique _)

/-- A change of the chain of `k` that changes the search for `k` only. -/
theorem find_update {size : Nat} {table : Nat → Chain κ ν} {k : κ} {es : Chain κ ν} {found : Option ν}
    (hes : ∀ k', scan k' es = if k' = k then found else scan k' (table (index hash size k))) (k' : κ) :
    find hash size (Function.update table (index hash size k) es) k' =
      if k' = k then found else find hash size table k' := by
  unfold find
  by_cases hi : index hash size k' = index hash size k
  · rw [hi, Function.update_self, hes]
  · have hne : k' ≠ k := fun he => hi (by rw [he])
    rw [Function.update_of_ne hi, if_neg hne]

theorem insertTable_spec {size : Nat} {table : Nat → Chain κ ν} (h : Buckets hash size table) {shouldCmp : Bool}
    (p : κ × ν) (hcmp : shouldCmp = false → find hash size table p.1 = none) :
    Buckets hash size (insertTable hash size shouldCmp table p).1 ∧
      (insertTable hash size shouldCmp table p).2 = (find hash size table p.1).isNone ∧
      ∀ k, find hash size (insertTable hash size shouldCmp table p).1 k =
        if k = p.1 then some p.2 else find hash size table k := by
  have hl := h.linked (index hash size p.1)
  have hnd := h.unique (index hash size p.1)
  have hcmp' : shouldCmp = false → p.1 ∉ Chain.keys (table (index hash size p.1)) :=
    fun hc => (scan_eq_none hnd).1 (hcmp hc)
  obtain ⟨hlinked, hnew, hlive⟩ := insert_spec hl hnd p.2 hcmp'
  obtain ⟨hnd', hscan⟩ := scan_insert hl hnd p.2 hcmp'
  refine ⟨h.update hlinked hnd' fun k hk => ?_, ?_, fun k => find_update hscan k⟩
  · by_cases hkp : k = p.1
    · exact .inl hkp
    · refine .inr ?_
      by_contra hno
      have hfound := hscan k
      rw [if_neg hkp, (scan_eq_none hnd).2 hno] at hfound
      exact (scan_eq_none hnd').1 hfound hk
  · refine hnew.trans ?_
    by_cases hin : p.1 ∈ Chain.keys (table (index hash size p.1))
    · obtain ⟨v, hv⟩ := mem_keys.1 hin
      rw [h.find_eq_some.2 hv]
      simp [hin]
    · have hnone : find hash size table p.1 = none := (scan_eq_none hnd).2 hin
      rw [hnone]
      simp [hin]

/-- **The entries of a fresh table** after a batch of insertions of different keys are those of the batch. -/
theorem rehash_spec {size : Nat} {ps : List (κ × ν)} (hnd : (ps.map Prod.fst).Nodup) {table : Nat → Chain κ ν}
    (h : Buckets hash size table) (hfresh : ∀ p ∈ ps, find hash size table p.1 = none) :
    Buckets hash size (ps.foldl (fun table p => (insertTable hash size false table p).1) table) ∧
      ∀ k v, find hash size (ps.foldl (fun table p => (insertTable hash size false table p).1) table) k = some v ↔
        find hash size table k = some v ∨ (k, v) ∈ ps := by
  induction ps generalizing table with
  | nil => exact ⟨h, fun k v => by simp⟩
  | cons p ps ih =>
    obtain ⟨hp, hnd⟩ := List.nodup_cons.1 hnd
    have hnone := hfresh p (List.mem_cons_self ..)
    obtain ⟨hb, -, hfind⟩ := insertTable_spec h p (fun _ => hnone)
    have hfresh' : ∀ q ∈ ps, find hash size (insertTable hash size false table p).1 q.1 = none := by
      intro q hq
      have hne : q.1 ≠ p.1 := fun he => hp (he ▸ List.mem_map_of_mem hq)
      rw [hfind, if_neg hne]
      exact hfresh q (List.mem_cons_of_mem p hq)
    obtain ⟨hb', hfind'⟩ := ih hnd hb hfresh'
    refine ⟨hb', fun k v => (hfind' k v).trans ?_⟩
    rw [hfind, List.mem_cons]
    by_cases hk : k = p.1
    · subst hk
      have hps : (p.1, v) ∉ ps := fun hm => hp (List.mem_map.2 ⟨_, hm, rfl⟩)
      rw [if_pos rfl, hnone, Option.some.injEq]
      constructor
      · rintro (rfl | hm)
        · exact .inr (.inl rfl)
        · exact absurd hm hps
      · rintro (hc | hc | hm)
        · cases hc
        · exact .inl (congrArg Prod.snd hc).symm
        · exact absurd hm hps
    · have hne : (k, v) ≠ p := fun he => hk (congrArg Prod.fst he)
      rw [if_neg hk]
      simp [hne]

/-- The keys of the map. -/
def keys (m : Hashmap κ ν) : Finset κ := (m.pairs.map Prod.fst).toFinset

/-- **The invariant of the map.** -/
structure WellFormed (hash : κ → UInt64) (m : Hashmap κ ν) : Prop where
  buckets : Buckets hash m.tableSize m.table
  positive : 0 < m.tableSize
  room : 1 ≤ m.maxSize
  fits : m.count ≤ m.maxSize
  count_eq : m.count = m.keys.card

theorem get_eq_find (m : Hashmap κ ν) (k : κ) : m.get hash k = find hash m.tableSize m.table k := rfl

theorem mem_pairs {m : Hashmap κ ν} (h : Buckets hash m.tableSize m.table) (hpos : 0 < m.tableSize) {k : κ} {v : ν} :
    (k, v) ∈ m.pairs ↔ m.get hash k = some v := by
  rw [get_eq_find, h.find_eq_some, pairs, List.mem_flatMap]
  constructor
  · rintro ⟨i, -, hi⟩
    rwa [h.placed i k (mem_keys_of_mem hi)]
  · exact fun hm => ⟨_, List.mem_range.2 (index_lt hpos k), hm⟩

theorem mem_keys_iff {m : Hashmap κ ν} (h : Buckets hash m.tableSize m.table) (hpos : 0 < m.tableSize) {k : κ} :
    k ∈ m.keys ↔ (m.get hash k).isSome := by
  rw [keys, List.mem_toFinset, List.mem_map, Option.isSome_iff_exists]
  constructor
  · rintro ⟨p, hp, rfl⟩
    exact ⟨p.2, (mem_pairs h hpos).1 hp⟩
  · rintro ⟨v, hv⟩
    exact ⟨(k, v), (mem_pairs h hpos).2 hv, rfl⟩

/-- **Doubling keeps the map.** -/
theorem doubleSize_spec {m : Hashmap κ ν} (h : WellFormed hash m) :
    WellFormed hash (m.doubleSize hash) ∧ ∀ k, (m.doubleSize hash).get hash k = m.get hash k := by
  have hpos : 0 < m.tableSize * 2 := Nat.mul_pos h.positive (by decide)
  obtain ⟨hb, hfind⟩ := rehash_spec (nodup_pairs h.buckets) (buckets_emptyTable hash (m.tableSize * 2))
    (fun _ _ => rfl)
  have hget : ∀ k, (m.doubleSize hash).get hash k = m.get hash k := by
    intro k
    apply Option.ext
    intro v
    refine (hfind k v).trans ?_
    rw [← mem_pairs h.buckets h.positive]
    exact ⟨fun hm => hm.resolve_left (fun hc => by cases hc), fun hm => .inr hm⟩
  refine ⟨⟨hb, hpos, ?_, ?_, ?_⟩, hget⟩
  · exact Nat.le_trans h.room (Nat.le_mul_of_pos_right _ (by decide))
  · exact Nat.le_trans h.fits (Nat.le_mul_of_pos_right _ (by decide))
  · have hkeys : (m.doubleSize hash).keys = m.keys := by
      ext k
      rw [mem_keys_iff hb hpos, mem_keys_iff h.buckets h.positive, hget]
    rw [hkeys]
    exact h.count_eq

theorem wellFormed_init : WellFormed hash (init 0 : Hashmap κ ν) where
  buckets := buckets_emptyTable hash _
  positive := (by decide : 0 < 128)
  room := (by decide : 1 ≤ 96)
  fits := Nat.zero_le _
  count_eq := by
    have hnone : (init 0 : Hashmap κ ν).pairs = [] := List.flatMap_eq_nil_iff.2 fun _ _ => rfl
    rw [keys, hnone]
    rfl

/-- What an insertion of `v` under `k` makes of a map. -/
structure Put (hash : κ → UInt64) (k : κ) (v : ν) (m m' : Hashmap κ ν) : Prop where
  wellFormed : WellFormed hash m'
  get_eq : ∀ k', m'.get hash k' = if k' = k then some v else m.get hash k'
  sizes : (m'.tableSize = m.tableSize ∧ m'.maxSize = m.maxSize) ∨
    (m.maxSize ≤ m.count ∧ m'.tableSize = m.tableSize * 2 ∧ m'.maxSize = m.maxSize * 2)

theorem keys_insert {m m' : Hashmap κ ν} (h : WellFormed hash m) (hb : Buckets hash m'.tableSize m'.table)
    (hpos : 0 < m'.tableSize) {k : κ} {v : ν}
    (hget : ∀ k', m'.get hash k' = if k' = k then some v else m.get hash k') : m'.keys = Insert.insert k m.keys := by
  ext k'
  rw [Finset.mem_insert, mem_keys_iff hb hpos, mem_keys_iff h.buckets h.positive, hget]
  by_cases hk : k' = k
  · simp [hk]
  · simp [hk]

theorem keys_erase {m m' : Hashmap κ ν} (h : WellFormed hash m) (hb : Buckets hash m'.tableSize m'.table)
    (hpos : 0 < m'.tableSize) {k : κ}
    (hget : ∀ k', m'.get hash k' = if k' = k then none else m.get hash k') : m'.keys = m.keys.erase k := by
  ext k'
  rw [Finset.mem_erase, mem_keys_iff hb hpos, mem_keys_iff h.buckets h.positive, hget]
  by_cases hk : k' = k
  · simp [hk]
  · simp [hk]

theorem put_of_room {m : Hashmap κ ν} (h : WellFormed hash m) (hroom : m.count + 1 ≤ m.maxSize) (k : κ) (v : ν) :
    ∃ m', (∀ fuel, m.put hash (fuel + 1) k v = some (m', (m.get hash k).isNone)) ∧ WellFormed hash m' ∧
      (∀ k', m'.get hash k' = if k' = k then some v else m.get hash k') ∧
      m'.tableSize = m.tableSize ∧ m'.maxSize = m.maxSize := by
  obtain ⟨hb, hnew, hfind⟩ := insertTable_spec h.buckets (k, v) (fun hc : true = false => by cases hc)
  obtain ⟨m', hm'⟩ : ∃ m', m' = { m with
      table := (insertTable hash m.tableSize true m.table (k, v)).1
      count := if (m.get hash k).isNone then m.count + 1 else m.count } := ⟨_, rfl⟩
  have hb' : Buckets hash m'.tableSize m'.table := by
    rw [hm']
    exact hb
  have hpos' : 0 < m'.tableSize := by
    rw [hm']
    exact h.positive
  have hget : ∀ k', m'.get hash k' = if k' = k then some v else m.get hash k' := by
    rw [hm']
    exact hfind
  have hcount : m'.count = if (m.get hash k).isNone then m.count + 1 else m.count := by rw [hm']
  have hmax : m'.maxSize = m.maxSize := by rw [hm']
  have hsize : m'.tableSize = m.tableSize := by rw [hm']
  refine ⟨m', fun fuel => ?_, ⟨hb', hpos', ?_, ?_, ?_⟩, hget, hsize, hmax⟩
  · rw [put, if_neg (by omega), hm']
    simp only [hnew]
    rfl
  · rw [hmax]
    exact h.room
  · have hfits := h.fits
    rw [hcount, hmax]
    split <;> omega
  · rw [hcount, keys_insert h hb' hpos' hget]
    by_cases hin : k ∈ m.keys
    · obtain ⟨v', hv'⟩ := Option.isSome_iff_exists.1 ((mem_keys_iff h.buckets h.positive).1 hin)
      rw [hv', Finset.insert_eq_of_mem hin]
      exact h.count_eq
    · have hnone : m.get hash k = none := by
        rwa [mem_keys_iff h.buckets h.positive, Option.not_isSome_iff_eq_none] at hin
      rw [hnone, Finset.card_insert_of_notMem hin, ← h.count_eq]
      rfl

/-- **A put ends after at most one doubling.** -/
theorem put_spec {m : Hashmap κ ν} (h : WellFormed hash m) (k : κ) (v : ν) :
    ∃ m', (∀ fuel, m.put hash (fuel + 2) k v = some (m', (m.get hash k).isNone)) ∧ Put hash k v m m' := by
  by_cases hroom : m.count + 1 ≤ m.maxSize
  · obtain ⟨m', hp, hwf, hget, hsizes⟩ := put_of_room h hroom k v
    exact ⟨m', fun fuel => hp (fuel + 1), hwf, hget, .inl hsizes⟩
  · obtain ⟨hd, hget⟩ := doubleSize_spec h
    have hroom' : (m.doubleSize hash).count + 1 ≤ (m.doubleSize hash).maxSize := by
      show m.count + 1 ≤ m.maxSize * 2
      have hone := h.room
      have hfits := h.fits
      omega
    obtain ⟨m', hp, hwf, hget', hsizes⟩ := put_of_room hd hroom' k v
    refine ⟨m', fun fuel => ?_, hwf, fun k' => ?_, .inr ⟨Nat.le_of_lt_succ (Nat.lt_of_not_le hroom), hsizes⟩⟩
    · rw [put, if_pos (Nat.lt_of_not_le hroom), hp, hget]
    · rw [hget', hget]

/-- **A delete takes its key out of the map.** -/
theorem delete_spec {m : Hashmap κ ν} (h : WellFormed hash m) (k : κ) :
    WellFormed hash (m.delete hash k) ∧
      (∀ k', (m.delete hash k).get hash k' = if k' = k then none else m.get hash k') ∧
      (m.delete hash k).tableSize = m.tableSize ∧ (m.delete hash k).maxSize = m.maxSize := by
  have hnd := h.buckets.unique (index hash m.tableSize k)
  by_cases hin : k ∈ Chain.keys (m.table (index hash m.tableSize k))
  · obtain ⟨es, hd, hes, hl⟩ := delete_known (h.buckets.linked _) hnd hin
    obtain ⟨hnd', hscan⟩ := scan_without hnd hl
    have hm : m.delete hash k =
        { m with count := m.count - 1, table := Function.update m.table (index hash m.tableSize k) es } := by
      rw [Hashmap.delete, hd]
    have hb : Buckets hash (m.delete hash k).tableSize (m.delete hash k).table := by
      rw [hm]
      refine h.buckets.update hes hnd' fun k' hk' => .inr ?_
      by_contra hno
      have hnone := hscan k'
      rw [(scan_eq_none hnd).2 hno, ite_self] at hnone
      exact (scan_eq_none hnd').1 hnone hk'
    have hpos : 0 < (m.delete hash k).tableSize := by
      rw [hm]
      exact h.positive
    have hget : ∀ k', (m.delete hash k).get hash k' = if k' = k then none else m.get hash k' := by
      intro k'
      rw [hm]
      exact find_update hscan k'
    have hmem : k ∈ m.keys := by
      obtain ⟨v, hv⟩ := mem_keys.1 hin
      rw [mem_keys_iff h.buckets h.positive, get_eq_find, h.buckets.find_eq_some.2 hv]
      rfl
    have hcount : (m.delete hash k).count = m.count - 1 := by rw [hm]
    have hmax : (m.delete hash k).maxSize = m.maxSize := by rw [hm]
    refine ⟨⟨hb, hpos, ?_, ?_, ?_⟩, hget, by rw [hm], hmax⟩
    · rw [hmax]
      exact h.room
    · rw [hcount, hmax]
      exact Nat.le_trans (Nat.sub_le _ 1) h.fits
    · rw [hcount, keys_erase h hb hpos hget, Finset.card_erase_of_mem hmem, h.count_eq]
  · have hm : m.delete hash k = m := by rw [Hashmap.delete, delete_unknown hin]
    rw [hm]
    refine ⟨h, fun k' => ?_, rfl, rfl⟩
    by_cases hk : k' = k
    · rw [if_pos hk, hk]
      exact (scan_eq_none hnd).2 hin
    · rw [if_neg hk]

end Hashmap

end Lte
