import Lte.Hashmap
import Lte.Store
import Mathlib.Tactic.Abel
/-!
# HashmapHeap — `lib/hashmap.c` on the heap

Entries, keys and records are objects of one store, and an entry is the three pointers of the source.  Every function
reads, writes, allocates and frees as the source does, and `none` is an access outside what is allocated, or a walk
that never ends.
-/
namespace Lte

/-- A `hashmap_entry`. -/
structure HashmapEntry where
  key : Option Nat
  value : Option Nat
  next : Option Nat
  deriving DecidableEq

/-- What `calloc` leaves. -/
def HashmapEntry.zero : HashmapEntry := ⟨none, none, none⟩

inductive Object (κ ν : Type)
  | entry (e : HashmapEntry)
  | key (k : κ)
  | value (x : ν)

abbrev Heap (κ ν : Type) := Store (Object κ ν)

/-- A `struct hashmap`; `table` is the address of its first slot. -/
structure HeapMap where
  count : Nat
  tableSize : Nat
  maxSize : Nat
  table : Nat
  deriving DecidableEq

/-- How a walk ends: at the entry of the key, or behind the last entry with a key. -/
inductive Walk
  | found (entry : Nat)
  | ended (entry lastEntry : Option Nat)
  deriving DecidableEq

namespace HeapMap

variable {κ ν : Type}

def entryAt (h : Heap κ ν) (a : Nat) : Option HashmapEntry :=
  match h.get a with
  | some (.entry e) => some e
  | _ => none

def keyAt (h : Heap κ ν) (a : Nat) : Option κ :=
  match h.get a with
  | some (.key k) => some k
  | _ => none

/-- `free`, which ignores `NULL`. -/
def freePtr (h : Heap κ ν) : Option Nat → Option (Heap κ ν)
  | none => some h
  | some a => h.free a

variable [DecidableEq κ]

/-- The loop `while (entry && entry->key)`, its steps bounded by the fuel. -/
def walk (h : Heap κ ν) (key : κ) (shouldCmp : Bool) : Nat → Option Nat → Option Nat → Option Walk
  | 0, _, _ => none
  | _ + 1, none, lastEntry => some (.ended none lastEntry)
  | fuel + 1, some a, lastEntry =>
    match entryAt h a with
    | none => none
    | some e =>
      match e.key with
      | none => some (.ended (some a) lastEntry)
      | some kp =>
        match keyAt h kp with
        | none => none
        | some k => if shouldCmp ∧ k = key then some (.found a) else walk h key shouldCmp fuel e.next (some a)

/-- `(should_dup) ? strdup(key) : key`, with the pointer of a key that the map owns already. -/
def storeKey (h : Heap κ ν) (key : κ) : Option Nat → Nat × Heap κ ν
  | none => h.alloc (.key key)
  | some kp => (kp, h)

/-- The store is left with a new entry behind `lastEntry`. -/
def linkEntry (h : Heap κ ν) (key : κ) (owned value : Option Nat) (lastEntry : Nat) : Option (Heap κ ν) :=
  match h.alloc (.entry .zero) with
  | (entry, h) =>
    match storeKey h key owned with
    | (kp, h) =>
      (h.write entry (.entry ⟨some kp, value, none⟩)).bind fun h =>
        (entryAt h lastEntry).bind fun e => h.write lastEntry (.entry { e with next := some entry })

variable (hash : κ → UInt64)

def slot (table size : Nat) (key : κ) : Nat := table + Hashmap.index hash size key

/-- `hashmap_insert_table`; the walk visits no entry twice, so the fuel is what is allocated. -/
def insertTable (h : Heap κ ν) (table size : Nat) (key : κ) (owned value : Option Nat) (shouldCmp : Bool) :
    Option (Heap κ ν × Bool) :=
  match walk h key shouldCmp (h.fresh + 1) (some (slot hash table size key)) none with
  | none => none
  | some (.found a) =>
    (entryAt h a).bind fun e => (h.write a (.entry { e with value := value })).map (·, false)
  | some (.ended none none) => none
  | some (.ended (some a) none) =>
    match storeKey h key owned with
    | (kp, h) =>
      (entryAt h a).bind fun e => (h.write a (.entry { e with key := some kp, value := value })).map (·, true)
  | some (.ended _ (some lastEntry)) => (linkEntry h key owned value lastEntry).map (·, true)

/-- `hashmap_get`: a `-1` is `some none`. -/
def get (h : Heap κ ν) (m : HeapMap) (key : κ) : Option (Option (Option Nat)) :=
  match walk h key true (h.fresh + 1) (some (slot hash m.table m.tableSize key)) none with
  | none => none
  | some (.found a) => (entryAt h a).map fun e => some e.value
  | some (.ended _ _) => some none

/-- The inner loop of `hashmap_double_size`. -/
def moveChain (newTable newSize : Nat) : Nat → Heap κ ν → Option Nat → Bool → Option (Heap κ ν)
  | 0, _, _, _ => none
  | _ + 1, h, none, _ => some h
  | fuel + 1, h, some old, inTable =>
    match entryAt h old with
    | none => none
    | some e =>
      match e.key with
      | none => some h
      | some kp =>
        (keyAt h kp).bind fun k =>
          (insertTable hash h newTable newSize k (some kp) e.value false).bind fun r =>
            (if inTable then some r.1 else r.1.free old).bind fun h => moveChain newTable newSize fuel h e.next false

/-- `hashmap_double_size` -/
def doubleSize (h : Heap κ ν) (m : HeapMap) : Option (Heap κ ν × HeapMap) :=
  match h.allocArray (m.tableSize * 2) (.entry .zero) with
  | (newTable, h) =>
    ((List.range m.tableSize).foldlM (fun h i => moveChain hash newTable (m.tableSize * 2) (h.fresh + 1) h
        (some (m.table + i)) true) h).bind fun h =>
      (h.freeArray m.table m.tableSize).map fun h =>
        (h, { m with tableSize := m.tableSize * 2, maxSize := m.maxSize * 2, table := newTable })

/-- `hashmap_put`, its calls of itself bounded by the fuel. -/
def put : Nat → Heap κ ν → HeapMap → κ → Option Nat → Option (Heap κ ν × HeapMap × Bool)
  | 0, _, _, _, _ => none
  | fuel + 1, h, m, key, value =>
    if m.count + 1 > m.maxSize then (doubleSize hash h m).bind fun r => put fuel r.1 r.2 key value
    else
      (insertTable hash h m.table m.tableSize key none value true).map fun r =>
        (r.1, { m with count := if r.2 then m.count + 1 else m.count }, r.2)

omit [DecidableEq κ] in
/-- What `hashmap_delete` does at the entry it found: its `last_entry` stays `NULL`, so the entry is always taken for the
one in the table. -/
def deleteEntry (h : Heap κ ν) (entry : Nat) : Option (Heap κ ν) :=
  (entryAt h entry).bind fun e =>
    (freePtr h e.key).bind fun h =>
      (freePtr h e.value).bind fun h =>
        match e.next with
        | some n => (entryAt h n).bind fun en => (h.write entry (.entry en)).bind fun h => h.free n
        | none => h.write entry (.entry { e with key := none, value := none })

/-- `hashmap_delete` -/
def delete (h : Heap κ ν) (m : HeapMap) (key : κ) : Option (Heap κ ν × HeapMap × Bool) :=
  match walk h key true (h.fresh + 1) (some (slot hash m.table m.tableSize key)) none with
  | none => none
  | some (.ended _ _) => some (h, m, false)
  | some (.found a) => (deleteEntry h a).map fun h => (h, { m with count := m.count - 1 }, true)

omit [DecidableEq κ] in
/-- The inner loop of `hashmap_destroy`. -/
def freeChain : Nat → Heap κ ν → Option Nat → Bool → Option (Heap κ ν)
  | 0, _, _, _ => none
  | _ + 1, h, none, _ => some h
  | fuel + 1, h, some old, inTable =>
    match entryAt h old with
    | none => none
    | some e =>
      match e.key with
      | none => some h
      | some kp =>
        (h.free kp).bind fun h =>
          (freePtr h e.value).bind fun h =>
            (if inTable then some h else h.free old).bind fun h => freeChain fuel h e.next false

/-- `hashmap_destroy` -/
def destroy (h : Heap κ ν) (m : HeapMap) : Option (Heap κ ν) :=
  ((List.range m.tableSize).foldlM (fun h i => freeChain (h.fresh + 1) h (some (m.table + i)) true) h).bind
    fun h => h.freeArray m.table m.tableSize

/-- The inner loop of `hashmap_clear`. -/
def clearChain : Nat → Heap κ ν → Option Nat → Bool → Option (Heap κ ν)
  | 0, _, _, _ => none
  | _ + 1, h, none, _ => some h
  | fuel + 1, h, some old, inTable =>
    match entryAt h old with
    | none => none
    | some e =>
      match e.key with
      | none => some h
      | some kp =>
        (h.free kp).bind fun h =>
          (if inTable then h.write old (.entry { e with key := none }) else h.free old).bind fun h =>
            clearChain fuel h e.next false

/-- `hashmap_clear` -/
def clear (h : Heap κ ν) (m : HeapMap) : Option (Heap κ ν × HeapMap) :=
  ((List.range m.tableSize).foldlM (fun h i => clearChain (h.fresh + 1) h (some (m.table + i)) true) h).map
    fun h => (h, { m with count := 0 })

/-- The inner loop of `hashmap_iter`: the entry's link is read after the callback. -/
def iterChain {σ : Type} (heap : σ → Heap κ ν) (cb : σ → Nat → Option Nat → Option (σ × Bool)) :
    Nat → Option Nat → σ → Option (σ × Bool)
  | 0, _, _ => none
  | _ + 1, none, st => some (st, false)
  | fuel + 1, some a, st =>
    match entryAt (heap st) a with
    | none => none
    | some e =>
      match e.key with
      | none => some (st, false)
      | some kp =>
        match cb st kp e.value with
        | none => none
        | some (st, true) => some (st, true)
        | some (st, false) => (entryAt (heap st) a).bind fun e => iterChain heap cb fuel e.next st

/-- The outer loop of `hashmap_iter`, from the slot `i`. -/
def iterFrom {σ : Type} (heap : σ → Heap κ ν) (map : σ → HeapMap) (cb : σ → Nat → Option Nat → Option (σ × Bool)) :
    Nat → Nat → σ → Option (σ × Bool)
  | 0, _, _ => none
  | fuel + 1, i, st =>
    if i < (map st).tableSize then
      match iterChain heap cb ((heap st).fresh + 1) (some ((map st).table + i)) st with
      | none => none
      | some (st, true) => some (st, true)
      | some (st, false) => iterFrom heap map cb fuel (i + 1) st
    else some (st, false)

/-- `hashmap_iter`, which calls back with the pointers of every entry it comes to. -/
def iter {σ : Type} (heap : σ → Heap κ ν) (map : σ → HeapMap) (cb : σ → Nat → Option Nat → Option (σ × Bool)) (st : σ) :
    Option (σ × Bool) := iterFrom heap map cb ((map st).tableSize + 1) 0 st

/-- `hashmap_init`, with the size rounded as in `Hashmap.init`. -/
def init (h : Heap κ ν) (initialSize : Int) : Heap κ ν × HeapMap :=
  match (Hashmap.init initialSize : Hashmap κ ν) with
  | m =>
    match h.allocArray m.tableSize (.entry .zero) with
    | (table, h) => (h, ⟨0, m.tableSize, m.maxSize, table⟩)

end HeapMap

end Lte
