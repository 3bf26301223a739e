import Lte.Hashmap
import Lte.Histories
import Lte.Runs
/-!
# HashmapSizes — the map for any initial size

`hashmap_init` rounds its argument up to a power of two and lets the table be filled to three quarters.  Of a table of
one slot that is nothing, and doubling nothing gives no room: no put into such a map returns.  From every other initial
size the map answers from its history, and its sizes stay integers of the machine (`init_iff`).
-/
namespace Lte

open Runs Histories

namespace Hashmap

/-- The loop of `hashmap_init` over the bits of its argument, the lowest `w` of them. -/
def mostSigBit (w initialSize : Nat) : Nat :=
  (List.range w).foldl (fun mostSigBit idx => if initialSize.testBit idx then idx else mostSigBit) 0

theorem mostSigBit_eq : ∀ {w n : Nat}, 0 < n → n < 2 ^ w → mostSigBit w n = n.log2
  | 0, n, hpos, hlt => by
    rw [Nat.pow_zero] at hlt
    omega
  | w + 1, n, hpos, hlt => by
    rw [mostSigBit, List.range_succ, List.foldl_append, List.foldl_cons, List.foldl_nil]
    by_cases hw : n < 2 ^ w
    · rw [Nat.testBit_lt_two_pow hw]
      exact mostSigBit_eq hpos hw
    · have hlog : n.log2 = w := (Nat.log2_eq_iff (by omega)).2 ⟨Nat.le_of_not_lt hw, hlt⟩
      have hbit : n.testBit w = true := by
        rw [← hlog]
        exact Nat.testBit_log2 (by omega)
      rw [if_pos hbit, hlog]

/-- The size that `hashmap_init` works out, its `int` of 32 bits. -/
def initSize (initialSize : Int) : Nat :=
  if initialSize ≤ 0 then defaultCapacity
  else if 2 ^ mostSigBit 32 initialSize.toNat ≠ initialSize.toNat then 2 ^ (mostSigBit 32 initialSize.toNat + 1)
  else 2 ^ mostSigBit 32 initialSize.toNat

/-- `hashmap_size` -/
def size {κ ν : Type} (m : Hashmap κ ν) : Nat := m.count

section
variable {κ ν : Type}

theorem init_tableSize {n : Int} (hn : n ≤ 2 ^ 30) : (init n : Hashmap κ ν).tableSize = initSize n := by
  by_cases hneg : n ≤ 0
  · simp only [init, initSize, if_pos hneg]
  · have hbit : mostSigBit 32 n.toNat = n.toNat.log2 := mostSigBit_eq (by omega) (by omega)
    simp only [init, initSize, if_neg hneg, hbit]

theorem init_maxSize (n : Int) : (init n : Hashmap κ ν).maxSize = (init n : Hashmap κ ν).tableSize * 3 / 4 := rfl

/-- The table has at least the slots asked for, and fewer than twice as many. -/
theorem init_bounds {n : Int} (hn : 0 < n) :
    n ≤ (init n : Hashmap κ ν).tableSize ∧ ((init n : Hashmap κ ν).tableSize : Int) < 2 * n ∧
      ∃ k, (init n : Hashmap κ ν).tableSize = 2 ^ k := by
  have hle : 2 ^ n.toNat.log2 ≤ n.toNat := Nat.log2_self_le (by omega)
  have hlt : n.toNat < 2 ^ (n.toNat.log2 + 1) := Nat.lt_log2_self
  have hsucc : 2 ^ (n.toNat.log2 + 1) = 2 * 2 ^ n.toNat.log2 := by rw [Nat.pow_succ, Nat.mul_comm]
  simp only [init, if_neg (Int.not_le.2 hn)]
  by_cases hpow : 2 ^ n.toNat.log2 = n.toNat
  · rw [if_neg (not_not.2 hpow)]
    exact ⟨by omega, by omega, _, rfl⟩
  · rw [if_pos hpow]
    exact ⟨by omega, by omega, _, rfl⟩

theorem init_tableSize_of_ne_one {n : Int} (hn : n ≤ 2 ^ 30) (hne : n ≠ 1) :
    2 ≤ (init n : Hashmap κ ν).tableSize ∧ (init n : Hashmap κ ν).tableSize ≤ 2 ^ 30 := by
  by_cases hneg : n ≤ 0
  · have hsize : (init n : Hashmap κ ν).tableSize = 128 := if_pos hneg
    omega
  · obtain ⟨hle, hlt, k, hk⟩ := init_bounds (κ := κ) (ν := ν) (Int.not_le.1 hneg)
    have hpow : 2 ^ k < 2 ^ 31 := by omega
    have hk30 : k ≤ 30 := Nat.le_of_lt_succ ((Nat.pow_lt_pow_iff_right (by decide)).1 hpow)
    have hle30 : 2 ^ k ≤ 2 ^ 30 := Nat.pow_le_pow_right (by decide) hk30
    omega

end

/-! ## Histories of a map -/

inductive MapOp (κ ν : Type)
  | put (key : κ) (value : ν)
  | get (key : κ)
  | delete (key : κ)

def MapOp.key {κ ν : Type} : MapOp κ ν → κ
  | .put key _ => key
  | .get key => key
  | .delete key => key

section
variable {κ ν : Type} [DecidableEq κ]

/-- One operation, the calls that a put makes of itself bounded by `fuel`. -/
def step (hash : κ → UInt64) (fuel : Nat) (m : Hashmap κ ν) : MapOp κ ν → Option (Hashmap κ ν)
  | .put key value => (m.put hash fuel key value).map Prod.fst
  | .get _ => some m
  | .delete key => some (m.delete hash key)

/-- `value` is what was put last under `key`, and `key` was not deleted since. -/
def LastPut (key : κ) (value : ν) (ops : List (MapOp κ ν)) : Prop :=
  Since (· = .put key value) (fun op => op.key = key → op = .get key) ops

variable {hash : κ → UInt64}

/-- What a map of initial size `n` keeps along a history. -/
structure Sized (hash : κ → UInt64) (n : Int) (ops : List (MapOp κ ν)) (m : Hashmap κ ν) : Prop where
  wellFormed : m.WellFormed hash
  get : ∀ k v, m.get hash k = some v ↔ LastPut k v ops
  count_le : m.count ≤ ops.length
  load : m.tableSize ≤ 2 * m.maxSize
  bounded : m.maxSize ≤ max (init n : Hashmap κ ν).maxSize (2 * ops.length)

theorem sized_nil {n : Int} (hn : n ≤ 2 ^ 30) (hne : n ≠ 1) : Sized hash n [] (init n : Hashmap κ ν) := by
  obtain ⟨hle, -⟩ := init_tableSize_of_ne_one (κ := κ) (ν := ν) hn hne
  have hmax := init_maxSize (κ := κ) (ν := ν) n
  have hpairs : (init n : Hashmap κ ν).pairs = [] := List.flatMap_eq_nil_iff.2 fun _ _ => rfl
  refine ⟨⟨buckets_emptyTable hash _, by omega, by omega, Nat.zero_le _, ?_⟩, fun k v => ?_, Nat.le_refl _, by omega,
    Nat.le_max_left _ _⟩
  · rw [keys, hpairs]
    rfl
  · exact ⟨fun h => (by cases h), fun h => absurd h not_since_nil⟩

/-- A change of what is under one key, with the operation that made it. -/
theorem Sized.change {n : Int} {ops : List (MapOp κ ν)} {m m' : Hashmap κ ν} (h : Sized hash n ops m)
    (op : MapOp κ ν) (found : Option ν) (hwf : m'.WellFormed hash)
    (hget : ∀ k, m'.get hash k = if k = op.key then found else m.get hash k)
    (hlast : ∀ v, found = some v ↔ LastPut op.key v (ops ++ [op])) (hcount : m'.count ≤ m.count + 1)
    (hsizes : (m'.tableSize = m.tableSize ∧ m'.maxSize = m.maxSize) ∨
      (m.maxSize ≤ m.count ∧ m'.tableSize = m.tableSize * 2 ∧ m'.maxSize = m.maxSize * 2)) :
    Sized hash n (ops ++ [op]) m' := by
  have hle := h.count_le
  have hload := h.load
  have hbounded := h.bounded
  have hlen : (ops ++ [op]).length = ops.length + 1 := by rw [List.length_append, List.length_singleton]
  refine ⟨hwf, fun k v => ?_, by omega, by omega, by omega⟩
  rw [hget]
  by_cases hk : k = op.key
  · rw [if_pos hk, hk]
    exact hlast v
  · rw [if_neg hk, h.get, LastPut, LastPut, since_concat]
    constructor
    · exact fun hsince => .inr ⟨hsince, fun he => absurd he.symm hk⟩
    · rintro (he | ⟨hsince, -⟩)
      · exact absurd (by rw [he]; rfl) hk
      · exact hsince

theorem sized_step {n : Int} {ops : List (MapOp κ ν)} {m : Hashmap κ ν} (h : Sized hash n ops m) (op : MapOp κ ν) :
    ∃ m', step hash 2 m op = some m' ∧ Sized hash n (ops ++ [op]) m' := by
  have hwf := h.wellFormed
  cases op with
  | put k v =>
    obtain ⟨m', hp, hput⟩ := put_spec hwf k v
    refine ⟨m', ?_, h.change (.put k v) (some v) hput.wellFormed hput.get_eq (fun v' => ?_) ?_ hput.sizes⟩
    · rw [step, hp 0]
      rfl
    · rw [LastPut, since_concat]
      constructor
      · rintro ⟨⟩
        exact .inl rfl
      · rintro (he | ⟨-, he⟩)
        · cases he
          rfl
        · cases he rfl
    · rw [hput.wellFormed.count_eq, hwf.count_eq,
        keys_insert hwf hput.wellFormed.buckets hput.wellFormed.positive hput.get_eq]
      exact Finset.card_insert_le _ _
  | get k =>
    refine ⟨m, rfl, h.change (.get k) (m.get hash k) hwf (fun k' => ?_) (fun v => ?_) (Nat.le_succ _) (.inl ⟨rfl, rfl⟩)⟩
    · by_cases hk : k' = k
      · rw [hk]
        exact (if_pos rfl).symm
      · exact (if_neg hk).symm
    · rw [h.get, LastPut, LastPut, since_concat]
      constructor
      · exact fun hsince => .inr ⟨hsince, fun _ => rfl⟩
      · rintro (he | ⟨hsince, -⟩)
        · cases he
        · exact hsince
  | delete k =>
    obtain ⟨hwf', hget, hsizes⟩ := delete_spec hwf k
    refine ⟨m.delete hash k, rfl, h.change (.delete k) none hwf' hget (fun v => ?_) ?_ (.inl hsizes)⟩
    · rw [LastPut, since_concat]
      constructor
      · exact fun he => by cases he
      · rintro (he | ⟨-, he⟩)
        · cases he
        · cases he rfl
    · rw [hwf'.count_eq, hwf.count_eq, keys_erase hwf hwf'.buckets hwf'.positive hget]
      exact Nat.le_succ_of_le Finset.card_erase_le

theorem sized_run (hash : κ → UInt64) {n : Int} (hn : n ≤ 2 ^ 30) (hne : n ≠ 1) (ops : List (MapOp κ ν)) :
    ∃ m, run (step hash 2) (init n) ops = some m ∧ Sized hash n ops m := by
  induction ops using List.reverseRecOn with
  | nil => exact ⟨init n, rfl, sized_nil hn hne⟩
  | append_singleton ops op ih =>
    obtain ⟨m, hrun, hm⟩ := ih
    obtain ⟨m', hs, hm'⟩ := sized_step hm op
    exact ⟨m', run_concat_some.2 ⟨m, hrun, hs⟩, hm'⟩

/-- **A map that may hold nothing** doubles for ever. -/
theorem put_of_maxSize_zero : ∀ (fuel : Nat) {m : Hashmap κ ν}, m.maxSize = 0 → ∀ (k : κ) (v : ν),
    m.put hash fuel k v = none
  | 0, _, _, _, _ => rfl
  | fuel + 1, m, hm, k, v => by
    have hdouble : (m.doubleSize hash).maxSize = 0 := by
      show m.maxSize * 2 = 0
      omega
    rw [put, if_pos (by omega)]
    exact put_of_maxSize_zero fuel hdouble k v

/-- **A map of any initial size but one is a finite map**, and one of size one takes no key at all: over every history
that fits the machine's integers the map answers from the history, has as many entries as keys, and its table does too. -/
theorem init_iff [Nonempty κ] [Nonempty ν] (hash : κ → UInt64) {n : Int} (hn : n ≤ 2 ^ 30) :
    (∀ ops : List (MapOp κ ν), ops.length ≤ 2 ^ 28 → ∃ fuel m, run (step hash fuel) (init n) ops = some m ∧
      (∀ k v, m.get hash k = some v ↔ LastPut k v ops) ∧ m.size = m.keys.card ∧ m.tableSize < 2 ^ 31) ↔ n ≠ 1 := by
  constructor
  · intro hall hone
    obtain ⟨k⟩ := ‹Nonempty κ›
    obtain ⟨v⟩ := ‹Nonempty ν›
    have hlen : [MapOp.put k v].length ≤ 2 ^ 28 := Nat.one_le_two_pow
    obtain ⟨fuel, m, hrun, -⟩ := hall [.put k v] hlen
    have hmax : (init n : Hashmap κ ν).maxSize = 0 := by
      rw [hone]
      rfl
    obtain ⟨m', hs, -⟩ := run_cons_some.1 hrun
    rw [step, put_of_maxSize_zero fuel hmax] at hs
    cases hs
  · intro hne ops hlen
    obtain ⟨m, hrun, hm⟩ := sized_run hash hn hne ops
    obtain ⟨-, hsize⟩ := init_tableSize_of_ne_one (κ := κ) (ν := ν) hn hne
    have hmax := init_maxSize (κ := κ) (ν := ν) n
    have hload := hm.load
    have hbounded := hm.bounded
    exact ⟨2, m, hrun, hm.get, hm.wellFormed.count_eq, by omega⟩

/-- A map of one slot, and one of two. -/
theorem init_iff_two :
    (∀ ops : List (MapOp Nat Nat), ops.length ≤ 2 ^ 28 → ∃ fuel m, run (step (fun _ => 0) fuel) (init 2) ops = some m ∧
      (∀ k v, m.get (fun _ => 0) k = some v ↔ LastPut k v ops) ∧ m.size = m.keys.card ∧ m.tableSize < 2 ^ 31) ∧
    ¬ (∀ ops : List (MapOp Nat Nat), ops.length ≤ 2 ^ 28 → ∃ fuel m, run (step (fun _ => 0) fuel) (init 1) ops = some m ∧
      (∀ k v, m.get (fun _ => 0) k = some v ↔ LastPut k v ops) ∧ m.size = m.keys.card ∧ m.tableSize < 2 ^ 31) := by
  constructor
  · rw [init_iff (fun _ : Nat => 0) (by decide)]
    decide
  · rw [init_iff (fun _ : Nat => 0) (by decide)]
    decide

end

end Hashmap

end Lte
