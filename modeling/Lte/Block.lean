import Mathlib.Algebra.Order.Group.Nat
import Mathlib.Tactic.Ring
/-!
# Block — a fixed block of bytes and the integers stored in it

A C object is a block of bytes; its members are little-endian integers at fixed offsets, and the members of a union
overlap.  `load` and `store` read and write an unsigned integer of `w` bytes at an offset.  A load of what was stored
there gives it back (`load_store`), a store elsewhere does not change it (`load_store_of_disjoint`), and the signed
and unsigned views of the usual widths are the two laws again at those widths.
-/
namespace Mem

/-- `n` bytes. -/
abbrev Block (n : Nat) := Fin n → UInt8

variable {n : Nat}

/-- The byte at an offset; past the end it reads as zero. -/
def byte (b : Block n) (i : Nat) : Nat := if h : i < n then (b ⟨i, h⟩).toNat else 0

/-- The little-endian unsigned integer in the `w` bytes at `off`. -/
def load (b : Block n) (off : Nat) : Nat → Nat
  | 0 => 0
  | w + 1 => byte b off + 256 * load b (off + 1) w

/-- `x` written little-endian into the `w` bytes at `off`. -/
def store (b : Block n) (off w x : Nat) : Block n := fun i =>
  if off ≤ i.val ∧ i.val < off + w then UInt8.ofNat (x / 256 ^ (i.val - off)) else b i

/-- The bytes of a list written at `off`, as far as they fit. -/
def copy (b : Block n) (off : Nat) (bs : List UInt8) : Block n := fun i =>
  if off ≤ i.val ∧ i.val < off + bs.length then bs.getD (i.val - off) 0 else b i

/-- The `w` bytes at `off`. -/
def slice (b : Block n) (off w : Nat) : List UInt8 :=
  (List.range w).map (fun i => UInt8.ofNat (byte b (off + i)))

theorem byte_store (b : Block n) (off w x i : Nat) (hi : i < n) :
    byte (store b off w x) i = if off ≤ i ∧ i < off + w then x / 256 ^ (i - off) % 256 else byte b i := by
  unfold byte store
  simp only [hi, dif_pos]
  split <;> simp

theorem byte_store_of_disjoint (b : Block n) (off w x i : Nat) (h : i < off ∨ off + w ≤ i) :
    byte (store b off w x) i = byte b i := by
  by_cases hi : i < n
  · rw [byte_store _ _ _ _ _ hi, if_neg (by omega)]
  · simp [byte, hi]

theorem load_congr {b c : Block n} : ∀ (w off : Nat), (∀ i, off ≤ i → i < off + w → byte b i = byte c i) →
    load b off w = load c off w
  | 0, off, _ => rfl
  | w + 1, off, h => by
    simp only [load]
    rw [h off (Nat.le_refl _) (by omega), load_congr w (off + 1) (fun i h1 h2 => h i (by omega) (by omega))]

/-- A store leaves every integer whose bytes it does not touch. -/
theorem load_store_of_disjoint (b : Block n) (off w x off' w' : Nat) (h : off' + w' ≤ off ∨ off + w ≤ off') :
    load (store b off w x) off' w' = load b off' w' :=
  load_congr w' off' (fun i h1 h2 => byte_store_of_disjoint b off w x i (by omega))

/-- A load of what was stored gives back its low bytes. -/
theorem load_store (b : Block n) : ∀ (w off x : Nat), off + w ≤ n → load (store b off w x) off w = x % 256 ^ w
  | 0, off, x, _ => by simp [load, Nat.mod_one]
  | w + 1, off, x, h => by
    -- past its first byte the stored integer is `x / 256`, one byte further on
    have hrest : load (store b off (w + 1) x) (off + 1) w = load (store b (off + 1) w (x / 256)) (off + 1) w := by
      refine load_congr w (off + 1) (fun i h1 h2 => ?_)
      rw [byte_store _ _ _ _ _ (by omega), byte_store _ _ _ _ _ (by omega), if_pos (by omega), if_pos (by omega)]
      obtain ⟨k, rfl⟩ := Nat.exists_eq_add_of_le h1
      rw [show off + 1 + k - off = k + 1 by omega, Nat.add_sub_cancel_left, Nat.pow_succ, Nat.mul_comm,
        Nat.div_div_eq_div_mul]
    have hfirst : byte (store b off (w + 1) x) off = x % 256 := by
      rw [byte_store _ _ _ _ _ (by omega), if_pos (by omega)]
      simp
    simp only [load]
    rw [hfirst, hrest, load_store b w (off + 1) (x / 256) (by omega), Nat.pow_succ, Nat.mul_comm (256 ^ w) 256]
    exact (Nat.mod_mul).symm

theorem byte_copy (b : Block n) (off : Nat) (bs : List UInt8) (i : Nat) (hi : i < n) :
    byte (copy b off bs) i =
      if off ≤ i ∧ i < off + bs.length then (bs.getD (i - off) 0).toNat else byte b i := by
  unfold byte copy
  simp only [hi, dif_pos]
  split <;> rfl

@[simp] theorem length_slice (b : Block n) (off w : Nat) : (slice b off w).length = w := by simp [slice]

theorem slice_add (b : Block n) (off w w' : Nat) : slice b off (w + w') = slice b off w ++ slice b (off + w) w' := by
  unfold slice
  rw [List.range_add, List.map_append, List.map_map]
  simp only [Function.comp_def, Nat.add_assoc]

/-- The bytes read at an offset are the bytes last written there. -/
theorem slice_copy (b : Block n) (off : Nat) (bs : List UInt8) (h : off + bs.length ≤ n) :
    slice (copy b off bs) off bs.length = bs := by
  refine List.ext_getElem (by simp) (fun i h1 h2 => ?_)
  simp only [slice, List.getElem_map, List.getElem_range]
  rw [byte_copy _ _ _ _ (by omega), if_pos (by omega), Nat.add_sub_cancel_left]
  simp [h2]

/-- Copying fewer bytes over others leaves the rest of the others. -/
theorem copy_copy (b : Block n) (off : Nat) {bs cs : List UInt8} (h : bs.length ≤ cs.length) :
    copy (copy b off cs) off bs = copy b off (bs ++ cs.drop bs.length) := by
  funext i
  unfold copy
  rw [List.length_append, List.length_drop]
  simp only [List.getD_eq_getElem?_getD]
  by_cases h1 : off ≤ i.val ∧ i.val < off + bs.length
  · rw [if_pos h1, if_pos (by omega), List.getElem?_append_left (by omega)]
  · rw [if_neg h1]
    by_cases h2 : off ≤ i.val ∧ i.val < off + cs.length
    · rw [if_pos h2, if_pos (by omega), List.getElem?_append_right (by omega), List.getElem?_drop,
        show bs.length + (i.val - off - bs.length) = i.val - off by omega]
    · rw [if_neg h2, if_neg (by omega)]

/-- Copying a whole block over another leaves nothing of the other. -/
theorem copy_ofFn (b c : Block n) : copy b 0 (List.ofFn c) = c := by
  funext i
  unfold copy
  rw [if_pos (by simp)]
  simp

/-! ## Signed and unsigned views -/

def loadI8 (b : Block n) (off : Nat) : Int8 := Int8.ofBitVec (BitVec.ofNat 8 (load b off 1))
def loadI16 (b : Block n) (off : Nat) : Int16 := Int16.ofBitVec (BitVec.ofNat 16 (load b off 2))
def loadI32 (b : Block n) (off : Nat) : Int32 := Int32.ofBitVec (BitVec.ofNat 32 (load b off 4))

def storeI8 (b : Block n) (off : Nat) (x : Int8) : Block n := store b off 1 x.toBitVec.toNat
def storeI16 (b : Block n) (off : Nat) (x : Int16) : Block n := store b off 2 x.toBitVec.toNat
def storeI32 (b : Block n) (off : Nat) (x : Int32) : Block n := store b off 4 x.toBitVec.toNat

theorem loadI8_storeI8 (b : Block n) (off : Nat) (x : Int8) (h : off + 1 ≤ n) : loadI8 (storeI8 b off x) off = x := by
  unfold loadI8 storeI8
  rw [load_store _ _ _ _ h, Nat.mod_eq_of_lt (by have := x.toBitVec.isLt; omega)]
  simp

theorem loadI32_storeI32 (b : Block n) (off : Nat) (x : Int32) (h : off + 4 ≤ n) :
    loadI32 (storeI32 b off x) off = x := by
  unfold loadI32 storeI32
  rw [load_store _ _ _ _ h, Nat.mod_eq_of_lt (by have := x.toBitVec.isLt; omega)]
  simp

end Mem
