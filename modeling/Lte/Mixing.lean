import Mathlib.Logic.Function.Basic
/-!
# Mixing — hashing steps that lose nothing

A block hash folds a step over the blocks of a message.  When the step is injective in the state for each block, and in
the block for each state (`Absorbs`), messages that differ in one block never meet again (`Absorbs.foldl_eq`).  The
usual parts of such steps are injective each: rotations, multiplications by a unit, `x ^ x >> r` for a shift of half
the width or more.
-/
namespace Mixing

open Function

section
variable {σ α : Type} {step : σ → α → σ}

structure Absorbs (step : σ → α → σ) : Prop where
  state : ∀ a, Injective fun s => step s a
  block : ∀ s, Injective (step s)

theorem Absorbs.foldl_injective (h : Absorbs step) : ∀ as : List α, Injective fun s => as.foldl step s
  | [], _, _, he => he
  | a :: as, s, t, he => by
    apply h.state a
    exact h.foldl_injective as he

/-- **Messages that differ in one block at most** leave the same state only if they are the same. -/
theorem Absorbs.foldl_eq (h : Absorbs step) : ∀ {as bs : List α} (i : Nat) (s : σ), as.length = bs.length →
    (∀ j, j ≠ i → as[j]? = bs[j]?) → as.foldl step s = bs.foldl step s → as = bs
  | [], [], _, _, _, _, _ => rfl
  | a :: as, b :: bs, 0, s, hlen, hj, he => by
    have htail : as = bs := by
      apply List.ext_getElem?
      intro j
      exact hj (j + 1) (Nat.succ_ne_zero j)
    rw [htail] at he ⊢
    have hhead : step s a = step s b := h.foldl_injective bs he
    rw [h.block s hhead]
  | a :: as, b :: bs, i + 1, s, hlen, hj, he => by
    have hhead : a = b := Option.some.inj (hj 0 (Nat.succ_ne_zero i).symm)
    rw [hhead] at he ⊢
    have htail : as = bs :=
      h.foldl_eq i (step s b) (Nat.succ.inj hlen) (fun j hne => hj (j + 1) (fun e => hne (Nat.succ.inj e))) he
    rw [htail]

end

/-! ## Words -/

variable {w : Nat}

/-- Rotations only move the bits. -/
theorem rotateLeft_injective {r : Nat} (hr : r < w) : Injective fun x : BitVec w => x.rotateLeft r := by
  intro x y he
  apply BitVec.eq_of_getLsbD_eq
  intro i hi
  have hbit (j : Nat) : (x.rotateLeft r).getLsbD j = (y.rotateLeft r).getLsbD j := congrArg (fun z => z.getLsbD j) he
  by_cases hlow : i + r < w
  · have h := hbit (i + r)
    rw [BitVec.getLsbD_rotateLeft_of_le hr, BitVec.getLsbD_rotateLeft_of_le hr] at h
    simpa [hlow, show ¬ i + r < r by omega] using h
  · have h := hbit (i + r - w)
    have hfrom : w - r + (i + r - w) = i := by omega
    have hlt : i + r - w < r := by omega
    rw [BitVec.getLsbD_rotateLeft_of_le hr, BitVec.getLsbD_rotateLeft_of_le hr, hfrom] at h
    simpa [hlt] using h

/-- Done twice, it is undone. -/
theorem xor_ushiftRight_involutive {r : Nat} (hr : w ≤ r + r) : Involutive fun x : BitVec w => x ^^^ x >>> r := by
  intro x
  have hgone : x >>> r >>> r = 0#w := by rw [← BitVec.shiftRight_add, BitVec.ushiftRight_eq_zero hr]
  show (x ^^^ x >>> r) ^^^ (x ^^^ x >>> r) >>> r = x
  rw [BitVec.ushiftRight_xor_distrib, hgone, BitVec.xor_zero, BitVec.xor_assoc, BitVec.xor_self, BitVec.xor_zero]

theorem mul_injective {c d : UInt64} (hcd : c * d = 1) : Injective fun x : UInt64 => x * c := by
  intro x y he
  have h : x * c * d = y * c * d := congrArg (· * d) he
  rwa [UInt64.mul_assoc, UInt64.mul_assoc, hcd, UInt64.mul_one, UInt64.mul_one] at h

theorem add_injective (c : UInt64) : Injective fun x : UInt64 => x + c :=
  fun _ _ he => (UInt64.add_left_inj c).1 he

theorem xor_injective (c : UInt64) : Injective fun x : UInt64 => x ^^^ c :=
  fun _ _ he => (UInt64.xor_left_inj c).1 he

/-! ## Bytes -/

/-- Bytes put into a word at their places from `shift` on, the last byte first. -/
def leBytes (shift : Nat) : List UInt8 → UInt64
  | [] => 0
  | b :: bs => leBytes (shift + 8) bs ^^^ (b.toUInt64 <<< UInt64.ofNat shift)

theorem toBitVec_shiftLeft_ofNat (x : UInt64) {s : Nat} (hs : s < 64) :
    (x <<< UInt64.ofNat s).toBitVec = x.toBitVec <<< s := by
  have hmod : s % 18446744073709551616 % 64 = s := by omega
  rw [UInt64.toBitVec_shiftLeft, BitVec.shiftLeft_eq']
  simp [BitVec.toNat_umod, hmod]

/-- Nothing is below the first place. -/
theorem getLsbD_leBytes : ∀ (bs : List UInt8) (s i : Nat), s + 8 * bs.length ≤ 64 → i < s →
    (leBytes s bs).toBitVec.getLsbD i = false
  | [], _, _, _, _ => by simp [leBytes]
  | b :: bs, s, i, hlen, hi => by
    rw [List.length_cons] at hlen
    have hrest : (leBytes (s + 8) bs).toBitVec.getLsbD i = false := getLsbD_leBytes bs (s + 8) i (by omega) (by omega)
    rw [leBytes, UInt64.toBitVec_xor, BitVec.getLsbD_xor, hrest, toBitVec_shiftLeft_ofNat _ (by omega),
      BitVec.getLsbD_shiftLeft]
    simp [hi]

/-- **The bytes of a word are what it was put together of.** -/
theorem leBytes_inj : ∀ {bs cs : List UInt8} {s : Nat}, bs.length = cs.length → s + 8 * bs.length ≤ 64 →
    leBytes s bs = leBytes s cs → bs = cs
  | [], [], _, _, _, _ => rfl
  | b :: bs, c :: cs, s, hlen, hle, he => by
    rw [List.length_cons] at hle
    have hlen' : bs.length = cs.length := Nat.succ.inj hlen
    have hhead : b = c := by
      apply UInt8.toBitVec_inj.1
      apply BitVec.eq_of_getLsbD_eq
      intro i hi
      have h := congrArg (fun x => x.toBitVec.getLsbD (s + i)) he
      simp only [leBytes, UInt64.toBitVec_xor, BitVec.getLsbD_xor] at h
      rw [getLsbD_leBytes bs (s + 8) (s + i) (by omega) (by omega),
        getLsbD_leBytes cs (s + 8) (s + i) (by omega) (by omega), toBitVec_shiftLeft_ofNat _ (by omega),
        toBitVec_shiftLeft_ofNat _ (by omega), BitVec.getLsbD_shiftLeft, BitVec.getLsbD_shiftLeft] at h
      simpa [show s + i < 64 by omega, show ¬ s + i < s by omega, show i < 64 by omega, hi] using h
    rw [leBytes, leBytes, hhead] at he
    rw [hhead, leBytes_inj hlen' (by omega) (xor_injective _ he)]

end Mixing
