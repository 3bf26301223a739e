import Mathlib.Algebra.BigOperators.Group.Finset.Basic
import Mathlib.Algebra.BigOperators.Group.Finset.Piecewise
import Mathlib.Algebra.Order.Group.Multiset
import Mathlib.Data.Multiset.AddSub
/-!
# Store — memory as objects under identities, and linked lists in it

`malloc` takes an identity that was never used, so a pointer to a freed object is never valid again: reading it,
writing it and freeing it fail.  `Exactly s m` says that `m` lists what is allocated, each object once.  It is the
account a program keeps of the memory it owns: `Exactly.alloc` adds to it, `Exactly.free` takes from it, and each
operation keeps the objects of the rest (`Agrees`).  `Seg` is a list linked through the store, with the objects found
along it; its laws are those of a split and of a store that agrees on its addresses.
-/

structure Store (α : Type) where
  get : Nat → Option α
  fresh : Nat
  unused : ∀ a, fresh ≤ a → get a = none

namespace Store

variable {α : Type}

theorem unused_empty (a : Nat) : 0 ≤ a → (none : Option α) = none := fun _ => rfl

def empty : Store α := { get := fun _ => none, fresh := 0, unused := unused_empty }

theorem unused_alloc (s : Store α) (x : α) (a : Nat) (h : s.fresh + 1 ≤ a) :
    Function.update s.get s.fresh (some x) a = none := by
  rw [Function.update_of_ne (by omega)]
  exact s.unused a (by omega)

/-- One new object, and its identity. -/
def alloc (s : Store α) (x : α) : Nat × Store α :=
  (s.fresh, { get := Function.update s.get s.fresh (some x), fresh := s.fresh + 1, unused := unused_alloc s x })

/-- What a block of `n` objects from `base` on makes of a store. -/
def fill (s : Store α) (base n : Nat) (x : Option α) (a : Nat) : Option α :=
  if base ≤ a ∧ a < base + n then x else s.get a

theorem unused_fill (s : Store α) (n : Nat) (x : α) (a : Nat) (h : s.fresh + n ≤ a) :
    s.fill s.fresh n (some x) a = none := by
  rw [fill, if_neg (by omega)]
  exact s.unused a (by omega)

/-- An array of `n` new objects, and the identity of its first. -/
def allocArray (s : Store α) (n : Nat) (x : α) : Nat × Store α :=
  (s.fresh, { get := s.fill s.fresh n (some x), fresh := s.fresh + n, unused := unused_fill s n x })

theorem unused_set (s : Store α) {a : Nat} (h : (s.get a).isSome = true) (x : Option α) (b : Nat) (hb : s.fresh ≤ b) :
    Function.update s.get a x b = none := by
  have hne : b ≠ a := by
    rintro rfl
    rw [s.unused b hb] at h
    cases h
  rw [Function.update_of_ne hne]
  exact s.unused b hb

/-- Fails where nothing is allocated. -/
def set (s : Store α) (a : Nat) (x : Option α) : Option (Store α) :=
  if h : (s.get a).isSome = true then
    some { get := Function.update s.get a x, fresh := s.fresh, unused := unused_set s h x }
  else none

def write (s : Store α) (a : Nat) (x : α) : Option (Store α) := s.set a (some x)

def free (s : Store α) (a : Nat) : Option (Store α) := s.set a none

theorem unused_clear (s : Store α) (base n a : Nat) (h : s.fresh ≤ a) : s.fill base n none a = none := by
  unfold fill
  split
  · rfl
  · exact s.unused a h

/-- `free` of an array: fails unless all of it is allocated. -/
def freeArray (s : Store α) (base n : Nat) : Option (Store α) :=
  if ∀ i < n, (s.get (base + i)).isSome = true then
    some { get := s.fill base n none, fresh := s.fresh, unused := unused_clear s base n }
  else none

theorem lt_fresh {s : Store α} {a : Nat} (h : (s.get a).isSome = true) : a < s.fresh := by
  apply Nat.lt_of_not_le
  intro hle
  rw [s.unused a hle] at h
  cases h

theorem set_of_some {s : Store α} {a : Nat} (h : (s.get a).isSome = true) (x : Option α) :
    ∃ s', s.set a x = some s' ∧ s'.get = Function.update s.get a x ∧ s'.fresh = s.fresh := by
  unfold set
  rw [dif_pos h]
  exact ⟨_, rfl, rfl, rfl⟩

theorem get_of_set {s s' : Store α} {a : Nat} {x : Option α} (hs : s.set a x = some s') :
    s'.get = Function.update s.get a x ∧ s'.fresh = s.fresh := by
  unfold set at hs
  split at hs
  · cases hs
    exact ⟨rfl, rfl⟩
  · cases hs

/-- What was allocated stays as it is when more is. -/
theorem get_of_alloc {s : Store α} {a : Nat} (h : (s.get a).isSome = true) (x : α) : (s.alloc x).2.get a = s.get a :=
  Function.update_of_ne (Nat.ne_of_lt (lt_fresh h)) ..

theorem get_of_allocArray {s : Store α} {a : Nat} (h : (s.get a).isSome = true) (n : Nat) (x : α) :
    (s.allocArray n x).2.get a = s.get a :=
  if_neg fun ha => Nat.not_le_of_lt (lt_fresh h) ha.1

/-! ## The account of what is allocated -/

/-- `m` lists the allocated identities, each once. -/
structure Exactly (s : Store α) (m : Multiset Nat) : Prop where
  nodup : m.Nodup
  mem_iff : ∀ a, (s.get a).isSome = true ↔ a ∈ m

theorem exactly_empty : Exactly (empty : Store α) 0 :=
  ⟨Multiset.nodup_zero, fun a => iff_of_false Bool.false_ne_true (Multiset.notMem_zero a)⟩

theorem Exactly.of_eq {s : Store α} {m t : Multiset Nat} (h : Exactly s m) (he : m = t) : Exactly s t := he ▸ h

/-- The objects that `m` lists are the same in both stores. -/
def Agrees (m : Multiset Nat) (s s' : Store α) : Prop := ∀ a ∈ m, s'.get a = s.get a

section
variable {s s' s'' : Store α} {m m' : Multiset Nat} {a : Nat}

theorem Agrees.refl (m : Multiset Nat) (s : Store α) : Agrees m s s := fun _ _ => rfl

theorem Agrees.trans (h : Agrees m s s') (h' : Agrees m s' s'') : Agrees m s s'' :=
  fun a ha => (h' a ha).trans (h a ha)

theorem Agrees.mono (h : Agrees m s s') (hle : m' ≤ m) : Agrees m' s s' :=
  fun a ha => h a (Multiset.mem_of_le hle ha)

theorem Agrees.left (h : Agrees (m + m') s s') : Agrees m s s' := h.mono (Multiset.le_add_right m m')

theorem Agrees.right (h : Agrees (m + m') s s') : Agrees m' s s' := h.mono (Multiset.le_add_left m' m)

theorem Exactly.lt_fresh (h : Exactly s m) (ha : a ∈ m) : a < s.fresh := Store.lt_fresh ((h.mem_iff a).2 ha)

theorem Exactly.fresh_notMem (h : Exactly s m) : s.fresh ∉ m :=
  fun hm => Nat.lt_irrefl _ (h.lt_fresh hm)

theorem Exactly.notMem (h : Exactly s ({a} + m)) : a ∉ m := by
  have hnd := h.nodup
  rw [Multiset.singleton_add, Multiset.nodup_cons] at hnd
  exact hnd.1

theorem Exactly.alloc (h : Exactly s m) (x : α) :
    Exactly (s.alloc x).2 ({s.fresh} + m) ∧ (s.alloc x).2.get s.fresh = some x ∧ Agrees m s (s.alloc x).2 := by
  refine ⟨⟨?_, fun a => ?_⟩, Function.update_self .., fun a ha => ?_⟩
  · rw [Multiset.singleton_add, Multiset.nodup_cons]
    exact ⟨h.fresh_notMem, h.nodup⟩
  · rw [Multiset.singleton_add, Multiset.mem_cons]
    by_cases ha : a = s.fresh
    · subst ha
      simp [Store.alloc]
    · simp only [Store.alloc, Function.update_of_ne ha, h.mem_iff a]
      exact (or_iff_right ha).symm
  · exact Function.update_of_ne (Nat.ne_of_lt (h.lt_fresh ha)) ..

/-- A write changes no account and no other object. -/
theorem Exactly.write (h : Exactly s ({a} + m)) (x : α) :
    ∃ s', s.write a x = some s' ∧ Exactly s' ({a} + m) ∧ s'.get a = some x ∧ s'.fresh = s.fresh ∧ Agrees m s s' := by
  have hmem : a ∈ {a} + m := Multiset.mem_add.2 (.inl (Multiset.mem_singleton_self a))
  obtain ⟨s', hs', hget, hfresh⟩ := set_of_some ((h.mem_iff a).2 hmem) (some x)
  refine ⟨s', hs', ⟨h.nodup, fun b => ?_⟩, by rw [hget, Function.update_self], hfresh, fun b hb => ?_⟩
  · rw [hget]
    by_cases hb : b = a
    · subst hb
      simp
    · rw [Function.update_of_ne hb, h.mem_iff b]
  · have hne : b ≠ a := by
      rintro rfl
      exact h.notMem hb
    rw [hget, Function.update_of_ne hne]

/-- **What is freed leaves the account**, and was in it once. -/
theorem Exactly.free (h : Exactly s ({a} + m)) :
    ∃ s', s.free a = some s' ∧ Exactly s' m ∧ s'.get a = none ∧ s'.fresh = s.fresh ∧ Agrees m s s' := by
  have hmem : a ∈ {a} + m := Multiset.mem_add.2 (.inl (Multiset.mem_singleton_self a))
  obtain ⟨s', hs', hget, hfresh⟩ := set_of_some ((h.mem_iff a).2 hmem) none
  have hnd := h.nodup
  rw [Multiset.singleton_add, Multiset.nodup_cons] at hnd
  refine ⟨s', hs', ⟨hnd.2, fun b => ?_⟩, by rw [hget, Function.update_self], hfresh, fun b hb => ?_⟩
  · rw [hget]
    by_cases hb : b = a
    · subst hb
      simp [hnd.1]
    · rw [Function.update_of_ne hb, h.mem_iff b, Multiset.singleton_add, Multiset.mem_cons]
      exact or_iff_right hb
  · have hne : b ≠ a := by
      rintro rfl
      exact h.notMem hb
    rw [hget, Function.update_of_ne hne]

/-- The identities of an array. -/
def cells (base n : Nat) : Multiset Nat := ∑ i ∈ Finset.range n, {base + i}

theorem mem_cells {base n : Nat} : a ∈ cells base n ↔ base ≤ a ∧ a < base + n := by
  unfold cells
  rw [Multiset.mem_sum]
  constructor
  · rintro ⟨i, hi, ha⟩
    rw [Finset.mem_range] at hi
    rw [Multiset.mem_singleton] at ha
    omega
  · rintro ⟨h1, h2⟩
    exact ⟨a - base, Finset.mem_range.2 (by omega), Multiset.mem_singleton.2 (by omega)⟩

theorem nodup_cells (base n : Nat) : (cells base n).Nodup := by
  induction n with
  | zero => exact Multiset.nodup_zero
  | succ n ih =>
    have hs : cells base (n + 1) = {base + n} + cells base n := by
      unfold cells
      rw [Finset.sum_range_succ, add_comm]
    rw [hs, Multiset.singleton_add, Multiset.nodup_cons, mem_cells]
    exact ⟨by omega, ih⟩

theorem Exactly.allocArray (h : Exactly s m) (n : Nat) (x : α) :
    Exactly (s.allocArray n x).2 (cells s.fresh n + m) ∧
      (∀ i < n, (s.allocArray n x).2.get (s.fresh + i) = some x) ∧ Agrees m s (s.allocArray n x).2 := by
  refine ⟨⟨?_, fun a => ?_⟩, fun i hi => if_pos ⟨Nat.le_add_right .., by omega⟩, fun a ha => ?_⟩
  · rw [Multiset.nodup_add]
    refine ⟨nodup_cells _ _, h.nodup, Multiset.disjoint_left.2 fun {a} ha hm => ?_⟩
    have := h.lt_fresh hm
    have := (mem_cells.1 ha).1
    omega
  · rw [Multiset.mem_add, mem_cells, ← h.mem_iff a]
    simp only [Store.allocArray, fill]
    split
    · rename_i hb
      exact iff_of_true rfl (.inl hb)
    · rename_i hb
      exact (or_iff_right hb).symm
  · have hlt := h.lt_fresh ha
    exact if_neg (by omega)

theorem Exactly.freeArray {base n : Nat} (h : Exactly s (cells base n + m)) :
    ∃ s', s.freeArray base n = some s' ∧ Exactly s' m ∧ Agrees m s s' := by
  have hnd := Multiset.nodup_add.1 h.nodup
  have hall : ∀ i < n, (s.get (base + i)).isSome = true := by
    intro i hi
    rw [h.mem_iff, Multiset.mem_add, mem_cells]
    exact .inl ⟨Nat.le_add_right base i, by omega⟩
  have hout : ∀ a ∈ m, ¬ (base ≤ a ∧ a < base + n) :=
    fun a hm ha => Multiset.disjoint_left.1 hnd.2.2 (mem_cells.2 ha) hm
  unfold Store.freeArray
  rw [if_pos hall]
  refine ⟨_, rfl, ⟨hnd.2.1, fun a => ?_⟩, fun a ha => if_neg (hout a ha)⟩
  simp only [fill]
  by_cases ha : base ≤ a ∧ a < base + n
  · rw [if_pos ha]
    exact iff_of_false Bool.false_ne_true (fun hm => hout a hm ha)
  · rw [if_neg ha, h.mem_iff, Multiset.mem_add, mem_cells]
    exact or_iff_right ha

end

/-! ## What is gone -/

/-- Allocated once and freed since. -/
def Gone (s : Store α) (a : Nat) : Prop := a < s.fresh ∧ s.get a = none

section
variable {s s' : Store α} {a b : Nat}

/-- **Nothing brings a freed object back.** -/
theorem Gone.set (h : Gone s a) {x : Option α} (hs : s.set b x = some s') : Gone s' a := by
  unfold Store.set at hs
  split at hs
  · rename_i hb
    cases hs
    have hne : a ≠ b := by
      rintro rfl
      rw [h.2] at hb
      cases hb
    refine ⟨h.1, ?_⟩
    show Function.update s.get b x a = none
    rw [Function.update_of_ne hne, h.2]
  · cases hs

theorem Gone.allocArray (h : Gone s a) (n : Nat) (x : α) : Gone (s.allocArray n x).2 a := by
  refine ⟨Nat.lt_of_lt_of_le h.1 (Nat.le_add_right ..), ?_⟩
  show s.fill s.fresh n (some x) a = none
  rw [fill, if_neg (fun hb => Nat.not_le_of_lt h.1 hb.1), h.2]

theorem Gone.freeArray (h : Gone s a) {base n : Nat} (hf : s.freeArray base n = some s') : Gone s' a := by
  unfold Store.freeArray at hf
  split at hf
  · cases hf
    refine ⟨h.1, ?_⟩
    show s.fill base n none a = none
    unfold fill
    split
    · rfl
    · exact h.2
  · cases hf

theorem gone_of_freeArray {base n : Nat} (hf : s.freeArray base n = some s') (ha : base ≤ a ∧ a < base + n) :
    Gone s' a := by
  unfold Store.freeArray at hf
  split at hf
  · rename_i hall
    cases hf
    have hin := hall (a - base) (by omega)
    rw [Nat.add_sub_cancel' ha.1] at hin
    have hlt : a < s.fresh := lt_fresh hin
    exact ⟨hlt, if_pos ha⟩
  · cases hf

theorem get_of_freeArray {base n : Nat} (hf : s.freeArray base n = some s') (ha : ¬ (base ≤ a ∧ a < base + n)) :
    s'.get a = s.get a := by
  unfold Store.freeArray at hf
  split at hf
  · cases hf
    exact if_neg ha
  · cases hf

theorem gone_of_free (hf : s.free a = some s') : Gone s' a := by
  obtain ⟨hget, hfresh⟩ := get_of_set hf
  unfold Store.free Store.set at hf
  split at hf
  · rename_i ha
    refine ⟨?_, by rw [hget, Function.update_self]⟩
    rw [hfresh]
    exact lt_fresh ha
  · cases hf

theorem Gone.alloc (h : Gone s a) (x : α) : Gone (s.alloc x).2 a := by
  refine ⟨Nat.lt_succ_of_lt h.1, ?_⟩
  show Function.update s.get s.fresh (some x) a = none
  rw [Function.update_of_ne (Nat.ne_of_lt h.1), h.2]

end

/-! ## Linked lists -/

section
variable {β γ : Type} (link : β → Option Nat)

/-- The objects from `p` to `q`, each linked to the next, as `read` finds them, and what each of them stands for. -/
def Seg (read : Nat → Option β) (rep : β → γ → Prop) : Option Nat → List (Nat × β) → List γ → Option Nat → Prop
  | p, [], [], q => p = q
  | p, (a, x) :: l, c :: cs, q => p = some a ∧ read a = some x ∧ rep x c ∧ Seg read rep (link x) l cs q
  | _, _, _, _ => False

variable {link} {read read' : Nat → Option β} {rep rep' : β → γ → Prop} {p q : Option Nat} {l l' : List (Nat × β)}
  {cs cs' : List γ}

theorem seg_cons {a : Nat} {x : β} {c : γ} : Seg link read rep p ((a, x) :: l) (c :: cs) q ↔
    p = some a ∧ read a = some x ∧ rep x c ∧ Seg link read rep (link x) l cs q := Iff.rfl

theorem Seg.of_nil (h : Seg link read rep p l [] q) : l = [] ∧ p = q := by
  cases l with
  | nil => exact ⟨rfl, h⟩
  | cons c l => exact h.elim

theorem Seg.of_cons {c : γ} (h : Seg link read rep p l (c :: cs) q) :
    ∃ a x l₁, l = (a, x) :: l₁ ∧ p = some a ∧ read a = some x ∧ rep x c ∧ Seg link read rep (link x) l₁ cs q := by
  cases l with
  | nil => exact h.elim
  | cons d l => exact ⟨d.1, d.2, l, rfl, h⟩

theorem Seg.append {r : Option Nat} (h : Seg link read rep p l cs r) (h' : Seg link read rep r l' cs' q) :
    Seg link read rep p (l ++ l') (cs ++ cs') q := by
  induction cs generalizing p l with
  | nil =>
    obtain ⟨rfl, rfl⟩ := h.of_nil
    exact h'
  | cons c cs ih =>
    obtain ⟨a, x, l₁, rfl, h1, h2, h3, h4⟩ := h.of_cons
    exact ⟨h1, h2, h3, ih h4⟩

/-- A list splits where what it stands for does. -/
theorem Seg.split (h : Seg link read rep p l (cs ++ cs') q) :
    ∃ l₁ l₂ r, l = l₁ ++ l₂ ∧ Seg link read rep p l₁ cs r ∧ Seg link read rep r l₂ cs' q := by
  induction cs generalizing p l with
  | nil => exact ⟨[], l, p, rfl, rfl, h⟩
  | cons c cs ih =>
    obtain ⟨a, x, l, rfl, h1, h2, h3, h4⟩ := h.of_cons
    obtain ⟨l₁, l₂, r, rfl, h5, h6⟩ := ih h4
    exact ⟨(a, x) :: l₁, l₂, r, rfl, ⟨h1, h2, h3, h5⟩, h6⟩

/-- A store that reads the same along a list holds it too. -/
theorem Seg.congr (h : Seg link read rep p l cs q) (hs : ∀ d ∈ l, read' d.1 = read d.1)
    (hrep : ∀ d ∈ l, ∀ c, rep d.2 c → rep' d.2 c) : Seg link read' rep' p l cs q := by
  induction cs generalizing p l with
  | nil =>
    obtain ⟨rfl, rfl⟩ := h.of_nil
    rfl
  | cons c cs ih =>
    obtain ⟨a, x, l, rfl, h1, h2, h3, h4⟩ := h.of_cons
    have hmem : (a, x) ∈ (a, x) :: l := List.mem_cons_self ..
    refine ⟨h1, (hs _ hmem).trans h2, hrep _ hmem c h3, ih h4 (fun d hd => hs d ?_) (fun d hd => hrep d ?_)⟩
    · exact List.mem_cons_of_mem _ hd
    · exact List.mem_cons_of_mem _ hd

/-- From each object on, the list is one to the same end. -/
theorem Seg.suffix (h : Seg link read rep p l cs q) {a : Nat} {x : β} (ha : (a, x) ∈ l) :
    ∃ l₂ c cs₂, Seg link read rep (some a) ((a, x) :: l₂) (c :: cs₂) q := by
  induction cs generalizing p l with
  | nil =>
    rw [h.of_nil.1] at ha
    cases ha
  | cons c cs ih =>
    obtain ⟨b, y, l, rfl, hp, hread, hc, hrest⟩ := h.of_cons
    rcases List.mem_cons.1 ha with he | ha
    · cases he
      exact ⟨l, c, cs, rfl, hread, hc, hrest⟩
    · exact ih hrest ha

theorem Seg.length_eq (h : Seg link read rep p l cs q) : l.length = cs.length := by
  induction cs generalizing p l with
  | nil =>
    rw [h.of_nil.1]
    rfl
  | cons c cs ih =>
    obtain ⟨a, x, l, rfl, -, -, -, h⟩ := h.of_cons
    rw [List.length_cons, List.length_cons, ih h]

/-- The addresses along a list. -/
def addrs (l : List (Nat × β)) : Multiset Nat := (l.map Prod.fst : List Nat)

@[simp] theorem addrs_nil : addrs ([] : List (Nat × β)) = 0 := rfl

@[simp] theorem addrs_cons (c : Nat × β) (l : List (Nat × β)) : addrs (c :: l) = {c.1} + addrs l := by
  rw [Multiset.singleton_add]
  rfl

@[simp] theorem addrs_append (l l' : List (Nat × β)) : addrs (l ++ l') = addrs l + addrs l' := by
  unfold addrs
  rw [List.map_append, ← Multiset.coe_add]

theorem mem_addrs {c : Nat × β} (h : c ∈ l) : c.1 ∈ addrs l := Multiset.mem_coe.2 (List.mem_map_of_mem h)

/-- **A list that is part of the account is no longer than the store is large**, so a walk along it ends. -/
theorem Exactly.length_le {s : Store α} {m : Multiset Nat} (h : Exactly s m) (hle : addrs l ≤ m) :
    l.length ≤ s.fresh := by
  have hnd : (l.map Prod.fst).Nodup := Multiset.coe_nodup.1 (Multiset.nodup_of_le hle h.nodup)
  have hsub : l.map Prod.fst ⊆ List.range s.fresh := by
    intro a ha
    rw [List.mem_range]
    exact h.lt_fresh (Multiset.mem_of_le hle (Multiset.mem_coe.2 ha))
  have hlen := (List.subperm_of_subset hnd hsub).length_le
  rwa [List.length_map, List.length_range] at hlen

end

end Store
