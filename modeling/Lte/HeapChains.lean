import Lte.HashmapHeap
/-!
# HeapChains — a chain of the hash map on the heap

`Chained` says that the entries from a pointer on hold a chain of `Hashmap`, and `own` is what such a chain owns: its
entries, its keys and its records.  Each function does to a chain what it does in `Hashmap`, in any heap whose account
is the chain and a rest, and it keeps the rest.  Two things leave the chain without being freed: the record that a put
replaces, and the emptied last entry that a put of a new key overwrites the link to (`strandedBy`).
-/
namespace Lte

namespace HeapMap

open Store Chain

variable {κ ν : Type}

/-- The fields of an entry hold the key and the record. -/
def Holds (h : Heap κ ν) (e : HashmapEntry) : Entry κ ν → Prop
  | none => e.key = none ∧ e.value = none
  | some p => ∃ kp vp, e.key = some kp ∧ e.value = some vp ∧ h.get kp = some (.key p.1) ∧ h.get vp = some (.value p.2)

/-- **The entries `l` from `p` to `q` hold the chain `es`.** -/
def Chained (h : Heap κ ν) (p : Option Nat) (l : List (Nat × HashmapEntry)) (es : Chain κ ν) (q : Option Nat) : Prop :=
  Seg HashmapEntry.next (entryAt h) (Holds h) p l es q

def ptr : Option Nat → Multiset Nat
  | none => 0
  | some a => {a}

/-- What the entries of a chain own. -/
def own : List (Nat × HashmapEntry) → Multiset Nat
  | [] => 0
  | c :: l => {c.1} + (ptr c.2.key + ptr c.2.value) + own l

@[simp] theorem ptr_none : ptr none = 0 := rfl

@[simp] theorem ptr_some (a : Nat) : ptr (some a) = {a} := rfl

@[simp] theorem own_nil : own [] = 0 := rfl

@[simp] theorem own_cons (c : Nat × HashmapEntry) (l : List (Nat × HashmapEntry)) :
    own (c :: l) = {c.1} + (ptr c.2.key + ptr c.2.value) + own l := rfl

@[simp] theorem own_append (l l' : List (Nat × HashmapEntry)) : own (l ++ l') = own l + own l' := by
  induction l with
  | nil => rw [List.nil_append, own_nil, zero_add]
  | cons c l ih =>
    rw [List.cons_append, own_cons, own_cons, ih]
    abel

theorem addrs_le_own (l : List (Nat × HashmapEntry)) : addrs l ≤ own l := by
  induction l with
  | nil => exact le_refl _
  | cons c l ih =>
    rw [addrs_cons, own_cons]
    exact add_le_add (Multiset.le_add_right _ _) ih

theorem own_mem_le {c : Nat × HashmapEntry} {l : List (Nat × HashmapEntry)} (h : c ∈ l) :
    {c.1} + (ptr c.2.key + ptr c.2.value) ≤ own l := by
  obtain ⟨l₁, l₂, rfl⟩ := List.append_of_mem h
  rw [own_append, own_cons]
  exact (Multiset.le_add_right _ _).trans (Multiset.le_add_left _ _)

section
variable {h h' : Heap κ ν} {e : HashmapEntry} {a : Nat}

theorem entryAt_of_get (hg : h.get a = some (.entry e)) : entryAt h a = some e := by rw [entryAt, hg]

theorem get_of_entryAt (he : entryAt h a = some e) : h.get a = some (.entry e) := by
  unfold entryAt at he
  split at he
  · rename_i e' hg
    cases he
    exact hg
  · cases he

theorem keyAt_of_get {k : κ} (hg : h.get a = some (.key k)) : keyAt h a = some k := by rw [keyAt, hg]

theorem entryAt_of_agrees {m : Multiset Nat} (hag : Agrees m h h') (ha : a ∈ m) : entryAt h' a = entryAt h a := by
  rw [entryAt, entryAt, hag a ha]

theorem Holds.not_entry {c : Entry κ ν} {b : Nat} {e' : HashmapEntry} (hh : Holds h e c) (he : entryAt h b = some e') :
    b ∉ ptr e.key + ptr e.value := by
  have hg := get_of_entryAt he
  cases c with
  | none =>
    rw [hh.1, hh.2]
    exact Multiset.notMem_zero b
  | some p =>
    obtain ⟨kp, vp, hk, hv, hgk, hgv⟩ := hh
    rw [hk, hv, ptr_some, ptr_some, Multiset.mem_add, Multiset.mem_singleton, Multiset.mem_singleton]
    rintro (rfl | rfl)
    · cases hg.symm.trans hgk
    · cases hg.symm.trans hgv

theorem Holds.congr {c : Entry κ ν} (hh : Holds h e c) (hag : Agrees (ptr e.key + ptr e.value) h h') :
    Holds h' e c := by
  cases c with
  | none => exact hh
  | some p =>
    obtain ⟨kp, vp, hk, hv, hgk, hgv⟩ := hh
    rw [hk, hv] at hag
    refine ⟨kp, vp, hk, hv, ?_, ?_⟩
    · rw [hag.left kp (Multiset.mem_singleton_self kp), hgk]
    · rw [hag.right vp (Multiset.mem_singleton_self vp), hgv]

end

section
variable {h h' : Heap κ ν} {p q r : Option Nat} {l l' : List (Nat × HashmapEntry)} {es es' : Chain κ ν}

/-- **A chain stands in every heap that agrees on what it owns.** -/
theorem Chained.congr (hc : Chained h p l es q) (hag : Agrees (own l) h h') : Chained h' p l es q := by
  refine Seg.congr hc (fun d hd => ?_) (fun d hd c hh => ?_)
  · exact entryAt_of_agrees hag (Multiset.mem_of_le (addrs_le_own l) (mem_addrs hd))
  · exact hh.congr (hag.mono ((Multiset.le_add_left _ _).trans (own_mem_le hd)))

theorem Chained.append (hc : Chained h p l es r) (hc' : Chained h r l' es' q) :
    Chained h p (l ++ l') (es ++ es') q := Seg.append hc hc'

theorem Chained.single {a : Nat} {e : HashmapEntry} {c : Entry κ ν} (he : entryAt h a = some e) (hh : Holds h e c) :
    Chained h (some a) [(a, e)] [c] e.next := ⟨rfl, he, hh, rfl⟩

/-- Of what a chain owns, only its nodes are entries. -/
theorem Chained.mem_of_own {a : Nat} {e : HashmapEntry} (hc : Chained h p l es q) (he : entryAt h a = some e)
    (ha : a ∈ own l) : (a, e) ∈ l := by
  induction es generalizing p l with
  | nil =>
    obtain ⟨rfl, -⟩ := Seg.of_nil hc
    cases ha
  | cons c es ih =>
    obtain ⟨b, e', l, rfl, -, hb, hh, hrest⟩ := Seg.of_cons hc
    rw [own_cons, Multiset.mem_add, Multiset.mem_add, Multiset.mem_singleton] at ha
    rcases ha with (rfl | ha) | ha
    · have hee : e = e' := Option.some.inj (he.symm.trans hb)
      rw [hee]
      exact List.mem_cons_self
    · exact absurd ha (hh.not_entry he)
    · exact List.mem_cons_of_mem _ (ih hrest ha)

/-- A chain that stands in a heap is no longer than the heap is large. -/
theorem length_le_fresh {R : Multiset Nat} (hex : Exactly h (own l + R)) : l.length ≤ h.fresh :=
  hex.length_le ((addrs_le_own l).trans (Multiset.le_add_right _ _))

/-- The entry at the end of a chain, when it is one without a key. -/
theorem Chained.tail (hc : Chained h p l es none) (ht : Tail es) :
    (es = [] ∧ l = [] ∧ p = none) ∨ ∃ a, es = [none] ∧ l = [(a, .zero)] ∧ p = some a ∧ entryAt h a = some .zero := by
  rcases ht with rfl | rfl
  · obtain ⟨rfl, rfl⟩ := Seg.of_nil hc
    exact .inl ⟨rfl, rfl, rfl⟩
  · obtain ⟨a, e, l, rfl, rfl, he, ⟨hk, hv⟩, hnext⟩ := Seg.of_cons hc
    obtain ⟨rfl, hn⟩ := Seg.of_nil hnext
    have hzero : e = .zero := by
      cases e
      cases hk
      cases hv
      cases hn
      rfl
    subst hzero
    exact .inr ⟨a, rfl, rfl, rfl, he⟩

end

/-! ## What is freed, and what stays -/

/-- What is freed stays so. -/
def Shrinks (h h' : Heap κ ν) : Prop := ∀ b, Gone h b → Gone h' b

/-- Nothing is brought back, every entry is still an entry, and every record is as it was. -/
structure Extends (h h' : Heap κ ν) : Prop where
  gone : Shrinks h h'
  entries : ∀ b, (entryAt h b).isSome = true → (entryAt h' b).isSome = true
  records : ∀ b x, h.get b = some (.value x) → h'.get b = some (.value x)

section
variable {h h₁ h₂ : Heap κ ν} {a : Nat}

theorem Extends.refl (h : Heap κ ν) : Extends h h := ⟨fun _ hb => hb, fun _ hb => hb, fun _ _ hb => hb⟩

theorem Extends.trans (h₁₂ : Extends h h₁) (h₂₃ : Extends h₁ h₂) : Extends h h₂ :=
  ⟨fun b hb => h₂₃.gone b (h₁₂.gone b hb), fun b hb => h₂₃.entries b (h₁₂.entries b hb),
    fun b x hb => h₂₃.records b x (h₁₂.records b x hb)⟩

theorem entryAt_congr (hg : h₁.get a = h.get a) : entryAt h₁ a = entryAt h a := by rw [entryAt, entryAt, hg]

theorem Extends.alloc (h : Heap κ ν) (x : Object κ ν) : Extends h (h.alloc x).2 := by
  refine ⟨fun b hb => hb.alloc x, fun b hb => ?_, fun b y hb => ?_⟩
  · obtain ⟨e, he⟩ := Option.isSome_iff_exists.1 hb
    rw [entryAt_congr (get_of_alloc (by rw [get_of_entryAt he]; rfl) x)]
    exact hb
  · rw [get_of_alloc (by rw [hb]; rfl)]
    exact hb

/-- A write of an entry where there is one. -/
theorem Extends.write {e : HashmapEntry} (ha : (entryAt h a).isSome = true) (hw : h.write a (.entry e) = some h₁) :
    Extends h h₁ := by
  obtain ⟨hget, -⟩ := get_of_set hw
  refine ⟨fun b hb => hb.set hw, fun b hb => ?_, fun b x hb => ?_⟩
  · by_cases hba : b = a
    · rw [entryAt, hba, hget, Function.update_self]
      rfl
    · have hsame : h₁.get b = h.get b := by rw [hget, Function.update_of_ne hba]
      rw [entryAt_congr hsame]
      exact hb
  · have hba : b ≠ a := by
      rintro rfl
      rw [entryAt, hb] at ha
      cases ha
    rw [hget, Function.update_of_ne hba]
    exact hb

theorem extends_storeKey (h : Heap κ ν) (key : κ) (owned : Option Nat) : Extends h (storeKey h key owned).2 := by
  cases owned with
  | none => exact Extends.alloc h _
  | some kp => exact Extends.refl h

theorem extends_linkEntry {key : κ} {owned value : Option Nat} {last : Nat}
    (hl : linkEntry h key owned value last = some h₁) : Extends h h₁ := by
  rw [linkEntry] at hl
  obtain ⟨h₂, hw₂, hl⟩ := Option.bind_eq_some_iff.1 hl
  obtain ⟨e, he, hw₁⟩ := Option.bind_eq_some_iff.1 hl
  have hnew : (entryAt (h.alloc (.entry .zero)).2 h.fresh).isSome = true := by
    rw [entryAt_of_get (Function.update_self ..)]
    rfl
  have hkey := extends_storeKey (h.alloc (.entry .zero)).2 key owned
  exact (((Extends.alloc h _).trans hkey).trans (Extends.write (hkey.entries _ hnew) hw₂)).trans
    (Extends.write (Option.isSome_of_eq_some he) hw₁)

/-- **An insertion** frees nothing. -/
theorem extends_insertTable [DecidableEq κ] {hash : κ → UInt64} {table size : Nat} {key : κ} {owned value : Option Nat}
    {shouldCmp new : Bool} (hi : insertTable hash h table size key owned value shouldCmp = some (h₁, new)) :
    Extends h h₁ := by
  unfold insertTable at hi
  split at hi
  · cases hi
  · obtain ⟨e, he, hi⟩ := Option.bind_eq_some_iff.1 hi
    obtain ⟨h₂, hw, hh⟩ := Option.map_eq_some_iff.1 hi
    cases hh
    exact Extends.write (Option.isSome_of_eq_some he) hw
  · cases hi
  · obtain ⟨e, he, hi⟩ := Option.bind_eq_some_iff.1 hi
    obtain ⟨h₂, hw, hh⟩ := Option.map_eq_some_iff.1 hi
    cases hh
    exact (extends_storeKey h key owned).trans (Extends.write (Option.isSome_of_eq_some he) hw)
  · obtain ⟨h₂, hl, hh⟩ := Option.map_eq_some_iff.1 hi
    cases hh
    exact extends_linkEntry hl

/-- What every insertion keeps, and every `free` of an entry, moving the entries behind a slot keeps. -/
theorem moveChain_keeps [DecidableEq κ] {hash : κ → UInt64} {newTable newSize : Nat} {P : Heap κ ν → Prop}
    (hins : ∀ {h h₁}, Extends h h₁ → P h → P h₁)
    (hfree : ∀ {h h₁ a}, (entryAt h a).isSome = true → h.free a = some h₁ → P h → P h₁) :
    ∀ {fuel : Nat} {h h₁ : Heap κ ν} {p : Option Nat} {inTable : Bool},
      moveChain hash newTable newSize fuel h p inTable = some h₁ → P h → P h₁
  | 0, _, _, _, _, hm, _ => by cases hm
  | fuel + 1, h, h₁, none, inTable, hm, hP => by
    cases hm
    exact hP
  | fuel + 1, h, h₁, some old, inTable, hm, hP => by
    rw [moveChain] at hm
    split at hm
    · cases hm
    · rename_i e he
      split at hm
      · cases hm
        exact hP
      · obtain ⟨k, -, hm⟩ := Option.bind_eq_some_iff.1 hm
        obtain ⟨⟨h₂, new⟩, hi, hm⟩ := Option.bind_eq_some_iff.1 hm
        obtain ⟨h₃, hf, hm⟩ := Option.bind_eq_some_iff.1 hm
        have hext := extends_insertTable hi
        refine moveChain_keeps hins hfree hm ?_
        cases inTable with
        | true =>
          cases hf
          exact hins hext hP
        | false => exact hfree (hext.entries old (Option.isSome_of_eq_some he)) hf (hins hext hP)

theorem shrinks_moveChain [DecidableEq κ] {hash : κ → UInt64} {newTable newSize fuel : Nat} {p : Option Nat}
    {inTable : Bool} (hm : moveChain hash newTable newSize fuel h p inTable = some h₁) : Shrinks h h₁ :=
  fun _ hb => moveChain_keeps (fun hext hb => hext.gone _ hb) (fun _ hf hb => hb.set hf) hm hb

/-- A record stays, whatever entries are moved. -/
theorem record_of_free {b : Nat} {x : ν} (ha : (entryAt h a).isSome = true) (hf : h.free a = some h₁)
    (hb : h.get b = some (.value x)) : h₁.get b = some (.value x) := by
  have hba : b ≠ a := by
    rintro rfl
    rw [entryAt, hb] at ha
    cases ha
  obtain ⟨hget, -⟩ := get_of_set hf
  rw [hget, Function.update_of_ne hba]
  exact hb

/-- What each step of a loop keeps, the loop keeps. -/
theorem foldlM_keeps {f : Heap κ ν → Nat → Option (Heap κ ν)} {P : Heap κ ν → Prop}
    (hf : ∀ {h h₁ i}, f h i = some h₁ → P h → P h₁) :
    ∀ {is : List Nat} {h h₁ : Heap κ ν}, is.foldlM f h = some h₁ → P h → P h₁
  | [], h, _, hr, hP => by
    cases hr
    exact hP
  | i :: is, h, h₁, hr, hP => by
    rw [List.foldlM_cons] at hr
    obtain ⟨h₂, hi, hr⟩ := Option.bind_eq_some_iff.1 hr
    exact foldlM_keeps hf hr (hf hi hP)

end

/-! ## The walk -/

/-- The last of the entries `l`, after a walk that came to them with `last`. -/
def lastOf : List (Nat × HashmapEntry) → Option Nat → Option Nat
  | [], last => last
  | c :: l, _ => lastOf l (some c.1)

theorem lastOf_concat (l : List (Nat × HashmapEntry)) (c : Nat × HashmapEntry) (last : Option Nat) :
    lastOf (l ++ [c]) last = some c.1 := by
  induction l generalizing last with
  | nil => rfl
  | cons d l ih => exact ih (some d.1)

section
variable [DecidableEq κ] {h : Heap κ ν} {p q r : Option Nat} {l : List (Nat × HashmapEntry)} {es : Chain κ ν} {key : κ}
  {x : ν}

/-- **The walk passes the entries of other keys.** -/
theorem walk_passes {ps : List (κ × ν)} (hc : Chained h p l (ps.map some) r) {shouldCmp : Bool}
    (hno : shouldCmp = true → key ∉ ps.map Prod.fst) (fuel : Nat) (last : Option Nat) :
    walk h key shouldCmp (l.length + fuel) p last = walk h key shouldCmp fuel r (lastOf l last) := by
  induction ps generalizing p l last with
  | nil =>
    obtain ⟨rfl, rfl⟩ := Seg.of_nil hc
    rw [List.length_nil, Nat.zero_add, lastOf]
  | cons c ps ih =>
    obtain ⟨a, e, l, rfl, rfl, he, ⟨kp, vp, hk, hv, hgk, hgv⟩, hrest⟩ := Seg.of_cons hc
    have hne : ¬ (shouldCmp = true ∧ c.1 = key) := by
      rintro ⟨hcmp, rfl⟩
      exact hno hcmp (List.mem_cons_self ..)
    have hno' : shouldCmp = true → key ∉ ps.map Prod.fst := fun hcmp hm => hno hcmp (List.mem_cons_of_mem _ hm)
    have hlen : ((a, e) :: l).length + fuel = (l.length + fuel) + 1 := by
      rw [List.length_cons]
      omega
    rw [hlen, walk, he]
    simp only [hk, keyAt_of_get hgk, if_neg hne]
    exact ih hrest hno' (some a)

theorem walk_finds {a : Nat} {e : HashmapEntry} (hc : Chained h p ((a, e) :: l) (some (key, x) :: es) q) (fuel : Nat)
    (last : Option Nat) : walk h key true (fuel + 1) p last = some (.found a) := by
  obtain ⟨rfl, he, ⟨kp, vp, hk, hv, hgk, hgv⟩, -⟩ := seg_cons.1 hc
  rw [walk, he]
  simp only [hk, keyAt_of_get hgk, and_self, if_true]

theorem walk_ends (hc : Chained h p l es none) (ht : Tail es) (shouldCmp : Bool) (fuel : Nat) (last : Option Nat) :
    walk h key shouldCmp (fuel + 1) p last = some (.ended p last) := by
  rcases hc.tail ht with ⟨rfl, rfl, rfl⟩ | ⟨a, rfl, rfl, rfl, he⟩
  · rfl
  · rw [walk, he]
    rfl

/-- What a walk finds is an entry. -/
theorem walk_found : ∀ {fuel : Nat} {p last : Option Nat} {shouldCmp : Bool} {b : Nat},
    walk h key shouldCmp fuel p last = some (.found b) → ∃ e, entryAt h b = some e
  | 0, _, _, _, _, hw => by cases hw
  | fuel + 1, none, last, shouldCmp, b, hw => by cases hw
  | fuel + 1, some a, last, shouldCmp, b, hw => by
    rw [walk] at hw
    split at hw
    · cases hw
    · rename_i e he
      split at hw
      · cases hw
      · split at hw
        · cases hw
        · split at hw
          · cases hw
            exact ⟨e, he⟩
          · exact walk_found hw

/-- A walk for a key that the chain holds. -/
theorem walk_known {R : Multiset Nat} {ps : List (κ × ν)} {l' : List (Nat × HashmapEntry)} {a : Nat}
    {e : HashmapEntry} (hc : Chained h p l (ps.map some) r)
    (hc' : Chained h r ((a, e) :: l') (some (key, x) :: es) q) (hno : key ∉ ps.map Prod.fst)
    (hex : Exactly h (own (l ++ (a, e) :: l') + R)) : walk h key true (h.fresh + 1) p none = some (.found a) := by
  have hlen := length_le_fresh hex
  rw [List.length_append] at hlen
  obtain ⟨fuel, hfuel⟩ := Nat.exists_eq_add_of_le (Nat.le_trans (Nat.le_add_right ..) hlen)
  rw [hfuel, Nat.add_assoc, walk_passes hc (fun _ => hno), walk_finds hc']

/-- A walk for a key that the chain does not hold. -/
theorem walk_unknown {R : Multiset Nat} {ps : List (κ × ν)} {l' : List (Nat × HashmapEntry)}
    (hc : Chained h p l (ps.map some) r) (hc' : Chained h r l' es none) (ht : Tail es) {shouldCmp : Bool}
    (hno : shouldCmp = true → key ∉ ps.map Prod.fst) (hex : Exactly h (own (l ++ l') + R)) :
    walk h key shouldCmp (h.fresh + 1) p none = some (.ended r (lastOf l none)) := by
  have hlen := length_le_fresh hex
  rw [List.length_append] at hlen
  obtain ⟨fuel, hfuel⟩ := Nat.exists_eq_add_of_le (Nat.le_trans (Nat.le_add_right ..) hlen)
  rw [hfuel, Nat.add_assoc, walk_passes hc hno, walk_ends hc' ht]

end

/-! ## Insertion -/

/-- The emptied entries linked behind the live ones: no later walk frees them. -/
def strandedBy (es : Chain κ ν) : Nat := if live es = [] then 0 else es.length - (live es).length

/-- `m` lists emptied entries that nothing is linked behind. -/
def Emptied (h : Heap κ ν) (m : Multiset Nat) : Prop := ∀ a ∈ m, entryAt h a = some .zero

theorem Emptied.congr {h h' : Heap κ ν} {m : Multiset Nat} (he : Emptied h m) (hag : Agrees m h h') : Emptied h' m :=
  fun a ha => (entryAt_of_agrees hag ha).trans (he a ha)

theorem Chained.emptied {h : Heap κ ν} {p : Option Nat} {l : List (Nat × HashmapEntry)} {es : Chain κ ν}
    (hc : Chained h p l es none) (ht : Tail es) : Emptied h (own l) ∧ Multiset.card (own l) = es.length := by
  rcases hc.tail ht with ⟨rfl, rfl, rfl⟩ | ⟨a, rfl, rfl, rfl, he⟩
  · exact ⟨fun a ha => absurd ha (Multiset.notMem_zero a), rfl⟩
  · refine ⟨fun b hb => ?_, rfl⟩
    have hba : b = a := by simpa [HashmapEntry.zero] using hb
    rw [hba, he]

section
variable [DecidableEq κ] {h : Heap κ ν} {key : κ} {x : ν} {R : Multiset Nat}

omit [DecidableEq κ] in
theorem storeKey_spec {owned : Option Nat} (hex : Exactly h (ptr owned + R))
    (hown : ∀ kp, owned = some kp → h.get kp = some (.key key)) :
    ∃ kp h', storeKey h key owned = (kp, h') ∧ Exactly h' ({kp} + R) ∧ h'.get kp = some (.key key) ∧
      Agrees R h h' := by
  cases owned with
  | none =>
    rw [ptr_none, zero_add] at hex
    obtain ⟨hex', hget, hag⟩ := hex.alloc (.key key)
    exact ⟨h.fresh, _, rfl, hex', hget, hag⟩
  | some kp => exact ⟨kp, h, rfl, hex, hown kp rfl, Agrees.refl R h⟩

omit [DecidableEq κ] in
/-- **A new entry behind the last.** -/
theorem linkEntry_spec (owned : Option Nat) (vp : Nat) {a : Nat} {e : HashmapEntry}
    (hex : Exactly h ({a} + (ptr owned + R))) (hown : ∀ kp, owned = some kp → h.get kp = some (.key key))
    (he : entryAt h a = some e) :
    ∃ kp n h', linkEntry h key owned (some vp) a = some h' ∧ Exactly h' ({a} + ({n} + ({kp} + R))) ∧
      entryAt h' a = some { e with next := some n } ∧ entryAt h' n = some ⟨some kp, some vp, none⟩ ∧
      h'.get kp = some (.key key) ∧ Agrees R h h' := by
  obtain ⟨hex₁, -, hag₁⟩ := hex.alloc (.entry .zero)
  have hown₁ : ∀ kp, owned = some kp → (h.alloc (.entry .zero)).2.get kp = some (.key key) := by
    intro kp hkp
    subst hkp
    exact (hag₁.right.left kp (Multiset.mem_singleton_self kp)).trans (hown kp rfl)
  obtain ⟨kp, h₂, hs, hex₂, hkey, hag₂⟩ := storeKey_spec (R := {h.fresh} + ({a} + R))
    (hex₁.of_eq (by abel)) hown₁
  obtain ⟨h₃, hw₃, hex₃, hget₃, -, hag₃⟩ := (hex₂.of_eq (t := {h.fresh} + ({kp} + ({a} + R))) (by abel)).write
    (.entry ⟨some kp, some vp, none⟩)
  have ha₃ : entryAt h₃ a = some e := by
    rw [entryAt_of_agrees hag₃.right.left (Multiset.mem_singleton_self a),
      entryAt_of_agrees hag₂.right.left (Multiset.mem_singleton_self a),
      entryAt_of_agrees hag₁.left (Multiset.mem_singleton_self a), he]
  obtain ⟨h₄, hw₄, hex₄, hget₄, -, hag₄⟩ := (hex₃.of_eq (t := {a} + ({h.fresh} + ({kp} + R))) (by abel)).write
    (.entry { e with next := some h.fresh })
  refine ⟨kp, h.fresh, h₄, ?_, hex₄, entryAt_of_get hget₄, ?_, ?_, ?_⟩
  · rw [linkEntry]
    simp only [Store.alloc] at hs ⊢
    rw [hs]
    simp only [hw₃, Option.bind_some, ha₃, hw₄]
  · exact (entryAt_of_agrees hag₄.left (Multiset.mem_singleton_self _)).trans (entryAt_of_get hget₃)
  · rw [hag₄.right.left kp (Multiset.mem_singleton_self kp), hag₃.left kp (Multiset.mem_singleton_self kp), hkey]
  · exact ((hag₁.right.right.trans hag₂.right.right).trans hag₃.right.right).trans hag₄.right.right

variable (hash : κ → UInt64) {table size : Nat} {l : List (Nat × HashmapEntry)} {es : Chain κ ν}

/-- **A new key** goes behind the live entries, and what was linked there is stranded. -/
theorem insertTable_new (hes : WellLinked es) (hc : Chained h (some (slot hash table size key)) l es none)
    {shouldCmp : Bool} (hno : shouldCmp = true → key ∉ keys es) (owned : Option Nat) {vp : Nat}
    (hex : Exactly h (own l + (ptr owned + ({vp} + R))))
    (hown : ∀ kp, owned = some kp → h.get kp = some (.key key)) (hvp : h.get vp = some (.value x)) :
    ∃ h' l' E, insertTable hash h table size key owned (some vp) shouldCmp = some (h', true) ∧
      Chained h' (some (slot hash table size key)) l' ((live es ++ [(key, x)]).map some) none ∧
      Exactly h' (own l' + (E + R)) ∧ Agrees R h h' ∧ Emptied h' E ∧ Multiset.card E = strandedBy es := by
  obtain ⟨tail, ht, hsplit⟩ := hes.split
  rcases List.eq_nil_or_concat (live es) with hnil | ⟨ps, pl, hps⟩
  · -- an empty slot is filled in place
    rw [hnil, List.map_nil, List.nil_append] at hsplit
    subst hsplit
    rcases hc.tail ht with ⟨rfl, rfl, hcl⟩ | ⟨a, rfl, rfl, hslot, he⟩
    · cases hcl
    cases hslot
    obtain ⟨kp, h₁, hs, hex₁, hkey, hag₁⟩ := storeKey_spec (R := {slot hash table size key} + ({vp} + R))
      (hex.of_eq (by simp only [own_cons, own_nil, HashmapEntry.zero, ptr_none]; abel)) hown
    obtain ⟨h₂, hw, hex₂, hget, -, hag₂⟩ := (hex₁.of_eq
      (t := {slot hash table size key} + ({kp} + ({vp} + R))) (by abel)).write (.entry ⟨some kp, some vp, none⟩)
    have he₁ : entryAt h₁ (slot hash table size key) = some .zero :=
      (entryAt_of_agrees hag₁.left (Multiset.mem_singleton_self _)).trans he
    have hvp₁ : h₁.get vp = some (.value x) := by
      rw [hag₁.right.left vp (Multiset.mem_singleton_self vp), hvp]
    refine ⟨h₂, [(slot hash table size key, ⟨some kp, some vp, none⟩)], 0, ?_, ?_, hex₂.of_eq ?_,
      hag₁.right.right.trans hag₂.right.right,
      fun a ha => absurd ha (Multiset.notMem_zero a), by rw [strandedBy, if_pos hnil]; rfl⟩
    · rw [insertTable, walk_ends hc ht]
      simp only [hs, he₁, Option.bind_some]
      exact congrArg (Option.map (·, true)) hw
    · rw [hnil]
      refine Chained.single (entryAt_of_get hget) ⟨kp, vp, rfl, rfl, ?_, ?_⟩
      · rw [hag₂.left kp (Multiset.mem_singleton_self kp), hkey]
      · rw [hag₂.right.left vp (Multiset.mem_singleton_self vp), hvp₁]
    · simp only [own_cons, own_nil, ptr_some]
      abel
  · -- the last entry with a key is linked to the new one
    rw [hps, List.concat_eq_append] at hsplit ⊢
    have hkeys : keys es = (ps ++ [pl]).map Prod.fst := by rw [keys, hps, List.concat_eq_append]
    rw [hsplit] at hc
    obtain ⟨l₁, l₂, r, rfl, hlive, htail⟩ := Seg.split hc
    have hwalk := walk_unknown hlive htail ht (fun hcmp => hkeys ▸ hno hcmp) hex
    rw [List.map_append] at hlive
    obtain ⟨l₁, l₃, r', rfl, hfront, hlast⟩ := Seg.split hlive
    obtain ⟨a, e, l₃, rfl, rfl, he, hh, hend⟩ := Seg.of_cons hlast
    obtain ⟨rfl, rfl⟩ := Seg.of_nil hend
    obtain ⟨hemp, hcard⟩ := Chained.emptied htail ht
    rw [lastOf_concat] at hwalk
    obtain ⟨kp, n, h', hlink, hex', ha', hn', hkey', hag⟩ := linkEntry_spec owned vp
      (R := own l₁ + ((ptr e.key + ptr e.value) + (own l₂ + ({vp} + R)))) (hex.of_eq (by
        simp only [own_append, own_cons, own_nil]
        abel)) hown he
    have hvp' : h'.get vp = some (.value x) := by
      rw [hag.right.right.right.left vp (Multiset.mem_singleton_self vp), hvp]
    refine ⟨h', l₁ ++ [(a, { e with next := some n }), (n, ⟨some kp, some vp, none⟩)], own l₂, ?_, ?_, hex'.of_eq ?_,
      hag.right.right.right.right, hemp.congr hag.right.right.left, ?_⟩
    · rw [insertTable, hwalk]
      simp only [hlink, Option.map_some]
    · rw [List.map_append, List.map_append, List.append_assoc]
      refine Chained.append (Chained.congr hfront hag.left)
        ⟨rfl, ha', ?_, rfl, hn', ⟨kp, vp, rfl, rfl, hkey', hvp'⟩, rfl⟩
      exact Holds.congr (e := e) hh hag.right.left
    · simp only [own_append, own_cons, own_nil, ptr_some]
      abel
    · have hlen : es.length = (ps ++ [pl]).length + tail.length := by
        rw [hsplit, List.length_append, List.length_map]
      rw [hcard, strandedBy, hps, List.concat_eq_append, if_neg (by simp), hlen, Nat.add_sub_cancel_left]

end

/-! ## A known key -/

section
variable [DecidableEq κ]

/-- The entry of a key stands behind entries of other keys. -/
theorem exists_at {es : Chain κ ν} {k : κ} (hk : k ∈ keys es) :
    ∃ (qs : List (κ × ν)) (u : ν) (es' : Chain κ ν), es = qs.map some ++ some (k, u) :: es' ∧ k ∉ qs.map Prod.fst := by
  induction es with
  | nil => cases hk
  | cons c es ih =>
    cases c with
    | none => cases hk
    | some p =>
      by_cases hp : p.1 = k
      · subst hp
        exact ⟨[], p.2, es, rfl, List.not_mem_nil⟩
      · obtain ⟨qs, u, es', rfl, hno⟩ := ih ((List.mem_cons.1 hk).resolve_left (Ne.symm hp))
        refine ⟨p :: qs, u, es', rfl, ?_⟩
        rw [List.map_cons, List.mem_cons]
        rintro (he | hm)
        · exact hp he.symm
        · exact hno hm

variable {k : κ} {u : ν} {qs : List (κ × ν)} {es : Chain κ ν}

omit [DecidableEq κ] in
theorem live_at (qs : List (κ × ν)) (c : κ × ν) (es : Chain κ ν) :
    live (qs.map some ++ some c :: es) = qs ++ c :: live es := by
  induction qs with
  | nil => rfl
  | cons q qs ih => rw [List.map_cons, List.cons_append, live, ih, List.cons_append]

theorem scan_at (hno : k ∉ qs.map Prod.fst) : scan k (qs.map some ++ some (k, u) :: es) = some u := by
  induction qs with
  | nil => exact if_pos rfl
  | cons q qs ih =>
    rw [List.map_cons, List.mem_cons] at hno
    rw [List.map_cons, List.cons_append, scan, if_neg fun he => hno (.inl he.symm)]
    exact ih fun hm => hno (.inr hm)

theorem insertLinked_at (hno : k ∉ qs.map Prod.fst) (v : ν) :
    insertLinked k v true (qs.map some ++ some (k, u) :: es) = (qs.map some ++ some (k, v) :: es, false) := by
  induction qs with
  | nil => exact if_pos ⟨rfl, rfl⟩
  | cons q qs ih =>
    rw [List.map_cons, List.mem_cons] at hno
    rw [List.map_cons, List.cons_append, insertLinked, if_neg fun he => hno (.inl he.2.symm),
      ih fun hm => hno (.inr hm)]
    rfl

theorem insert_at (hno : k ∉ qs.map Prod.fst) (v : ν) :
    Chain.insert k v true (qs.map some ++ some (k, u) :: es) = (qs.map some ++ some (k, v) :: es, false) := by
  rw [← insertLinked_at (u := u) hno]
  cases qs with
  | nil => rfl
  | cons q qs => rfl

/-- What stands behind the entry of a deleted key, or what is left of that entry. -/
def orEmpty (es : Chain κ ν) : Chain κ ν :=
  match es with
  | [] => [none]
  | n :: es => n :: es

theorem delete_at (hno : k ∉ qs.map Prod.fst) :
    Chain.delete k (qs.map some ++ some (k, u) :: es) = some (qs.map some ++ orEmpty es) := by
  induction qs with
  | nil =>
    cases es with
    | nil => exact if_pos rfl
    | cons n es => exact if_pos rfl
  | cons q qs ih =>
    rw [List.map_cons, List.mem_cons] at hno
    simp only [List.map_cons, List.cons_append, Chain.delete, if_neg fun he => hno (.inl (Eq.symm he)),
      ih fun hm => hno (.inr hm), Option.map_some]

end

section
variable [DecidableEq κ] {h : Heap κ ν} {key : κ} {x : ν} {R : Multiset Nat} (hash : κ → UInt64) {table size : Nat}
  {l : List (Nat × HashmapEntry)} {es : Chain κ ν}

/-- **A known key** keeps its entry, and its old record is no longer the map's. -/
theorem insertTable_known (hc : Chained h (some (slot hash table size key)) l es none) (hk : key ∈ keys es)
    (owned : Option Nat) {vp : Nat} (hex : Exactly h (own l + ({vp} + R))) (hvp : h.get vp = some (.value x)) :
    ∃ h' l' old u, insertTable hash h table size key owned (some vp) true = some (h', false) ∧
      Chained h' (some (slot hash table size key)) l' (Chain.insert key x true es).1 none ∧
      Exactly h' (own l' + ({old} + R)) ∧ Agrees R h h' ∧ h'.get old = some (.value u) ∧ scan key es = some u := by
  obtain ⟨qs, u, es', rfl, hno⟩ := exists_at hk
  obtain ⟨l₁, l₂, r, rfl, hfront, hrest⟩ := Seg.split hc
  obtain ⟨a, e, l₂, rfl, rfl, he, hh, hback⟩ := Seg.of_cons hrest
  have hwalk := walk_known hfront hrest hno hex
  obtain ⟨kp, old, hkp, hold, hgk, hgo⟩ := hh
  obtain ⟨h', hw, hex', hget, -, hag⟩ := (hex.of_eq
    (t := {a} + (own l₁ + ({kp} + ({old} + (own l₂ + ({vp} + R)))))) (by
      simp only [own_append, own_cons, hkp, hold, ptr_some]
      abel)).write (.entry { e with value := some vp })
  refine ⟨h', l₁ ++ (a, { e with value := some vp }) :: l₂, old, u, ?_, ?_, hex'.of_eq ?_,
    hag.right.right.right.right.right, ?_, scan_at hno⟩
  · rw [insertTable, hwalk]
    simp only [he, Option.bind_some]
    exact congrArg (Option.map (·, false)) hw
  · rw [insert_at hno]
    refine Chained.append (Chained.congr hfront hag.left) ⟨rfl, entryAt_of_get hget, ⟨kp, vp, hkp, rfl, ?_, ?_⟩, ?_⟩
    · rw [hag.right.left kp (Multiset.mem_singleton_self kp), hgk]
    · rw [hag.right.right.right.right.left vp (Multiset.mem_singleton_self vp), hvp]
    · exact Chained.congr hback hag.right.right.right.left
  · simp only [own_append, own_cons, hkp, ptr_some]
    abel
  · rw [hag.right.right.left old (Multiset.mem_singleton_self old), hgo]

/-- **A write through the pointer of a known key's record** leaves the chain of an insertion. -/
theorem writeRecord_spec {p : Option Nat} (hc : Chained h p l es none) (hk : key ∈ keys es)
    (hex : Exactly h (own l + R)) (x : ν) :
    ∃ a e vp u h', walk h key true (h.fresh + 1) p none = some (.found a) ∧ entryAt h a = some e ∧
      e.value = some vp ∧ h.get vp = some (.value u) ∧ scan key es = some u ∧ h.write vp (.value x) = some h' ∧
      Chained h' p l (Chain.insert key x true es).1 none ∧ Exactly h' (own l + R) ∧ Agrees R h h' := by
  obtain ⟨qs, u, es', rfl, hno⟩ := exists_at hk
  obtain ⟨l₁, l₂, r, rfl, hfront, hrest⟩ := Seg.split hc
  obtain ⟨a, e, l₂, rfl, rfl, he, hh, hback⟩ := Seg.of_cons hrest
  have hwalk := walk_known hfront hrest hno hex
  obtain ⟨kp, vp, hkp, hvp, hgk, hgv⟩ := hh
  have hown : own (l₁ ++ (a, e) :: l₂) + R = {vp} + ({a} + (own l₁ + ({kp} + (own l₂ + R)))) := by
    simp only [own_append, own_cons, hkp, hvp, ptr_some]
    abel
  obtain ⟨h', hw, hex', hget, -, hag⟩ := (hex.of_eq hown).write (.value x)
  refine ⟨a, e, vp, u, h', hwalk, he, hvp, hgv, scan_at hno, hw, ?_, hex'.of_eq hown.symm,
    hag.right.right.right.right⟩
  rw [insert_at hno]
  refine Chained.append (Chained.congr hfront hag.right.left) ⟨rfl, ?_, ⟨kp, vp, hkp, hvp, ?_, hget⟩, ?_⟩
  · rw [entryAt_of_agrees hag.left (Multiset.mem_singleton_self a), he]
  · rw [hag.right.right.left kp (Multiset.mem_singleton_self kp), hgk]
  · exact Chained.congr hback hag.right.right.right.left

omit [DecidableEq κ] in
/-- **The entry of a deleted key** is filled with the next one, which is freed, or is left empty; its key and its record
are freed. -/
theorem deleteEntry_spec {p : Option Nat} {a : Nat} {e : HashmapEntry} {l₁ l₂ : List (Nat × HashmapEntry)}
    {cs : Chain κ ν} {c : κ × ν} (hfront : Chained h p l₁ cs (some a))
    (hrest : Chained h (some a) ((a, e) :: l₂) (some c :: es) none) (hex : Exactly h (own (l₁ ++ (a, e) :: l₂) + R)) :
    ∃ h' l₂', deleteEntry h a = some h' ∧ Chained h' p l₁ cs (some a) ∧ Chained h' (some a) l₂' (orEmpty es) none ∧
      Exactly h' (own (l₁ ++ l₂') + R) ∧ Agrees R h h' := by
  obtain ⟨-, he, ⟨kp, vp, hkp, hvp, -, -⟩, hback⟩ := seg_cons.1 hrest
  obtain ⟨h₁, hf₁, hex₁, -, -, hag₁⟩ := (hex.of_eq (t := {kp} + ({vp} + ({a} + (own l₂ + (own l₁ + R))))) (by
    simp only [own_append, own_cons, hkp, hvp, ptr_some]
    abel)).free
  obtain ⟨h₂, hf₂, hex₂, -, -, hag₂⟩ := hex₁.free
  have hag : Agrees ({a} + (own l₂ + (own l₁ + R))) h h₂ := hag₁.right.trans hag₂
  have hback₂ : Chained h₂ e.next l₂ es none := Chained.congr hback hag.right.left
  have hfront₂ : Chained h₂ p l₁ cs (some a) := Chained.congr hfront hag.right.right.left
  cases es with
  | nil =>
    obtain ⟨rfl, hnext⟩ := Seg.of_nil hback₂
    obtain ⟨h₃, hw, hex₃, hget, -, hag₃⟩ := hex₂.write (.entry .zero)
    refine ⟨h₃, [(a, .zero)], ?_, hfront₂.congr hag₃.right.left, Chained.single (entryAt_of_get hget) ⟨rfl, rfl⟩,
      hex₃.of_eq ?_, hag.right.right.right.trans hag₃.right.right⟩
    · rw [deleteEntry, he]
      simp only [Option.bind_some, hkp, hvp, freePtr, hf₁, hf₂, hnext]
      exact hw
    · simp only [own_append, own_cons, own_nil, HashmapEntry.zero, ptr_none]
      abel
  | cons c' es =>
    obtain ⟨n, en, l₃, rfl, hnext, hen, hh, hback₃⟩ := Seg.of_cons hback₂
    obtain ⟨h₃, hw, hex₃, hget, -, hag₃⟩ := hex₂.write (.entry en)
    obtain ⟨h₄, hf₄, hex₄, -, -, hag₄⟩ := (hex₃.of_eq
      (t := {n} + ({a} + ((ptr en.key + ptr en.value) + (own l₃ + (own l₁ + R))))) (by
        simp only [own_cons]
        abel)).free
    have hag₃' : Agrees ((ptr en.key + ptr en.value) + (own l₃ + (own l₁ + R))) h₂ h₃ := by
      apply hag₃.mono
      refine Multiset.le_iff_exists_add.2 ⟨{n}, ?_⟩
      simp only [own_cons]
      abel
    have hag₅ := hag₃'.trans hag₄.right
    refine ⟨h₄, (a, en) :: l₃, ?_, hfront₂.congr hag₅.right.right.left, ⟨rfl, ?_, Holds.congr hh hag₅.left, ?_⟩,
      hex₄.of_eq ?_, hag.right.right.right.trans hag₅.right.right.right⟩
    · rw [deleteEntry, he]
      simp only [Option.bind_some, hkp, hvp, freePtr, hf₁, hf₂, hnext, hen, hw, hf₄]
    · exact (entryAt_of_agrees hag₄.left (Multiset.mem_singleton_self a)).trans (entryAt_of_get hget)
    · exact Chained.congr hback₃ hag₅.right.left
    · simp only [own_append, own_cons]
      abel

end

end HeapMap

end Lte
