import Lte.HeapIteration
/-!
# HeapFrees — what an operation of the registry frees

`freesEntry` and `freesRecord` are read off the memory before the operation: a put frees entries when it doubles the
table, all that are in the old table or have a key, and a delete frees the entry behind the one it finds, and that one's
record.  Every operation frees what they say (`step_entry`, `step_record`), and no other entry and no other record.
-/
namespace Lte

open Runs Store

namespace HeapMap

open Chain

variable {κ ν : Type}

/-- The entries that `m` lists are emptied ones. -/
def Spent (h : Heap κ ν) (m : Multiset Nat) : Prop := ∀ a ∈ m, ∀ e, entryAt h a = some e → e = .zero

section
variable {h h' : Heap κ ν} {R R' : Multiset Nat}

theorem Spent.congr (hs : Spent h R) (hag : Agrees R h h') : Spent h' R := by
  intro a ha e he
  rw [entryAt_of_agrees hag ha] at he
  exact hs a ha e he

theorem Spent.add (hs : Spent h R) (hs' : Spent h R') : Spent h (R + R') := by
  intro a ha e he
  rcases Multiset.mem_add.1 ha with ha | ha
  · exact hs a ha e he
  · exact hs' a ha e he

theorem spent_of_value {a : Nat} {x : ν} (hx : h.get a = some (.value x)) : Spent h {a} := by
  intro b hb e he
  rw [Multiset.mem_singleton.1 hb, entryAt, hx] at he
  cases he

theorem Leaked.spent {E : Multiset Nat} {V : List (Nat × ν)} (hl : Leaked h E V) : Spent h (E + addrs V) := by
  apply Spent.add
  · intro a ha e he
    rw [hl.emptied a ha] at he
    exact (Option.some.inj he).symm
  · intro a ha e he
    obtain ⟨c, hc, rfl⟩ := List.mem_map.1 (Multiset.mem_coe.1 ha)
    rw [entryAt, hl.records c hc] at he
    cases he

end

section
variable {h h' : Heap κ ν} {a b : Nat} {e : HashmapEntry}

/-- The slots of a table are entries of its chains. -/
theorem Table.slot_mem {table size : Nat} {chains : Nat → Chain κ ν} {nodes : Nat → List (Nat × HashmapEntry)}
    {R : Multiset Nat} (ht : Table h table size chains nodes R) {i : Nat} (hi : i < size) :
    ∃ e, entryAt h (table + i) = some e ∧ (table + i, e) ∈ nodes i := by
  have hc := ht.chained i hi
  cases hes : chains i with
  | nil =>
    rw [hes] at hc
    cases (Seg.of_nil hc).2
  | cons c es =>
    rw [hes] at hc
    obtain ⟨a, e, l, hl, ha, he, -⟩ := Seg.of_cons hc
    cases ha
    exact ⟨e, he, by rw [hl]; exact List.mem_cons_self⟩

theorem Table.slot_notMem {table size : Nat} {chains : Nat → Chain κ ν} {nodes : Nat → List (Nat × HashmapEntry)}
    {R : Multiset Nat} (ht : Table h table size chains nodes R) (ha : table ≤ a ∧ a < table + size) : a ∉ R := by
  have hi : a - table < size := by omega
  obtain ⟨e, -, hmem⟩ := ht.slot_mem hi
  rw [Nat.add_sub_cancel' ha.1] at hmem
  have hown := Multiset.mem_of_le (addrs_le_own _) (mem_addrs hmem)
  have hnd := Multiset.nodup_add.1 (ht.account_at hi).nodup
  exact fun hR => Multiset.disjoint_left.1 hnd.2.2 hown (Multiset.mem_add.2 (.inr hR))

/-- **Every entry is the first of a chain that ends**, when those of the rest are emptied. -/
theorem Table.suffix {table size : Nat} {chains : Nat → Chain κ ν} {nodes : Nat → List (Nat × HashmapEntry)}
    {R : Multiset Nat} (ht : Table h table size chains nodes R)
    (hrest : Spent h R) (he : entryAt h a = some e) :
    ∃ l c es, Chained h (some a) ((a, e) :: l) (c :: es) none := by
  by_cases ha : a ∈ R
  · have hzero := hrest a ha e he
    subst hzero
    exact ⟨[], none, [], rfl, he, ⟨rfl, rfl⟩, rfl⟩
  · obtain ⟨i, hi, hmem⟩ := ht.mem_nodes he ha
    exact Seg.suffix (ht.chained i hi) hmem

/-! ## A delete -/

theorem get_of_freePtr {p : Option Nat} (hf : freePtr h p = some h') (hb : p ≠ some b) : h'.get b = h.get b := by
  cases p with
  | none =>
    cases hf
    rfl
  | some a =>
    obtain ⟨hget, -⟩ := get_of_set hf
    have hne : b ≠ a := fun hba => hb (by rw [hba])
    rw [hget, Function.update_of_ne hne]

theorem shrinks_freePtr {p : Option Nat} (hf : freePtr h p = some h') : Shrinks h h' := by
  cases p with
  | none =>
    cases hf
    exact fun _ hb => hb
  | some a => exact fun _ hb => hb.set hf

/-- What the delete of the entry `e` makes of the others, and of the records. -/
structure Deleted (h h' : Heap κ ν) (e : HashmapEntry) : Prop where
  shrinks : Shrinks h h'
  next : ∀ a, e.next = some a → Gone h' a
  entries : ∀ a, (entryAt h a).isSome = true → e.next ≠ some a → (entryAt h' a).isSome = true
  value : ∀ v, e.value = some v → Gone h' v
  records : ∀ v x, h.get v = some (.value x) → e.value ≠ some v → h'.get v = some (.value x)

/-- The last two steps: the entry behind takes its place and is freed, or it is emptied. -/
theorem deleted_last {e' : HashmapEntry} {n : Option Nat} (hb : (entryAt h b).isSome = true)
    (hd : (match n with
      | some n => (entryAt h n).bind fun en => (h.write b (.entry en)).bind fun h => h.free n
      | none => h.write b (.entry e')) = some h') :
    Shrinks h h' ∧ (∀ a, n = some a → Gone h' a) ∧
      (∀ a, (entryAt h a).isSome = true → n ≠ some a → (entryAt h' a).isSome = true) ∧
      ∀ v x, h.get v = some (.value x) → h'.get v = some (.value x) := by
  cases n with
  | none =>
    have hext := Extends.write hb hd
    exact ⟨hext.gone, fun a ha => (by cases ha), fun a ha _ => hext.entries a ha, hext.records⟩
  | some n =>
    obtain ⟨en, hen, hd⟩ := Option.bind_eq_some_iff.1 hd
    obtain ⟨h₁, hw, hf⟩ := Option.bind_eq_some_iff.1 hd
    have hext := Extends.write hb hw
    obtain ⟨hget, -⟩ := get_of_set hf
    refine ⟨fun c hc => (hext.gone c hc).set hf, fun a ha => ?_, fun a ha hne => ?_, fun v x hv => ?_⟩
    · cases ha
      exact gone_of_free hf
    · have hsame : h'.get a = h₁.get a := by
        rw [hget, Function.update_of_ne]
        exact fun han => hne (by rw [han])
      rw [entryAt_congr hsame]
      exact hext.entries a ha
    · exact record_of_free (hext.entries n (Option.isSome_of_eq_some hen)) hf (hext.records v x hv)

/-- **The delete of an entry** frees its key, its record and the entry behind it. -/
theorem deleted_of_deleteEntry {c : Entry κ ν} (he : entryAt h b = some e) (hh : Holds h e c)
    (hd : deleteEntry h b = some h') : Deleted h h' e := by
  rw [deleteEntry, he, Option.bind_some] at hd
  obtain ⟨h₁, hf₁, hd⟩ := Option.bind_eq_some_iff.1 hd
  obtain ⟨h₂, hf₂, hd⟩ := Option.bind_eq_some_iff.1 hd
  have hentry : ∀ a, (entryAt h a).isSome = true → entryAt h₂ a = entryAt h a := by
    intro a ha
    obtain ⟨e', he'⟩ := Option.isSome_iff_exists.1 ha
    have hno := hh.not_entry he'
    have hkey : e.key ≠ some a := fun hk => hno (by rw [hk]; exact Multiset.mem_add.2 (.inl (by simp)))
    have hvalue : e.value ≠ some a := fun hv => hno (by rw [hv]; exact Multiset.mem_add.2 (.inr (by simp)))
    exact entryAt_congr ((get_of_freePtr hf₂ hvalue).trans (get_of_freePtr hf₁ hkey))
  have hsome : (entryAt h b).isSome = true := Option.isSome_of_eq_some he
  obtain ⟨hshrinks, hnext, hentries, hrecords⟩ := deleted_last (n := e.next) (by rw [hentry b hsome]; exact hsome) hd
  refine ⟨fun a ha => hshrinks a (shrinks_freePtr hf₂ a (shrinks_freePtr hf₁ a ha)), hnext, fun a ha hne =>
    hentries a (by rw [hentry a ha]; exact ha) hne, fun v hv => ?_, fun v x hv hne => hrecords v x ?_⟩
  · rw [hv] at hf₂
    exact hshrinks v (gone_of_free hf₂)
  · have hkey : e.key ≠ some v := by
      intro hk
      cases c with
      | none =>
        rw [hh.1] at hk
        cases hk
      | some p =>
        obtain ⟨kp, vp, hkp, -, hgk, -⟩ := hh
        cases hkp.symm.trans hk
        cases hgk.symm.trans hv
    rw [get_of_freePtr hf₂ hne, get_of_freePtr hf₁ hkey, hv]

end

/-! ## A put -/

section
variable [DecidableEq κ] {hash : κ → UInt64} {h h' : Heap κ ν} {m m' : HeapMap} {key : κ} {value : Option Nat}
  {new : Bool}

theorem extends_put_one (hp : put hash 1 h m key value = some (h', m', new)) : Extends h h' := by
  rw [put] at hp
  split at hp
  · obtain ⟨r, -, hr⟩ := Option.bind_eq_some_iff.1 hp
    cases hr
  · obtain ⟨⟨h₁, new₁⟩, hi, he⟩ := Option.map_eq_some_iff.1 hp
    cases he
    exact extends_insertTable hi

/-- A put doubles the table first, or it frees nothing. -/
theorem put_cases (hp : put hash 2 h m key value = some (h', m', new)) :
    (m.count + 1 ≤ m.maxSize ∧ Extends h h') ∨
      m.count + 1 > m.maxSize ∧ ∃ h₁ m₁, doubleSize hash h m = some (h₁, m₁) ∧ Extends h₁ h' := by
  rw [put] at hp
  split at hp
  · rename_i hfull
    obtain ⟨⟨h₁, m₁⟩, hd, hp⟩ := Option.bind_eq_some_iff.1 hp
    exact .inr ⟨hfull, h₁, m₁, hd, extends_put_one hp⟩
  · rename_i hroom
    obtain ⟨⟨h₁, new₁⟩, hi, he⟩ := Option.map_eq_some_iff.1 hp
    cases he
    exact .inl ⟨Nat.le_of_not_lt hroom, extends_insertTable hi⟩

/-- **A doubling frees the entries of the old table and those with a key**, and keeps the emptied ones. -/
theorem doubleSize_entry {M : Hashmap κ ν} {R : Multiset Nat} (hr : Represents h m M R) (hwf : M.WellFormed hash)
    (hrest : Spent h R) (hd : doubleSize hash h m = some (h', m')) {a : Nat}
    {e : HashmapEntry} (he : entryAt h a = some e) :
    ((m.table ≤ a ∧ a < m.table + m.tableSize) ∨ e.key ≠ none → Gone h' a) ∧
      (¬ ((m.table ≤ a ∧ a < m.table + m.tableSize) ∨ e.key ≠ none) → (entryAt h' a).isSome = true) := by
  obtain ⟨h₁, m₁, E, hd₁, -, hag, hemp, -, -, hmoved⟩ := doubleSize_spec hash hr hwf.buckets.linked hwf.positive
  rw [hd] at hd₁
  cases hd₁
  obtain ⟨nodes, ht⟩ := hr.table
  by_cases ha : a ∈ R
  · have hout : ¬ (m.table ≤ a ∧ a < m.table + m.tableSize) := fun hin => ht.slot_notMem hin ha
    refine ⟨fun hfreed => ?_, fun _ => ?_⟩
    · rcases hfreed with hin | hkey
      · exact absurd hin hout
      · rw [hrest a ha e he] at hkey
        exact absurd rfl hkey
    · rw [entryAt_of_agrees hag ha, he]
      rfl
  · obtain ⟨hin, hout⟩ := hmoved a e he ha
    by_cases hcell : m.table ≤ a ∧ a < m.table + m.tableSize
    · exact ⟨fun _ => hin hcell, fun hno => absurd (.inl hcell) hno⟩
    · refine ⟨fun hfreed => (hout hcell).freed (hfreed.resolve_left hcell), fun hno => ?_⟩
      have hkey : e.key = none := Classical.byContradiction fun hkey => hno (.inr hkey)
      rw [hemp a ((hout hcell).stranded hkey)]
      rfl

end

end HeapMap

namespace ClientMap

namespace HeapRegistry

variable (hash : List Char → UInt64)

/-- The entry that `hashmap_delete` finds for a socket. -/
def entryOf (r : HeapRegistry) (socket : Nat) : Option HashmapEntry :=
  match HeapMap.walk r.heap (key socket) true (r.heap.fresh + 1)
      (some (HeapMap.slot hash r.clients.table r.clients.tableSize (key socket))) none with
  | some (.found entry) => HeapMap.entryAt r.heap entry
  | _ => none

/-- Whether an operation frees the entry at `entry`. -/
def freesEntry (r : HeapRegistry) (entry : Nat) : RegistryOp → Bool
  | .put _ _ =>
    r.clients.count + 1 > r.clients.maxSize ∧
      ((r.clients.table ≤ entry ∧ entry < r.clients.table + r.clients.tableSize) ∨
        ((HeapMap.entryAt r.heap entry).bind (·.key)).isSome)
  | .get _ => false
  | .delete socket => (r.entryOf hash socket).bind (·.next) = some entry

/-- Whether an operation frees the record at `client`. -/
def freesRecord (r : HeapRegistry) (client : Nat) : RegistryOp → Bool
  | .put _ _ => false
  | .get _ => false
  | .delete socket => (r.entryOf hash socket).bind (·.value) = some client

end HeapRegistry

/-- **The memory holds a registry**, and every entry outside of it is an emptied one. -/
def Sound (hash : List Char → UInt64) (r : HeapRegistry) : Prop :=
  ∃ (M : ClientMap) (R : Multiset Nat), HeapMap.Represents r.heap r.clients M R ∧ Inactivity.Registered hash M ∧
    HeapMap.Spent r.heap R

section
variable {hash : List Char → UInt64} {r r' : HeapRegistry} {op : RegistryOp}

/-- **Every operation keeps the memory sound**, when a record is put under its own socket. -/
theorem Sound.step (h : Sound hash r) (hop : ∀ s c, op = .put s c → c.socket = s) :
    ∃ r', r.step hash op = some r' ∧ Sound hash r' := by
  obtain ⟨M, R, hr, hreg, hrest⟩ := h
  cases op with
  | put s c =>
    obtain ⟨hr₁, hget, hag⟩ := represents_alloc hr c
    obtain ⟨h', m', M', E, V, hp, hp', hr', hag', hleak, -⟩ := HeapMap.put_spec hr₁ hreg.wellFormed (key s) hget
    obtain ⟨M'', hp'', hput⟩ := putClientInHashmap_spec hreg.wellFormed s c
    rw [putClientInHashmap, hp'] at hp''
    cases hp''
    refine ⟨⟨h', m'⟩, ?_, M', _, hr', registered_put hreg hput (hop s c rfl),
      hleak.spent.add (hrest.congr (hag.trans hag'))⟩
    rw [HeapRegistry.step]
    simp only [Store.alloc] at hp ⊢
    rw [hp]
    rfl
  | get s => exact ⟨r, step_get hr hreg.wellFormed s, M, R, hr, hreg, hrest⟩
  | delete s =>
    obtain ⟨h', m', hd, hr', hag⟩ := HeapMap.delete_spec hr hreg.wellFormed (key s)
    refine ⟨⟨h', m'⟩, ?_, _, R, hr', HeapInactivity.registered_delete hreg s, hrest.congr hag⟩
    rw [HeapRegistry.step, hd]
    rfl

/-- **Every entry is the first of a chain that ends.** -/
theorem Sound.suffix (h : Sound hash r) {a : Nat} {e : HashmapEntry} (he : HeapMap.entryAt r.heap a = some e) :
    ∃ l c es, HeapMap.Chained r.heap (some a) ((a, e) :: l) (c :: es) none := by
  obtain ⟨M, R, hr, -, hrest⟩ := h
  obtain ⟨nodes, ht⟩ := hr.table
  exact ht.suffix hrest he

theorem Sound.slot (h : Sound hash r) {i : Nat} (hi : i < r.clients.tableSize) :
    (HeapMap.entryAt r.heap (r.clients.table + i)).isSome = true := by
  obtain ⟨M, R, hr, -, hrest⟩ := h
  obtain ⟨nodes, ht⟩ := hr.table
  obtain ⟨e, he, -⟩ := ht.slot_mem hi
  exact Option.isSome_of_eq_some he

/-! ## The operations -/

/-- A delete finds an entry and deletes it, or changes nothing. -/
theorem step_delete (h : Sound hash r) {s : Nat} (hs : r.step hash (.delete s) = some r') :
    (r.entryOf hash s = none ∧ r'.heap = r.heap) ∨
      ∃ e, r.entryOf hash s = some e ∧ HeapMap.Deleted r.heap r'.heap e := by
  obtain ⟨⟨h', m', found⟩, hd, he⟩ := Option.map_eq_some_iff.1 hs
  cases he
  rw [HeapMap.delete] at hd
  rw [HeapRegistry.entryOf]
  split at hd
  · cases hd
  · rename_i hw
    cases hd
    rw [hw]
    exact .inl ⟨rfl, rfl⟩
  · rename_i b hw
    obtain ⟨h₁, hdel, hsame⟩ := Option.map_eq_some_iff.1 hd
    cases hsame
    obtain ⟨e, he⟩ := HeapMap.walk_found hw
    obtain ⟨l, c, es, hc⟩ := h.suffix he
    rw [hw]
    exact .inr ⟨e, he, HeapMap.deleted_of_deleteEntry he (Store.seg_cons.1 hc).2.2.1 hdel⟩

theorem shrinks_step (h : Sound hash r) (hs : r.step hash op = some r') : HeapMap.Shrinks r.heap r'.heap := by
  cases op with
  | put s c =>
    obtain ⟨⟨h', m', new⟩, hp, he⟩ := Option.map_eq_some_iff.1 hs
    cases he
    intro b hb
    rcases HeapMap.put_cases hp with ⟨-, hext⟩ | ⟨-, h₁, m₁, hd, hext⟩
    · exact hext.gone b (hb.alloc _)
    · exact hext.gone b (HeapMap.shrinks_doubleSize hd b (hb.alloc _))
  | get s =>
    obtain ⟨found, -, he⟩ := Option.map_eq_some_iff.1 hs
    cases he
    exact fun b hb => hb
  | delete s =>
    rcases step_delete h hs with ⟨-, hsame⟩ | ⟨e, -, hd⟩
    · rw [hsame]
      exact fun b hb => hb
    · exact hd.shrinks

theorem freesEntry_put {a : Nat} {e : HashmapEntry} (he : HeapMap.entryAt r.heap a = some e) (s : Nat) (c : Client) :
    r.freesEntry hash a (.put s c) = true ↔ r.clients.count + 1 > r.clients.maxSize ∧
      ((r.clients.table ≤ a ∧ a < r.clients.table + r.clients.tableSize) ∨ e.key ≠ none) := by
  rw [HeapRegistry.freesEntry, he, Option.bind_some, decide_eq_true_iff, Option.isSome_iff_ne_none]

/-- **A put frees an entry only when it doubles the table.** -/
theorem put_entry (h : Sound hash r) {s : Nat} {c : Client} (hs : r.step hash (.put s c) = some r') {a : Nat}
    {e : HashmapEntry} (he : HeapMap.entryAt r.heap a = some e) :
    if r.freesEntry hash a (.put s c) = true then Gone r'.heap a else (HeapMap.entryAt r'.heap a).isSome = true := by
  obtain ⟨⟨h', m', new⟩, hp, hr'⟩ := Option.map_eq_some_iff.1 hs
  cases hr'
  have he₀ : HeapMap.entryAt (r.heap.alloc (.value c)).2 a = some e := by
    rw [← he]
    exact HeapMap.entryAt_congr (get_of_alloc (by rw [HeapMap.get_of_entryAt he]; rfl) _)
  simp only [freesEntry_put he]
  rcases HeapMap.put_cases hp with ⟨hroom, hext⟩ | ⟨hfull, h₁, m₁, hd, hext⟩
  · rw [if_neg fun hfrees => Nat.not_lt_of_le hroom hfrees.1]
    exact hext.entries a (Option.isSome_of_eq_some he₀)
  · obtain ⟨M, R, hr, hreg, hrest⟩ := h
    obtain ⟨hr₀, hget, hag⟩ := represents_alloc hr c
    have hspent := (HeapMap.spent_of_value hget).add (hrest.congr hag)
    obtain ⟨hgone, hkept⟩ := HeapMap.doubleSize_entry hr₀ hreg.wellFormed hspent hd he₀
    by_cases hfreed : (r.clients.table ≤ a ∧ a < r.clients.table + r.clients.tableSize) ∨ e.key ≠ none
    · rw [if_pos ⟨hfull, hfreed⟩]
      exact hext.gone a (hgone hfreed)
    · rw [if_neg fun hfrees => hfreed hfrees.2]
      exact hext.entries a (hkept hfreed)

/-- **An operation frees an entry as `freesEntry` says**, or it is still one. -/
theorem step_entry (h : Sound hash r) (hs : r.step hash op = some r') {a : Nat}
    (ha : (HeapMap.entryAt r.heap a).isSome = true) :
    if r.freesEntry hash a op = true then Gone r'.heap a else (HeapMap.entryAt r'.heap a).isSome = true := by
  cases op with
  | put s c =>
    obtain ⟨e, he⟩ := Option.isSome_iff_exists.1 ha
    exact put_entry h hs he
  | get s =>
    obtain ⟨found, -, hr'⟩ := Option.map_eq_some_iff.1 hs
    cases hr'
    exact ha
  | delete s =>
    simp only [HeapRegistry.freesEntry, decide_eq_true_iff]
    rcases step_delete h hs with ⟨hnone, hsame⟩ | ⟨e, he, hd⟩
    · rw [hnone, hsame, if_neg (by simp)]
      exact ha
    · rw [he, Option.bind_some]
      split
      · rename_i hnext
        exact hd.next a hnext
      · rename_i hnext
        exact hd.entries a ha hnext

/-- **An operation frees a record as `freesRecord` says**, or it is as it was. -/
theorem step_record (h : Sound hash r) (hs : r.step hash op = some r') {v : Nat} {c : Client}
    (hv : r.heap.get v = some (.value c)) :
    if r.freesRecord hash v op = true then Gone r'.heap v else r'.heap.get v = some (.value c) := by
  cases op with
  | put s c' =>
    obtain ⟨⟨h', m', new⟩, hp, hr'⟩ := Option.map_eq_some_iff.1 hs
    cases hr'
    have hv₀ : (r.heap.alloc (.value c')).2.get v = some (.value c) := by
      rw [← hv]
      exact get_of_alloc (by rw [hv]; rfl) _
    simp only [HeapRegistry.freesRecord, Bool.false_eq_true, if_false]
    rcases HeapMap.put_cases hp with ⟨-, hext⟩ | ⟨-, h₁, m₁, hd, hext⟩
    · exact hext.records v c hv₀
    · refine hext.records v c (HeapMap.record_of_doubleSize hd hv₀ fun hin => ?_)
      have hslot := h.slot (i := v - r.clients.table) (by omega)
      rw [Nat.add_sub_cancel' hin.1, HeapMap.entryAt, hv] at hslot
      cases hslot
  | get s =>
    obtain ⟨found, -, hr'⟩ := Option.map_eq_some_iff.1 hs
    cases hr'
    exact hv
  | delete s =>
    simp only [HeapRegistry.freesRecord, decide_eq_true_iff]
    rcases step_delete h hs with ⟨hnone, hsame⟩ | ⟨e, he, hd⟩
    · rw [hnone, hsame, if_neg (by simp)]
      exact hv
    · rw [he, Option.bind_some]
      split
      · rename_i hvalue
        exact hd.value v hvalue
      · rename_i hvalue
        exact hd.records v c hv hvalue

end

end ClientMap

end Lte
