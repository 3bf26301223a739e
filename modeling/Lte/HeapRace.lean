import Lte.HeapFrees
import Lte.HeapServer
/-!
# HeapRace — an iteration beside the main thread

`hashmap_iter` holds the address of an entry and, in the callback, that of a record, and nothing keeps the main thread
from the table meanwhile.  Between two accesses of the iterator the main thread may accept a client or handle a packet,
each as one step.  `race_decided` tells which of these the iteration survives: it comes to its end unless one of them
freed what it held, and that is read off the memory before the step (`spares`).
-/
namespace Lte

open Runs Store ClientMap

namespace HeapServer

/-- What a step of the main thread does to the table: `accept_client` puts, and the end of a connection deletes. -/
def registryOp : ServerLabel → Option RegistryOp
  | .accept socket fresh => some (.put socket { fresh with socket := socket })
  | .packet socket .eof _ => some (.delete socket)
  | .packet socket (.bytes bs) _ =>
    if (SMessage.zero.readInto bs).messageType = .ueOff then some (.delete socket) else none
  | _ => none

/-- The steps of the main thread. -/
def ofMain : ServerLabel → Bool
  | .accept _ _ => true
  | .packet _ _ _ => true
  | _ => false

/-- Nothing is written, or the record found for a socket, which stays under its socket. -/
def Rewritten (hash : List Char → UInt64) (r r' : HeapRegistry) : Prop :=
  r' = r ∨ ∃ s vp c c' h', HeapMap.get hash r.heap r.clients (key s) = some (some (some vp)) ∧
    r.heap.get vp = some (.value c) ∧ c'.socket = c.socket ∧ r.heap.write vp (.value c') = some h' ∧
    r' = ⟨h', r.clients⟩

section
variable {hash : List Char → UInt64} {srv srv' : HeapServer} {r r' : HeapRegistry}

/-- A record written where there is one: every entry stays as it is. -/
theorem entryAt_of_record {h h' : Heap (List Char) Client} {vp a : Nat} {c c' : Client}
    (hval : h.get vp = some (.value c)) (hw : h.write vp (.value c') = some h') :
    HeapMap.entryAt h' a = HeapMap.entryAt h a := by
  obtain ⟨hset, -⟩ := get_of_set hw
  by_cases hav : a = vp
  · rw [HeapMap.entryAt, HeapMap.entryAt, hav, hset, Function.update_self, hval]
  · have hsame : h'.get a = h.get a := by rw [hset, Function.update_of_ne hav]
    exact HeapMap.entryAt_congr hsame

theorem Rewritten.sound (hw : Rewritten hash r r') (h : Sound hash r) : Sound hash r' := by
  rcases hw with rfl | ⟨s, vp, c, c', h', hget, hval, hsock, hwrite, rfl⟩
  · exact h
  · obtain ⟨M, R, hr, hreg, hrest⟩ := h
    obtain ⟨hsome, hnone⟩ := HeapMap.get_spec hr hreg.wellFormed (key s)
    cases hM : M.get hash (key s) with
    | none =>
      rw [hnone hM] at hget
      cases hget
    | some u =>
      obtain ⟨vp', h'', M', hget', hval', hwrite', hr', hwf', hlook⟩ := HeapMap.update_spec hr hreg.wellFormed hM c'
      rw [hget] at hget'
      cases hget'
      rw [hval] at hval'
      cases hval'
      rw [hwrite] at hwrite'
      cases hwrite'
      refine ⟨M', R, hr', ⟨hwf', fun k d hk => ?_⟩, fun a ha e he => ?_⟩
      · rw [hlook] at hk
        by_cases hks : k = key s
        · rw [if_pos hks] at hk
          cases hk
          rw [hsock, hks]
          exact hreg.keyed (key s) c hM
        · rw [if_neg hks] at hk
          exact hreg.keyed k d hk
      · rw [entryAt_of_record hval hwrite] at he
        exact hrest a ha e he

/-- Every entry is as it was, every record is still one, and nothing is brought back. -/
theorem Rewritten.keeps (hw : Rewritten hash r r') :
    HeapMap.Shrinks r.heap r'.heap ∧
      (∀ a, (HeapMap.entryAt r.heap a).isSome = true → (HeapMap.entryAt r'.heap a).isSome = true) ∧
      ∀ v c, r.heap.get v = some (.value c) → ∃ c', r'.heap.get v = some (.value c') := by
  rcases hw with rfl | ⟨s, vp, c, c', h', -, hval, -, hwrite, rfl⟩
  · exact ⟨fun _ hb => hb, fun _ ha => ha, fun v c hv => ⟨c, hv⟩⟩
  · obtain ⟨hset, -⟩ := get_of_set hwrite
    refine ⟨fun _ hb => hb.set hwrite, fun a ha => ?_, fun v d hv => ?_⟩
    · rw [entryAt_of_record hval hwrite]
      exact ha
    · by_cases hvp : v = vp
      · refine ⟨c', ?_⟩
        rw [hset, hvp, Function.update_self]
      · refine ⟨d, ?_⟩
        rw [hset, Function.update_of_ne hvp, hv]

theorem rewritten_updateClient {s : Nat} {f : Client → Client} (hu : srv.updateClient hash s f = some srv')
    (hf : ∀ c, (f c).socket = c.socket) : Rewritten hash srv.registry srv'.registry := by
  rw [updateClient] at hu
  split at hu
  · rename_i client hget
    obtain ⟨c, hc, hu⟩ := Option.bind_eq_some_iff.1 hu
    obtain ⟨h', hw, he⟩ := Option.map_eq_some_iff.1 hu
    cases he
    obtain ⟨found, hfound, hjoin⟩ := Option.map_eq_some_iff.1 hget
    refine .inr ⟨s, client, c, f c, h', ?_, ?_, hf c, hw, rfl⟩
    · rw [hfound, Option.join_eq_some_iff.1 hjoin]
    · unfold clientAt at hc
      split at hc
      · rename_i c' hval
        cases hc
        exact hval
      · cases hc
  · cases hu

/-- **A packet deletes its client, or writes at most one record.** -/
theorem handlePacket_cases {s : Nat} {m : SMessage} {now : Int} (hs : srv.handlePacket hash s m now = some srv') :
    (m.messageType = .ueOff ∧ srv.registry.step hash (.delete s) = some srv'.registry) ∨
      m.messageType ≠ .ueOff ∧ Rewritten hash srv.registry srv'.registry := by
  rw [handlePacket] at hs
  cases ht : m.messageType with
  | ueOff =>
    rw [ht] at hs
    obtain ⟨r, hr, he⟩ := Option.map_eq_some_iff.1 hs
    cases he
    exact .inl ⟨rfl, hr⟩
  | randomAccessRequest =>
    rw [ht] at hs
    refine .inr ⟨by decide, ?_⟩
    simp only [handleRandomAccessRequest, updateClientByRaRntiData] at hs
    split at hs
    · cases hs
      exact .inl rfl
    · have hrewritten := rewritten_updateClient hs fun c => rfl
      exact hrewritten
  | rrcRequest =>
    rw [ht] at hs
    obtain ⟨rnti, -, he⟩ := Option.map_eq_some_iff.1 hs
    cases he
    exact .inr ⟨by decide, .inl rfl⟩
  | ueBatteryLow =>
    rw [ht] at hs
    exact .inr ⟨by decide, rewritten_updateClient hs fun c => rfl⟩
  | ueBatteryHigh =>
    rw [ht] at hs
    exact .inr ⟨by decide, rewritten_updateClient hs fun c => rfl⟩
  | pong =>
    rw [ht] at hs
    exact .inr ⟨by decide, rewritten_updateClient hs fun c => rfl⟩
  | _ =>
    rw [ht] at hs
    cases hs
    exact .inr ⟨fun hoff => (by cases hoff), .inl rfl⟩

/-- **A step of the main thread** is one operation of the registry, or writes at most one record. -/
theorem serve_cases {label : ServerLabel} (hlabel : ofMain label = true) (hs : srv.serve hash label = some srv') :
    (∃ op, registryOp label = some op ∧ srv.registry.step hash op = some srv'.registry) ∨
      registryOp label = none ∧ Rewritten hash srv.registry srv'.registry := by
  cases label with
  | accept s fresh =>
    rw [serve] at hs
    split at hs
    · obtain ⟨r, hr, he⟩ := Option.map_eq_some_iff.1 hs
      cases he
      exact .inl ⟨_, rfl, hr⟩
    · cases hs
  | packet s read now =>
    rw [serve] at hs
    split at hs
    · cases read with
      | failed e => cases hs
      | eof =>
        obtain ⟨r, hr, he⟩ := Option.map_eq_some_iff.1 hs
        cases he
        exact .inl ⟨_, rfl, hr⟩
      | bytes bs =>
        rcases handlePacket_cases hs with ⟨hoff, hdel⟩ | ⟨hon, hw⟩
        · exact .inl ⟨_, if_pos hoff, hdel⟩
        · exact .inr ⟨if_neg hon, hw⟩
    · cases hs
  | _ => cases hlabel

theorem sound_of_op {label : ServerLabel} {op : RegistryOp} (h : Sound hash r) (hop : registryOp label = some op)
    (hs : r.step hash op = some r') : Sound hash r' := by
  have hkeyed : ∀ s c, op = .put s c → c.socket = s := by
    rintro s c rfl
    unfold registryOp at hop
    split at hop
    · cases hop
      rfl
    · cases hop
    · split at hop
      · cases hop
      · cases hop
    · cases hop
  obtain ⟨r'', hr'', hsound⟩ := h.step hkeyed
  rw [hs] at hr''
  cases hr''
  exact hsound

/-- **Every step of the server keeps the memory sound.** -/
theorem sound_serve {label : ServerLabel} (h : Sound hash srv.registry) (hs : srv.serve hash label = some srv') :
    Sound hash srv'.registry := by
  have hmain : ofMain label = true → Sound hash srv'.registry := by
    intro hlabel
    rcases serve_cases hlabel hs with ⟨op, hop, hstep⟩ | ⟨-, hw⟩
    · exact sound_of_op h hop hstep
    · exact hw.sound h
  have hsend : ∀ message, srv.iter (sendEach message) = some srv' → Sound hash srv'.registry := by
    intro message hi
    obtain ⟨M, R, hr, hreg, hrest⟩ := h
    rw [HeapServer.iter, HeapMap.iter_reads (reads_sendEach message) hr hreg.wellFormed.buckets.linked,
      foldl_sent1] at hi
    cases hi
    exact ⟨M, R, hr, hreg, hrest⟩
  cases label with
  | accept s fresh => exact hmain rfl
  | packet s read now => exact hmain rfl
  | pings now => exact hsend _ hs
  | measurements => exact hsend _ hs
  | shutdown => exact hsend _ hs
  | kicks now kicked =>
    obtain ⟨M, R, hr, hreg, hrest⟩ := h
    obtain ⟨st, hst, -, hi, hreg', -, hr', hag⟩ := HeapInactivity.iteration_sim hreg hr now
    rw [serve, kickAll, hi] at hs
    simp only [Option.map_some] at hs
    split at hs
    · cases hs
      exact ⟨st.clients, R, hr', hreg', hrest.congr hag⟩
    · cases hs

end

end HeapServer

/-! ## The iterator -/

/-- Where the iterator is: before a slot, at the test of an entry, in the callback, at the link of the entry, or at the
end. -/
inductive Cursor
  | slot (i : Nat)
  | test (i entry : Nat)
  | callback (i entry key : Nat) (value : Option Nat)
  | link (i entry : Nat)
  | finished

/-- The entry whose address the iterator holds. -/
def Cursor.entry : Cursor → Option Nat
  | .test _ entry => some entry
  | .callback _ entry _ _ => some entry
  | .link _ entry => some entry
  | _ => none

/-- The record whose address the callback holds. -/
def Cursor.client : Cursor → Option Nat
  | .callback _ _ _ value => value
  | _ => none

structure Racing where
  server : HeapServer
  cursor : Cursor

inductive RacingLabel
  | iterate (message : Client → Option SMessage)
  | main (label : ServerLabel)

namespace Racing

variable (hash : List Char → UInt64)

def start (server : HeapServer) : Racing := ⟨server, .slot 0⟩

/-- One access of `hashmap_iter`, with a callback that sends. -/
def iterate (st : Racing) (message : Client → Option SMessage) : Option Racing :=
  match st.cursor with
  | .slot i =>
    if i < st.server.registry.clients.tableSize then
      some { st with cursor := .test i (st.server.registry.clients.table + i) }
    else some { st with cursor := .finished }
  | .test i entry =>
    (HeapMap.entryAt st.server.registry.heap entry).map fun e =>
      { st with cursor := e.key.elim (.slot (i + 1)) fun key => .callback i entry key e.value }
  | .callback i entry key value =>
    (HeapServer.sendEach message st.server key value).map fun p => { server := p.1, cursor := .link i entry }
  | .link i entry =>
    (HeapMap.entryAt st.server.registry.heap entry).map fun e =>
      { st with cursor := e.next.elim (.slot (i + 1)) fun next => .test i next }
  | .finished => some st

def step (st : Racing) : RacingLabel → Option Racing
  | .iterate message => st.iterate message
  | .main label =>
    if HeapServer.ofMain label then (st.server.serve hash label).map fun server => { st with server := server }
    else none

/-- Whether a step frees neither the entry nor the record that the iterator holds. -/
def spares (st : Racing) : RacingLabel → Bool
  | .iterate _ => true
  | .main label =>
    match HeapServer.registryOp label with
    | none => true
    | some op =>
      !(st.cursor.entry.any fun entry => st.server.registry.freesEntry hash entry op) &&
        !(st.cursor.client.any fun client => st.server.registry.freesRecord hash client op)

/-- Left alone, the iterator comes to its end. -/
def Ends (st : Racing) : Prop := ∃ messages st', run iterate st messages = some st' ∧ st'.cursor = .finished

variable {hash}

/-! ## The iterator alone -/

theorem Ends.of_run {st st' : Racing} {messages : List (Client → Option SMessage)}
    (hrun : run iterate st messages = some st') (h : Ends st') : Ends st := by
  obtain ⟨messages', st'', hrun', hend⟩ := h
  exact ⟨messages ++ messages', st'', run_append_some.2 ⟨st', hrun, hrun'⟩, hend⟩

section
variable {srv : HeapServer} {i a : Nat} {e : HashmapEntry} (message : Client → Option SMessage)

theorem iterate_test (he : HeapMap.entryAt srv.registry.heap a = some e) : iterate ⟨srv, .test i a⟩ message =
    some ⟨srv, e.key.elim (.slot (i + 1)) fun key => .callback i a key e.value⟩ := by
  simp only [iterate, he, Option.map_some]

theorem iterate_link (he : HeapMap.entryAt srv.registry.heap a = some e) : iterate ⟨srv, .link i a⟩ message =
    some ⟨srv, e.next.elim (.slot (i + 1)) fun next => .test i next⟩ := by
  simp only [iterate, he, Option.map_some]

theorem iterate_callback {vp : Nat} {c : List Char × Client} (hv : srv.registry.heap.get vp = some (.value c.2))
    (kp : Nat) :
    iterate ⟨srv, .callback i a kp (some vp)⟩ message = some ⟨HeapServer.sent1 message srv c, .link i a⟩ := by
  have hc : srv.clientAt vp = some c.2 := by rw [HeapServer.clientAt, hv]
  simp only [iterate, HeapServer.sendEach, Option.bind_some, hc]
  cases hm : message c.2 with
  | none => simp [HeapServer.sent1, HeapServer.sendsOf, hm]
  | some m => simp [HeapServer.sent1, HeapServer.sendsOf, hm, HeapServer.send]

/-- The accesses to an entry with a key. -/
theorem run_entry {kp vp : Nat} {c : List Char × Client} (he : HeapMap.entryAt srv.registry.heap a = some e)
    (hk : e.key = some kp) (hv : e.value = some vp) (hval : srv.registry.heap.get vp = some (.value c.2)) :
    run iterate ⟨srv, .test i a⟩ (List.replicate 3 message) =
      some ⟨HeapServer.sent1 message srv c, e.next.elim (.slot (i + 1)) fun next => .test i next⟩ := by
  have htest := iterate_test (i := i) message he
  have hcallback := iterate_callback (i := i) (a := a) message hval kp
  have hlink : iterate ⟨HeapServer.sent1 message srv c, .link i a⟩ message =
      some ⟨HeapServer.sent1 message srv c, e.next.elim (.slot (i + 1)) fun next => .test i next⟩ :=
    iterate_link message he
  rw [hk, hv] at htest
  exact run_cons_some.2 ⟨_, htest, run_cons_some.2 ⟨_, hcallback, run_cons_some.2 ⟨_, hlink, rfl⟩⟩⟩

end

/-- **The iterator along the entries of a slot**, from any of them on. -/
theorem run_chain (message : Client → Option SMessage) (i : Nat) :
    ∀ (es : Chain (List Char) Client) {srv : HeapServer} {a : Nat} {l : List (Nat × HashmapEntry)},
      HeapMap.Chained srv.registry.heap (some a) l es none →
      ∃ n, run iterate ⟨srv, .test i a⟩ (List.replicate n message) =
        some ⟨(Chain.live es).foldl (HeapServer.sent1 message) srv, .slot (i + 1)⟩
  | [], srv, a, l, hc => by cases (Seg.of_nil hc).2
  | none :: es, srv, a, l, hc => by
    obtain ⟨b, e, l, rfl, hb, he, ⟨hk, -⟩, -⟩ := Seg.of_cons hc
    cases hb
    have htest := iterate_test (i := i) message he
    rw [hk] at htest
    exact ⟨1, run_cons_some.2 ⟨_, htest, rfl⟩⟩
  | some c :: es, srv, a, l, hc => by
    obtain ⟨b, e, l, rfl, hb, he, ⟨kp, vp, hk, hv, hgk, hgv⟩, hrest⟩ := Seg.of_cons hc
    cases hb
    have hentry := run_entry (i := i) (c := c) message he hk hv hgv
    cases es with
    | nil =>
      refine ⟨3, ?_⟩
      rw [hentry, (Seg.of_nil hrest).2]
      rfl
    | cons c' es =>
      obtain ⟨b, e', l', rfl, hnext, -⟩ := Seg.of_cons hrest
      rw [hnext] at hentry hrest
      have hback : HeapMap.Chained (HeapServer.sent1 message srv c).registry.heap (some b) ((b, e') :: l') (c' :: es)
        none := hrest
      obtain ⟨n, hn⟩ := run_chain message i (c' :: es) hback
      refine ⟨3 + n, ?_⟩
      rw [List.replicate_add]
      exact run_append_some.2 ⟨_, hentry, hn⟩

/-- **The iterator from a slot on**, to its end. -/
theorem run_slots (message : Client → Option SMessage) {M : ClientMap} {R : Multiset Nat} :
    ∀ (k : Nat) {i : Nat} {srv : HeapServer}, HeapMap.Represents srv.registry.heap srv.registry.clients M R →
      i + k = srv.registry.clients.tableSize →
      ∃ n, run iterate ⟨srv, .slot i⟩ (List.replicate n message) =
        some ⟨((List.range' i k).flatMap fun i => Chain.live (M.table i)).foldl (HeapServer.sent1 message) srv,
          .finished⟩
  | 0, i, srv, hr, hi => by
    have hend : ¬ i < srv.registry.clients.tableSize := by omega
    exact ⟨1, run_cons_some.2 ⟨⟨srv, .finished⟩, if_neg hend, rfl⟩⟩
  | k + 1, i, srv, hr, hi => by
    obtain ⟨nodes, ht⟩ := hr.table
    have hlt : i < srv.registry.clients.tableSize := by omega
    have hslot : iterate ⟨srv, .slot i⟩ message = some ⟨srv, .test i (srv.registry.clients.table + i)⟩ := if_pos hlt
    obtain ⟨n, hn⟩ := run_chain message i (M.table i) (ht.chained i (by omega))
    generalize hafter : (Chain.live (M.table i)).foldl (HeapServer.sent1 message) srv = srv' at hn
    have hsame : srv'.registry = srv.registry := by rw [← hafter, HeapServer.foldl_sent1]
    rw [← hsame] at hr hi
    have hnext : (i + 1) + k = srv'.registry.clients.tableSize := by omega
    obtain ⟨n', hn'⟩ := run_slots message k hr hnext
    refine ⟨1 + (n + n'), ?_⟩
    rw [List.replicate_add, List.replicate_add, List.range'_succ, List.flatMap_cons, List.foldl_append, hafter]
    exact run_append_some.2 ⟨_, run_cons_some.2 ⟨_, hslot, rfl⟩, run_append_some.2 ⟨_, hn, hn'⟩⟩

/-- **Left alone, the iterator does what `iter` does.** -/
theorem run_alone (hash : List Char → UInt64) {srv : HeapServer} (h : Sound hash srv.registry)
    (message : Client → Option SMessage) :
    ∃ n srv', run iterate (start srv) (List.replicate n message) = some ⟨srv', .finished⟩ ∧
      srv.iter (HeapServer.sendEach message) = some srv' := by
  obtain ⟨M, R, hr, hreg, -⟩ := h
  obtain ⟨n, hn⟩ := run_slots message srv.registry.clients.tableSize (i := 0) hr (Nat.zero_add _)
  refine ⟨n, _, hn, ?_⟩
  rw [HeapServer.iter, HeapMap.iter_reads (HeapServer.reads_sendEach message) hr hreg.wellFormed.buckets.linked,
    Hashmap.pairs, List.range_eq_range', hr.tableSize_eq]
  rfl

/-! ## What it holds -/

/-- What the iterator holds is allocated. -/
structure Safe (hash : List Char → UInt64) (st : Racing) : Prop where
  sound : Sound hash st.server.registry
  entry : ∀ a, st.cursor.entry = some a → (HeapMap.entryAt st.server.registry.heap a).isSome = true
  client : ∀ vp, st.cursor.client = some vp → ∃ c, st.server.registry.heap.get vp = some (.value c)
  valued : ∀ i a kp, st.cursor ≠ .callback i a kp none

/-- Something that the iterator holds is freed. -/
structure Lost (hash : List Char → UInt64) (st : Racing) : Prop where
  sound : Sound hash st.server.registry
  gone : (∃ a, st.cursor.entry = some a ∧ Gone st.server.registry.heap a) ∨
    ∃ vp, st.cursor.client = some vp ∧ Gone st.server.registry.heap vp

section
variable {st st' : Racing}

theorem safe_slot {srv : HeapServer} (h : Sound hash srv.registry) (i : Nat) : Safe hash ⟨srv, .slot i⟩ :=
  ⟨h, fun a ha => (by cases ha), fun vp hvp => (by cases hvp), fun i a kp hc => by cases hc⟩

theorem safe_test {srv : HeapServer} (h : Sound hash srv.registry) (i : Nat) {a : Nat}
    (ha : (HeapMap.entryAt srv.registry.heap a).isSome = true) : Safe hash ⟨srv, .test i a⟩ := by
  refine ⟨h, fun b hb => ?_, fun vp hvp => (by cases hvp), fun i a kp hc => by cases hc⟩
  cases hb
  exact ha

/-- **An access of the iterator** to what it holds succeeds. -/
theorem Safe.iterate (h : Safe hash st) (message : Client → Option SMessage) :
    ∃ st', st.iterate message = some st' ∧ Safe hash st' := by
  obtain ⟨srv, cursor⟩ := st
  have hsound : Sound hash srv.registry := h.sound
  cases cursor with
  | slot i =>
    by_cases hi : i < srv.registry.clients.tableSize
    · exact ⟨_, if_pos hi, safe_test hsound i (hsound.slot hi)⟩
    · exact ⟨_, if_neg hi, hsound, fun a ha => (by cases ha), fun vp hvp => (by cases hvp),
        fun i a kp hc => by cases hc⟩
  | test i a =>
    obtain ⟨e, he⟩ := Option.isSome_iff_exists.1 (h.entry a rfl)
    obtain ⟨l, c, es, hc⟩ := hsound.suffix he
    obtain ⟨-, -, hh, -⟩ := Store.seg_cons.1 hc
    refine ⟨_, iterate_test message he, ?_⟩
    cases c with
    | none =>
      rw [hh.1]
      exact safe_slot hsound (i + 1)
    | some p =>
      obtain ⟨kp, vp, hk, hv, -, hgv⟩ := hh
      rw [hk, hv]
      refine ⟨hsound, fun b hb => ?_, fun v hvp => ?_, fun i a kp hc => by cases hc⟩
      · cases hb
        exact h.entry a rfl
      · cases hvp
        exact ⟨p.2, hgv⟩
  | callback i a kp value =>
    cases value with
    | none => exact absurd rfl (h.valued i a kp)
    | some vp =>
      obtain ⟨c, hc⟩ := h.client vp rfl
      refine ⟨_, iterate_callback (c := ([], c)) message hc kp, hsound, fun b hb => ?_, fun v hvp => (by cases hvp),
        fun i a kp hc => by cases hc⟩
      cases hb
      exact h.entry a rfl
  | link i a =>
    obtain ⟨e, he⟩ := Option.isSome_iff_exists.1 (h.entry a rfl)
    obtain ⟨l, c, es, hc⟩ := hsound.suffix he
    obtain ⟨-, -, -, hrest⟩ := Store.seg_cons.1 hc
    refine ⟨_, iterate_link message he, ?_⟩
    cases hnext : e.next with
    | none => exact safe_slot hsound (i + 1)
    | some b =>
      rw [hnext] at hrest
      cases es with
      | nil => cases (Store.Seg.of_nil hrest).2
      | cons c' es =>
        obtain ⟨b', e', l', -, hb, he', -⟩ := Store.Seg.of_cons hrest
        cases hb
        exact safe_test hsound i (Option.isSome_of_eq_some he')
  | finished => exact ⟨_, rfl, h⟩

theorem sendEach_registry {message : Client → Option SMessage} {srv : HeapServer} {kp : Nat} {value : Option Nat}
    {p : HeapServer × Bool} (hs : HeapServer.sendEach message srv kp value = some p) : p.1.registry = srv.registry := by
  rw [HeapServer.sendEach] at hs
  split at hs
  · split at hs
    · cases hs
      rfl
    · cases hs
      rfl
  · cases hs

/-- What is freed is not read again: an access of it fails, and another one does not bring it back. -/
theorem Lost.iterate (h : Lost hash st) {message : Client → Option SMessage} (hs : st.iterate message = some st') :
    Lost hash st' ∧ ∃ i a, st'.cursor = .link i a := by
  obtain ⟨srv, cursor⟩ := st
  have hread : ∀ a, Gone srv.registry.heap a → HeapMap.entryAt srv.registry.heap a = none := fun a ha => by
    rw [HeapMap.entryAt, ha.2]
  obtain ⟨hsound, ⟨a, ha, hgone⟩ | ⟨vp, hvp, hgone⟩⟩ := h
  · cases cursor with
    | slot i => cases ha
    | finished => cases ha
    | test i b =>
      cases ha
      simp only [Racing.iterate, hread a hgone] at hs
      cases hs
    | link i b =>
      cases ha
      simp only [Racing.iterate, hread a hgone] at hs
      cases hs
    | callback i b kp value =>
      cases ha
      obtain ⟨p, hp, he⟩ := Option.map_eq_some_iff.1 hs
      cases he
      have hsame := sendEach_registry hp
      refine ⟨⟨?_, .inl ⟨a, rfl, ?_⟩⟩, i, a, rfl⟩
      · show Sound hash p.1.registry
        rw [hsame]
        exact hsound
      · show Gone p.1.registry.heap a
        rw [hsame]
        exact hgone
  · cases cursor with
    | callback i b kp value =>
      obtain ⟨p, hp, -⟩ := Option.map_eq_some_iff.1 hs
      have hnone : srv.clientAt vp = none := by rw [HeapServer.clientAt, hgone.2]
      have hvalue : value = some vp := hvp
      rw [HeapServer.sendEach, hvalue, Option.bind_some, hnone] at hp
      cases hp
    | _ => cases hvp

theorem Lost.link {srv : HeapServer} {i a : Nat} (h : Lost hash ⟨srv, .link i a⟩) (message : Client → Option SMessage) :
    Racing.iterate ⟨srv, .link i a⟩ message = none := by
  obtain ⟨-, ⟨b, hb, hgone⟩ | ⟨vp, hvp, -⟩⟩ := h
  · cases hb
    have hread : HeapMap.entryAt srv.registry.heap a = none := by rw [HeapMap.entryAt, hgone.2]
    simp only [Racing.iterate, hread, Option.map_none]
  · cases hvp

theorem spares_main {label : ServerLabel} : st.spares hash (.main label) = true ↔
    ∀ op, HeapServer.registryOp label = some op →
      (∀ a, st.cursor.entry = some a → st.server.registry.freesEntry hash a op = false) ∧
        ∀ vp, st.cursor.client = some vp → st.server.registry.freesRecord hash vp op = false := by
  rw [spares]
  cases HeapServer.registryOp label with
  | none => simp
  | some op => cases st.cursor.entry <;> cases st.cursor.client <;> simp

/-- **A step of the main thread** loses something that the iterator holds, or spares it. -/
theorem Safe.main (h : Safe hash st) {label : ServerLabel} (hs : step hash st (.main label) = some st') :
    if st.spares hash (.main label) = true then Safe hash st' else Lost hash st' := by
  simp only [spares_main]
  rw [step] at hs
  split at hs
  · rename_i hmain
    obtain ⟨srv', hserve, he⟩ := Option.map_eq_some_iff.1 hs
    subst he
    rcases HeapServer.serve_cases hmain hserve with ⟨op, hop, hstep⟩ | ⟨hop, hw⟩
    · have hsound : Sound hash srv'.registry := HeapServer.sound_of_op h.sound hop hstep
      rw [hop]
      split
      · rename_i hspares
        obtain ⟨hentry, hclient⟩ := hspares op rfl
        refine ⟨hsound, fun a ha => ?_, fun vp hvp => ?_, h.valued⟩
        · have hkept := step_entry h.sound hstep (h.entry a ha)
          rwa [if_neg (by rw [hentry a ha]; exact Bool.false_ne_true)] at hkept
        · obtain ⟨c, hc⟩ := h.client vp hvp
          have hkept := step_record h.sound hstep hc
          rw [if_neg (by rw [hclient vp hvp]; exact Bool.false_ne_true)] at hkept
          exact ⟨c, hkept⟩
      · rename_i hloses
        refine ⟨hsound, Classical.byContradiction fun hno => hloses fun op' hop' => ?_⟩
        cases hop'
        refine ⟨fun a ha => ?_, fun vp hvp => ?_⟩
        · apply Bool.eq_false_iff.2
          intro hfrees
          have hgone := step_entry h.sound hstep (h.entry a ha)
          rw [if_pos hfrees] at hgone
          exact hno (.inl ⟨a, ha, hgone⟩)
        · apply Bool.eq_false_iff.2
          intro hfrees
          obtain ⟨c, hc⟩ := h.client vp hvp
          have hgone := step_record h.sound hstep hc
          rw [if_pos hfrees] at hgone
          exact hno (.inr ⟨vp, hvp, hgone⟩)
    · obtain ⟨-, hentries, hrecords⟩ := hw.keeps
      rw [if_pos (fun op hop' => by rw [hop] at hop'; cases hop')]
      refine ⟨hw.sound h.sound, fun a ha => hentries a (h.entry a ha), fun vp hvp => ?_, h.valued⟩
      obtain ⟨c, hc⟩ := h.client vp hvp
      exact hrecords vp c hc
  · cases hs

theorem Lost.main (h : Lost hash st) {label : ServerLabel} (hs : step hash st (.main label) = some st') :
    Lost hash st' := by
  rw [step] at hs
  split at hs
  · rename_i hmain
    obtain ⟨srv', hserve, he⟩ := Option.map_eq_some_iff.1 hs
    subst he
    have hshrinks : HeapMap.Shrinks st.server.registry.heap srv'.registry.heap := by
      rcases HeapServer.serve_cases hmain hserve with ⟨op, -, hstep⟩ | ⟨-, hw⟩
      · exact shrinks_step h.sound hstep
      · exact hw.keeps.1
    refine ⟨HeapServer.sound_serve h.sound hserve, ?_⟩
    rcases h.gone with ⟨a, ha, hgone⟩ | ⟨vp, hvp, hgone⟩
    · exact .inl ⟨a, ha, hshrinks a hgone⟩
    · exact .inr ⟨vp, hvp, hshrinks vp hgone⟩
  · cases hs

end

end Racing

end Lte
