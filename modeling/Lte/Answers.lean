import Lte.Protocol
import Lte.Sessions
/-!
# Answers — a UE's whole life at the server

The server's side of a UE: it reads what a UE writes in the order of `UePhase`, and so far is the phase of the UE as the
server knows it.  Its periodic messages, the other clients and a kick may come at any point.  What it answers is the two
requests of the attach, in order and with the UE's own parameters, and nothing else (`answers_to_ue`).
-/
namespace Lte

open Runs

/-! ## Answers -/

/-- What the server sends as an answer only. -/
def EMessageType.isAnswer : EMessageType → Bool
  | randomAccessResponse | rrcSetup => true
  | _ => false

/-- What the server answers. -/
def EMessageType.asks : EMessageType → Bool
  | randomAccessRequest | rrcRequest => true
  | _ => false

def ReadOutcome.asks : ReadOutcome → Bool
  | .bytes bs => (SMessage.zero.readInto bs).messageType.asks
  | _ => false

/-- What a connection on which `ms` was written is read as: each message whole, and then the end. -/
def readsOf (ms : List SMessage) : List ReadOutcome := ms.map (fun m => .bytes m.bytes) ++ [.eof]

theorem mem_readsOf {bs : List UInt8} {ms : List SMessage} (h : .bytes bs ∈ readsOf ms) : ∃ m ∈ ms, bs = m.bytes := by
  rcases List.mem_append.1 h with h | h
  · obtain ⟨m, hm, he⟩ := List.mem_map.1 h
    cases he
    exact ⟨m, hm, rfl⟩
  · cases List.mem_singleton.1 h

namespace ServerLabel

def accepts (s : Nat) : ServerLabel → Bool
  | .accept socket _ => socket = s
  | _ => false

def readOn (s : Nat) : ServerLabel → Option ReadOutcome
  | .packet socket read _ => if socket = s then some read else none
  | _ => none

end ServerLabel

def answersOn (s : Nat) (sent : List (Nat × SMessage)) : List SMessage :=
  (sentTo s sent).filter (·.messageType.isAnswer)

theorem answersOn_append {s : Nat} {sent sent' : List (Nat × SMessage)} {out : List SMessage}
    (h : sentTo s sent' = sentTo s sent ++ out) :
    answersOn s sent' = answersOn s sent ++ out.filter (·.messageType.isAnswer) := by
  rw [answersOn, h, List.filter_append]
  rfl

namespace UePhase

/-- The answers still to come in a phase. -/
def answers (raRnti : Int16) (timestamp : Int) : UePhase → List SMessage
  | silent =>
    [⟨.randomAccessResponse, (SMessage.zero.messageValue.setRapid (extractPreambleIndex raRnti)
      ).setUnixEpochTimestamp timestamp⟩,
      ⟨.rrcSetup, SMessage.zero.messageValue.setRrcResponse (generateRrcConfig raRnti)⟩]
  | requested => [⟨.rrcSetup, SMessage.zero.messageValue.setRrcResponse (generateRrcConfig raRnti)⟩]
  | _ => []

/-- The phase after a read. -/
def read (ph : UePhase) : ReadOutcome → Option UePhase
  | .bytes bs => next ph ((SMessage.zero.readInto bs).messageType, true)
  | .eof => some ended
  | .failed _ => none

theorem answers_of_ne_silent {ph : UePhase} (h : ph ≠ silent) (raRnti : Int16) (t t' : Int) :
    ph.answers raRnti t = ph.answers raRnti t' := by
  cases ph with
  | silent => exact absurd rfl h
  | _ => rfl

theorem next_ne_silent {ph ph' : UePhase} {w : EMessageType × Bool} (h : next ph w = some ph') : ph' ≠ silent := by
  cases next_cases h with
  | requested ok => cases ok <;> exact fun he => (nomatch he)
  | asked ok => cases ok <;> exact fun he => (nomatch he)
  | completed ok => exact fun he => (nomatch he)
  | looped hph ht ok => exact fun he => (nomatch he)
  | left hph ok => exact fun he => (nomatch he)

theorem next_requested {ph ph' : UePhase} {w : EMessageType × Bool} (h : next ph w = some ph') (hph : ph' = requested) :
    ph = silent ∧ w.1 = .randomAccessRequest := by
  cases next_cases h with
  | requested => exact ⟨rfl, rfl⟩
  | asked ok => cases ok <;> cases hph
  | completed => cases hph
  | looped => cases hph
  | left => cases hph

/-- **One message handled**: the answers to come are those given and those still to come after it. -/
theorem answers_next {ph ph' : UePhase} {m : SMessage} {c : Client} {raRnti : Int16} (now : Int)
    (h : next ph (m.messageType, true) = some ph')
    (hsilent : ph = silent → m.messageType = .randomAccessRequest → m.messageValue.raRnti = raRnti)
    (hrequested : ph = requested → c.rnti = raRnti) :
    ph.answers raRnti now = Server.answersTo c m now ++ ph'.answers raRnti now ∧
      (Server.answersTo c m now).filter (·.messageType.isAnswer) = Server.answersTo c m now ∧
      (Server.answersTo c m now).length = if m.messageType.asks then 1 else 0 := by
  obtain ⟨t, v⟩ := m
  generalize hw : (t, true) = w at h
  cases next_cases h with
  | requested =>
    cases hw
    rw [← hsilent rfl rfl]
    exact ⟨rfl, rfl, rfl⟩
  | asked =>
    cases hw
    rw [← hrequested rfl]
    exact ⟨rfl, rfl, rfl⟩
  | completed =>
    cases hw
    exact ⟨rfl, rfl, rfl⟩
  | looped hph ht =>
    cases hw
    have hnone : ph.answers raRnti now = [] := by rcases hph with rfl | rfl <;> rfl
    rw [hnone]
    cases t <;> first | exact ⟨rfl, rfl, rfl⟩ | cases ht
  | left hph =>
    cases hw
    have hnone : ph.answers raRnti now = [] := by rcases hph with rfl | rfl <;> rfl
    rw [hnone]
    exact ⟨rfl, rfl, rfl⟩

/-- Nothing is answered after the end. -/
theorem asks_of_ended : ∀ {rs : List ReadOutcome}, (run read ended rs).isSome = true → rs.countP ReadOutcome.asks = 0
  | [], _ => rfl
  | .eof :: rs, h => by
    have hrest : (run read ended rs).isSome = true := h
    have hnone := asks_of_ended hrest
    exact hnone
  | .bytes bs :: rs, h => by
    obtain ⟨last, hlast⟩ := Option.isSome_iff_exists.1 h
    obtain ⟨ph, hph, -⟩ := run_cons_some.1 hlast
    cases hph
  | .failed e :: rs, h => by cases h

end UePhase

/-! ## The session of a UE -/

namespace Server

theorem concerns_of_readOn {s socket : Nat} {read : ReadOutcome} {now : Int}
    (h : (ServerLabel.packet socket read now).readOn s = none) :
    (ServerLabel.packet socket read now).concerns s = false := by
  rw [ServerLabel.readOn] at h
  split at h
  · cases h
  · rename_i hs
    exact decide_eq_false hs

theorem packet_of_readOn {s : Nat} {label : ServerLabel} {read : ReadOutcome} (h : label.readOn s = some read) :
    ∃ now, label = .packet s read now := by
  cases label with
  | packet socket r now =>
    rw [ServerLabel.readOn] at h
    split at h
    · rename_i hs
      cases h
      exact ⟨now, by rw [hs]⟩
    · cases h
  | _ => cases h

/-- What the background threads send is no answer. -/
theorem session_quiet {s : Nat} {label : ServerLabel} (h : label.readOn s = none) (record : Option Client) :
    ((session s).out record label).filter (·.messageType.isAnswer) = [] := by
  cases label with
  | packet socket read now =>
    rw [(session_ignores s (concerns_of_readOn h) record).1]
    rfl
  | pings now =>
    cases record with
    | none => rfl
    | some c =>
      simp only [session, Option.bind_some, HeapServer.pingDue]
      split <;> rfl
  | _ => cases record <;> rfl

/-- A session not opened and not read from keeps its record, or loses it. -/
theorem session_keeps {s : Nat} {label : ServerLabel} (h : label.readOn s = none) (hnew : label.accepts s = false)
    (record : Option Client) : (session s).next record label = record ∨ (session s).next record label = none := by
  cases label with
  | accept socket fresh => exact .inl (if_neg (of_decide_eq_false hnew))
  | packet socket read now => exact .inl (session_ignores s (concerns_of_readOn h) record).2
  | kicks now kicked =>
    by_cases hk : s ∈ kicked
    · exact .inr (if_pos hk)
    · exact .inl (if_neg hk)
  | _ => exact .inl rfl

variable {s : Nat} {raRnti : Int16}

/-- The server's side of a UE in a phase: what is still to be read from it, and its record. -/
structure Awaits (s : Nat) (raRnti : Int16) (ph : UePhase) (srv : Server) (labels : List ServerLabel) : Prop where
  inv : srv.RegistryInv
  reads : (run UePhase.read ph (labels.filterMap (ServerLabel.readOn s))).isSome = true
  own : ph = .silent → ∀ bs, ReadOutcome.bytes bs ∈ labels.filterMap (ServerLabel.readOn s) →
    (SMessage.zero.readInto bs).messageType = .randomAccessRequest →
      (SMessage.zero.readInto bs).messageValue.raRnti = raRnti
  once : labels.countP (ServerLabel.accepts s) ≤ 1
  opened : ph ≠ .silent ∨ (srv.getClientBySocket s).isSome = true → labels.countP (ServerLabel.accepts s) = 0
  record : ph = .requested → ∀ c, srv.getClientBySocket s = some c → c.rnti = raRnti

/-- **A step that reads nothing from the UE** leaves its phase. -/
theorem Awaits.skip {srv srv₁ : Server} {label : ServerLabel} {labels : List ServerLabel} {ph : UePhase}
    (h : Awaits s raRnti ph srv (label :: labels)) (hread : label.readOn s = none)
    (hs : srv.serve label = some srv₁) : Awaits s raRnti ph srv₁ labels := by
  obtain ⟨hinv, hnext, -⟩ := session_step s h.inv hs
  have hreads : (label :: labels).filterMap (ServerLabel.readOn s) = labels.filterMap (ServerLabel.readOn s) :=
    List.filterMap_cons_none hread
  have hcount : (label :: labels).countP (ServerLabel.accepts s) =
      labels.countP (ServerLabel.accepts s) + if label.accepts s = true then 1 else 0 := List.countP_cons
  have honce := h.once
  have hkept : label.accepts s = false → ∀ c, srv₁.getClientBySocket s = some c → srv.getClientBySocket s = some c := by
    intro hnew c hc
    rw [hnext] at hc
    rcases session_keeps hread hnew (srv.getClientBySocket s) with hk | hk
    · rwa [hk] at hc
    · rw [hk] at hc
      cases hc
  refine ⟨hinv, hreads ▸ h.reads, hreads ▸ h.own, by omega, fun hop => ?_, fun hph c hc => ?_⟩
  · cases hnew : label.accepts s with
    | true =>
      rw [hnew, if_pos rfl] at hcount
      omega
    | false =>
      have hzero := h.opened (hop.imp_right fun hc => ?_)
      · omega
      · obtain ⟨c, hc⟩ := Option.isSome_iff_exists.1 hc
        rw [hkept hnew c hc]
        rfl
  · have hzero := h.opened (.inl (by rw [hph]; exact fun he => (nomatch he)))
    have hnew : label.accepts s = false :=
      Bool.eq_false_iff.2 (List.countP_eq_zero.1 hzero label List.mem_cons_self)
    exact h.record hph c (hkept hnew c hc)

section
variable {srv srv₁ : Server} {labels : List ServerLabel} {ph : UePhase} {now : Int}

/-- A UE whose connection is read from has been accepted. -/
theorem Awaits.accepted {read : ReadOutcome} (h : Awaits s raRnti ph srv (.packet s read now :: labels))
    (hs : srv.serve (.packet s read now) = some srv₁) :
    ∃ c, srv.getClientBySocket s = some c ∧ labels.countP (ServerLabel.accepts s) = 0 := by
  rw [serve] at hs
  split at hs
  · rename_i hl
    obtain ⟨c, hc, -⟩ := h.inv.record hl.1
    exact ⟨c, hc, h.opened (.inr (by rw [hc]; rfl))⟩
  · cases hs

theorem Awaits.closed (h : Awaits s raRnti ph srv (.packet s .eof now :: labels))
    (hs : srv.serve (.packet s .eof now) = some srv₁) : Awaits s raRnti .ended srv₁ labels := by
  obtain ⟨hinv, -, -⟩ := session_step s h.inv hs
  have hreads : (ServerLabel.packet s .eof now :: labels).filterMap (ServerLabel.readOn s) =
      .eof :: labels.filterMap (ServerLabel.readOn s) := List.filterMap_cons_some (if_pos rfl)
  obtain ⟨-, -, hzero⟩ := h.accepted hs
  have hall := h.reads
  rw [hreads] at hall
  refine ⟨hinv, hall, fun he => (nomatch he), ?_, fun _ => hzero, fun he => (nomatch he)⟩
  rw [hzero]
  exact Nat.zero_le 1

/-- **A message from the UE** leads to the phase after it. -/
theorem Awaits.handled {bs : List UInt8} (h : Awaits s raRnti ph srv (.packet s (.bytes bs) now :: labels))
    (hs : srv.serve (.packet s (.bytes bs) now) = some srv₁) :
    ∃ c ph', srv.getClientBySocket s = some c ∧
      UePhase.next ph ((SMessage.zero.readInto bs).messageType, true) = some ph' ∧ Awaits s raRnti ph' srv₁ labels := by
  obtain ⟨hinv, hnext, -⟩ := session_step s h.inv hs
  have hreads : (ServerLabel.packet s (.bytes bs) now :: labels).filterMap (ServerLabel.readOn s) =
      .bytes bs :: labels.filterMap (ServerLabel.readOn s) := List.filterMap_cons_some (if_pos rfl)
  have hall := h.reads
  rw [hreads, Option.isSome_iff_exists] at hall
  obtain ⟨last, hlast⟩ := hall
  obtain ⟨ph', hph, hrest⟩ := run_cons_some.1 hlast
  obtain ⟨c, hc, hzero⟩ := h.accepted hs
  refine ⟨c, ph', hc, hph, hinv, ?_, fun he => ?_, ?_, fun _ => hzero, fun he d hd => ?_⟩
  · rw [hrest]
    rfl
  · exact absurd he (UePhase.next_ne_silent hph)
  · rw [hzero]
    exact Nat.zero_le 1
  · -- only the preamble leads to `requested`, and leaves its value in the record
    obtain ⟨hsilent, hfirst⟩ := UePhase.next_requested hph he
    have ht : (SMessage.zero.readInto bs).messageType = .randomAccessRequest := hfirst
    have hafter : srv₁.getClientBySocket s = some (clientAfter c (SMessage.zero.readInto bs) now) := by
      rw [hnext, hc]
      refine (if_pos rfl).trans ?_
      rw [recordAfter, if_neg (by rw [ht]; decide)]
      rfl
    rw [hafter] at hd
    cases hd
    rw [clientAfter, ht]
    exact h.own hsilent bs (hreads ▸ List.mem_cons_self) ht

end

/-- **What a UE is answered**, whatever else the server does meanwhile. -/
theorem answers_of_run : ∀ {labels : List ServerLabel} {srv srv' : Server} {ph : UePhase},
    Awaits s raRnti ph srv labels → run serve srv labels = some srv' →
      ∃ t, answersOn s srv'.sent = answersOn s srv.sent ++
        (ph.answers raRnti t).take ((labels.filterMap (ServerLabel.readOn s)).countP ReadOutcome.asks)
  | [], srv, srv', ph, h, hrun => by
    cases hrun
    exact ⟨0, (List.append_nil _).symm⟩
  | label :: labels, srv, srv', ph, h, hrun => by
    obtain ⟨srv₁, hs, hrest⟩ := run_cons_some.1 hrun
    obtain ⟨-, -, hsent⟩ := session_step s h.inv hs
    have hout := answersOn_append hsent
    cases hread : label.readOn s with
    | none =>
      obtain ⟨t, ht⟩ := answers_of_run (h.skip hread hs) hrest
      refine ⟨t, ?_⟩
      rw [ht, hout, session_quiet hread, List.append_nil, List.filterMap_cons_none hread]
    | some read =>
      obtain ⟨now, rfl⟩ := packet_of_readOn hread
      rw [List.filterMap_cons_some hread]
      cases read with
      | failed e =>
        rw [serve] at hs
        split at hs
        · rename_i hl
          exact hl.2.elim
        · cases hs
      | eof =>
        have h' := h.closed hs
        obtain ⟨t, ht⟩ := answers_of_run h' hrest
        have hnone : (session s).out (srv.getClientBySocket s) (.packet s .eof now) = [] := by
          refine (if_pos rfl).trans ?_
          cases srv.getClientBySocket s <;> rfl
        refine ⟨t, ?_⟩
        rw [ht, hout, hnone, List.countP_cons_of_neg (by exact Bool.false_ne_true), UePhase.asks_of_ended h'.reads,
          List.take_zero, List.take_zero, List.filter_nil, List.append_nil]
      | bytes bs =>
        obtain ⟨c, ph', hc, hph, h'⟩ := h.handled hs
        obtain ⟨t, ht⟩ := answers_of_run h' hrest
        have hone : (session s).out (srv.getClientBySocket s) (.packet s (.bytes bs) now) =
            answersTo c (SMessage.zero.readInto bs) now := by
          rw [hc]
          exact if_pos rfl
        have hmem : ReadOutcome.bytes bs ∈
            (ServerLabel.packet s (.bytes bs) now :: labels).filterMap (ServerLabel.readOn s) := by
          rw [List.filterMap_cons_some hread]
          exact List.mem_cons_self
        obtain ⟨hans, hall, hlen⟩ :=
          UePhase.answers_next now hph (fun he => h.own he bs hmem) fun he => h.record he c hc
        have hasks : (if ReadOutcome.asks (.bytes bs) = true then 1 else 0) =
            (answersTo c (SMessage.zero.readInto bs) now).length := hlen.symm
        refine ⟨now, ?_⟩
        rw [ht, hout, hone, hall, hans, List.append_assoc,
          ph'.answers_of_ne_silent (UePhase.next_ne_silent hph) raRnti t now, List.countP_cons, Nat.add_comm, hasks,
          List.take_length_add_append]

end Server

/-! ## A UE and the server -/

namespace UePhase

theorem nil_of_ended : ∀ {ws : List (EMessageType × Bool)}, (run next ended ws).isSome = true → ws = []
  | [], _ => rfl
  | w :: ws, h => by
    obtain ⟨last, hlast⟩ := Option.isSome_iff_exists.1 h
    obtain ⟨ph, hph, -⟩ := run_cons_some.1 hlast
    cases hph

/-- `rrc_complete` may be missing. -/
theorem asked_of_attached : ∀ {ws : List (EMessageType × Bool)}, (run next attached ws).isSome = true →
    (run next asked ws).isSome = true
  | [], _ => rfl
  | w :: ws, h => by
    obtain ⟨last, hlast⟩ := Option.isSome_iff_exists.1 h
    obtain ⟨ph, hph, hrest⟩ := run_cons_some.1 hlast
    have hsame : next asked w = some ph := by
      cases next_cases hph with
      | looped _ ht ok => exact next_ofLoop (.inl rfl) ht
      | left => rfl
    exact Option.isSome_iff_exists.2 ⟨last, run_cons_some.2 ⟨ph, hsame, hrest⟩⟩

/-- **The writes that succeeded** follow the protocol too. -/
theorem run_sent : ∀ {ws : List (EMessageType × Bool)} {ph : UePhase}, (run next ph ws).isSome = true →
    (run next ph (ws.filter Prod.snd)).isSome = true
  | [], _, _ => rfl
  | (t, ok) :: ws, ph, h => by
    obtain ⟨last, hlast⟩ := Option.isSome_iff_exists.1 h
    obtain ⟨ph', hph, hrest⟩ := run_cons_some.1 hlast
    have hsome : (run next ph' ws).isSome = true := Option.isSome_iff_exists.2 ⟨last, hrest⟩
    cases ok with
    | true =>
      obtain ⟨last', hlast'⟩ := Option.isSome_iff_exists.1 (run_sent hsome)
      exact Option.isSome_iff_exists.2 ⟨last', run_cons_some.2 ⟨ph', hph, hlast'⟩⟩
    | false =>
      -- a failed write of the attach is the last, the others may be left out
      rw [List.filter_cons_of_neg Bool.false_ne_true]
      have hadvanced := next_cases hph
      clear hph
      cases hadvanced with
      | requested =>
        rw [nil_of_ended hsome]
        rfl
      | asked =>
        rw [nil_of_ended hsome]
        rfl
      | completed => exact asked_of_attached (run_sent hsome)
      | looped hph =>
        rcases hph with rfl | rfl
        · exact asked_of_attached (run_sent hsome)
        · exact run_sent hsome
      | left =>
        rw [nil_of_ended hsome]
        rfl

theorem run_reads : ∀ {ms : List SMessage} {ph : UePhase},
    (run next ph (ms.map fun m => (m.messageType, true))).isSome = true → run read ph (readsOf ms) = some ended
  | [], ph, _ => rfl
  | m :: ms, ph, h => by
    obtain ⟨last, hlast⟩ := Option.isSome_iff_exists.1 h
    obtain ⟨ph', hph, hrest⟩ := run_cons_some.1 hlast
    refine run_cons_some.2 ⟨ph', ?_, run_reads (Option.isSome_iff_exists.2 ⟨last, hrest⟩)⟩
    rw [read, SMessage.readInto_bytes]
    exact hph

/-- No second preamble. -/
theorem no_preamble : ∀ {ms : List SMessage} {ph : UePhase}, ph ≠ silent →
    (run next ph (ms.map fun m => (m.messageType, true))).isSome = true →
      ∀ m ∈ ms, m.messageType ≠ .randomAccessRequest
  | [], _, _, _, m, hm => absurd hm List.not_mem_nil
  | m :: ms, ph, hne, h, m', hm => by
    obtain ⟨last, hlast⟩ := Option.isSome_iff_exists.1 h
    obtain ⟨ph', hph, hrest⟩ := run_cons_some.1 hlast
    rcases List.mem_cons.1 hm with rfl | hm
    · intro ht
      have hadvanced : Advanced ph (m'.messageType, true) ph' := next_cases hph
      rw [ht] at hadvanced
      clear hph
      cases hadvanced with
      | requested => exact hne rfl
      | looped _ ht => cases ht
    · exact no_preamble (next_ne_silent hph) (Option.isSome_iff_exists.2 ⟨last, hrest⟩) m' hm

theorem one_preamble {ms : List SMessage}
    (h : (run next silent (ms.map fun m => (m.messageType, true))).isSome = true) :
    ∃ raRnti, ∀ m ∈ ms, m.messageType = .randomAccessRequest → m.messageValue.raRnti = raRnti := by
  cases ms with
  | nil => exact ⟨0, fun m hm => absurd hm List.not_mem_nil⟩
  | cons m ms =>
    obtain ⟨last, hlast⟩ := Option.isSome_iff_exists.1 h
    obtain ⟨ph, hph, hrest⟩ := run_cons_some.1 hlast
    refine ⟨m.messageValue.raRnti, fun m' hm ht => ?_⟩
    rcases List.mem_cons.1 hm with rfl | hm
    · rfl
    · exact absurd ht (no_preamble (next_ne_silent hph) (Option.isSome_iff_exists.2 ⟨last, hrest⟩) m' hm)

end UePhase

theorem sent_writes : ∀ trace : List UeCall,
    (delivered trace).map (fun m => (m.messageType, true)) = (writes trace).filter Prod.snd
  | [] => rfl
  | .write m true :: trace => congrArg (List.cons (m.messageType, true)) (sent_writes trace)
  | .write _ false :: trace => sent_writes trace
  | .recv _ :: trace => sent_writes trace
  | .close :: trace => sent_writes trace
  | .exitClose :: trace => sent_writes trace
  | .fopen _ :: trace => sent_writes trace
  | .fwrite _ _ :: trace => sent_writes trace
  | .fclose _ :: trace => sent_writes trace
  | .checked _ :: trace => sent_writes trace

namespace HeapServer

/-- **The answers to a UE.**  When one connection was accepted on the socket and what was read from it is what a UE
wrote over its life, or a first part of it, then every request of its attach that was read was answered, in order and
with the UE's own parameters, and nothing else was. -/
theorem answers_to_ue (hash : List Char → UInt64) (socket s : Nat) {labels : List ServerLabel} {hsrv : HeapServer}
    (hrun : run (HeapServer.serve hash) (init socket) labels = some hsrv)
    (honce : labels.countP (ServerLabel.accepts s) ≤ 1) {startRsrp : Fin 2 → Int} {now : Int} {as : List ProcLabel}
    {p : Proc} (hue : run Proc.step (Proc.start startRsrp now) as = some p)
    (hreads : labels.filterMap (ServerLabel.readOn s) <+: readsOf (delivered p.ue.trace)) :
    ∃ raRnti timestamp,
      (∀ m ∈ delivered p.ue.trace, m.messageType = .randomAccessRequest → m.messageValue.raRnti = raRnti) ∧
      answersOn s hsrv.sent = (UePhase.silent.answers raRnti timestamp).take
        ((labels.filterMap (ServerLabel.readOn s)).countP ReadOutcome.asks) := by
  have hsilent : UePhase.At (Proc.start startRsrp now).pc .silent := rfl
  obtain ⟨ws, ph, hws, hph, -⟩ := Proc.conforms.of_run (Proc.inv_start startRsrp now) hsilent hue
  have hnone : writes (Proc.start startRsrp now).ue.trace = [] := rfl
  rw [hnone, List.nil_append] at hws
  have hsent :
      (run UePhase.next .silent ((delivered p.ue.trace).map fun m => (m.messageType, true))).isSome = true := by
    rw [sent_writes, hws]
    exact UePhase.run_sent (Option.isSome_iff_exists.2 ⟨ph, hph⟩)
  have hread : (run UePhase.read .silent (labels.filterMap (ServerLabel.readOn s))).isSome = true := by
    obtain ⟨rest, hrest⟩ := hreads
    have hall := UePhase.run_reads hsent
    rw [← hrest] at hall
    obtain ⟨ph', hph', -⟩ := run_append_some.1 hall
    exact Option.isSome_iff_exists.2 ⟨ph', hph'⟩
  obtain ⟨raRnti, hown⟩ := UePhase.one_preamble hsent
  obtain ⟨srv, hs, hsim, -⟩ := sim_run (sim_init hash socket) (Server.registryInv_init socket) hrun
  have hawaits : Server.Awaits s raRnti .silent (Server.init socket) labels := by
    refine ⟨Server.registryInv_init socket, hread, fun _ bs hbs ht => ?_, honce, ?_, fun he => (nomatch he)⟩
    · obtain ⟨m, hm, rfl⟩ := mem_readsOf (hreads.subset hbs)
      rw [SMessage.readInto_bytes] at ht ⊢
      exact hown m hm ht
    · rintro (hne | hc)
      · exact absurd rfl hne
      · cases hc
  obtain ⟨timestamp, hans⟩ := Server.answers_of_run hawaits hs
  refine ⟨raRnti, timestamp, hown, ?_⟩
  rw [answersOn, hsim.sent_eq s]
  exact hans

/-- The same UE, accepted, answered, pinged and gone, with another client beside it. -/
def servingUe : List ServerLabel :=
  .accept 5 ⟨0, 0, 0, 0, .ok, 0⟩ :: .accept 6 ⟨0, 0, 0, 0, .ok, 0⟩ ::
    ((readsOf (delivered (finish Proc.step (Proc.start (fun _ => 50) 0) Proc.offInLoop).ue.trace)).map
      (fun read => .packet 5 read 4000)).intersperse (.pings 9000)

theorem answers_to_ue_servingUe :
    ∃ hsrv, run (HeapServer.serve fun _ => 0) (init 3) servingUe = some hsrv ∧
      (answersOn 5 hsrv.sent).map SMessage.messageType = [.randomAccessResponse, .rrcSetup] := by
  have hrun : run (HeapServer.serve fun _ => 0) (init 3) servingUe =
      some (finish (HeapServer.serve fun _ => 0) (init 3) servingUe) := run_finish (by decide +kernel)
  have hue : run Proc.step (Proc.start (fun _ => 50) 0) Proc.offInLoop =
      some (finish Proc.step (Proc.start (fun _ => 50) 0) Proc.offInLoop) := run_finish (by decide +kernel)
  have hasks : (servingUe.filterMap (ServerLabel.readOn 5)).countP ReadOutcome.asks = 2 := by decide +kernel
  obtain ⟨raRnti, timestamp, -, hans⟩ :=
    answers_to_ue (fun _ => 0) 3 5 hrun (by decide +kernel) hue (by decide +kernel)
  rw [hasks] at hans
  refine ⟨_, hrun, ?_⟩
  rw [hans]
  rfl

end HeapServer

end Lte
