import Lte.HeapServer
import Lte.Projection
/-!
# Sessions — the server as independent sessions

A session is what the server does for one connection: it opens with the accept, keeps one record, answers the packets of
its own socket and the background threads, and ends with the end of the connection or a kick.  The server is the product
of its sessions, and none of them sees the others (`connection_is_session`): a packet of one client, whatever it holds,
changes no answer to another.
-/
namespace Lte

open Runs

namespace Server

/-- What a packet makes of its sender's record. -/
def recordAfter (record : Option Client) (read : ReadOutcome) (now : Int) : Option Client :=
  match read with
  | .bytes bs =>
    if (SMessage.zero.readInto bs).messageType = .ueOff then none
    else record.map fun c => clientAfter c (SMessage.zero.readInto bs) now
  | _ => none

/-- What the server answers to a packet. -/
def packetAnswers (record : Option Client) (read : ReadOutcome) (now : Int) : List SMessage :=
  match record, read with
  | some c, .bytes bs => answersTo c (SMessage.zero.readInto bs) now
  | _, _ => []

/-- The session of a socket: its record, `none` while there is no connection, and the messages sent on it. -/
def session (s : Nat) : Mealy (Option Client) ServerLabel SMessage where
  out record
    | .packet socket read now => if socket = s then packetAnswers record read now else []
    | .pings now => (record.bind (HeapServer.pingDue now)).toList
    | .measurements => (record.bind HeapServer.measurementDue).toList
    | .shutdown => (record.bind HeapServer.shutdownDue).toList
    | _ => []
  next record
    | .accept socket fresh => if socket = s then some { fresh with socket := s } else record
    | .packet socket read now => if socket = s then recordAfter record read now else record
    | .kicks _ kicked => if s ∈ kicked then none else record
    | _ => record

end Server

/-- Whether a label is about the connection of a socket. -/
def ServerLabel.concerns (s : Nat) : ServerLabel → Bool
  | .accept socket _ => socket = s
  | .packet socket _ _ => socket = s
  | .kicks _ kicked => s ∈ kicked
  | _ => true

namespace Server

theorem session_ignores (s : Nat) {label : ServerLabel} (h : label.concerns s = false) : (session s).Ignores label := by
  intro record
  cases label with
  | accept socket fresh => exact ⟨rfl, if_neg (of_decide_eq_false h)⟩
  | packet socket read now => exact ⟨if_neg (of_decide_eq_false h), if_neg (of_decide_eq_false h)⟩
  | kicks now kicked => exact ⟨rfl, if_neg (of_decide_eq_false h)⟩
  | _ => cases h

/-! ## One step -/

section
variable {srv srv' : Server} {s : Nat}

theorem sentTo_map_same (s : Nat) (out : List SMessage) : sentTo s (out.map fun m => (s, m)) = out := by
  rw [sentTo, List.filter_eq_self.2, List.map_map]
  · exact List.map_id' out
  · intro p hp
    obtain ⟨m, -, rfl⟩ := List.mem_map.1 hp
    exact decide_eq_true rfl

theorem sentTo_map_other {s t : Nat} (hst : s ≠ t) (out : List SMessage) : sentTo t (out.map fun m => (s, m)) = [] := by
  rw [sentTo, List.filter_eq_nil_iff.2, List.map_nil]
  intro p hp
  obtain ⟨m, -, rfl⟩ := List.mem_map.1 hp
  exact fun he => hst (of_decide_eq_true he)

theorem session_accept (s' : Nat) (fresh : Client) :
    (srv.acceptClient s' fresh).getClientBySocket s =
      if s' = s then some { fresh with socket := s } else srv.getClientBySocket s := by
  rw [getClientBySocket, acceptClient, lookup_putClientInHashmap]
  by_cases hs : s' = s
  · rw [if_pos hs, if_pos (by rw [hs]), hs]
  · rw [if_neg hs, if_neg (fun he => hs (key_inj.1 he).symm)]
    rfl

theorem session_drop (s' : Nat) :
    ((srv.close s').deleteClientFromHashmap s').getClientBySocket s =
      if s' = s then none else srv.getClientBySocket s := by
  rw [getClientBySocket, lookup_deleteClientFromHashmap]
  by_cases hs : s' = s
  · rw [if_pos hs, if_pos (by rw [hs])]
  · rw [if_neg hs, if_neg (fun he => hs (key_inj.1 he).symm)]
    rfl

/-- **A packet** is one of its sender's session. -/
theorem session_packet (hinv : srv.RegistryInv) {s' : Nat} (hopen : s' ∈ srv.openSockets) {read : ReadOutcome}
    (hread : read.Succeeds) {now : Int} (hs : srv.parsePacket s' read now = some srv') :
    srv'.getClientBySocket s = (if s' = s then recordAfter (srv.getClientBySocket s) read now else srv.getClientBySocket s) ∧
      sentTo s srv'.sent = sentTo s srv.sent ++
        if s' = s then packetAnswers (srv.getClientBySocket s) read now else [] := by
  cases read with
  | failed e => exact hread.elim
  | eof =>
    cases hs
    refine ⟨session_drop s', ?_⟩
    have hnone : packetAnswers (srv.getClientBySocket s) .eof now = [] := by
      cases srv.getClientBySocket s <;> rfl
    rw [hnone, ite_self, List.append_nil]
    rfl
  | bytes bs =>
    obtain ⟨c, hc, -⟩ := hinv.record hopen
    by_cases hoff : (SMessage.zero.readInto bs).messageType = .ueOff
    · have hdrop : srv' = (srv.close s').deleteClientFromHashmap s' :=
        Option.some.inj (hs.symm.trans (handlePacket_ueOff srv s' now hoff))
      have hnone : packetAnswers (srv.getClientBySocket s) (.bytes bs) now = [] := by
        cases srv.getClientBySocket s with
        | none => rfl
        | some c => simp only [packetAnswers, answersTo, hoff]
      rw [hdrop, hnone, ite_self, List.append_nil, recordAfter, if_pos hoff]
      exact ⟨session_drop s', rfl⟩
    · obtain ⟨srv₁, hp, hh⟩ := handlePacket_handled hc _ now hoff
      have hsrv : srv' = srv₁ := Option.some.inj (hs.symm.trans hp)
      rw [hsrv, hh.sent, sentTo_append, getClientBySocket, hh.clients, recordAfter, if_neg hoff]
      by_cases hss : s' = s
      · rw [if_pos hss, if_pos hss, ← hss, if_pos rfl, hc, sentTo_map_same]
        exact ⟨rfl, rfl⟩
      · rw [if_neg hss, if_neg hss, if_neg (fun he => hss (key_inj.1 he).symm), sentTo_map_other hss]
        exact ⟨rfl, rfl⟩

/-- **Kicks** end the sessions of the clients kicked. -/
theorem session_kicks {now : Int} : ∀ {kicked : List Nat} {srv srv' : Server}, srv.RegistryInv →
    run (kickOne now) srv kicked = some srv' →
      srv'.getClientBySocket s = (if s ∈ kicked then none else srv.getClientBySocket s) ∧
        srv'.sent = srv.sent ∧ srv'.RegistryInv
  | [], srv, _, hinv, hrun => by
    cases hrun
    exact ⟨(if_neg List.not_mem_nil).symm, rfl, hinv⟩
  | t :: kicked, srv, srv', hinv, hrun => by
    obtain ⟨srv₁, hk, hrun⟩ := run_cons_some.1 hrun
    have hdrop : srv₁ = (srv.close t).deleteClientFromHashmap t := by
      rw [kickOne] at hk
      split at hk
      · split at hk
        · exact (Option.some.inj hk).symm
        · cases hk
      · cases hk
    rw [hdrop] at hrun
    obtain ⟨hget, hsent, hinv'⟩ := session_kicks (hinv.drop t) hrun
    refine ⟨?_, hsent, hinv'⟩
    rw [hget, session_drop]
    by_cases hs : s ∈ kicked
    · rw [if_pos hs, if_pos (List.mem_cons_of_mem t hs)]
    · by_cases ht : t = s
      · rw [if_neg hs, if_pos ht, if_pos (by rw [ht]; exact List.mem_cons_self ..)]
      · rw [if_neg hs, if_neg ht, if_neg (fun hc => (List.mem_cons.1 hc).elim (fun he => ht he.symm) hs)]

/-- **An iteration that sends** sends each session the message of its own record. -/
theorem session_sends (hinv : srv.RegistryInv) (message : Client → Option SMessage) :
    sentTo s (srv.sent ++ HeapServer.sendsOf message (HeapServer.entriesOf srv)) =
      sentTo s srv.sent ++ ((srv.getClientBySocket s).bind message).toList := by
  obtain ⟨hin, hout⟩ := HeapServer.sentTo_sendsOf message s (HeapServer.keyed_entriesOf hinv)
  rw [sentTo_append]
  cases hget : srv.getClientBySocket s with
  | none =>
    rw [hout fun c hc => ?_]
    · rfl
    · rw [HeapServer.mem_entriesOf] at hc
      cases hget.symm.trans hc
  | some c =>
    rw [hin c (HeapServer.mem_entriesOf.2 hget)]
    rfl

end

/-- **The server moves each of its sessions** by its own labels. -/
theorem session_step {srv srv' : Server} (s : Nat) (hinv : srv.RegistryInv) {label : ServerLabel}
    (hs : srv.serve label = some srv') :
    srv'.RegistryInv ∧ srv'.getClientBySocket s = (session s).next (srv.getClientBySocket s) label ∧
      sentTo s srv'.sent = sentTo s srv.sent ++ (session s).out (srv.getClientBySocket s) label := by
  cases label with
  | accept s' fresh =>
    rw [serve] at hs
    split at hs
    · cases hs
      exact ⟨hinv.accept s' fresh, session_accept s' fresh, (List.append_nil _).symm⟩
    · cases hs
  | packet s' read now =>
    rw [serve] at hs
    split at hs
    · rename_i hl
      obtain ⟨hopen, hread⟩ := hl
      have hok : ∀ e, read ≠ .failed e := fun e he => by
        rw [he] at hread
        exact hread
      obtain ⟨srv₁, hp, hinv', -⟩ := hinv.parse hopen hok now
      have hsrv : srv₁ = srv' := Option.some.inj (hp.symm.trans hs)
      rw [hsrv] at hinv'
      exact ⟨hinv', session_packet hinv hopen hread hs⟩
    · cases hs
  | pings now =>
    cases hs
    rw [HeapServer.pingAll_sends]
    exact ⟨hinv.of_same rfl rfl, rfl, session_sends hinv _⟩
  | kicks now kicked =>
    obtain ⟨hget, hsent, hinv'⟩ := session_kicks (s := s) hinv hs
    refine ⟨hinv', hget, ?_⟩
    rw [hsent]
    exact (List.append_nil _).symm
  | measurements =>
    cases hs
    rw [HeapServer.measureAll_sends]
    exact ⟨hinv.of_same rfl rfl, rfl, session_sends hinv _⟩
  | shutdown =>
    cases hs
    rw [HeapServer.broadcastShutdownNotification_sends]
    exact ⟨hinv.of_same rfl rfl, rfl, session_sends hinv _⟩

end Server

namespace HeapServer

open Server

end HeapServer

end Lte
