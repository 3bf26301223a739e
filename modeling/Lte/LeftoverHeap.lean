import Lte.PingThread
/-!
# LeftoverHeap — what `malloc` leaves in a fresh record

`accept_client` writes no member of its record but the socket, so `rnti`, `battery_state` and `last_activity` are
whatever the heap held until a message of the client sets them.  Two runs with the same labels but for these contents
are alike (`Sim`) as long as every read of a member finds it written since the accept (`ReadsWritten`): they log and
send the same.
-/
namespace Lte

open Runs Histories

namespace PingThread

/-! ## What has been written since the accept -/

/-- An event that sets a member came after the last accept of `s`. -/
def Known (Sets : Nat → PingEvent → Prop) (s : Nat) (log : List PingEvent) : Prop :=
  Since (Sets s) (fun e => e ≠ .accepted s) log

def SetsRnti (s : Nat) (e : PingEvent) : Prop := ∃ now, e = .handled s .randomAccessRequest now

def SetsBattery (s : Nat) (e : PingEvent) : Prop :=
  ∃ mt now, e = .handled s mt now ∧ (mt = .randomAccessRequest ∨ mt = .ueBatteryLow ∨ mt = .ueBatteryHigh)

/-- The records of `s` in two runs: the same, as far as they have been written. -/
structure Alike (log : List PingEvent) (s : Nat) (c c' : Client) : Prop where
  socket : c'.socket = c.socket
  rnti : Known SetsRnti s log → c'.rnti = c.rnti
  lastActivity : Known Activity s log → c'.lastActivity = c.lastActivity
  batteryState : Known SetsBattery s log → c'.batteryState = c.batteryState

/-- Every member that a step reads has been written since the accept: `rnti` when an `rrc_request` is handled,
`last_activity` when an iteration comes to the record, and `battery_state` when it is not too early for a ping. -/
def ReadsWritten (p : PingThread) : PingLabel → Prop
  | .packet s m _ => m.messageType = .rrcRequest → Known SetsRnti s p.log
  | .iteration now => ∀ s c, p.server.getClientBySocket s = some c →
    Known Activity s p.log ∧ (Known SetsBattery s p.log ∨ now - c.lastActivity ≤ pingTimeNormal)
  | _ => True

/-- The same label, but for what `malloc` returned. -/
def SameButMalloc (a a' : PingLabel) : Prop := a' = a ∨ ∃ s fresh fresh', a = .accept s fresh ∧ a' = .accept s fresh'

theorem known_concat {Sets : Nat → PingEvent → Prop} {s : Nat} {log : List PingEvent} {e : PingEvent} :
    Known Sets s (log ++ [e]) ↔ Sets s e ∨ (Known Sets s log ∧ e ≠ .accepted s) := since_concat

/-- An event that neither sets a member of `s` nor accepts it changes nothing of what is known. -/
theorem Alike.concat {log : List PingEvent} {s : Nat} {c c' : Client} (h : Alike log s c c') {e : PingEvent}
    (hr : ¬ SetsRnti s e) (ha : ¬ Activity s e) (hb : ¬ SetsBattery s e) : Alike (log ++ [e]) s c c' where
  socket := h.socket
  rnti hk := h.rnti ((known_concat.1 hk).resolve_left hr).1
  lastActivity hk := h.lastActivity ((known_concat.1 hk).resolve_left ha).1
  batteryState hk := h.batteryState ((known_concat.1 hk).resolve_left hb).1

theorem alike_accepted (log : List PingEvent) {s : Nat} {c c' : Client} (h : c'.socket = c.socket) :
    Alike (log ++ [.accepted s]) s c c' := by
  refine ⟨h, fun hk => ?_, fun hk => ?_, fun hk => ?_⟩
  · rcases known_concat.1 hk with ⟨_, he⟩ | ⟨-, hne⟩
    · cases he
    · exact absurd rfl hne
  · rcases known_concat.1 hk with (⟨_, he⟩ | ⟨_, he⟩) | ⟨-, hne⟩
    · cases he
    · cases he
    · exact absurd rfl hne
  · rcases known_concat.1 hk with ⟨_, _, he, -⟩ | ⟨-, hne⟩
    · cases he
    · exact absurd rfl hne

theorem Alike.accepted_other {log : List PingEvent} {s u : Nat} {c c' : Client} (h : Alike log s c c') :
    Alike (log ++ [.accepted u]) s c c' := by
  refine h.concat ?_ ?_ ?_
  · rintro ⟨_, he⟩
    cases he
  · rintro (⟨_, he⟩ | ⟨_, he⟩) <;> cases he
  · rintro ⟨_, _, he, -⟩
    cases he

theorem Alike.handled_other {log : List PingEvent} {s u : Nat} {c c' : Client} (h : Alike log s c c') (hus : u ≠ s)
    (mt : EMessageType) (now : Int) : Alike (log ++ [.handled u mt now]) s c c' := by
  refine h.concat ?_ (not_activity fun he => absurd he hus) ?_
  · rintro ⟨_, he⟩
    simp only [PingEvent.handled.injEq] at he
    exact hus he.1
  · rintro ⟨_, _, he, -⟩
    simp only [PingEvent.handled.injEq] at he
    exact hus he.1

/-- The sender's records after a message, which sets the same in both. -/
theorem Alike.clientAfter {log : List PingEvent} {s : Nat} {c c' : Client} (h : Alike log s c c') (m : SMessage)
    (now : Int) :
    Alike (log ++ [.handled s m.messageType now]) s (Server.clientAfter c m now) (Server.clientAfter c' m now) := by
  have hrnti : m.messageType ≠ .randomAccessRequest → Known SetsRnti s (log ++ [.handled s m.messageType now]) →
      c'.rnti = c.rnti := by
    intro hm hk
    rcases known_concat.1 hk with ⟨_, he⟩ | ⟨hk, -⟩
    · simp only [PingEvent.handled.injEq] at he
      exact absurd he.2.1 hm
    · exact h.rnti hk
  have hact : m.messageType ≠ .randomAccessRequest → m.messageType ≠ .pong →
      Known Activity s (log ++ [.handled s m.messageType now]) → c'.lastActivity = c.lastActivity := by
    intro hm hm' hk
    rcases known_concat.1 hk with ha | ⟨hk, -⟩
    · exact absurd ha (not_activity fun _ => ⟨hm, hm'⟩)
    · exact h.lastActivity hk
  have hbat : ¬ (m.messageType = .randomAccessRequest ∨ m.messageType = .ueBatteryLow ∨
      m.messageType = .ueBatteryHigh) → Known SetsBattery s (log ++ [.handled s m.messageType now]) →
      c'.batteryState = c.batteryState := by
    intro hm hk
    rcases known_concat.1 hk with ⟨_, _, he, hmt⟩ | ⟨hk, -⟩
    · simp only [PingEvent.handled.injEq] at he
      rw [← he.2.1] at hmt
      exact absurd hmt hm
    · exact h.batteryState hk
  unfold Server.clientAfter
  cases hm : m.messageType with
  | randomAccessRequest => exact ⟨h.socket, fun _ => rfl, fun _ => rfl, fun _ => rfl⟩
  | pong =>
    rw [hm] at hrnti hbat
    exact ⟨h.socket, hrnti (by decide), fun _ => rfl, hbat (by decide)⟩
  | ueBatteryLow =>
    rw [hm] at hrnti hact
    exact ⟨h.socket, hrnti (by decide), hact (by decide) (by decide), fun _ => rfl⟩
  | ueBatteryHigh =>
    rw [hm] at hrnti hact
    exact ⟨h.socket, hrnti (by decide), hact (by decide) (by decide), fun _ => rfl⟩
  | _ =>
    rw [hm] at hrnti hact hbat
    exact ⟨h.socket, hrnti (by simp), hact (by simp) (by simp), hbat (by simp)⟩

/-- The answers to a message, when the `rnti` of an answer that carries it is known. -/
theorem Alike.answersTo {log : List PingEvent} {s : Nat} {c c' : Client} (h : Alike log s c c') {m : SMessage}
    (hm : m.messageType = .rrcRequest → Known SetsRnti s log) (now : Int) :
    Server.answersTo c' m now = Server.answersTo c m now := by
  unfold Server.answersTo
  cases ht : m.messageType with
  | rrcRequest => rw [h.rnti (hm ht)]
  | _ => rfl

end PingThread

/-! ## The order of the registry -/

namespace Server

/-- The order after a put depends on the order before it only. -/
theorem keys_putClientInHashmap {srv srv' : Server} (h : srv'.clients.keys = srv.clients.keys) (s : Nat)
    (c c' : Client) : (srv'.putClientInHashmap s c').clients.keys = (srv.putClientInHashmap s c).clients.keys := by
  refine (AList.keys_insert _).trans (Eq.trans ?_ (AList.keys_insert _).symm)
  rw [h]

theorem keys_deleteClientFromHashmap {srv srv' : Server} (h : srv'.clients.keys = srv.clients.keys) (s : Nat) :
    (srv'.deleteClientFromHashmap s).clients.keys = (srv.deleteClientFromHashmap s).clients.keys := by
  refine (AList.keys_erase _ _).trans (Eq.trans ?_ (AList.keys_erase _ _).symm)
  rw [h]

/-- Whether a message rewrites its sender's record. -/
def Rewrites (mt : EMessageType) : Prop :=
  mt = .randomAccessRequest ∨ mt = .pong ∨ mt = .ueBatteryLow ∨ mt = .ueBatteryHigh

instance (mt : EMessageType) : Decidable (Rewrites mt) := by unfold Rewrites; infer_instance

theorem keys_handlePacket {srv srv' : Server} {s : Nat} {c : Client} (h : srv.getClientBySocket s = some c)
    {m : SMessage} {now : Int} (hoff : m.messageType ≠ .ueOff) (hp : srv.handlePacket s m now = some srv') :
    srv'.clients.keys =
      if Rewrites m.messageType then (srv.putClientInHashmap s c).clients.keys else srv.clients.keys := by
  unfold handlePacket at hp
  cases hm : m.messageType with
  | randomAccessRequest =>
    rw [hm] at hp
    cases hp
    have hget : ∀ m, (srv.send s m).getClientBySocket s = some c := fun _ => h
    simp only [handleRandomAccessRequest, updateClientByRaRntiData, sendRandomAccessResponse, hget]
    exact keys_putClientInHashmap rfl s _ _
  | rrcRequest =>
    simp only [hm, sendRrcSetup, getClientRnti, h, Option.map_some, Option.some.injEq] at hp
    rw [← hp]
    rfl
  | ueBatteryLow =>
    simp only [hm, handleLowBatteryRequest, updateClient_some h, Option.some.injEq] at hp
    rw [← hp]
    exact keys_putClientInHashmap rfl s _ _
  | ueBatteryHigh =>
    simp only [hm, handleHighBatteryRequest, updateClient_some h, Option.some.injEq] at hp
    rw [← hp]
    exact keys_putClientInHashmap rfl s _ _
  | pong =>
    simp only [hm, handlePong, updateClient_some h, Option.some.injEq] at hp
    rw [← hp]
    exact keys_putClientInHashmap rfl s _ _
  | ueOff => exact absurd hm hoff
  | _ =>
    simp only [hm, Option.some.injEq] at hp
    rw [← hp, if_neg (by simp [Rewrites])]

theorem keys_kickAll_sublist (srv : Server) (now : Int) : (srv.kickAll now).clients.keys.Sublist srv.clients.keys := by
  unfold kickAll
  generalize srv.clients.entries = es
  induction es generalizing srv with
  | nil => exact .refl _
  | cons e es ih =>
    rw [List.foldl_cons]
    refine (ih _).trans ?_
    unfold handleClientInactivity
    by_cases hk : shouldKick e.2 now = true
    · rw [if_pos hk]
      exact (List.kerase_sublist (key e.2.socket) srv.clients.entries).map Sigma.fst
    · rw [if_neg hk]

/-- The pings of an iteration, key by key. -/
theorem pings_eq (srv : Server) (now : Int) :
    pings now srv.clients.entries = srv.clients.keys.flatMap (fun k =>
      (srv.clients.lookup k).elim [] (fun c => if shouldPing c now then [(c.socket, pingMessage)] else [])) := by
  unfold pings AList.keys List.keys
  rw [List.flatMap_map]
  refine List.flatMap_congr fun e he => ?_
  rw [mem_entries.1 he]
  rfl

end Server

/-- Two lists with the same members, both in the order of a list without duplicates. -/
theorem eq_of_sublist_of_mem_iff {α : Type} : ∀ {l l₁ l₂ : List α}, l.Nodup → l₁.Sublist l → l₂.Sublist l →
    (∀ a, a ∈ l₁ ↔ a ∈ l₂) → l₁ = l₂
  | [], l₁, l₂, _, h₁, h₂, _ => by rw [List.sublist_nil.1 h₁, List.sublist_nil.1 h₂]
  | a :: l, l₁, l₂, hnd, h₁, h₂, hmem => by
    obtain ⟨ha, hnd⟩ := List.nodup_cons.1 hnd
    rcases List.sublist_cons_iff.1 h₁ with hr₁ | ⟨r₁, rfl, hr₁⟩
    · rcases List.sublist_cons_iff.1 h₂ with hr₂ | ⟨r₂, rfl, hr₂⟩
      · exact eq_of_sublist_of_mem_iff hnd hr₁ hr₂ hmem
      · exact absurd (hr₁.subset ((hmem a).2 (List.mem_cons_self ..))) ha
    · rcases List.sublist_cons_iff.1 h₂ with hr₂ | ⟨r₂, rfl, hr₂⟩
      · exact absurd (hr₂.subset ((hmem a).1 (List.mem_cons_self ..))) ha
      · refine congrArg (a :: ·) (eq_of_sublist_of_mem_iff hnd hr₁ hr₂ fun b => ?_)
        have hb := hmem b
        rw [List.mem_cons, List.mem_cons] at hb
        by_cases hba : b = a
        · subst hba
          exact ⟨fun hb => absurd (hr₁.subset hb) ha, fun hb => absurd (hr₂.subset hb) ha⟩
        · exact ⟨fun hb' => (hb.1 (.inr hb')).resolve_left hba, fun hb' => (hb.2 (.inr hb')).resolve_left hba⟩

namespace PingThread

/-! ## Two runs side by side -/

structure Sim (p p' : PingThread) : Prop where
  registry : p.server.RegistryInv
  registry' : p'.server.RegistryInv
  socket : p'.server.socket = p.server.socket
  openSockets : p'.server.openSockets = p.server.openSockets
  sent : p'.server.sent = p.server.sent
  keys : p'.server.clients.keys = p.server.clients.keys
  clock : p'.clock = p.clock
  lastIteration : p'.lastIteration = p.lastIteration
  log : p'.log = p.log
  alike : ∀ s c c', p.server.getClientBySocket s = some c → p'.server.getClientBySocket s = some c' →
    Alike p.log s c c'

theorem sim_init (socket : Nat) (clock : Int) : Sim (init socket clock) (init socket clock) where
  registry := Server.registryInv_init socket
  registry' := Server.registryInv_init socket
  socket := rfl
  openSockets := rfl
  sent := rfl
  keys := rfl
  clock := rfl
  lastIteration := rfl
  log := rfl
  alike s c c' hc _ := by simp [init, Server.init, Server.getClientBySocket] at hc

theorem getClientBySocket_acceptClient (srv : Server) (s u : Nat) (fresh : Client) :
    (srv.acceptClient s fresh).getClientBySocket u =
      if u = s then some { fresh with socket := s } else srv.getClientBySocket u := by
  unfold Server.acceptClient Server.getClientBySocket
  rw [Server.lookup_putClientInHashmap]
  simp only [key_inj]

theorem getClientBySocket_drop (srv : Server) (s u : Nat) :
    ((srv.close s).deleteClientFromHashmap s).getClientBySocket u =
      if u = s then none else srv.getClientBySocket u := by
  unfold Server.getClientBySocket
  rw [Server.lookup_deleteClientFromHashmap]
  simp only [key_inj]
  rfl

theorem sim_accept {p p' q : PingThread} (h : Sim p p') {s : Nat} {fresh : Client} (fresh' : Client)
    (hs : step p (.accept s fresh) = some q) : ∃ q', step p' (.accept s fresh') = some q' ∧ Sim q q' := by
  simp only [step] at hs ⊢
  rw [h.openSockets, h.socket]
  split at hs
  · rename_i hc
    cases hs
    rw [if_pos hc]
    refine ⟨_, rfl, h.registry.accept s fresh, h.registry'.accept s fresh', h.socket, ?_, h.sent, ?_, h.clock,
      h.lastIteration, by rw [h.log], fun u c c' hget hget' => ?_⟩
    · show insert s p'.server.openSockets = insert s p.server.openSockets
      rw [h.openSockets]
    · show (Server.putClientInHashmap _ s _).clients.keys = (Server.putClientInHashmap _ s _).clients.keys
      exact Server.keys_putClientInHashmap h.keys s _ _
    · rw [getClientBySocket_acceptClient] at hget hget'
      by_cases hus : u = s
      · rw [if_pos hus] at hget hget'
        cases hget
        cases hget'
        rw [hus]
        exact alike_accepted p.log rfl
      · rw [if_neg hus] at hget hget'
        exact (h.alike u c c' hget hget').accepted_other
  · cases hs

theorem sim_eof {p p' q : PingThread} (h : Sim p p') {s : Nat} (hs : step p (.eof s) = some q) :
    ∃ q', step p' (.eof s) = some q' ∧ Sim q q' := by
  simp only [step] at hs ⊢
  rw [h.openSockets]
  split at hs
  · rename_i hc
    cases hs
    rw [if_pos hc]
    refine ⟨_, rfl, h.registry.drop s, h.registry'.drop s, h.socket, ?_, h.sent, ?_, h.clock, h.lastIteration, h.log,
      fun u c c' hget hget' => ?_⟩
    · show p'.server.openSockets.erase s = p.server.openSockets.erase s
      rw [h.openSockets]
    · have hkeys : (p'.server.close s).clients.keys = (p.server.close s).clients.keys := h.keys
      exact Server.keys_deleteClientFromHashmap hkeys s
    · rw [getClientBySocket_drop] at hget hget'
      by_cases hus : u = s
      · rw [if_pos hus] at hget
        cases hget
      · rw [if_neg hus] at hget hget'
        exact h.alike u c c' hget hget'
  · cases hs

theorem sim_packet {p p' q : PingThread} (h : Sim p p') {s : Nat} {m : SMessage} {now : Int}
    (hr : ReadsWritten p (.packet s m now)) (hs : step p (.packet s m now) = some q) :
    ∃ q', step p' (.packet s m now) = some q' ∧ Sim q q' := by
  simp only [step] at hs ⊢
  rw [h.openSockets, h.clock]
  split at hs
  · rename_i hc
    rw [if_pos hc]
    obtain ⟨c, hget, hcs⟩ := h.registry.record hc.1
    obtain ⟨c', hget', hcs'⟩ := h.registry'.record (by rw [h.openSockets]; exact hc.1)
    have hal := h.alike s c c' hget hget'
    by_cases hoff : m.messageType = .ueOff
    · simp only [Server.handlePacket_ueOff _ _ _ hoff, Option.some.injEq] at hs ⊢
      subst hs
      refine ⟨_, rfl, h.registry.drop s, h.registry'.drop s, h.socket, ?_, h.sent, ?_, rfl, h.lastIteration,
        by rw [h.log], fun u d d' hd hd' => ?_⟩
      · show p'.server.openSockets.erase s = p.server.openSockets.erase s
        rw [h.openSockets]
      · have hkeys : (p'.server.close s).clients.keys = (p.server.close s).clients.keys := h.keys
        exact Server.keys_deleteClientFromHashmap hkeys s
      · rw [getClientBySocket_drop] at hd hd'
        by_cases hus : u = s
        · rw [if_pos hus] at hd
          cases hd
        · rw [if_neg hus] at hd hd'
          exact (h.alike u d d' hd hd').handled_other (fun he => hus he.symm) _ _
    · obtain ⟨srv₁, hp, hh⟩ := Server.handlePacket_handled hget m now hoff
      obtain ⟨srv₂, hp', hh'⟩ := Server.handlePacket_handled hget' m now hoff
      rw [hp] at hs
      cases hs
      rw [hp']
      refine ⟨_, rfl, h.registry.handled hc.1 ((Server.clientAfter_socket c m now).trans hcs) hh,
        h.registry'.handled (by rw [h.openSockets]; exact hc.1) ((Server.clientAfter_socket c' m now).trans hcs') hh',
        ?_, ?_, ?_, ?_, rfl, h.lastIteration, by rw [h.log], fun u d d' hd hd' => ?_⟩
      · exact hh'.socket.trans (h.socket.trans hh.socket.symm)
      · exact hh'.openSockets.trans (h.openSockets.trans hh.openSockets.symm)
      · rw [hh'.sent, hh.sent, h.sent, hal.answersTo hr]
      · rw [Server.keys_handlePacket hget' hoff hp', Server.keys_handlePacket hget hoff hp, h.keys,
          Server.keys_putClientInHashmap h.keys s c c']
      · have hd := (hh.clients (key u)).symm.trans hd
        have hd' := (hh'.clients (key u)).symm.trans hd'
        by_cases hus : u = s
        · subst hus
          rw [if_pos rfl] at hd hd'
          cases hd
          cases hd'
          exact hal.clientAfter m now
        · have hkey : ¬ key u = key s := fun he => hus (key_inj.1 he)
          rw [if_neg hkey] at hd hd'
          exact (h.alike u d d' hd hd').handled_other (fun he => hus he.symm) _ _
  · cases hs

/-- What an iteration reads of the records of a socket, it reads alike in both runs. -/
theorem alike_iteration {log : List PingEvent} {s : Nat} {c c' : Client} (h : Alike log s c c') {now : Int}
    (ha : Known Activity s log) (hb : Known SetsBattery s log ∨ now - c.lastActivity ≤ pingTimeNormal) :
    Server.shouldPing c' now = Server.shouldPing c now ∧ Server.shouldKick c' now = Server.shouldKick c now := by
  have hl := h.lastActivity ha
  refine ⟨?_, by rw [Server.shouldKick, Server.shouldKick, hl]⟩
  rcases hb with hb | hearly
  · rw [Server.shouldPing, Server.shouldPing, hl, h.batteryState hb]
  · -- too early for a ping whatever the battery
    have hno : ∀ d : Client, d.lastActivity = c.lastActivity → Server.shouldPing d now = false := by
      intro d hd
      simp only [pingTimeNormal] at hearly
      simp only [Server.shouldPing, hd, pingTimeNormal, pingTimeLowBattery, decide_eq_false_iff_not]
      rintro (⟨-, hlate⟩ | ⟨-, hlate⟩)
      · omega
      · omega
    rw [hno c' hl, hno c rfl]

theorem Sim.record {p p' : PingThread} (h : Sim p p') {s : Nat} :
    (∃ c, p.server.getClientBySocket s = some c) ↔ ∃ c', p'.server.getClientBySocket s = some c' := by
  refine (h.registry.lookup_iff (key s)).trans (Iff.trans ?_ (h.registry'.lookup_iff (key s)).symm)
  rw [h.openSockets]

/-- The same sockets are kicked. -/
theorem sim_kicked {p p' : PingThread} (h : Sim p p') {now : Int} {srv srv' : Server}
    (hi : Server.Iterated p.server now srv) (hi' : Server.Iterated p'.server now srv')
    (hboth : ∀ s c c', p.server.getClientBySocket s = some c → p'.server.getClientBySocket s = some c' →
      Server.shouldKick c' now = Server.shouldKick c now) :
    p'.server.openSockets \ srv'.openSockets = p.server.openSockets \ srv.openSockets := by
  ext s
  rw [hi.kicked, hi'.kicked]
  constructor
  · rintro ⟨c', hget', hk⟩
    obtain ⟨c, hget⟩ := h.record.2 ⟨c', hget'⟩
    exact ⟨c, hget, by rw [← hboth s c c' hget hget']; exact hk⟩
  · rintro ⟨c, hget, hk⟩
    obtain ⟨c', hget'⟩ := h.record.1 ⟨c, hget⟩
    exact ⟨c', hget', by rw [hboth s c c' hget hget']; exact hk⟩

/-- The same pings are sent, in the same order. -/
theorem sim_pings {p p' : PingThread} (h : Sim p p') {now : Int}
    (hboth : ∀ s c c', p.server.getClientBySocket s = some c → p'.server.getClientBySocket s = some c' →
      Server.shouldPing c' now = Server.shouldPing c now) :
    Server.pings now p'.server.clients.entries = Server.pings now p.server.clients.entries := by
  rw [Server.pings_eq, Server.pings_eq, h.keys]
  refine List.flatMap_congr fun k hk => ?_
  obtain ⟨c, hc⟩ := Server.mem_clients_iff.1 (AList.mem_keys.2 hk)
  have hkey := h.registry.socket_key k c hc
  have hget : p.server.getClientBySocket c.socket = some c := by
    rw [Server.getClientBySocket, ← hkey]
    exact hc
  obtain ⟨c', hget'⟩ := h.record.1 ⟨c, hget⟩
  have hc' : p'.server.clients.lookup k = some c' := by
    rw [hkey]
    exact hget'
  rw [hc, hc', Option.elim_some, Option.elim_some, hboth _ c c' hget hget', (h.alike _ c c' hget hget').socket]

theorem sim_iteration {p p' q : PingThread} (h : Sim p p') {now : Int} (hr : ReadsWritten p (.iteration now))
    (hs : step p (.iteration now) = some q) : ∃ q', step p' (.iteration now) = some q' ∧ Sim q q' := by
  simp only [step] at hs ⊢
  rw [h.clock]
  split at hs
  · rename_i hc
    cases hs
    rw [if_pos hc]
    have hi := Server.iterated h.registry now
    have hi' := Server.iterated h.registry' now
    have hboth : ∀ s c c', p.server.getClientBySocket s = some c → p'.server.getClientBySocket s = some c' →
        Server.shouldPing c' now = Server.shouldPing c now ∧ Server.shouldKick c' now = Server.shouldKick c now :=
      fun s c c' hget hget' => alike_iteration (h.alike s c c' hget hget') (hr s c hget).1 (hr s c hget).2
    have hkicked := sim_kicked h hi hi' fun s c c' hget hget' => (hboth s c c' hget hget').2
    have hpings := sim_pings h fun s c c' hget hget' => (hboth s c c' hget hget').1
    have hsent : ((p'.server.pingAll now).kickAll now).sent = ((p.server.pingAll now).kickAll now).sent := by
      rw [hi'.sent, hi.sent, h.sent, hpings]
    have hopen : ((p'.server.pingAll now).kickAll now).openSockets =
        ((p.server.pingAll now).kickAll now).openSockets := by
      rw [← Finset.sdiff_sdiff_eq_self hi'.subset, ← Finset.sdiff_sdiff_eq_self hi.subset, hkicked, h.openSockets]
    refine ⟨_, rfl, hi.registry, hi'.registry, hi'.socket.trans (h.socket.trans hi.socket.symm), hopen, hsent, ?_, rfl,
      rfl, ?_, fun s c c' hget hget' => ?_⟩
    · refine eq_of_sublist_of_mem_iff (l := p.server.clients.keys) p.server.clients.keys_nodup ?_ ?_ fun k => ?_
      · rw [← h.keys]
        have hkeys : (p'.server.pingAll now).clients.keys = p'.server.clients.keys := by rw [Server.pingAll_eq]
        rw [← hkeys]
        exact Server.keys_kickAll_sublist _ now
      · have hkeys : (p.server.pingAll now).clients.keys = p.server.clients.keys := by rw [Server.pingAll_eq]
        rw [← hkeys]
        exact Server.keys_kickAll_sublist _ now
      · rw [← AList.mem_keys, ← AList.mem_keys, hi'.registry.mem_iff, hi.registry.mem_iff, hopen]
    · simp only [hsent, hkicked, h.log, h.sent]
    · refine (h.alike s c c' (hi.left s c hget).1 (hi'.left s c' hget').1).concat ?_ ?_ ?_
      · rintro ⟨_, he⟩
        cases he
      · rintro (⟨_, he⟩ | ⟨_, he⟩) <;> cases he
      · rintro ⟨_, _, he, -⟩
        cases he
  · cases hs

/-- **One step keeps the runs alike**, when what it reads has been written. -/
theorem sim_step {p p' q : PingThread} (h : Sim p p') {a a' : PingLabel} (ha : SameButMalloc a a')
    (hr : ReadsWritten p a) (hs : step p a = some q) : ∃ q', step p' a' = some q' ∧ Sim q q' := by
  rcases ha with rfl | ⟨s, fresh, fresh', rfl, rfl⟩
  · cases a' with
    | accept s fresh => exact sim_accept h fresh hs
    | packet s m now => exact sim_packet h hr hs
    | eof s => exact sim_eof h hs
    | iteration now => exact sim_iteration h hr hs
  · exact sim_accept h fresh' hs

theorem sim_run : ∀ {as as' : List PingLabel} {p p' q : PingThread}, Sim p p' →
    List.Forall₂ SameButMalloc as as' → Along step ReadsWritten p as → run step p as = some q →
    ∃ q', run step p' as' = some q' ∧ Sim q q'
  | [], _, p, p', q, h, hsame, _, hrun => by
    cases hsame
    cases hrun
    exact ⟨p', rfl, h⟩
  | a :: as, _, p, p', q, h, hsame, hr, hrun => by
    cases hsame with
    | cons ha has =>
      obtain ⟨u, hu, hrun⟩ := run_cons_some.1 hrun
      obtain ⟨hra, hras⟩ := (along_cons_some hu).1 hr
      obtain ⟨u', hu', hsim⟩ := sim_step h ha hra hu
      obtain ⟨q', hq', hsim'⟩ := sim_run hsim has hras hrun
      exact ⟨q', run_cons_some.2 ⟨u', hu', hq'⟩, hsim'⟩

/-- **The leftover contents of the heap do not show**, in a run whose every read of a record's member finds it written
since the accept: with other contents the same labels are enabled, the same messages go to the same sockets, and every
iteration pings and kicks the same clients at the same time. -/
theorem same_without_leftovers {socket : Nat} {clock : Int} {as as' : List PingLabel} {p : PingThread}
    (hsame : List.Forall₂ SameButMalloc as as') (hr : Along step ReadsWritten (init socket clock) as)
    (hrun : run step (init socket clock) as = some p) :
    ∃ p', run step (init socket clock) as' = some p' ∧ p'.server.sent = p.server.sent ∧ p'.log = p.log ∧
      p'.server.openSockets = p.server.openSockets := by
  obtain ⟨p', hrun', hsim⟩ := sim_run (sim_init socket clock) hsame hr hrun
  exact ⟨p', hrun', hsim.sent, hsim.log, hsim.openSockets⟩

/-- A client accepted with `leftover` in its record asks, requests and is pinged. -/
def asks (leftover : Int16) : List PingLabel :=
  [.accept 5 ⟨leftover, 0, 0, 0, .ok, 0⟩, .packet 5 (SMessage.mk .randomAccessRequest fun _ => 0) 0,
    .packet 5 (SMessage.mk .rrcRequest fun _ => 0) 0]

theorem same_without_leftovers_asks :
    ∃ p p', run step (init 3 0) (asks 0 ++ [.iteration 6]) = some p ∧
      run step (init 3 0) (asks 1 ++ [.iteration 6]) = some p' ∧ p'.server.sent = p.server.sent ∧ p'.log = p.log := by
  have hrun : run step (init 3 0) (asks 0 ++ [.iteration 6]) =
      some (finish step (init 3 0) (asks 0 ++ [.iteration 6])) := run_finish (by decide +kernel)
  have hbefore : Along step ReadsWritten (init 3 0) ((([] ++ [PingLabel.accept 5 ⟨0, 0, 0, 0, .ok, 0⟩]) ++
      [.packet 5 (SMessage.mk .randomAccessRequest fun _ => 0) 0]) ++
      [.packet 5 (SMessage.mk .rrcRequest fun _ => 0) 0]) := by
    refine along_concat.2 ⟨along_concat.2 ⟨along_concat.2 ⟨trivial, fun _ _ => trivial⟩, fun q _ hm => by cases hm⟩, ?_⟩
    rintro q ⟨⟩ -
    exact ⟨[_], _, [], rfl, ⟨0, rfl⟩, fun e he => by cases he⟩
  have hr : Along step ReadsWritten (init 3 0) (asks 0 ++ [.iteration 6]) := by
    refine along_concat.2 ⟨hbefore, fun q hq s c hget => ?_⟩
    have hq' : q = finish step (init 3 0) (asks 0) := by rw [finish, hq]; rfl
    have hkeys : (finish step (init 3 0) (asks 0)).server.clients.keys = [key 5] := by decide +kernel
    have hs : key s ∈ q.server.clients.keys := AList.mem_keys.1 (Server.mem_clients_iff.2 ⟨c, hget⟩)
    rw [hq', hkeys, List.mem_singleton, key_inj] at hs
    subst hs
    rw [hq']
    exact ⟨⟨[_], _, [_], rfl, .inl ⟨0, rfl⟩, fun e he => by cases List.mem_singleton.1 he; simp⟩,
      .inl ⟨[_], _, [_], rfl, ⟨_, 0, rfl, .inl rfl⟩, fun e he => by cases List.mem_singleton.1 he; simp⟩⟩
  have hsame : List.Forall₂ SameButMalloc (asks 0 ++ [.iteration 6]) (asks 1 ++ [.iteration 6]) :=
    .cons (.inr ⟨5, _, _, rfl, rfl⟩) (.cons (.inl rfl) (.cons (.inl rfl) (.cons (.inl rfl) .nil)))
  obtain ⟨p', hrun', hsent, hlog, -⟩ := same_without_leftovers hsame hr hrun
  exact ⟨_, p', hrun, hrun', hsent, hlog⟩

/-- An `rrc_request` without a `random_access_request` before it. -/
def requestsFirst (leftover : Int16) : List PingLabel :=
  [.accept 5 ⟨leftover, 0, 0, 0, .ok, 0⟩, .packet 5 (SMessage.mk .rrcRequest fun _ => 0) 0]

/-- **Its `rrc_setup` carries what `malloc` left.** -/
theorem leftover_rnti_sent :
    ∃ p p', List.Forall₂ SameButMalloc (requestsFirst 0) (requestsFirst 1) ∧
      run step (init 3 0) (requestsFirst 0) = some p ∧ run step (init 3 0) (requestsFirst 1) = some p' ∧
      p'.server.sent ≠ p.server.sent := by
  refine ⟨finish step (init 3 0) (requestsFirst 0), finish step (init 3 0) (requestsFirst 1), ?_,
    run_finish (by decide +kernel), run_finish (by decide +kernel), fun he => ?_⟩
  · exact .cons (.inr ⟨5, _, _, rfl, rfl⟩) (.cons (.inl rfl) .nil)
  · have hrnti := congrArg (fun sent => sent.map (fun x => x.2.messageValue.RNTI)) he
    exact absurd hrnti (by decide +kernel)

end PingThread

end Lte
