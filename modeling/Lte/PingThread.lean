import Lte.EventLoop
import Lte.Histories
/-!
# PingThread — the ping thread's iterations beside the main thread, on one clock

An iteration applies `ping_client` and then `handle_client_inactivity` to every record; between iterations the main
thread accepts, handles messages and ends of connections.  The log keeps what each iteration sent and which sockets it
closed.  The first iteration more than `PING_TIME_LOW_BATTERY` after a client's last activity pings it, whatever its
battery messages were, and one of the iterations up to `B` seconds later is that one: `kick_after_ping`.
-/
namespace Lte

open Runs Histories

namespace Server

/-- `hashmap_iter(server.clients, ping_client)` -/
def pingAll (srv : Server) (now : Int) : Server :=
  srv.clients.entries.foldl (fun srv e => srv.pingClient e.2 now) srv

/-- `handle_client_inactivity` applied to every record. -/
def kickAll (srv : Server) (now : Int) : Server :=
  srv.clients.entries.foldl (fun srv e => srv.handleClientInactivity e.2 now) srv

end Server

inductive PingEvent
  | accepted (socket : Nat)
  | handled (socket : Nat) (messageType : EMessageType) (now : Int)
  | iterated (now : Int) (sent : List (Nat × SMessage)) (kicked : Finset Nat)

structure PingThread where
  server : Server
  clock : Int
  lastIteration : Option Int
  log : List PingEvent

inductive PingLabel
  | accept (socket : Nat) (fresh : Client)
  | packet (socket : Nat) (m : SMessage) (now : Int)
  | eof (socket : Nat)
  | iteration (now : Int)

namespace PingThread

def step (p : PingThread) : PingLabel → Option PingThread
  | .accept socket fresh =>
    if socket ∉ p.server.openSockets ∧ socket ≠ p.server.socket ∧ socket < socketLimit then
      some { p with server := p.server.acceptClient socket fresh, log := p.log ++ [.accepted socket] }
    else none
  | .packet socket m now =>
    if socket ∈ p.server.openSockets ∧ p.clock ≤ now then
      match p.server.handlePacket socket m now with
      | none => none
      | some server =>
        some { p with server := server, clock := now, log := p.log ++ [.handled socket m.messageType now] }
    else none
  | .eof socket =>
    if socket ∈ p.server.openSockets then
      some { p with server := (p.server.close socket).deleteClientFromHashmap socket }
    else none
  | .iteration now =>
    if p.clock ≤ now then
      let server := (p.server.pingAll now).kickAll now
      some
        { server := server
          clock := now
          lastIteration := some now
          log := p.log ++ [.iterated now (server.sent.drop p.server.sent.length)
            (p.server.openSockets \ server.openSockets)] }
    else none

def init (socket : Nat) (clock : Int) : PingThread :=
  { server := Server.init socket, clock := clock, lastIteration := none, log := [] }

end PingThread

/-! ## The two passes of an iteration -/

namespace Server

def pingMessage : SMessage := { SMessage.zero with messageType := .ping }

theorem pingClient_eq (srv : Server) (c : Client) (now : Int) :
    srv.pingClient c now =
      { srv with sent := srv.sent ++ if shouldPing c now then [(c.socket, pingMessage)] else [] } := by
  unfold pingClient
  by_cases h : shouldPing c now = true
  · rw [if_pos h, if_pos h]
    rfl
  · rw [if_neg h, if_neg h, List.append_nil]

/-- The pings due among some entries. -/
def pings (now : Int) (es : List (Sigma fun _ : List Char => Client)) : List (Nat × SMessage) :=
  es.flatMap (fun e => if shouldPing e.2 now then [(e.2.socket, pingMessage)] else [])

theorem pingAll_eq (srv : Server) (now : Int) :
    srv.pingAll now = { srv with sent := srv.sent ++ pings now srv.clients.entries } := by
  unfold pingAll pings
  generalize srv.clients.entries = es
  induction es generalizing srv with
  | nil => simp
  | cons e es ih => rw [List.foldl_cons, ih, pingClient_eq, List.flatMap_cons, List.append_assoc]

theorem handleClientInactivity_sent (srv : Server) (c : Client) (now : Int) :
    (srv.handleClientInactivity c now).sent = srv.sent ∧ (srv.handleClientInactivity c now).socket = srv.socket := by
  unfold handleClientInactivity
  by_cases h : shouldKick c now = true
  · rw [if_pos h]
    exact ⟨rfl, rfl⟩
  · rw [if_neg h]
    exact ⟨rfl, rfl⟩

theorem RegistryInv.kick {srv : Server} (h : srv.RegistryInv) (c : Client) (now : Int) :
    (srv.handleClientInactivity c now).RegistryInv := by
  unfold handleClientInactivity
  split
  · exact h.drop c.socket
  · exact h

theorem mem_openSockets_kick (srv : Server) (c : Client) (now : Int) (s : Nat) :
    s ∈ (srv.handleClientInactivity c now).openSockets ↔
      s ∈ srv.openSockets ∧ (shouldKick c now = true → c.socket ≠ s) := by
  unfold handleClientInactivity
  by_cases hk : shouldKick c now = true
  · rw [if_pos hk]
    have hclose : ((srv.close c.socket).deleteClientFromHashmap c.socket).openSockets = srv.openSockets.erase c.socket := rfl
    rw [hclose, Finset.mem_erase, and_comm]
    exact and_congr_right' ⟨fun hne _ => hne.symm, fun hne => (hne hk).symm⟩
  · rw [if_neg hk]
    exact ⟨fun hs => ⟨hs, fun hk' => absurd hk' hk⟩, And.left⟩

theorem getClientBySocket_kick (srv : Server) (c : Client) (now : Int) (s : Nat) :
    (srv.handleClientInactivity c now).getClientBySocket s =
      if shouldKick c now = true ∧ c.socket = s then none else srv.getClientBySocket s := by
  unfold handleClientInactivity
  by_cases hk : shouldKick c now = true
  · rw [if_pos hk]
    unfold getClientBySocket
    rw [lookup_deleteClientFromHashmap]
    by_cases hs : c.socket = s
    · rw [if_pos (by rw [hs]), if_pos ⟨hk, hs⟩]
    · rw [if_neg (fun he => hs (key_inj.1 he).symm), if_neg (fun h => hs h.2)]
      rfl
  · rw [if_neg hk, if_neg (fun h => hk h.1)]

/-- What `handle_client_inactivity` applied to some entries makes of a server. -/
theorem kick_fold (now : Int) : ∀ (es : List (Sigma fun _ : List Char => Client)) {srv : Server}, srv.RegistryInv →
    (es.foldl (fun srv e => srv.handleClientInactivity e.2 now) srv).RegistryInv ∧
    (es.foldl (fun srv e => srv.handleClientInactivity e.2 now) srv).sent = srv.sent ∧
    (es.foldl (fun srv e => srv.handleClientInactivity e.2 now) srv).socket = srv.socket ∧
    (∀ s, s ∈ (es.foldl (fun srv e => srv.handleClientInactivity e.2 now) srv).openSockets ↔
      s ∈ srv.openSockets ∧ ∀ e ∈ es, shouldKick e.2 now = true → e.2.socket ≠ s) ∧
    ∀ s, (es.foldl (fun srv e => srv.handleClientInactivity e.2 now) srv).getClientBySocket s =
      if ∃ e ∈ es, shouldKick e.2 now = true ∧ e.2.socket = s then none else srv.getClientBySocket s
  | [], srv, h => ⟨h, rfl, rfl, fun s => by simp, fun s => by simp⟩
  | e :: es, srv, h => by
    obtain ⟨hreg, hsent, hsock, hopen, hget⟩ := kick_fold now es (h.kick e.2 now)
    obtain ⟨hsent', hsock'⟩ := handleClientInactivity_sent srv e.2 now
    rw [List.foldl_cons]
    refine ⟨hreg, hsent.trans hsent', hsock.trans hsock', fun s => ?_, fun s => ?_⟩
    · rw [hopen, mem_openSockets_kick, List.forall_mem_cons, and_assoc]
    · have hcons : (∃ d ∈ e :: es, shouldKick d.2 now = true ∧ d.2.socket = s) ↔
          (shouldKick e.2 now = true ∧ e.2.socket = s) ∨ ∃ d ∈ es, shouldKick d.2 now = true ∧ d.2.socket = s := by
        simp only [List.mem_cons, exists_eq_or_imp]
      rw [hget, getClientBySocket_kick]
      by_cases hes : ∃ d ∈ es, shouldKick d.2 now = true ∧ d.2.socket = s
      · rw [if_pos hes, if_pos (hcons.2 (.inr hes))]
      · rw [if_neg hes]
        exact if_congr (hcons.trans (or_iff_left hes)).symm rfl rfl

theorem mem_entries {srv : Server} {e : Sigma fun _ : List Char => Client} :
    e ∈ srv.clients.entries ↔ srv.clients.lookup e.1 = some e.2 := AList.mem_lookup_iff.symm

/-- The records to kick are those of the sockets to kick. -/
theorem kicked_iff {srv : Server} (h : srv.RegistryInv) {now : Int} {s : Nat} :
    (∃ e ∈ srv.clients.entries, shouldKick e.2 now = true ∧ e.2.socket = s) ↔
      ∃ c, srv.getClientBySocket s = some c ∧ shouldKick c now = true := by
  constructor
  · rintro ⟨e, he, hk, rfl⟩
    have hl := mem_entries.1 he
    refine ⟨e.2, ?_, hk⟩
    rw [getClientBySocket, ← h.socket_key _ _ hl]
    exact hl
  · rintro ⟨c, hc, hk⟩
    exact ⟨⟨key s, c⟩, mem_entries.2 hc, hk, (key_inj.1 (h.socket_key _ _ hc)).symm⟩

/-- What an iteration of the ping thread makes of a server. -/
structure Iterated (srv : Server) (now : Int) (srv' : Server) : Prop where
  registry : srv'.RegistryInv
  socket : srv'.socket = srv.socket
  sent : srv'.sent = srv.sent ++ pings now srv.clients.entries
  subset : srv'.openSockets ⊆ srv.openSockets
  kicked : ∀ s, s ∈ srv.openSockets \ srv'.openSockets ↔
    ∃ c, srv.getClientBySocket s = some c ∧ shouldKick c now = true
  left : ∀ s c, srv'.getClientBySocket s = some c → srv.getClientBySocket s = some c ∧ ¬ shouldKick c now = true

theorem iterated {srv : Server} (h : srv.RegistryInv) (now : Int) : Iterated srv now ((srv.pingAll now).kickAll now) := by
  rw [pingAll_eq]
  have hreg : RegistryInv { srv with sent := srv.sent ++ pings now srv.clients.entries } := h.of_same rfl rfl
  obtain ⟨hreg', hsent, hsock, hopen, hget⟩ := kick_fold now srv.clients.entries hreg
  refine ⟨hreg', hsock, hsent, fun s hs => ((hopen s).1 hs).1, fun s => ?_, fun s c hc => ?_⟩
  · rw [Finset.mem_sdiff, ← kicked_iff h]
    refine ⟨fun ⟨hs, hno⟩ => ?_, fun ⟨e, he, hk, hes⟩ => ⟨?_, fun hs => ((hopen s).1 hs).2 e he hk hes⟩⟩
    · by_contra hall
      exact hno ((hopen s).2 ⟨hs, fun e he hk hes => hall ⟨e, he, hk, hes⟩⟩)
    · obtain ⟨t, ht, hkey⟩ := (h.lookup_iff e.1).1 ⟨e.2, mem_entries.1 he⟩
      rw [h.socket_key _ _ (mem_entries.1 he), hes, key_inj] at hkey
      rw [hkey]
      exact ht
  · have hno : ¬ ∃ e ∈ srv.clients.entries, shouldKick e.2 now = true ∧ e.2.socket = s := by
      intro hyes
      have hnone := hget s
      rw [if_pos hyes] at hnone
      exact absurd (hnone.symm.trans hc) (by simp)
    have hsame := hget s
    rw [if_neg hno] at hsame
    have hc' : srv.getClientBySocket s = some c := hsame.symm.trans hc
    exact ⟨hc', fun hk => hno ((kicked_iff h).2 ⟨c, hc', hk⟩)⟩

theorem mem_pings {srv : Server} {now : Int} {s : Nat} {c : Client} (h : srv.RegistryInv)
    (hc : srv.getClientBySocket s = some c) (hp : shouldPing c now = true) :
    (s, pingMessage) ∈ pings now srv.clients.entries := by
  refine List.mem_flatMap.2 ⟨⟨key s, c⟩, mem_entries.2 hc, ?_⟩
  rw [if_pos hp, key_inj.1 (h.socket_key _ _ hc)]
  exact List.mem_singleton_self _

end Server

/-! ## No kick without a timely ping -/

namespace PingThread

/-- Iterations start at `t₁` and are at most `B` seconds apart. -/
def Timed (t₁ B : Int) (p : PingThread) : PingLabel → Prop
  | .iteration now =>
    match p.lastIteration with
    | none => now = t₁
    | some t => now - t ≤ B
  | _ => True

/-- What `last_activity` stands for. -/
def Activity (s : Nat) (e : PingEvent) : Prop :=
  (∃ now, e = .handled s .randomAccessRequest now) ∨ ∃ now, e = .handled s .pong now

/-- A `random_access_request` of the client now on socket `s` was handled at or after `t₁`. -/
def AskedFrom (t₁ : Int) (s : Nat) (log : List PingEvent) : Prop :=
  Since (fun e => ∃ now, t₁ ≤ now ∧ e = .handled s .randomAccessRequest now) (fun e => e ≠ .accepted s) log

/-- An iteration, at a time with `P`, sent socket `s` a ping, and there was no activity of `s` since. -/
def Pinged (P : Int → Prop) (s : Nat) (log : List PingEvent) : Prop :=
  Since (fun e => ∃ now sent kicked, e = .iterated now sent kicked ∧ (s, Server.pingMessage) ∈ sent ∧ P now)
    (fun e => ¬ Activity s e) log

theorem Pinged.mono {P Q : Int → Prop} {s : Nat} {log : List PingEvent} (h : Pinged P s log)
    (hPQ : ∀ t, P t → Q t) : Pinged Q s log := by
  obtain ⟨pre, e, post, hlog, ⟨now, sent, kicked, he, hping, hP⟩, hpost⟩ := h
  exact ⟨pre, e, post, hlog, ⟨now, sent, kicked, he, hping, hPQ now hP⟩, hpost⟩

/-- What is known of the record of a client that has asked at or after `t₁`. -/
structure Watched (t₁ B : Int) (p : PingThread) (s : Nat) (c : Client) : Prop where
  listed : c.batteryState = .ok ∨ c.batteryState = .low
  after : t₁ ≤ c.lastActivity
  active : c.lastActivity ≤ p.clock
  pinged : ∀ t ∈ p.lastIteration, t - c.lastActivity > pingTimeLowBattery →
    Pinged (fun tj => tj ≤ c.lastActivity + pingTimeLowBattery + B) s p.log

/-- A kick of `s` at `tk` was not without a ping. -/
def Warned (t₁ B : Int) (h : List PingEvent) (e : PingEvent) : Prop :=
  ∀ tk sent kicked s, e = .iterated tk sent kicked → s ∈ kicked → AskedFrom t₁ s h →
    Pinged (fun tj => tk - tj > pingTimeout - pingTimeLowBattery - B) s h

structure Inv (t₁ B : Int) (p : PingThread) : Prop where
  registry : p.server.RegistryInv
  clock : ∀ t ∈ p.lastIteration, t ≤ p.clock
  watched : ∀ s c, p.server.getClientBySocket s = some c → AskedFrom t₁ s p.log → Watched t₁ B p s c
  warned : Each (Warned t₁ B) p.log

/-- A client in sight of an iteration has been, or is now, pinged in time when its last activity is long past. -/
theorem Watched.pinged_at {t₁ B : Int} {p : PingThread} {s : Nat} {c : Client} {now : Int} (h : Watched t₁ B p s c)
    (ht : Timed t₁ B p (.iteration now)) (hpast : now - c.lastActivity > pingTimeLowBattery) :
    Pinged (fun tj => tj ≤ c.lastActivity + pingTimeLowBattery + B) s p.log ∨
      now ≤ c.lastActivity + pingTimeLowBattery + B := by
  unfold Timed at ht
  cases hl : p.lastIteration with
  | none =>
    -- the first iteration is not after the request
    rw [hl] at ht
    have hafter := h.after
    simp only [pingTimeLowBattery] at hpast
    omega
  | some t =>
    rw [hl] at ht
    by_cases hpast' : t - c.lastActivity > pingTimeLowBattery
    · exact .inl (h.pinged t hl hpast')
    · refine .inr ?_
      have hgap : now - t ≤ B := ht
      omega

theorem Watched.shouldPing {t₁ B : Int} {p : PingThread} {s : Nat} {c : Client} {now : Int} (h : Watched t₁ B p s c)
    (hpast : now - c.lastActivity > pingTimeLowBattery) : Server.shouldPing c now = true := by
  unfold Server.shouldPing
  simp only [pingTimeLowBattery] at hpast
  rcases h.listed with hb | hb
  · simp only [hb, pingTimeNormal, decide_eq_true_iff]
    left
    exact ⟨trivial, by omega⟩
  · simp only [hb, pingTimeLowBattery, decide_eq_true_iff]
    right
    exact ⟨trivial, hpast⟩

theorem askedFrom_concat {t₁ : Int} {s : Nat} {log : List PingEvent} {e : PingEvent} :
    AskedFrom t₁ s (log ++ [e]) ↔
      (∃ now, t₁ ≤ now ∧ e = .handled s .randomAccessRequest now) ∨ (AskedFrom t₁ s log ∧ e ≠ .accepted s) :=
  since_concat

theorem Pinged.concat {P : Int → Prop} {s : Nat} {log : List PingEvent} {e : PingEvent} (h : Pinged P s log)
    (he : ¬ Activity s e) : Pinged P s (log ++ [e]) := Since.keep h he

theorem inv_init (socket : Nat) (t₀ t₁ B : Int) : Inv t₁ B (init socket t₀) where
  registry := Server.registryInv_init socket
  clock t ht := by cases ht
  watched s c hc _ := by simp [init, Server.init, Server.getClientBySocket] at hc
  warned := each_nil

theorem warned_concat {t₁ B : Int} {h : List PingEvent} {e : PingEvent} (hw : Each (Warned t₁ B) h)
    (he : ∀ tk sent kicked, e ≠ .iterated tk sent kicked) : Each (Warned t₁ B) (h ++ [e]) :=
  each_concat.2 ⟨hw, fun tk sent kicked _ he' => absurd he' (he tk sent kicked)⟩

theorem inv_accept {t₁ B : Int} {p p' : PingThread} (h : Inv t₁ B p) {s : Nat} {fresh : Client}
    (hs : step p (.accept s fresh) = some p') : Inv t₁ B p' := by
  simp only [step] at hs
  split at hs
  · cases hs
    refine ⟨h.registry.accept s fresh, h.clock, fun u c hc hask => ?_, warned_concat h.warned (by simp)⟩
    rcases askedFrom_concat.1 hask with ⟨now, -, he⟩ | ⟨hask, hne⟩
    · cases he
    · have hus : ¬ key u = key s := by
        rw [key_inj]
        rintro rfl
        exact hne rfl
      have hc' : p.server.getClientBySocket u = some c := by
        have hget := hc
        unfold Server.acceptClient Server.getClientBySocket at hget
        rw [Server.lookup_putClientInHashmap, if_neg hus] at hget
        exact hget
      have hw := h.watched u c hc' hask
      refine ⟨hw.listed, hw.after, hw.active, fun t ht hpast => (hw.pinged t ht hpast).concat ?_⟩
      rintro (⟨now, he⟩ | ⟨now, he⟩) <;> cases he
  · cases hs

theorem inv_eof {t₁ B : Int} {p p' : PingThread} (h : Inv t₁ B p) {s : Nat} (hs : step p (.eof s) = some p') :
    Inv t₁ B p' := by
  simp only [step] at hs
  split at hs
  · cases hs
    refine ⟨h.registry.drop s, h.clock, fun u c hc hask => ?_, h.warned⟩
    have hc' : p.server.getClientBySocket u = some c := by
      unfold Server.getClientBySocket at hc ⊢
      rw [Server.lookup_deleteClientFromHashmap] at hc
      split at hc
      · cases hc
      · exact hc
    have hw := h.watched u c hc' hask
    exact ⟨hw.listed, hw.after, hw.active, hw.pinged⟩
  · cases hs

/-- Whoever asked before a message, or by it, may be in sight. -/
theorem askedFrom_handled {t₁ : Int} {s : Nat} {log : List PingEvent} {mt : EMessageType} {now : Int}
    (h : AskedFrom t₁ s (log ++ [.handled s mt now])) : (mt = .randomAccessRequest ∧ t₁ ≤ now) ∨ AskedFrom t₁ s log := by
  rcases askedFrom_concat.1 h with ⟨now', hle, he⟩ | ⟨hask, -⟩
  · simp only [PingEvent.handled.injEq] at he
    exact .inl ⟨he.2.1, by rw [he.2.2]; exact hle⟩
  · exact .inr hask

theorem not_activity {s u : Nat} {mt : EMessageType} {now : Int}
    (h : u = s → mt ≠ .randomAccessRequest ∧ mt ≠ .pong) : ¬ Activity s (.handled u mt now) := by
  rintro (⟨_, he⟩ | ⟨_, he⟩)
  · simp only [PingEvent.handled.injEq] at he
    exact (h he.1).1 he.2.1
  · simp only [PingEvent.handled.injEq] at he
    exact (h he.1).2 he.2.1

section
variable {t₁ B : Int} {p p' : PingThread} {s : Nat} {c c' : Client} {mt : EMessageType} {now : Int}

/-- A client whose activity was just handled. -/
theorem watched_active (h : Inv t₁ B p) (hnow : p.clock ≤ now) (hlast : p'.lastIteration = p.lastIteration)
    (hclock : p'.clock = now) (hb : c'.batteryState = .ok ∨ c'.batteryState = .low) (hl : c'.lastActivity = now)
    (hafter : t₁ ≤ now) : Watched t₁ B p' s c' := by
  refine ⟨hb, by rw [hl]; exact hafter, by rw [hl, hclock], fun t ht hpast => ?_⟩
  rw [hlast] at ht
  rw [hl] at hpast
  have hle := h.clock t ht
  simp only [pingTimeLowBattery] at hpast
  omega

/-- A client with no activity since. -/
theorem watched_quiet (hw : Watched t₁ B p s c) {e : PingEvent} (hnow : p.clock ≤ p'.clock)
    (hlast : p'.lastIteration = p.lastIteration) (hlog : p'.log = p.log ++ [e]) (he : ¬ Activity s e)
    (hb : c'.batteryState = .ok ∨ c'.batteryState = .low) (hl : c'.lastActivity = c.lastActivity) :
    Watched t₁ B p' s c' := by
  refine ⟨hb, by rw [hl]; exact hw.after, ?_, fun t ht hpast => ?_⟩
  · rw [hl]
    exact Int.le_trans hw.active hnow
  · rw [hlast] at ht
    rw [hl] at hpast
    rw [hl, hlog]
    exact (hw.pinged t ht hpast).concat he

end

/-- The sender of a message, after it. -/
theorem watched_sender {t₁ B : Int} {p p' : PingThread} (h : Inv t₁ B p) {s : Nat} {c : Client} {m : SMessage}
    {now : Int} (hc : p.server.getClientBySocket s = some c) (hnow : p.clock ≤ now)
    (hlast : p'.lastIteration = p.lastIteration) (hclock : p'.clock = now)
    (hlog : p'.log = p.log ++ [.handled s m.messageType now]) (hask : AskedFrom t₁ s p'.log) :
    Watched t₁ B p' s (Server.clientAfter c m now) := by
  have hle : p.clock ≤ p'.clock := by rw [hclock]; exact hnow
  rw [hlog] at hask
  have hold : m.messageType ≠ .randomAccessRequest → Watched t₁ B p s c := fun hra =>
    h.watched s c hc ((askedFrom_handled hask).resolve_left fun hyes => hra hyes.1)
  have hquiet : ∀ c' : Client, m.messageType ≠ .randomAccessRequest → m.messageType ≠ .pong →
      (c'.batteryState = .ok ∨ c'.batteryState = .low) → c'.lastActivity = c.lastActivity → Watched t₁ B p' s c' :=
    fun c' hra hpong hb hl => watched_quiet (hold hra) hle hlast hlog (not_activity fun _ => ⟨hra, hpong⟩) hb hl
  unfold Server.clientAfter
  cases hm : m.messageType with
  | randomAccessRequest =>
    have hafter : t₁ ≤ now := by
      rcases askedFrom_handled hask with ⟨-, hle⟩ | hask
      · exact hle
      · exact Int.le_trans (h.watched s c hc hask).after (Int.le_trans (h.watched s c hc hask).active hnow)
    exact watched_active h hnow hlast hclock (.inl rfl) rfl hafter
  | pong =>
    have hw := hold (by rw [hm]; decide)
    exact watched_active h hnow hlast hclock hw.listed rfl (Int.le_trans hw.after (Int.le_trans hw.active hnow))
  | ueBatteryLow => exact hquiet _ (by rw [hm]; decide) (by rw [hm]; decide) (.inr rfl) rfl
  | ueBatteryHigh => exact hquiet _ (by rw [hm]; decide) (by rw [hm]; decide) (.inl rfl) rfl
  | _ =>
    have hw := hold (by rw [hm]; simp)
    exact hquiet _ (by rw [hm]; simp) (by rw [hm]; simp) hw.listed rfl

theorem inv_packet {t₁ B : Int} {p p' : PingThread} (h : Inv t₁ B p) {s : Nat} {m : SMessage} {now : Int}
    (hs : step p (.packet s m now) = some p') : Inv t₁ B p' := by
  simp only [step] at hs
  split at hs
  · rename_i hc
    obtain ⟨c, hget, hcs⟩ := h.registry.record hc.1
    have hclock : ∀ t ∈ p.lastIteration, t ≤ now := fun t ht => Int.le_trans (h.clock t ht) hc.2
    have hw : Each (Warned t₁ B) (p.log ++ [.handled s m.messageType now]) := warned_concat h.warned (by simp)
    -- a client other than the sender is as it was
    have hother : ∀ (srv' : Server) (u : Nat) (d : Client), u ≠ s → p.server.getClientBySocket u = some d →
        AskedFrom t₁ u (p.log ++ [.handled s m.messageType now]) →
        Watched t₁ B { p with
          server := srv', clock := now, log := p.log ++ [.handled s m.messageType now] } u d := by
      intro srv' u d hus hd hask
      rcases askedFrom_concat.1 hask with ⟨_, _, he⟩ | ⟨hask, -⟩
      · simp only [PingEvent.handled.injEq] at he
        exact absurd he.1.symm hus
      · have hwd := h.watched u d hd hask
        exact watched_quiet hwd hc.2 rfl rfl (not_activity fun he => absurd he.symm hus) hwd.listed rfl
    by_cases hoff : m.messageType = .ueOff
    · simp only [Server.handlePacket_ueOff _ _ _ hoff, Option.some.injEq] at hs
      subst hs
      refine ⟨h.registry.drop s, hclock, fun u d hd hask => ?_, hw⟩
      have hus : ¬ key u = key s := by
        intro he
        unfold Server.getClientBySocket at hd
        rw [Server.lookup_deleteClientFromHashmap, if_pos he] at hd
        cases hd
      unfold Server.getClientBySocket at hd
      rw [Server.lookup_deleteClientFromHashmap, if_neg hus] at hd
      exact hother _ u d (fun he => hus (by rw [he])) hd hask
    · obtain ⟨srv', hp, hh⟩ := Server.handlePacket_handled hget m now hoff
      rw [hp] at hs
      cases hs
      refine ⟨h.registry.handled hc.1 ((Server.clientAfter_socket c m now).trans hcs) hh, hclock, fun u d hd hask => ?_,
        hw⟩
      have hd' := (hh.clients (key u)).symm.trans hd
      by_cases hus : u = s
      · subst hus
        rw [if_pos rfl] at hd'
        cases hd'
        exact watched_sender h hget hc.2 rfl rfl rfl hask
      · rw [if_neg fun he => hus (key_inj.1 he)] at hd'
        exact hother _ u d hus hd' hask
  · cases hs

theorem inv_iteration {t₁ B : Int} (hB : B < pingTimeout - pingTimeLowBattery) {p p' : PingThread} (h : Inv t₁ B p)
    {now : Int} (ht : Timed t₁ B p (.iteration now)) (hs : step p (.iteration now) = some p') : Inv t₁ B p' := by
  simp only [step] at hs
  split at hs
  · rename_i hnow
    cases hs
    have hi := Server.iterated h.registry now
    have hdrop : ((p.server.pingAll now).kickAll now).sent.drop p.server.sent.length =
        Server.pings now p.server.clients.entries := by
      rw [hi.sent, List.drop_left]
    refine ⟨hi.registry, fun t ht => ?_, fun s c hc hask => ?_, each_concat.2 ⟨h.warned, ?_⟩⟩
    · cases ht
      exact Int.le_refl _
    · obtain ⟨hget, -⟩ := hi.left s c hc
      have hask' : AskedFrom t₁ s p.log := by
        rcases askedFrom_concat.1 hask with ⟨_, _, he⟩ | ⟨hask, -⟩
        · cases he
        · exact hask
      have hw := h.watched s c hget hask'
      refine ⟨hw.listed, hw.after, Int.le_trans hw.active hnow, fun t ht' hpast => ?_⟩
      cases ht'
      rcases hw.pinged_at ht hpast with hp | hle
      · refine hp.concat ?_
        rintro (⟨_, he⟩ | ⟨_, he⟩) <;> cases he
      · refine since_here ⟨now, _, _, rfl, ?_, hle⟩
        rw [hdrop]
        exact Server.mem_pings h.registry hget (hw.shouldPing hpast)
    · intro tk sent kicked s he hk hask
      cases he
      obtain ⟨c, hget, hkick⟩ := (hi.kicked s).1 hk
      have hw := h.watched s c hget hask
      simp only [Server.shouldKick, decide_eq_true_iff] at hkick
      simp only [pingTimeout, pingTimeLowBattery] at hB hkick ⊢
      rcases hw.pinged_at ht (by simp only [pingTimeLowBattery]; omega) with hp | hle
      · exact hp.mono fun tj htj => by simp only [pingTimeLowBattery] at htj; omega
      · simp only [pingTimeLowBattery] at hle
        omega
  · cases hs

theorem inv_step {t₁ B : Int} (hB : B < pingTimeout - pingTimeLowBattery) {p p' : PingThread} {a : PingLabel}
    (h : Inv t₁ B p) (ht : Timed t₁ B p a) (hs : step p a = some p') : Inv t₁ B p' := by
  cases a with
  | accept s fresh => exact inv_accept h hs
  | packet s m now => exact inv_packet h hs
  | eof s => exact inv_eof h hs
  | iteration now => exact inv_iteration hB h ht hs

/-- **No kick without a timely ping.**  Whenever an iteration at `tk` closes the socket of a client that has asked at or
after the first iteration, an earlier iteration `tj` sent it a ping, with no activity of it since, and it had more than
`PING_TIMEOUT - PING_TIME_LOW_BATTERY - B` seconds to answer. -/
theorem kick_after_ping {socket : Nat} {t₀ t₁ B : Int} (hB : B < pingTimeout - pingTimeLowBattery)
    {as : List PingLabel} {p : PingThread} (hrun : run step (init socket t₀) as = some p)
    (htimed : Along step (Timed t₁ B) (init socket t₀) as) {pre post : List PingEvent} {tk : Int}
    {sent : List (Nat × SMessage)} {kicked : Finset Nat} {s : Nat}
    (hlog : p.log = pre ++ .iterated tk sent kicked :: post) (hk : s ∈ kicked) (hask : AskedFrom t₁ s pre) :
    ∃ before tj sent' kicked' after, pre = before ++ .iterated tj sent' kicked' :: after ∧
      (s, Server.pingMessage) ∈ sent' ∧ (∀ e ∈ after, ¬ Activity s e) ∧
      tk - tj > pingTimeout - pingTimeLowBattery - B := by
  have hinv : Inv t₁ B p :=
    run_inv_along (fun q a q' hq ht hs => inv_step hB hq ht hs) (inv_init socket t₀ t₁ B) htimed hrun
  obtain ⟨before, e, after, hpre, ⟨tj, sent', kicked', rfl, hping, hlate⟩, hquiet⟩ :=
    hinv.warned pre _ post hlog tk sent kicked s rfl hk hask
  exact ⟨before, tj, sent', kicked', after, hpre, hping, hquiet, hlate⟩

instance (t₁ B : Int) (p : PingThread) (a : PingLabel) : Decidable (Timed t₁ B p a) := by
  unfold Timed
  cases a with
  | iteration now => cases p.lastIteration <;> infer_instance
  | _ => infer_instance

/-- A client asks, is pinged and does not answer; the next iteration kicks it. -/
def silent : List PingLabel :=
  [.accept 5 ⟨0, 0, 0, 0, .ok, 0⟩, .iteration 0, .packet 5 (SMessage.mk .randomAccessRequest fun _ => 0) 0,
    .iteration 2100]

theorem kick_after_ping_silent :
    ∃ p pre sent kicked, run step (init 3 0) (silent ++ [.iteration 4200]) = some p ∧
      p.log = pre ++ [.iterated 4200 sent kicked] ∧ 5 ∈ kicked ∧
      ∃ before tj sent' kicked' after, pre = before ++ .iterated tj sent' kicked' :: after ∧
        (5, Server.pingMessage) ∈ sent' ∧ (∀ e ∈ after, ¬ Activity 5 e) ∧
        4200 - tj > pingTimeout - pingTimeLowBattery - 2100 := by
  have hrun : run step (init 3 0) (silent ++ [.iteration 4200]) =
      some (finish step (init 3 0) (silent ++ [.iteration 4200])) := run_finish (by decide +kernel)
  obtain ⟨q, hq, hs⟩ := run_concat_some.1 hrun
  have hq' : q = finish step (init 3 0) silent := by rw [finish, hq]; rfl
  have hask : AskedFrom 0 5 q.log := by
    rw [hq']
    exact ⟨[_, _], _, [_], rfl, ⟨0, Int.le_refl 0, rfl⟩, fun e he => by cases List.mem_singleton.1 he; simp⟩
  have hlog : ∃ sent kicked, (finish step (init 3 0) (silent ++ [.iteration 4200])).log =
      q.log ++ [.iterated 4200 sent kicked] ∧ 5 ∈ kicked := by
    rw [hq']
    exact ⟨_, _, rfl, by decide +kernel⟩
  obtain ⟨sent, kicked, hlog, hk⟩ := hlog
  exact ⟨_, q.log, sent, kicked, hrun, hlog, hk, kick_after_ping (by decide) hrun (by decide +kernel) hlog hk hask⟩

end PingThread

end Lte
