import Lte.Attach
/-!
# AttachRuns — the attach of every UE in every run of the network

A step of the server concerns the connection under one socket (`inv_after`), so the invariant of each connection is
the invariant of the network.  The two `recv` calls of an attach take whatever comes next, so all of it rests on the
background threads sending a UE nothing before its setup (`Quiet`); one measurement control request sent right after
the accept ends the attach (`attach_broken`).
-/
namespace Lte

open Runs

namespace Net

variable {n : Nat}

/-- A background thread sends an attaching UE nothing before the server has sent it its setup. -/
def Quiet (net : Net n) : NetLabel n → Prop
  | .background key b =>
    ∀ c ∈ net.server.clients.lookup key, b.sends c = true →
      ∀ i, (net.conns i).link = .accepted c.socket → (net.conns i).pc.attaching = true →
        ∃ m ∈ (net.conns i).down, m.messageType = .rrcSetup
  | _ => True

instance (net : Net n) (a : NetLabel n) : Decidable (Quiet net a) := by
  unfold Quiet
  cases a <;> infer_instance

structure Inv (net : Net n) : Prop where
  registry : net.server.RegistryInv
  distinct : ∀ i j s, (net.conns i).link = .accepted s → (net.conns j).link = .accepted s → i = j
  conn : ∀ i, ConnInv net.server (net.conns i)

theorem inv_start {net : Net n} (h : Start net) : Inv net where
  registry := by
    obtain ⟨socket, hs⟩ := h.server
    rw [hs]
    exact Server.registryInv_init socket
  distinct i j s hi _ := by
    rw [h.link i] at hi
    cases hi
  conn i := by
    obtain ⟨r, now, hue⟩ := h.ue i
    refine ⟨?_, fun _ => ⟨h.handled i, h.down i⟩, ?_, fun _ => ?_, fun _ => .unanswered (h.handled i) (h.down i)⟩
    · intro s hs
      rw [h.link i] at hs
      cases hs
    · rcases h.pc i with hpc | hpc
      · simp only [Pursues, hpc]
        refine ⟨?_, h.got i, ?_⟩
        · rw [Conn.written, hue]
          rfl
        · rw [hue]
          rfl
      · exact .of_left (by rw [hpc]; rfl)
    · rw [h.got i]
      exact Nat.zero_le _

/-- A change of one connection that gives it no socket. -/
theorem Inv.setConn {net : Net n} (h : Inv net) {i : Fin n} {c : Conn} (hl : ∀ s, c.link = .accepted s →
    (net.conns i).link = .accepted s) (hc : ConnInv net.server c) : Inv (net.setConn i c) where
  registry := h.registry
  distinct j k s hj hk := by
    have hlink : ∀ j, ((net.setConn i c).conns j).link = .accepted s → (net.conns j).link = .accepted s := by
      intro j hj
      simp only [Net.setConn, Function.update_apply] at hj
      split at hj
      · rename_i e
        exact e ▸ hl s hj
      · exact hj
    exact h.distinct j k s (hlink j hj) (hlink k hk)
  conn j := by
    simp only [Net.setConn, Function.update_apply]
    split
    · exact hc
    · exact h.conn j

/-- **A step of the server** concerns the connection under one socket, which is all there is to check. -/
theorem inv_after {net : Net n} {srv' : Server} {s : Nat} {out : List SMessage} (hreg : srv'.RegistryInv)
    (hloc : Local net.server s out srv')
    (hdist : ∀ i j t, (net.conns i).link = .accepted t → (net.conns j).link = .accepted t → i = j)
    (haway : ∀ i, (net.conns i).link ≠ .accepted s → ConnInv net.server (net.conns i))
    (hat : ∀ i, (net.conns i).link = .accepted s →
      ConnInv srv' { net.conns i with
        down := (net.conns i).down ++ out
        link := if s ∈ srv'.openSockets then .accepted s else .closed }) :
    Inv (net.after srv') where
  registry := hreg
  distinct i j t hi hj := hdist i j t (Conn.link_of_deliver hi) (Conn.link_of_deliver hj)
  conn i := by
    by_cases hl : (net.conns i).link = .accepted s
    · have := hat i hl
      rw [← Conn.deliver_at hloc hl] at this
      exact this
    · exact (haway i hl).away hloc hl

theorem setConn_apply (net : Net n) (i j : Fin n) (c : Conn) :
    (net.setConn i c).conns j = if j = i then c else net.conns j := Function.update_apply _ _ _ _

theorem inv_accept {net : Net n} (h : Inv net) {i : Fin n} {s : Nat} (hl : (net.conns i).link = .queued)
    (hs : s ∉ net.server.openSockets) (fresh : Client) :
    Inv ((net.setConn i { net.conns i with link := .accepted s }).after (net.server.acceptClient s fresh)) := by
  have hnew : s ∈ (net.server.acceptClient s fresh).openSockets := Finset.mem_insert_self s _
  have hnone : ∀ j, (net.conns j).link ≠ .accepted s := fun j hj => hs ((h.conn j).isOpen s hj)
  refine inv_after (h.registry.accept s fresh) (local_accept net.server s fresh) ?_ ?_ ?_
  · intro j k t hj hk
    rw [setConn_apply] at hj hk
    split at hj
    · rename_i e
      split at hk
      · rename_i e'
        rw [e, e']
      · injection hj with hj
        exact absurd hk (hj ▸ hnone k)
    · split at hk
      · injection hk with hk
        exact absurd hj (hk ▸ hnone j)
      · exact h.distinct j k t hj hk
  · intro j hj
    rw [setConn_apply] at hj ⊢
    split
    · rename_i e
      rw [if_pos e] at hj
      exact absurd rfl hj
    · exact h.conn j
  · intro j hj
    rw [setConn_apply] at hj ⊢
    by_cases e : j = i
    · rw [if_pos e, if_pos hnew, List.append_nil]
      exact (h.conn i).accept hl hnew
    · rw [if_neg e] at hj
      exact absurd hj (hnone j)

/-- The server serves the connection `i`, which becomes `c`. -/
theorem inv_served {net : Net n} (h : Inv net) {i : Fin n} {s : Nat} {c : Conn} {out : List SMessage} {srv' : Server}
    (hl : (net.conns i).link = .accepted s) (hcl : c.link = .accepted s) (hreg : srv'.RegistryInv)
    (hloc : Local net.server s out srv')
    (hc : ConnInv srv' { c with
      down := c.down ++ out
      link := if s ∈ srv'.openSockets then .accepted s else .closed }) :
    Inv ((net.setConn i c).after srv') := by
  have hlink : ∀ j, ((net.setConn i c).conns j).link = (net.conns j).link := by
    intro j
    rw [setConn_apply]
    split
    · rename_i e
      rw [e, hcl, hl]
    · rfl
  refine inv_after hreg hloc ?_ ?_ ?_
  · intro j k t hj hk
    rw [hlink] at hj hk
    exact h.distinct j k t hj hk
  · intro j hj
    rw [hlink] at hj
    rw [setConn_apply, if_neg (fun e : j = i => hj (e ▸ hl))]
    exact h.conn j
  · intro j hj
    rw [hlink] at hj
    rw [setConn_apply, if_pos (h.distinct j i s hj hl)]
    exact hc

/-- The server closes the connection it serves, at its end or on `ue_off`. -/
theorem inv_drop {net : Net n} (h : Inv net) {i : Fin n} {s : Nat} {k : Nat} (hl : (net.conns i).link = .accepted s)
    (hk : (net.conns i).pc.attaching = true → k = (net.conns i).handled) :
    Inv ((net.setConn i { net.conns i with handled := k }).after
      ((net.server.close s).deleteClientFromHashmap s)) := by
  have hgone : s ∉ ((net.server.close s).deleteClientFromHashmap s).openSockets := Finset.notMem_erase s _
  refine inv_served h hl hl (h.registry.drop s) (local_drop net.server s) ?_
  rw [if_neg hgone, List.append_nil]
  exact (h.conn i).closed hk

/-- The server reads the next message of a connection. -/
theorem inv_serve {net : Net n} (h : Inv net) {i : Fin n} {s : Nat} {m : SMessage} {ms : List SMessage} {now : Int}
    {srv' : Server} (hl : (net.conns i).link = .accepted s) (hup : (net.conns i).uplink = m :: ms)
    (hp : net.server.parsePacket s (.bytes m.bytes) now = some srv') :
    Inv ((net.setConn i { net.conns i with handled := (net.conns i).handled + 1 }).after srv') := by
  simp only [Server.parsePacket, SMessage.readInto_bytes] at hp
  by_cases hoff : m.messageType = .ueOff
  · rw [Server.handlePacket_ueOff _ _ _ hoff, Option.some.injEq] at hp
    rw [← hp]
    exact inv_drop h hl (fun ha => absurd hoff ((h.conn i).pursues.not_ueOff ha hup))
  · have hopen := (h.conn i).isOpen s hl
    obtain ⟨r, hr, hrs⟩ := h.registry.record hopen
    obtain ⟨srv'', hp', hh⟩ := Server.handlePacket_handled hr m now hoff
    rw [hp, Option.some.injEq] at hp'
    subst hp'
    have hreg := h.registry.handled hopen ((Server.clientAfter_socket r m now).trans hrs) hh
    have hconn := (h.conn i).handled hl hr hup hh
    refine inv_served h hl hl hreg hh.isLocal ?_
    rw [if_pos (hh.openSockets.symm ▸ hopen), ← hl]
    exact hconn

theorem inv_background {net : Net n} (h : Inv net) {key : List Char} {c : Client} {b : Background}
    (hc : net.server.clients.lookup key = some c) (hq : Quiet net (.background key b)) :
    Inv (net.after (net.server.background c b)) := by
  obtain ⟨out, hloc, hsends, hopen, hclients, -⟩ := net.server.background_local c b
  refine inv_after (h.registry.of_same hopen hclients) hloc h.distinct (fun j _ => h.conn j) ?_
  intro j hj
  have hin : c.socket ∈ (net.server.background c b).openSockets := hopen ▸ (h.conn j).isOpen _ hj
  rw [if_pos hin, ← hj]
  exact (h.conn j).told hj hopen hclients (fun hout => hq c hc (hsends hout) j hj)

/-- **A step of the network keeps the invariant**, when the background threads are quiet. -/
theorem inv_step {net net' : Net n} {a : NetLabel n} (h : Inv net) (hq : Quiet net a) (hs : step net a = some net') :
    Inv net' := by
  cases step_cases hs with
  | connected hl => exact h.setConn (fun s hs => by cases hs) ((h.conn _).connect hl)
  | accepted hl hnew => exact inv_accept h hl hnew _
  | served hl hup hp => exact inv_serve h hl hup hp
  | @dropped i now s hl =>
    have hdrop := inv_drop (k := (net.conns i).handled) h hl (fun _ => rfl)
    have hsame : net.setConn i { net.conns i with handled := (net.conns i).handled } = net := by simp [Net.setConn]
    rwa [hsame] at hdrop
  | attached hc =>
    refine h.setConn (fun s hs => ?_) ((h.conn _).attach hc)
    obtain ⟨-, -, -, pc, ue, -, rfl⟩ := Conn.attach_some hc
    exact hs
  | wrote hleft => exact h.setConn (fun s hs => hs) ((h.conn _).leave _ hleft)
  | hungUp => exact h.setConn (fun s hs => hs) (h.conn _).hangUp
  | background hc => exact inv_background h hc hq

/-- **Attach without cross-talk.**  In every run whose background threads are quiet, a UE that has something to
receive as its response accepts it, and what it receives as its setup is a setup with the value it sent. -/
theorem attach_without_crosstalk {net₀ net : Net n} {as : List (NetLabel n)} (h₀ : Start net₀)
    (hq : Along step Quiet net₀ as) (hrun : run step net₀ as = some net) (i : Fin n) {m : SMessage}
    (hm : (net.conns i).next = some m) :
    ((net.conns i).pc = .receivePrachResponse →
      m.messageType = .randomAccessResponse ∧ (receivePrachResponse (net.conns i).ue (some m.bytes)).2 = 0) ∧
    ((net.conns i).pc = .receiveRrcSetup →
      m.messageType = .rrcSetup ∧ ∃ pre, (net.conns i).written.head? = some pre ∧
        pre.messageType = .randomAccessRequest ∧
        m.messageValue.RNTI.toInt = pre.messageValue.raRnti.toInt) := by
  have h := (run_inv_along (fun _ _ _ => inv_step) (inv_start h₀) hq hrun).conn i
  constructor
  · intro hpc
    obtain ⟨h1, h2⟩ := h.response hpc hm
    exact ⟨h1, receivePrachResponse_accepts h1 h2⟩
  · intro hpc
    obtain ⟨h1, pre, h2, h3, h4⟩ := h.setup hpc hm
    refine ⟨h1, pre, h2, h3, ?_⟩
    rw [h4, Int16.toInt_toInt32]

/-- Two UEs before their first write. -/
def twoUes : Net 2 :=
  { server := Server.init 3
    conns := fun _ =>
      { ue := Ue.start (fun _ => 50) 0, pc := .sendPrachPreamble, ended := false, link := .unconnected, handled := 0
        down := [], got := 0 } }

def ueA : Fin 2 := ⟨0, Nat.two_pos⟩
def ueB : Fin 2 := ⟨1, Nat.one_lt_two⟩

theorem start_twoUes : Start twoUes where
  server := ⟨3, rfl⟩
  ue _ := ⟨_, _, rfl⟩
  pc _ := .inl rfl
  link _ := rfl
  handled _ := rfl
  down _ := rfl
  got _ := rfl

def aRecord : Client := ⟨0, 0, 0, 0, .ok, 0⟩

def responseTo (raRnti : Int16) (now : Int) : SMessage :=
  ⟨.randomAccessResponse, (SMessage.zero.messageValue.setRapid (extractPreambleIndex raRnti)).setUnixEpochTimestamp now⟩

/-- Both attach at the same time, the second with a negative value. -/
def bothAttach : List (NetLabel 2) :=
  [.connect ueA, .connect ueB, .accept ueA 5 aRecord, .attach ueA (.sendPreamble 31 true), .attach ueB (.sendPreamble (-7) true),
    .accept ueB 6 aRecord, .serve ueB 9, .serve ueA 9, .attach ueA (.prachResponse (some (responseTo 31 9).bytes)),
    .attach ueB (.prachResponse (some (responseTo (-7) 9).bytes)), .attach ueA (.sendRequest ⟨1, 1⟩ true),
    .attach ueB (.sendRequest ⟨1, 1⟩ true), .serve ueA 9, .serve ueB 9]

theorem attach_without_crosstalk_both :
    ∃ m, ((finish step twoUes bothAttach).conns ueB).next = some m ∧ m.messageType = .rrcSetup ∧
      m.messageValue.RNTI.toInt = -7 := by
  have hrun : run step twoUes bothAttach = some (finish step twoUes bothAttach) := run_finish (by decide +kernel)
  have hsome : ((finish step twoUes bothAttach).conns ueB).next.isSome = true := by decide +kernel
  have hpc : ((finish step twoUes bothAttach).conns ueB).pc = .receiveRrcSetup := by decide +kernel
  have hhead : ((finish step twoUes bothAttach).conns ueB).written.head?.map (fun m => m.messageValue.raRnti.toInt) =
      some (-7) := by decide +kernel
  obtain ⟨m, hm⟩ := Option.isSome_iff_exists.1 hsome
  obtain ⟨h1, pre, h2, -, h3⟩ :=
    (attach_without_crosstalk start_twoUes (by decide +kernel) hrun ueB hm).2 hpc
  refine ⟨m, hm, h1, ?_⟩
  rw [h2, Option.map_some, Option.some.injEq] at hhead
  rw [h3, hhead]

/-- No write or `recv` of an attach fails, and the server has not closed the connection. -/
def Reliable (net : Net n) : NetLabel n → Prop
  | .attach i a => a.Works ∧ (net.conns i).link ≠ .closed
  | _ => True

instance (net : Net n) (a : NetLabel n) : Decidable (Reliable net a) := by
  unfold Reliable
  cases a <;> infer_instance

/-- Everything but an attaching UE leaves its control point, and what it has written stays written. -/
theorem completes_step {net net' : Net n} {a : NetLabel n} (h : Inv net) (hr : Reliable net a)
    (hs : step net a = some net') {i : Fin n} (hc : (net.conns i).Completes) : (net'.conns i).Completes := by
  have hdeliver : ∀ (m : Net n) (srv' : Server), (m.conns i).Completes → ((m.after srv').conns i).Completes := by
    intro m srv' hm
    simp only [after, Conn.deliver]
    split
    · exact hm
    · exact hm
  have hset : ∀ (j : Fin n) (c : Conn), (j = i → c.Completes) → ((net.setConn j c).conns i).Completes := by
    intro j c hj
    rw [setConn_apply]
    split
    · rename_i e
      exact hj e.symm
    · exact hc
  cases step_cases hs with
  | connected => exact hset _ _ (fun e => e ▸ hc)
  | accepted => exact hdeliver _ _ (hset _ _ (fun e => e ▸ hc))
  | served => exact hdeliver _ _ (hset _ _ (fun e => e ▸ hc))
  | dropped => exact hdeliver _ _ hc
  | @attached j a c hc' => exact hset j c (fun e => (h.conn j).completes hc' hr.1 hr.2)
  | @wrote j m =>
    refine hset j _ (fun e => ?_)
    subst e
    refine hc.imp_right (fun ⟨m', hm', ht⟩ => ⟨m', ?_, ht⟩)
    simp only [Conn.written, Ue.call, delivered_append]
    exact List.mem_append_left _ hm'
  | hungUp => exact hset _ _ (fun e => e ▸ hc)
  | background => exact hdeliver _ _ hc

/-- **Attach survives quiet background threads.**  In every run whose calls do not fail and whose background threads
send an attaching UE nothing before its setup, a UE that has left its attach has sent `rrc_complete`. -/
theorem attach_survives {net₀ net : Net n} {as : List (NetLabel n)} (h₀ : Start net₀)
    (hq : Along step Quiet net₀ as) (hr : Along step Reliable net₀ as) (hrun : run step net₀ as = some net)
    {i : Fin n} (hue : (net₀.conns i).pc = .sendPrachPreamble) (hleft : (net.conns i).pc.attaching = false) :
    ∃ m ∈ (net.conns i).written, m.messageType = .rrcComplete := by
  have hboth : Inv net ∧ (net.conns i).Completes := by
    have hinit : Inv net₀ ∧ (net₀.conns i).Completes := by
      refine ⟨inv_start h₀, .inl ?_⟩
      rw [hue]
      rfl
    exact run_inv_along (I := fun net => Inv net ∧ (net.conns i).Completes)
      (fun _ _ _ h hC hs => ⟨inv_step h.1 hC.1 hs, completes_step h.1 hC.2 hs h.2⟩) hinit (along_and hq hr) hrun
  rcases hboth.2 with h | h
  · cases hleft.symm.trans h
  · exact h

/-- A request of the measurement thread between the accept and the preamble. -/
def measuredEarly : List (NetLabel 2) :=
  [.connect ueA, .accept ueA 5 aRecord, .background (key 5) .measurementControlRequest, .attach ueA (.sendPreamble 31 true),
    .serve ueA 9,
    .attach ueA (.prachResponse (some (SMessage.mk .measurementControlRequest SMessage.zero.messageValue).bytes))]

/-- **An attach broken**: the UE takes the request for its response and returns from `main`, every call having
succeeded and its connection being open. -/
theorem attach_broken :
    Start twoUes ∧ run step twoUes measuredEarly = some (finish step twoUes measuredEarly) ∧
      Along step Reliable twoUes measuredEarly ∧
      ((finish step twoUes measuredEarly).conns ueA).pc = .returned ∧
      ((finish step twoUes measuredEarly).conns ueA).link = .accepted 5 ∧
      ∀ m ∈ ((finish step twoUes measuredEarly).conns ueA).written, m.messageType ≠ .rrcComplete :=
  ⟨start_twoUes, run_finish (by decide +kernel), by decide +kernel, by decide +kernel, by decide +kernel,
    by decide +kernel⟩

/-- The same request after the setup. -/
def measuredLate : List (NetLabel 2) :=
  [.connect ueA, .accept ueA 5 aRecord, .attach ueA (.sendPreamble 31 true), .serve ueA 9,
    .attach ueA (.prachResponse (some (responseTo 31 9).bytes)), .attach ueA (.sendRequest ⟨1, 1⟩ true), .serve ueA 9,
    .background (key 5) .measurementControlRequest,
    .attach ueA (.setup (some (SMessage.mk .rrcSetup (SMessage.zero.messageValue.setRrcResponse
      (generateRrcConfig 31))).bytes) true)]

theorem attach_survives_late :
    ∃ m ∈ ((finish step twoUes measuredLate).conns ueA).written, m.messageType = .rrcComplete := by
  exact attach_survives start_twoUes (by decide +kernel) (by decide +kernel) (run_finish (by decide +kernel)) rfl
    (by decide +kernel)

end Net

end Lte
