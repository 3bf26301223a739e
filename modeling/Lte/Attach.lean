import Lte.Network
/-!
# Attach — one connection while its UE attaches

Two sides of the connection: what the UE has written and received at each control point (`Pursues`), and how far the
server has answered what was written (`Served`).  Both hold at every step of the UE and of the server, and between them
decide what the two `recv` calls of the attach find (`ConnInv.response`, `ConnInv.setup`).
-/
namespace Lte

/-! ## The two sides of a connection -/

/-- What the UE has done at each control point of the attach. -/
def Pursues (c : Conn) : Prop :=
  match c.pc with
  | .sendPrachPreamble => c.written = [] ∧ c.got = 0 ∧ c.ue.received = .zero
  | .receivePrachResponse =>
    c.written = [c.ue.message] ∧ c.ue.message.messageType = .randomAccessRequest ∧ c.got = 0 ∧ c.ue.received = .zero
  | .sendRrcConnectionRequest => ∃ pre, c.written = [pre] ∧ pre.messageType = .randomAccessRequest ∧ c.got = 1
  | .receiveRrcSetup =>
    ∃ pre req, c.written = [pre, req] ∧ pre.messageType = .randomAccessRequest ∧ req.messageType = .rrcRequest ∧
      c.got = 1
  | _ => True

/-- How far the server has answered: not at all, the preamble `pre`, or the preamble and the request. -/
inductive Served (srv : Server) (c : Conn) : Prop
  | unanswered (handled : c.handled = 0) (down : c.down = [])
  | answered (pre resp : SMessage) (written : c.written.head? = some pre) (handled : c.handled = 1)
      (down : c.down = [resp]) (type : resp.messageType = .randomAccessResponse)
      (rapid : resp.messageValue.rapid = valueExpected pre.messageValue.raRnti)
      (recorded : ∀ s, c.link = .accepted s →
        ∃ r, srv.getClientBySocket s = some r ∧ r.rnti = pre.messageValue.raRnti)
  | setUp (pre req resp setup : SMessage) (rest : List SMessage) (written : c.written = [pre, req])
      (handled : c.handled = 2) (down : c.down = resp :: setup :: rest) (type : setup.messageType = .rrcSetup)
      (rnti : setup.messageValue.RNTI = pre.messageValue.raRnti.toInt32)

/-- A connection and the server: its socket is open while it has one, nothing was answered before it had one, and
both sides of the attach. -/
structure ConnInv (srv : Server) (c : Conn) : Prop where
  isOpen : ∀ s, c.link = .accepted s → s ∈ srv.openSockets
  unserved : c.link = .unconnected ∨ c.link = .queued → c.handled = 0 ∧ c.down = []
  pursues : Pursues c
  got : c.pc.attaching = true → c.got ≤ c.down.length
  served : c.pc.attaching = true → Served srv c

/-- While a UE attaches it has written at most its preamble and its request, in this order. -/
theorem Pursues.written {c : Conn} (h : Pursues c) (ha : c.pc.attaching = true) :
    c.written = [] ∨ (∃ pre, c.written = [pre] ∧ pre.messageType = .randomAccessRequest) ∨
      ∃ pre req, c.written = [pre, req] ∧ pre.messageType = .randomAccessRequest ∧ req.messageType = .rrcRequest := by
  unfold Pursues at h
  split at h
  · exact .inl h.1
  · exact .inr (.inl ⟨_, h.1, h.2.1⟩)
  · obtain ⟨pre, h1, h2, -⟩ := h
    exact .inr (.inl ⟨pre, h1, h2⟩)
  · obtain ⟨pre, req, h1, h2, h3, -⟩ := h
    exact .inr (.inr ⟨pre, req, h1, h2, h3⟩)
  · rename_i h1 h2 h3 h4
    revert ha
    cases hpc : c.pc <;> simp_all [MainPc.attaching]

/-- The server matters only through the record of the connection. -/
theorem Served.of_same {srv srv' : Server} {c : Conn} (h : Served srv c)
    (hsame : ∀ s, c.link = .accepted s → srv'.getClientBySocket s = srv.getClientBySocket s) : Served srv' c := by
  cases h with
  | unanswered h1 h2 => exact .unanswered h1 h2
  | answered pre resp h1 h2 h3 h4 h5 h6 =>
    refine .answered pre resp h1 h2 h3 h4 h5 (fun s hs => ?_)
    rw [hsame s hs]
    exact h6 s hs
  | setUp pre req resp setup rest h1 h2 h3 h4 h5 => exact .setUp pre req resp setup rest h1 h2 h3 h4 h5

/-! ## What the server does to the connection it serves -/

/-- The invariant of a connection that a step of the server did not concern. -/
theorem ConnInv.away {srv srv' : Server} {s : Nat} {out : List SMessage} {c : Conn} (h : ConnInv srv c)
    (hloc : Local srv s out srv') (hc : c.link ≠ .accepted s) : ConnInv srv' (c.deliver srv srv') := by
  have hne : ∀ t, c.link = .accepted t → t ≠ s := fun t ht e => hc (e ▸ ht)
  rw [Conn.deliver_away hloc hc h.isOpen]
  exact
    { isOpen := fun t ht => (hloc.openSockets t (hne t ht)).2 (h.isOpen t ht)
      unserved := h.unserved
      pursues := h.pursues
      got := h.got
      served := fun ha => (h.served ha).of_same (fun t ht => hloc.records t (hne t ht)) }

/-- The server closes the connection and sends nothing. -/
theorem ConnInv.closed {srv srv' : Server} {c : Conn} {k : Nat} (h : ConnInv srv c)
    (hk : c.pc.attaching = true → k = c.handled) : ConnInv srv' { c with handled := k, link := .closed } where
  isOpen s hs := by cases hs
  unserved hl := by rcases hl with hl | hl <;> cases hl
  pursues := h.pursues
  got := h.got
  served ha := by
    cases hk ha
    cases h.served ha with
    | unanswered h1 h2 => exact .unanswered h1 h2
    | answered pre resp h1 h2 h3 h4 h5 h6 => exact .answered pre resp h1 h2 h3 h4 h5 (fun s hs => by cases hs)
    | setUp pre req resp setup rest h1 h2 h3 h4 h5 => exact .setUp pre req resp setup rest h1 h2 h3 h4 h5

/-- **The server answers the next message of an attaching UE**: the preamble with the index the UE expects, the
request with the preamble's value out of the record. -/
theorem Served.handled {srv srv' : Server} {c : Conn} {s : Nat} {r : Client} {m : SMessage} {ms : List SMessage}
    {now : Int} (h : Served srv c) (hp : Pursues c) (ha : c.pc.attaching = true) (hl : c.link = .accepted s)
    (hr : srv.getClientBySocket s = some r) (hup : c.uplink = m :: ms)
    (hh : Server.Handled srv s (Server.clientAfter r m now) (Server.answersTo r m now) srv') :
    Served srv' { c with handled := c.handled + 1, down := c.down ++ Server.answersTo r m now } := by
  have hrec : srv'.getClientBySocket s = some (Server.clientAfter r m now) :=
    (hh.clients (key s)).trans (if_pos rfl)
  unfold Conn.uplink at hup
  cases h with
  | unanswered h1 h2 =>
    rw [h1, List.drop_zero] at hup
    have htype : m.messageType = .randomAccessRequest := by
      rcases hp.written ha with hw | ⟨pre, hw, ht⟩ | ⟨pre, req, hw, ht, -⟩
      · rw [hw] at hup
        cases hup
      · rw [hw] at hup
        cases hup
        exact ht
      · rw [hw] at hup
        cases hup
        exact ht
    refine .answered m ⟨.randomAccessResponse, (SMessage.zero.messageValue.setRapid
      (extractPreambleIndex m.messageValue.raRnti)).setUnixEpochTimestamp now⟩ ?_ ?_ ?_ rfl ?_ ?_
    · exact congrArg List.head? hup
    · simp only [h1]
    · simp only [h2, Server.answersTo, htype, List.nil_append]
    · rw [MessageValue.rapid_setUnixEpochTimestamp, MessageValue.rapid_setRapid]
      rfl
    · intro t ht
      have hts : t = s := by
        have e : Link.accepted t = .accepted s := ht.symm.trans hl
        injection e
      rw [hts]
      exact ⟨_, hrec, by simp only [Server.clientAfter, htype]⟩
  | answered pre resp h1 h2 h3 h4 h5 h6 =>
    -- the second message written is the request
    obtain ⟨req, hw, hm⟩ : ∃ req, c.written = [pre, req] ∧ m = req ∧ req.messageType = .rrcRequest := by
      rcases hp.written ha with hw | ⟨pre', hw, -⟩ | ⟨pre', req, hw, -, ht⟩
      · rw [hw] at h1
        cases h1
      · rw [hw, h2] at hup
        cases hup
      · rw [hw] at h1
        cases h1
        rw [hw, h2] at hup
        cases hup
        exact ⟨m, hw, rfl, ht⟩
    obtain ⟨rfl, htype⟩ := hm
    obtain ⟨r', hr', hrnti⟩ := h6 s hl
    have hsame : r' = r := by
      rw [hr] at hr'
      exact (Option.some.inj hr').symm
    refine .setUp pre m resp ⟨.rrcSetup, SMessage.zero.messageValue.setRrcResponse (generateRrcConfig r.rnti)⟩ [] hw
      ?_ ?_ rfl ?_
    · simp only [h2]
    · simp only [h3, Server.answersTo, htype, List.singleton_append]
    · rw [MessageValue.RNTI_setRrcResponse, ← hrnti, hsame]
      rfl
  | setUp pre req resp setup rest h1 h2 h3 h4 h5 =>
    rw [h1, h2] at hup
    cases hup

/-- A background message after the setup. -/
theorem Served.told {srv srv' : Server} {c : Conn} (h : Served srv c)
    (hset : ∃ m ∈ c.down, m.messageType = .rrcSetup) (out : List SMessage) :
    Served srv' { c with down := c.down ++ out } := by
  obtain ⟨m, hm, ht⟩ := hset
  cases h with
  | unanswered h1 h2 =>
    rw [h2] at hm
    cases hm
  | answered pre resp h1 h2 h3 h4 h5 h6 =>
    rw [h3] at hm
    rw [List.mem_singleton.1 hm, h4] at ht
    cases ht
  | setUp pre req resp setup rest h1 h2 h3 h4 h5 =>
    refine .setUp pre req resp setup (rest ++ out) h1 h2 ?_ h4 h5
    simp only [h3, List.cons_append]

/-- A message of the connection's own socket keeps the invariant; past the attach whatever it says. -/
theorem ConnInv.handled {srv srv' : Server} {c : Conn} {s : Nat} {r : Client} {m : SMessage} {ms : List SMessage}
    {now : Int} (h : ConnInv srv c) (hl : c.link = .accepted s) (hr : srv.getClientBySocket s = some r)
    (hup : c.uplink = m :: ms)
    (hh : Server.Handled srv s (Server.clientAfter r m now) (Server.answersTo r m now) srv') :
    ConnInv srv' { c with handled := c.handled + 1, down := c.down ++ Server.answersTo r m now } where
  isOpen t ht := hh.openSockets ▸ h.isOpen t ht
  unserved hu := by rcases hu with hu | hu <;> rw [hl] at hu <;> cases hu
  pursues := h.pursues
  got ha := by
    have := h.got ha
    simp only [List.length_append]
    omega
  served ha := (h.served ha).handled h.pursues ha hl hr hup hh

/-- An attaching UE writes nothing that closes its connection. -/
theorem Pursues.not_ueOff {c : Conn} (h : Pursues c) (ha : c.pc.attaching = true) {m : SMessage}
    {ms : List SMessage} (hup : c.uplink = m :: ms) : m.messageType ≠ .ueOff := by
  have hm : m ∈ c.written := List.mem_of_mem_drop (by rw [← Conn.uplink, hup]; exact List.mem_cons_self)
  intro ht
  rcases h.written ha with hw | ⟨pre, hw, h1⟩ | ⟨pre, req, hw, h1, h2⟩
  · rw [hw] at hm
    cases hm
  · rw [hw, List.mem_singleton] at hm
    rw [hm, h1] at ht
    cases ht
  · rw [hw] at hm
    rcases List.mem_cons.1 hm with rfl | hm
    · rw [h1] at ht
      cases ht
    · rw [List.mem_singleton.1 hm, h2] at ht
      cases ht

/-! ## What the UE receives -/

/-- A UE that waits for its response and has something to receive finds the response it expects. -/
theorem ConnInv.response {srv : Server} {c : Conn} (h : ConnInv srv c) (hpc : c.pc = .receivePrachResponse)
    {m : SMessage} (hm : c.next = some m) :
    m.messageType = .randomAccessResponse ∧ m.messageValue.rapid = valueExpected c.ue.message.messageValue.raRnti := by
  have hp := h.pursues
  simp only [Pursues, hpc] at hp
  obtain ⟨hw, -, hg, -⟩ := hp
  unfold Conn.next at hm
  cases h.served (by rw [hpc]; rfl) with
  | unanswered h1 h2 =>
    rw [h2] at hm
    cases hm
  | answered pre resp h1 h2 h3 h4 h5 h6 =>
    rw [hw] at h1
    rw [h3, hg] at hm
    cases h1
    cases hm
    exact ⟨h4, h5⟩
  | setUp pre req resp setup rest h1 h2 h3 h4 h5 =>
    rw [hw] at h1
    cases h1

/-- A UE that waits for its setup and has something to receive finds a setup with its own value. -/
theorem ConnInv.setup {srv : Server} {c : Conn} (h : ConnInv srv c) (hpc : c.pc = .receiveRrcSetup) {m : SMessage}
    (hm : c.next = some m) :
    m.messageType = .rrcSetup ∧ ∃ pre, c.written.head? = some pre ∧ pre.messageType = .randomAccessRequest ∧
      m.messageValue.RNTI = pre.messageValue.raRnti.toInt32 := by
  have hp := h.pursues
  simp only [Pursues, hpc] at hp
  obtain ⟨pre₀, req₀, hw, ht, -, hg⟩ := hp
  unfold Conn.next at hm
  cases h.served (by rw [hpc]; rfl) with
  | unanswered h1 h2 =>
    rw [h2] at hm
    cases hm
  | answered pre resp h1 h2 h3 h4 h5 h6 =>
    rw [h3, hg] at hm
    cases hm
  | setUp pre req resp setup rest h1 h2 h3 h4 h5 =>
    rw [h3, hg] at hm
    cases hm
    rw [hw] at h1
    cases h1
    exact ⟨h4, pre₀, by rw [hw]; rfl, ht, h5⟩

theorem receivePrachResponse_accepts {u : Ue} {m : SMessage} (ht : m.messageType = .randomAccessResponse)
    (hr : m.messageValue.rapid = valueExpected u.message.messageValue.raRnti) :
    (receivePrachResponse u (some m.bytes)).2 = 0 := by
  simp only [receivePrachResponse, SMessage.readInto_bytes, ht, Ue.call, hr, if_true]

theorem receivePrachResponse_written (u : Ue) (recv : Option (List UInt8)) :
    delivered (receivePrachResponse u recv).1.trace = delivered u.trace := by
  cases recv with
  | none => rfl
  | some bs =>
    unfold receivePrachResponse
    simp only
    split <;> simp [Ue.call, delivered]

/-- A response that is accepted is the only way on. -/
theorem attachStep_accepted {u : Ue} {recv : Option (List UInt8)} (h : (receivePrachResponse u recv).2 = 0) :
    attachStep .receivePrachResponse u (.prachResponse recv) =
      some (.sendRrcConnectionRequest, (receivePrachResponse u recv).1) := by
  simp [attachStep, h]

/-- The end of the connection leaves `received` as it is, which is no response. -/
theorem receivePrachResponse_end {u : Ue} (h : u.received = .zero) : (receivePrachResponse u (some [])).2 = 1 := by
  have hz : (SMessage.readInto .zero []).messageType = .randomAccessRequest := by
    rw [SMessage.readInto_nil]
    rfl
  simp [receivePrachResponse, h, hz]

/-! ## The steps of a UE -/

theorem Conn.attach_some {c c' : Conn} {a : AttachLabel} (h : c.attach a = some c') :
    c.link ≠ .unconnected ∧ c.ended = false ∧ c.Offers a ∧ ∃ pc ue, attachStep c.pc c.ue a = some (pc, ue) ∧
      c' = { c with ue := ue, pc := pc, got := if a.received.isSome then c.got + 1 else c.got } := by
  unfold attach at h
  split at h
  · rename_i hc
    split at h
    · cases h
    · rename_i pc ue hs
      exact ⟨hc.1, hc.2.1, hc.2.2, pc, ue, hs, (Option.some.inj h).symm⟩
  · cases h

theorem Pursues.of_left {c : Conn} (h : c.pc.attaching = false) : Pursues c := by
  unfold Pursues
  revert h
  cases c.pc <;> simp [MainPc.attaching]

/-- Nothing more is asked of a UE that leaves the attach. -/
theorem ConnInv.leave {srv : Server} {c : Conn} (h : ConnInv srv c) {ue : Ue} {pc : MainPc} (got : Nat)
    (hpc : pc.attaching = false) : ConnInv srv { c with ue := ue, pc := pc, got := got } where
  isOpen := h.isOpen
  unserved := h.unserved
  pursues := .of_left hpc
  got ha := by cases hpc.symm.trans ha
  served ha := by cases hpc.symm.trans ha

/-- A step of the attach that takes back nothing of what the UE wrote. -/
theorem ConnInv.advance {srv : Server} {c : Conn} (h : ConnInv srv c) (ha : c.pc.attaching = true) {ue : Ue}
    {pc : MainPc} {got : Nat} (hp : Pursues { c with ue := ue, pc := pc, got := got }) (hgot : got ≤ c.down.length)
    {ms : List SMessage} (hw : delivered ue.trace = c.written ++ ms) (hms : ms = [] ∨ c.written.length ≤ 1) :
    ConnInv srv { c with ue := ue, pc := pc, got := got } where
  isOpen := h.isOpen
  unserved := h.unserved
  pursues := hp
  got _ := hgot
  served _ := by
    cases h.served ha with
    | unanswered h1 h2 => exact .unanswered h1 h2
    | answered pre resp h1 h2 h3 h4 h5 h6 =>
      refine .answered pre resp ?_ h2 h3 h4 h5 h6
      rw [Conn.written, hw, List.head?_append, h1]
      rfl
    | setUp pre req resp setup rest h1 h2 h3 h4 h5 =>
      refine .setUp pre req resp setup rest ?_ h2 h3 h4 h5
      rcases hms with rfl | hms
      · rw [Conn.written, hw, List.append_nil, h1]
      · rw [h1] at hms
        simp at hms

theorem ConnInv.preamble {srv : Server} {c : Conn} (h : ConnInv srv c) (hpc : c.pc = .sendPrachPreamble) (raRnti : Int16) :
    ConnInv srv { c with ue := (sendPrachPreamble c.ue raRnti true).1, pc := .receivePrachResponse } := by
  have hp := h.pursues
  simp only [Pursues, hpc] at hp
  obtain ⟨hw, hg, hz⟩ := hp
  have hnew : delivered (sendPrachPreamble c.ue raRnti true).1.trace =
      c.written ++ [(sendPrachPreamble c.ue raRnti true).1.message] := by
    simp only [sendPrachPreamble, Ue.writeMessage, Ue.call, delivered_append, delivered_write, if_true]
    rfl
  refine h.advance (by rw [hpc]; rfl) ⟨?_, rfl, hg, hz⟩ (h.got (by rw [hpc]; rfl)) hnew (.inr ?_)
  · rw [Conn.written, hnew, hw, List.nil_append]
  · rw [hw]
    exact Nat.zero_le 1

theorem ConnInv.accepts {srv : Server} {c : Conn} (h : ConnInv srv c) (hpc : c.pc = .receivePrachResponse)
    {m : SMessage} (hm : c.next = some m) {ue : Ue} (hsame : delivered ue.trace = c.written) :
    ConnInv srv { c with ue := ue, pc := .sendRrcConnectionRequest, got := c.got + 1 } := by
  have hp := h.pursues
  simp only [Pursues, hpc] at hp
  obtain ⟨hw, ht, hg, -⟩ := hp
  have hlen : c.got < c.down.length := (List.getElem?_eq_some_iff.1 hm).1
  refine h.advance (by rw [hpc]; rfl) ⟨c.ue.message, ?_, ht, ?_⟩ hlen (by rw [hsame, List.append_nil]) (.inl rfl)
  · exact hsame.trans hw
  · simp only [hg]

theorem ConnInv.request {srv : Server} {c : Conn} (h : ConnInv srv c) (hpc : c.pc = .sendRrcConnectionRequest)
    (identity : SStmsi) :
    ConnInv srv { c with ue := (sendRrcConnectionRequest c.ue identity true).1, pc := .receiveRrcSetup } := by
  have hp := h.pursues
  simp only [Pursues, hpc] at hp
  obtain ⟨pre, hw, ht, hg⟩ := hp
  have hnew : delivered (sendRrcConnectionRequest c.ue identity true).1.trace =
      c.written ++ [(sendRrcConnectionRequest c.ue identity true).1.message] := by
    simp only [sendRrcConnectionRequest, Ue.writeMessage, Ue.call, delivered_append, delivered_write, if_true]
    rfl
  refine h.advance (by rw [hpc]; rfl) ⟨pre, (sendRrcConnectionRequest c.ue identity true).1.message, ?_, ht, rfl, hg⟩
    (h.got (by rw [hpc]; rfl)) hnew (.inr ?_)
  · rw [Conn.written, hnew, hw]
    rfl
  · rw [hw]
    exact Nat.le_refl 1

/-- **A step of its UE keeps the invariant of a connection.** -/
theorem ConnInv.attach {srv : Server} {c c' : Conn} {a : AttachLabel} (h : ConnInv srv c) (hs : c.attach a = some c') :
    ConnInv srv c' := by
  obtain ⟨-, -, hoff, pc, ue, hstep, rfl⟩ := Conn.attach_some hs
  cases a with
  | sendPreamble raRnti ok =>
    simp only [attachStep] at hstep
    split at hstep
    · rename_i hpc
      cases hstep
      cases ok with
      | false => exact h.leave _ rfl
      | true => exact h.preamble hpc raRnti
    · cases hstep
  | prachResponse recv =>
    simp only [attachStep] at hstep
    split at hstep
    · rename_i hpc
      have hp := h.pursues
      simp only [Pursues, hpc] at hp
      have hsame := receivePrachResponse_written c.ue recv
      have hend := receivePrachResponse_end hp.2.2.2
      have hok : ∀ m, c.next = some m → (receivePrachResponse c.ue (some m.bytes)).2 = 0 := by
        intro m hm
        obtain ⟨h1, h2⟩ := h.response hpc hm
        exact receivePrachResponse_accepts h1 h2
      rcases hoff with hn | ⟨hn, hb⟩ | ⟨-, -, hb⟩
      · simp only [AttachLabel.received] at hn
        subst hn
        cases hstep
        exact h.leave _ rfl
      · obtain ⟨m, hm⟩ := Option.ne_none_iff_exists'.1 hn
        simp only [AttachLabel.received, hm, Option.map_some] at hb
        have hst := hok m hm
        rw [← hb] at hst
        simp only [hst, Option.some.injEq, Prod.mk.injEq] at hstep
        obtain ⟨rfl, rfl⟩ := hstep
        have hsome : (AttachLabel.prachResponse recv).received.isSome = true := by rw [AttachLabel.received, hb]; rfl
        rw [if_pos hsome]
        exact h.accepts hpc hm hsame
      · simp only [AttachLabel.received] at hb
        rw [← hb] at hend
        simp only [hend, Option.some.injEq, Prod.mk.injEq] at hstep
        obtain ⟨rfl, rfl⟩ := hstep
        exact h.leave _ rfl
    · cases hstep
  | sendRequest identity ok =>
    simp only [attachStep] at hstep
    split at hstep
    · rename_i hpc
      cases hstep
      cases ok with
      | false => exact h.leave _ rfl
      | true => exact h.request hpc identity
    · cases hstep
  | setup recv ok =>
    simp only [attachStep] at hstep
    split at hstep
    · cases hstep
      exact h.leave _ rfl
    · cases hstep

/-! ## The end of the attach -/

/-- The call does not fail. -/
def AttachLabel.Works : AttachLabel → Prop
  | sendPreamble _ ok => ok = true
  | prachResponse recv => recv ≠ none
  | sendRequest _ ok => ok = true
  | setup recv ok => recv ≠ none ∧ ok = true

instance (a : AttachLabel) : Decidable a.Works := by
  unfold AttachLabel.Works
  cases a <;> infer_instance

/-- The UE has not left its attach, or has sent `rrc_complete`. -/
def Conn.Completes (c : Conn) : Prop :=
  c.pc.attaching = true ∨ ∃ m ∈ c.written, m.messageType = .rrcComplete

/-- A UE that receives its setup answers it. -/
theorem receiveRrcSetup_completes {u : Ue} {m : SMessage} (ht : m.messageType = .rrcSetup) :
    ∃ m' ∈ delivered (receiveRrcSetup u (some m.bytes) true).1.trace, m'.messageType = .rrcComplete := by
  refine ⟨⟨.rrcComplete, (m.messageValue.setMcc 234).setMnc 15⟩, ?_, rfl⟩
  simp only [receiveRrcSetup, SMessage.readInto_bytes, sendRrcSetupComplete, Ue.call, ht, if_true, delivered_append,
    delivered_write]
  exact List.mem_append_right _ (List.mem_singleton.2 rfl)

/-- **An attach whose calls do not fail** goes on, or ends with `rrc_complete` sent. -/
theorem ConnInv.completes {srv : Server} {c c' : Conn} {a : AttachLabel} (h : ConnInv srv c)
    (hs : c.attach a = some c') (hw : a.Works) (hl : c.link ≠ .closed) : c'.Completes := by
  obtain ⟨-, -, hoff, pc, ue, hstep, rfl⟩ := Conn.attach_some hs
  have hnext : ∀ recv, a.received = some recv → ∃ m, c.next = some m ∧ recv = m.bytes := by
    intro recv hr
    rcases hoff with hn | ⟨hn, hb⟩ | ⟨-, hb, -⟩
    · rw [hr] at hn
      cases hn
    · obtain ⟨m, hm⟩ := Option.ne_none_iff_exists'.1 hn
      rw [hr, hm, Option.map_some, Option.some.injEq] at hb
      exact ⟨m, hm, hb⟩
    · exact absurd hb hl
  cases a with
  | sendPreamble raRnti ok =>
    cases hw
    simp only [attachStep] at hstep
    split at hstep
    · cases hstep
      exact .inl rfl
    · cases hstep
  | prachResponse recv =>
    obtain ⟨bs, rfl⟩ := Option.ne_none_iff_exists'.1 hw
    obtain ⟨m, hm, rfl⟩ := hnext bs rfl
    by_cases hpc : c.pc = .receivePrachResponse
    · obtain ⟨h1, h2⟩ := h.response hpc hm
      rw [hpc, attachStep_accepted (receivePrachResponse_accepts h1 h2)] at hstep
      injection hstep with hstep
      injection hstep with hnew
      left
      rw [← hnew]
      rfl
    · rw [attachStep, if_neg hpc] at hstep
      cases hstep
  | sendRequest identity ok =>
    cases hw
    simp only [attachStep] at hstep
    split at hstep
    · cases hstep
      exact .inl rfl
    · cases hstep
  | setup recv ok =>
    obtain ⟨hr, rfl⟩ := hw
    obtain ⟨bs, rfl⟩ := Option.ne_none_iff_exists'.1 hr
    obtain ⟨m, hm, rfl⟩ := hnext bs rfl
    by_cases hpc : c.pc = .receiveRrcSetup
    · have hsent := receiveRrcSetup_completes (u := c.ue) (h.setup hpc hm).1
      rw [attachStep, if_pos hpc] at hstep
      injection hstep with hstep
      injection hstep with _ hue
      rw [hue] at hsent
      exact .inr hsent
    · rw [attachStep, if_neg hpc] at hstep
      cases hstep

/-! ## The life of a connection -/

theorem ConnInv.connect {srv : Server} {c : Conn} (h : ConnInv srv c) (hl : c.link = .unconnected) :
    ConnInv srv { c with link := .queued } where
  isOpen s hs := by cases hs
  unserved _ := h.unserved (.inl hl)
  pursues := h.pursues
  got := h.got
  served _ := .unanswered (h.unserved (.inl hl)).1 (h.unserved (.inl hl)).2

theorem ConnInv.accept {srv srv' : Server} {c : Conn} (h : ConnInv srv c) (hl : c.link = .queued) {s : Nat}
    (hs : s ∈ srv'.openSockets) : ConnInv srv' { c with link := .accepted s } where
  isOpen t ht := by
    injection ht with ht
    exact ht ▸ hs
  unserved hu := by rcases hu with hu | hu <;> cases hu
  pursues := h.pursues
  got := h.got
  served _ := .unanswered (h.unserved (.inr hl)).1 (h.unserved (.inr hl)).2

theorem ConnInv.hangUp {srv : Server} {c : Conn} (h : ConnInv srv c) : ConnInv srv { c with ended := true } where
  isOpen := h.isOpen
  unserved := h.unserved
  pursues := h.pursues
  got := h.got
  served ha := by
    cases h.served ha with
    | unanswered h1 h2 => exact .unanswered h1 h2
    | answered pre resp h1 h2 h3 h4 h5 h6 => exact .answered pre resp h1 h2 h3 h4 h5 h6
    | setUp pre req resp setup rest h1 h2 h3 h4 h5 => exact .setUp pre req resp setup rest h1 h2 h3 h4 h5

theorem ConnInv.told {srv srv' : Server} {c : Conn} (h : ConnInv srv c) {s : Nat} (hl : c.link = .accepted s)
    (hopen : srv'.openSockets = srv.openSockets) (hclients : srv'.clients = srv.clients) {out : List SMessage}
    (hset : out ≠ [] → c.pc.attaching = true → ∃ m ∈ c.down, m.messageType = .rrcSetup) :
    ConnInv srv' { c with down := c.down ++ out } where
  isOpen t ht := hopen ▸ h.isOpen t ht
  unserved hu := by rcases hu with hu | hu <;> rw [hl] at hu <;> cases hu
  pursues := h.pursues
  got ha := by
    have := h.got ha
    simp only [List.length_append]
    omega
  served ha := by
    by_cases hout : out = []
    · rw [hout, List.append_nil]
      refine (h.served ha).of_same (fun s _ => ?_)
      rw [Server.getClientBySocket, hclients]
      rfl
    · exact (h.served ha).told (hset hout ha) out

end Lte
