import Lte.Histories
import Lte.AttachRuns
import Lte.Transfer
/-!
# Download — a broadcast to a UE that may still be attaching

One UE and its connection, from the preamble to the receive loop, beside the server's accept, its handlers, its ping
and measurement threads and the transfer thread, which may start `broadcast_sample` for the client at any moment after
the accept.  A `data_start` that `receive_rrc_setup` takes for the setup is gone, and the loop, which is entered all the
same, writes the data to a file it never opened (`data_without_file`).  Any other `data_start` opens the file first.
-/
namespace Lte

open Runs Histories

/-- The server, the UE with its connection, and how many messages of its `broadcast_sample` have been sent. -/
structure Download where
  server : Server
  conn : Conn
  sent : Nat

inductive DownloadLabel
  | connect
  | accept (socket : Nat) (fresh : Client)
  | serve (now : Int)
  | ping (now : Int)
  | measurementControlRequest
  | transfer
  | attach (a : AttachLabel)
  | test
  | receive (recv : Option (List UInt8))
  | dispatch (env : DispatchEnv)
  | exit

/-- A `recv` with `MSG_DONTWAIT` finds nothing yet, or takes the next message, or finds the end of the connection. -/
def Conn.Delivers (c : Conn) (recv : Option (List UInt8)) : Prop :=
  recv = none ∨ (c.next ≠ none ∧ recv = c.next.map SMessage.bytes) ∨
    (c.next = none ∧ c.link = .closed ∧ recv = some [])

instance (c : Conn) (recv : Option (List UInt8)) : Decidable (c.Delivers recv) := by unfold Conn.Delivers; infer_instance

namespace Download

/-- The server became `srv'`. -/
def after (p : Download) (srv' : Server) : Download := { p with server := srv', conn := p.conn.deliver p.server srv' }

/-- A callback of a background thread on the record of the client. -/
def background (p : Download) (b : Background) : Option Download :=
  match p.conn.link with
  | .accepted s => (p.server.getClientBySocket s).map (fun c => p.after (p.server.background c b))
  | _ => none

/-- The main thread of the UE after a `recv`, or after what needs none. -/
def took (p : Download) (recv : Option (List UInt8)) (ue : Ue) (pc : MainPc) : Download :=
  { p with conn := { p.conn with ue := ue, pc := pc, got := if recv.isSome then p.conn.got + 1 else p.conn.got } }

variable (sample : List SMessage)

def step (p : Download) : DownloadLabel → Option Download
  | .connect =>
    if p.conn.link = .unconnected then some { p with conn := { p.conn with link := .queued } } else none
  | .accept socket fresh =>
    if p.conn.link = .queued ∧ socket ∉ p.server.openSockets ∧ socket ≠ p.server.socket ∧ socket < socketLimit then
      some ({ p with conn := { p.conn with link := .accepted socket } }.after (p.server.acceptClient socket fresh))
    else none
  | .serve now =>
    match p.conn.link with
    | .accepted s =>
      match p.conn.uplink with
      | m :: _ =>
        match p.server.parsePacket s (.bytes m.bytes) now with
        | none => none
        | some srv' => some ({ p with conn := { p.conn with handled := p.conn.handled + 1 } }.after srv')
      | [] =>
        if p.conn.ended = true then
          match p.server.parsePacket s .eof now with
          | none => none
          | some srv' => some (p.after srv')
        else none
    | _ => none
  | .ping now => p.background (.ping now)
  | .measurementControlRequest => p.background .measurementControlRequest
  | .transfer =>
    match p.conn.link, sample[p.sent]? with
    | .accepted s, some m =>
      (p.server.getClientBySocket s).map (fun c => { p.after (p.server.send c.socket m) with sent := p.sent + 1 })
    | _, _ => none
  | .attach a => (p.conn.attach a).map (fun c => { p with conn := c })
  | .test =>
    if p.conn.pc = .loopTest then
      if p.conn.ue.running then
        match checkForShutdown p.conn.ue with
        | (ue, off) => some (p.took none ue (if off then .join else .loopReceive))
      else some (p.took none p.conn.ue .join)
    else none
  | .receive recv =>
    if p.conn.pc = .loopReceive ∧ p.conn.Delivers recv then
      some (p.took recv (receiveMain p.conn.ue recv) .loopDispatch)
    else none
  | .dispatch env =>
    if p.conn.pc = .loopDispatch then
      some (p.took none (dispatch p.conn.ue env) .loopTest)
    else none
  | .exit => if p.conn.pc = .returned then some { p with conn := { p.conn with ended := true } } else none

/-- A server with no client, a UE before its first write, no broadcast begun. -/
structure Start (p : Download) : Prop where
  server : ∃ socket, p.server = Server.init socket
  ue : ∃ startRsrp now, p.conn.ue = Ue.start startRsrp now
  pc : p.conn.pc = .sendPrachPreamble
  link : p.conn.link = .unconnected
  down : p.conn.down = []
  got : p.conn.got = 0
  sent : p.sent = 0

/-- A `data_start`, data messages and a `data_end`, as `broadcast_sample` sends them
(`broadcast_of_broadcastSample`). -/
def Broadcast (start : MessageValue) (sample : List SMessage) : Prop :=
  ∃ (vs : List MessageValue) (stop : MessageValue),
    sample = ⟨.dataStart, start⟩ :: (vs.map (SMessage.mk .data) ++ [⟨.dataEnd, stop⟩])

/-- `receive_rrc_setup` does not take the `data_start`. -/
def SetupSpared (p : Download) : DownloadLabel → Prop
  | .attach (.setup recv _) => recv.isSome = true → ∀ m ∈ p.conn.next, m.messageType ≠ .dataStart
  | _ => True

instance (p : Download) (a : DownloadLabel) : Decidable (SetupSpared p a) := by
  unfold SetupSpared
  split <;> infer_instance

/-! ## What the loop needs of the file -/

/-- `file_to_recv` is the file of this name, opened by the last `fopen` and written to only since. -/
def HoldsOpen (name : List UInt8) (u : Ue) : Prop :=
  u.fileToRecv = .opened name ∧
    Since (fun c => c = UeCall.fopen name) (fun c => ∃ file bs, c = UeCall.fwrite file bs) (filing.answers u.trace)

/-- A `data` or a `data_end` the loop is about to handle finds the file of its transfer open. -/
def FindsOpen (start : MessageValue) (p : Download) : Prop :=
  p.conn.pc = .loopDispatch → p.conn.ue.message.messageType = .data ∨ p.conn.ue.message.messageType = .dataEnd →
    HoldsOpen (fileName start) p.conn.ue

/-- The transfer messages among those the UE has taken. -/
def taken (p : Download) : List SMessage := (p.conn.down.take p.conn.got).filter (fun m => m.messageType.isTransfer)

/-- After the transfer messages in `handled` the file is open, unless it is too early or all is over. -/
def FileAfter (start : MessageValue) (handled : List SMessage) (u : Ue) : Prop :=
  handled ≠ [] → handled.length < sample.length → HoldsOpen (fileName start) u

/-- The UE in its loop: what it has taken is handled, but for the message in its buffer before a dispatch. -/
def InLoop (start : MessageValue) (p : Download) : Prop :=
  (p.conn.pc = .loopTest ∨ p.conn.pc = .loopReceive →
    p.conn.ue.message.messageType.isTransfer = false ∧ FileAfter sample start p.taken p.conn.ue) ∧
  (p.conn.pc = .loopDispatch →
    (p.conn.ue.message.messageType.isTransfer = false ∧ FileAfter sample start p.taken p.conn.ue) ∨
    ∃ handled, p.taken = handled ++ [p.conn.ue.message] ∧ FileAfter sample start handled p.conn.ue)

structure Inv (start : MessageValue) (p : Download) : Prop where
  registry : p.server.RegistryInv
  isOpen : ∀ s, p.conn.link = .accepted s → s ∈ p.server.openSockets
  down : p.conn.down.filter (fun m => m.messageType.isTransfer) = sample.take p.sent
  sent : p.sent ≤ sample.length
  got : p.conn.link ≠ .closed → p.conn.got ≤ p.conn.down.length
  attaching : p.conn.pc.attaching = true → p.taken = []
  asked : p.conn.pc = .receiveRrcSetup → p.conn.ue.message.messageType = .rrcRequest
  inLoop : InLoop sample start p

variable {sample} {start : MessageValue}

theorem inv_start {p : Download} (h : Start p) : Inv sample start p where
  registry := by
    obtain ⟨socket, hs⟩ := h.server
    rw [hs]
    exact Server.registryInv_init socket
  isOpen s hs := by
    rw [h.link] at hs
    cases hs
  down := by rw [h.down, h.sent]; rfl
  sent := by rw [h.sent]; exact Nat.zero_le _
  got _ := by rw [h.got]; exact Nat.zero_le _
  attaching _ := by rw [taken, h.down, List.take_nil]; rfl
  asked hpc := by
    rw [h.pc] at hpc
    cases hpc
  inLoop := by
    refine ⟨fun hpc => ?_, fun hpc => ?_⟩
    · rw [h.pc] at hpc
      rcases hpc with hpc | hpc <;> cases hpc
    · rw [h.pc] at hpc
      cases hpc

/-! ## The steps of the server -/

/-- A step that leaves the UE as it is, and may put messages on their way to it. -/
theorem Inv.told {p p' : Download} (h : Inv sample start p) (out : List SMessage) (hreg : p'.server.RegistryInv)
    (hopen : ∀ s, p'.conn.link = .accepted s → s ∈ p'.server.openSockets) (hue : p'.conn.ue = p.conn.ue)
    (hpc : p'.conn.pc = p.conn.pc) (hgot : p'.conn.got = p.conn.got) (hdown : p'.conn.down = p.conn.down ++ out)
    (hlink : p'.conn.link = p.conn.link ∨ p.conn.link ≠ .closed) (hout : out = [] ∨ p.conn.link ≠ .closed)
    (hsent : sample.take p'.sent = sample.take p.sent ++ out.filter (fun m => m.messageType.isTransfer))
    (hle : p'.sent ≤ sample.length) : Inv sample start p' := by
  have htake : p'.conn.down.take p'.conn.got = p.conn.down.take p.conn.got := by
    rw [hdown, hgot]
    rcases hout with rfl | hopened
    · rw [List.append_nil]
    · exact List.take_append_of_le_length (h.got hopened)
  have htaken : p'.taken = p.taken := by rw [taken, htake, taken]
  refine ⟨hreg, hopen, ?_, hle, fun hl => ?_, ?_, ?_, ?_⟩
  · rw [hdown, List.filter_append, h.down, hsent]
  · have hopened : p.conn.link ≠ .closed := by
      rcases hlink with he | hopened
      · rw [← he]
        exact hl
      · exact hopened
    rw [hgot, hdown, List.length_append]
    exact Nat.le_trans (h.got hopened) (Nat.le_add_right _ _)
  · rw [hpc, htaken]
    exact h.attaching
  · rw [hpc, hue]
    exact h.asked
  · unfold InLoop
    rw [hpc, hue, htaken]
    exact h.inLoop

/-- The server takes a step that concerns the socket of the UE. -/
theorem Inv.after {p : Download} (h : Inv sample start p) {s : Nat} (hl : p.conn.link = .accepted s) {srv' : Server}
    {out : List SMessage} (hloc : Local p.server s out srv') (hreg : srv'.RegistryInv) (handled sent : Nat)
    (hsent : sample.take sent = sample.take p.sent ++ out.filter (fun m => m.messageType.isTransfer))
    (hle : sent ≤ sample.length) :
    Inv sample start
      { server := srv', conn := Conn.deliver p.server srv' { p.conn with handled := handled }, sent := sent } := by
  have hd := Conn.deliver_at hloc (c := { p.conn with handled := handled }) hl
  have hne : p.conn.link ≠ .closed := by rw [hl]; simp
  rw [hd]
  refine h.told out hreg (fun t ht => ?_) rfl rfl rfl rfl (.inr hne) (.inr hne) hsent hle
  have ht' : (if s ∈ srv'.openSockets then Link.accepted s else .closed) = .accepted t := ht
  split at ht'
  · rename_i hin
    cases ht'
    exact hin
  · cases ht'

/-- What the server answers is no part of a transfer. -/
theorem answersTo_not_transfer (c : Client) (m : SMessage) (now : Int) :
    (Server.answersTo c m now).filter (fun m => m.messageType.isTransfer) = [] := by
  unfold Server.answersTo
  split <;> rfl

theorem inv_background {p p' : Download} (h : Inv sample start p) {b : Background}
    (hb : b.messageType.isTransfer = false) (hs : p.background b = some p') : Inv sample start p' := by
  unfold background at hs
  split at hs
  · rename_i s hl
    obtain ⟨c, hc, rfl⟩ := Option.map_eq_some_iff.1 hs
    have hcs : c.socket = s := (key_inj.1 (h.registry.socket_key _ _ hc)).symm
    obtain ⟨out, hloc, -, hopen, hclients, htype⟩ := p.server.background_local c b
    have hout : out.filter (fun m => m.messageType.isTransfer) = [] := by
      rw [List.filter_eq_nil_iff]
      intro m hm
      rw [htype m hm, hb]
      exact Bool.false_ne_true
    rw [hcs] at hloc
    exact h.after hl hloc (h.registry.of_same hopen hclients) p.conn.handled p.sent (by rw [hout, List.append_nil]) h.sent
  · cases hs

theorem filter_transfer {m : SMessage} (h : m.messageType.isTransfer = true) :
    [m].filter (fun m => m.messageType.isTransfer) = [m] := List.filter_cons_of_pos h

theorem inv_transfer {p p' : Download} (h : Inv sample start p) (hsample : ∀ m ∈ sample, m.messageType.isTransfer = true)
    (hs : step sample p .transfer = some p') : Inv sample start p' := by
  simp only [step] at hs
  split at hs
  · rename_i s m hl hm
    obtain ⟨c, hc, rfl⟩ := Option.map_eq_some_iff.1 hs
    have hcs : c.socket = s := (key_inj.1 (h.registry.socket_key _ _ hc)).symm
    have hloc : Local p.server s [m] (p.server.send c.socket m) := by
      rw [hcs]
      exact local_send p.server s m
    refine h.after hl hloc (h.registry.of_same rfl rfl) p.conn.handled (p.sent + 1) ?_
      (List.getElem?_eq_some_iff.1 hm).1
    rw [filter_transfer (hsample m (List.mem_of_getElem? hm)), List.take_add_one, hm]
    rfl
  · cases hs

theorem inv_connect {p p' : Download} (h : Inv sample start p) (hs : step sample p .connect = some p') :
    Inv sample start p' := by
  simp only [step] at hs
  split at hs
  · rename_i hl
    cases hs
    have hopened : p.conn.link ≠ .closed := by rw [hl]; simp
    refine h.told [] h.registry (fun s hs => ?_) rfl rfl rfl (List.append_nil _).symm (.inr hopened) (.inl rfl)
      (List.append_nil _).symm h.sent
    cases hs
  · cases hs

theorem inv_accept {p p' : Download} (h : Inv sample start p) {socket : Nat} {fresh : Client}
    (hs : step sample p (.accept socket fresh) = some p') : Inv sample start p' := by
  simp only [step] at hs
  split at hs
  · rename_i hc
    cases hs
    have hopened : p.conn.link ≠ .closed := by rw [hc.1]; simp
    have hin : socket ∈ (p.server.acceptClient socket fresh).openSockets := Finset.mem_insert_self _ _
    have hd := Conn.deliver_at (local_accept p.server socket fresh) (c := { p.conn with link := .accepted socket }) rfl
    rw [if_pos hin] at hd
    unfold Download.after
    rw [hd]
    refine h.told [] (h.registry.accept socket fresh) (fun s hs => ?_) rfl rfl rfl rfl (.inr hopened) (.inl rfl)
      (List.append_nil _).symm h.sent
    cases hs
    exact hin
  · cases hs

/-- A packet of the client is answered to it or ends its connection. -/
theorem parsePacket_local {srv srv' : Server} {s : Nat} {m : SMessage} {now : Int} (h : srv.RegistryInv)
    (hs : s ∈ srv.openSockets) (hp : srv.parsePacket s (.bytes m.bytes) now = some srv') :
    ∃ out, Local srv s out srv' ∧ out.filter (fun m => m.messageType.isTransfer) = [] ∧ srv'.RegistryInv := by
  simp only [Server.parsePacket, SMessage.readInto_bytes] at hp
  by_cases hoff : m.messageType = .ueOff
  · rw [Server.handlePacket_ueOff _ _ _ hoff, Option.some.injEq] at hp
    rw [← hp]
    exact ⟨[], local_drop srv s, rfl, h.drop s⟩
  · obtain ⟨c, hc, hcs⟩ := h.record hs
    obtain ⟨srv'', hp'', hh⟩ := Server.handlePacket_handled hc m now hoff
    rw [hp''] at hp
    cases hp
    exact ⟨_, hh.isLocal, answersTo_not_transfer c m now,
      h.handled hs ((Server.clientAfter_socket c m now).trans hcs) hh⟩

theorem inv_serve {p p' : Download} (h : Inv sample start p) {now : Int}
    (hs : step sample p (.serve now) = some p') : Inv sample start p' := by
  simp only [step] at hs
  split at hs
  · rename_i s hl
    split at hs
    · rename_i m ms hup
      split at hs
      · cases hs
      · rename_i srv' hp
        cases hs
        obtain ⟨out, hloc, hout, hreg⟩ := parsePacket_local h.registry (h.isOpen s hl) hp
        exact h.after hl hloc hreg (p.conn.handled + 1) p.sent (by rw [hout, List.append_nil]) h.sent
    · split at hs
      · simp only [Server.parsePacket, Option.some.injEq] at hs
        subst hs
        exact h.after hl (local_drop p.server s) (h.registry.drop s) p.conn.handled p.sent (List.append_nil _).symm h.sent
      · cases hs
  · cases hs

/-! ## What the UE takes -/

theorem taken_prefix {p : Download} (h : Inv sample start p) (k : Nat) :
    (p.conn.down.take k).filter (fun m => m.messageType.isTransfer) <+: sample := by
  have hpre : (p.conn.down.take k).filter (fun m => m.messageType.isTransfer) <+: sample.take p.sent := by
    rw [← h.down]
    exact (List.take_prefix k p.conn.down).filter _
  exact hpre.trans (List.take_prefix _ _)

/-- One more message taken. -/
theorem take_next {c : Conn} {m : SMessage} (hm : c.next = some m) :
    (c.down.take (c.got + 1)).filter (fun m => m.messageType.isTransfer) =
      (c.down.take c.got).filter (fun m => m.messageType.isTransfer) ++
        [m].filter (fun m => m.messageType.isTransfer) := by
  have hnext : c.down[c.got]? = some m := hm
  rw [List.take_add_one, hnext, List.filter_append]
  rfl

/-- At the end of the connection there is nothing more to take. -/
theorem take_end {c : Conn} (hn : c.next = none) : c.down.take (c.got + 1) = c.down.take c.got := by
  have hle : c.down.length ≤ c.got := List.getElem?_eq_none_iff.1 hn
  rw [List.take_of_length_le hle, List.take_of_length_le (Nat.le_succ_of_le hle)]

theorem delivers_cases {c : Conn} {recv : Option (List UInt8)} (h : c.Delivers recv) :
    recv = none ∨ (∃ m, c.next = some m ∧ recv = some m.bytes) ∨ (c.next = none ∧ c.link = .closed ∧ recv = some []) := by
  rcases h with h | ⟨hn, hb⟩ | h
  · exact .inl h
  · obtain ⟨m, hm⟩ := Option.ne_none_iff_exists'.1 hn
    refine .inr (.inl ⟨m, hm, ?_⟩)
    rw [hb, hm]
    rfl
  · exact .inr (.inr h)

/-- A step of the UE's main thread, by what it took from the connection. -/
theorem Inv.took {p : Download} (h : Inv sample start p) {recv : Option (List UInt8)} (hd : p.conn.Delivers recv)
    {ue : Ue} {pc : MainPc} (hattaching : pc.attaching = true → (p.took recv ue pc).taken = [])
    (hasked : pc = .receiveRrcSetup → ue.message.messageType = .rrcRequest)
    (hloop : InLoop sample start (p.took recv ue pc)) : Inv sample start (p.took recv ue pc) := by
  refine ⟨h.registry, h.isOpen, h.down, h.sent, fun hl => ?_, hattaching, hasked, hloop⟩
  have hle := h.got hl
  rcases delivers_cases hd with rfl | ⟨m, hm, rfl⟩ | ⟨-, hclosed, -⟩
  · exact hle
  · exact (List.getElem?_eq_some_iff.1 hm).1
  · exact absurd hclosed hl

/-- The transfer messages taken after a `recv`. -/
theorem taken_took {p : Download} {recv : Option (List UInt8)} (hd : p.conn.Delivers recv) (ue : Ue) (pc : MainPc) :
    ((p.took recv ue pc).taken = p.taken ∧ (recv = none ∨ recv = some [])) ∨
      ∃ m, p.conn.next = some m ∧ recv = some m.bytes ∧
        (p.took recv ue pc).taken = p.taken ++ [m].filter (fun m => m.messageType.isTransfer) := by
  rcases delivers_cases hd with rfl | ⟨m, hm, rfl⟩ | ⟨hn, -, rfl⟩
  · exact .inl ⟨rfl, .inl rfl⟩
  · exact .inr ⟨m, hm, rfl, take_next hm⟩
  · exact .inl ⟨congrArg (List.filter _) (take_end hn), .inr rfl⟩

theorem broadcast_of_broadcastSample {fuel : Nat} {content : List UInt8} {filename : Mem.Block bufferSize}
    {tag v : MessageValue} {ms : List SMessage} (h : broadcastSample fuel content filename tag v = some ms) :
    Broadcast ((tag.setBuffer zeros).setBuffer (List.ofFn filename)) ms := by
  obtain ⟨name, vs, rfl, hms, -⟩ := broadcastSample_blocks h
  exact ⟨vs, _, hms⟩

theorem Broadcast.transfer (h : Broadcast start sample) {m : SMessage} (hm : m ∈ sample) :
    m.messageType.isTransfer = true := by
  obtain ⟨vs, stop, rfl⟩ := h
  rcases List.mem_cons.1 hm with rfl | hm
  · rfl
  · rcases List.mem_append.1 hm with hm | hm
    · obtain ⟨v, -, rfl⟩ := List.mem_map.1 hm
      rfl
    · rw [List.mem_singleton.1 hm]
      rfl

/-- The first message starts the transfer, and it is the only one that does. -/
theorem Broadcast.at_prefix (h : Broadcast start sample) {handled : List SMessage} {m : SMessage}
    (hp : handled ++ [m] <+: sample) :
    (handled = [] ∧ m = ⟨.dataStart, start⟩) ∨
      (handled ≠ [] ∧ m.messageType ≠ .dataStart ∧ (handled.length + 1 < sample.length → m.messageType = .data)) := by
  obtain ⟨vs, stop, rfl⟩ := h
  obtain ⟨rest, hrest⟩ := hp
  cases handled with
  | nil =>
    rw [List.nil_append, List.singleton_append, List.cons.injEq] at hrest
    exact .inl ⟨rfl, hrest.1⟩
  | cons m₀ handled =>
    right
    rw [List.cons_append, List.cons_append, List.cons.injEq, List.append_assoc] at hrest
    refine ⟨List.cons_ne_nil _ _, ?_, fun hlt => ?_⟩
    · have hm : m ∈ vs.map (SMessage.mk .data) ++ [⟨.dataEnd, stop⟩] := by
        rw [← hrest.2]
        simp
      rcases List.mem_append.1 hm with hm | hm
      · obtain ⟨v, -, rfl⟩ := List.mem_map.1 hm
        simp
      · rw [List.mem_singleton.1 hm]
        simp
    · -- `m` is not the last message, so what follows it ends with the `data_end`
      have hne : rest ≠ [] := by
        rintro rfl
        have hlen := congrArg List.length hrest.2
        simp only [List.length_append, List.length_cons, List.length_nil, List.length_map] at hlen hlt
        omega
      obtain ⟨rest, e, rfl⟩ := (List.eq_nil_or_concat rest).resolve_left hne
      rw [List.concat_eq_append, ← List.append_assoc, ← List.append_assoc] at hrest
      have hdata := (List.append_inj' hrest.2 rfl).1
      have hm : m ∈ vs.map (SMessage.mk .data) := by
        rw [← hdata]
        simp
      obtain ⟨v, -, rfl⟩ := List.mem_map.1 hm
      rfl

/-- The UE took only what its transfer sent, in order. -/
theorem taken_last {p : Download} (h : Inv sample start p) {m : SMessage} (hm : p.conn.next = some m)
    (ht : m.messageType.isTransfer = true) : p.taken ++ [m] <+: sample := by
  have hpre := taken_prefix h (p.conn.got + 1)
  rw [take_next hm, filter_transfer ht] at hpre
  exact hpre

theorem receivePrachResponse_type {u : Ue} {m : SMessage} (h : (receivePrachResponse u (some m.bytes)).2 ≠ 1) :
    m.messageType = .randomAccessResponse := by
  simp only [receivePrachResponse, SMessage.readInto_bytes, Ue.call] at h
  split at h
  · assumption
  · exact absurd rfl h

/-- **An attach takes no part of the transfer**, unless it takes the start of it for the setup. -/
theorem inv_attach {p : Download} (h : Inv sample start p) (hb : Broadcast start sample) {a : AttachLabel} {c' : Conn}
    (hC : SetupSpared p (.attach a)) (hs : p.conn.attach a = some c') : Inv sample start { p with conn := c' } := by
  obtain ⟨-, -, hoff, pc, ue, hstep, rfl⟩ := Conn.attach_some hs
  obtain ⟨hpc, hto, hasked, hentered⟩ := attachStep_pc hstep
  have htaken := h.attaching hpc
  -- the response that is accepted is none of its messages, and neither is what is taken for the setup
  have hother : ∀ m, p.conn.next = some m → a.received = some m.bytes → pc ≠ .returned →
      [m].filter (fun m => m.messageType.isTransfer) = [] := by
    intro m hm hr hne
    cases a with
    | sendPreamble raRnti ok => cases hr
    | sendRequest identity ok => cases hr
    | prachResponse recv =>
      simp only [AttachLabel.received] at hr
      subst hr
      have hok : (receivePrachResponse p.conn.ue (some m.bytes)).2 ≠ 1 := by
        intro hst
        simp only [attachStep] at hstep
        split at hstep
        · simp only [hst, or_true, if_true, Option.some.injEq, Prod.mk.injEq] at hstep
          exact hne hstep.1.symm
        · cases hstep
      simp [receivePrachResponse_type hok, EMessageType.isTransfer]
    | setup recv ok =>
      simp only [AttachLabel.received] at hr
      subst hr
      cases ht : m.messageType.isTransfer with
      | false => simp [ht]
      | true =>
        have hpre := taken_last h hm ht
        rw [htaken] at hpre
        rcases hb.at_prefix hpre with ⟨-, rfl⟩ | ⟨hne, -⟩
        · exact absurd rfl (hC rfl _ hm)
        · exact absurd rfl hne
  have hnone : pc ≠ .returned → (p.took a.received ue pc).taken = [] := by
    intro hne
    rcases taken_took hoff ue pc with ⟨he, -⟩ | ⟨m, hm, hr, he⟩
    · rw [he, htaken]
    · rw [he, htaken, hother m hm hr hne]
      rfl
  refine h.took hoff (fun ha => ?_) hasked ⟨fun hl => ?_, fun hl => ?_⟩
  · apply hnone
    rintro rfl
    cases ha
  · have hl' : pc = .loopTest := by
      rcases hto with ha | hto | hto
      · rcases hl with rfl | rfl <;> cases ha
      · exact hto
      · rcases hl with rfl | rfl <;> cases hto
    obtain ⟨hfrom, hmessage⟩ := hentered hl'
    refine ⟨?_, fun hne => ?_⟩
    · change ue.message.messageType.isTransfer = false
      rw [hmessage, h.asked hfrom]
      rfl
    · refine absurd (hnone ?_) hne
      rw [hl']
      simp
  · exfalso
    have hl' : pc = .loopDispatch := hl
    rw [hl'] at hto
    rcases hto with hto | hto | hto <;> cases hto

/-! ## The steps of the loop -/

theorem HoldsOpen.of_same {name : List UInt8} {u u' : Ue} (h : HoldsOpen name u) (hfile : u'.fileToRecv = u.fileToRecv)
    (hcalls : filing.answers u'.trace = filing.answers u.trace) : HoldsOpen name u' := by
  unfold HoldsOpen
  rw [hfile, hcalls]
  exact h

theorem FileAfter.of_same {handled : List SMessage} {u u' : Ue} (h : FileAfter sample start handled u)
    (hfile : u'.fileToRecv = u.fileToRecv) (hcalls : filing.answers u'.trace = filing.answers u.trace) :
    FileAfter sample start handled u' :=
  fun hne hlt => (h hne hlt).of_same hfile hcalls

theorem inv_join {p : Download} (h : Inv sample start p) (ue : Ue) :
    Inv sample start (p.took none ue .join) := by
  refine h.took (.inl rfl : p.conn.Delivers none) (fun ha => by cases ha) (fun hpc => by cases hpc) ⟨?_, ?_⟩
  · rintro (hpc | hpc) <;> cases hpc
  · intro hpc
    cases hpc

theorem inv_test {p p' : Download} (h : Inv sample start p) (hs : step sample p .test = some p') :
    Inv sample start p' := by
  simp only [step] at hs
  split at hs
  · rename_i hpc
    split at hs
    · unfold checkForShutdown at hs
      split at hs
      · cases hs
        exact inv_join h _
      · cases hs
        refine h.took (.inl rfl : p.conn.Delivers none) (fun ha => by cases ha) (fun hpc => by cases hpc)
          ⟨fun _ => h.inLoop.1 (.inl hpc), ?_⟩
        intro hpc
        cases hpc
    · cases hs
      exact inv_join h _
  · cases hs

theorem FileAfter.receiveMain {handled : List SMessage} {u : Ue} (h : FileAfter sample start handled u) (bs : List UInt8) :
    FileAfter sample start handled (receiveMain u (some bs)) := by
  have hfile : (Lte.receiveMain u (some bs)).fileToRecv = u.fileToRecv := rfl
  refine h.of_same hfile ?_
  simp [Lte.receiveMain, Ue.call, Responder.answers, filing.recv]

/-- A `recv` leaves in the buffer what waits there, or the next message. -/
theorem inv_receive {p p' : Download} {recv : Option (List UInt8)} (h : Inv sample start p)
    (hs : step sample p (.receive recv) = some p') : Inv sample start p' := by
  simp only [step] at hs
  split at hs
  · rename_i hc
    obtain ⟨hpc, hd⟩ := hc
    obtain ⟨hidle, hfile⟩ := h.inLoop.1 (.inr hpc)
    cases hs
    refine h.took hd (fun ha => by cases ha) (fun hpc => by cases hpc) ⟨?_, fun _ => ?_⟩
    · rintro (hpc | hpc) <;> cases hpc
    rcases taken_took hd (receiveMain p.conn.ue recv) .loopDispatch with ⟨he, rfl | rfl⟩ | ⟨m, hm, rfl, he⟩
    · left
      rw [he]
      exact ⟨hidle, hfile⟩
    · left
      rw [he]
      refine ⟨?_, hfile.receiveMain []⟩
      rw [← hidle]
      exact congrArg (fun m => m.messageType.isTransfer) (SMessage.readInto_nil p.conn.ue.message)
    · have hmessage : (receiveMain p.conn.ue (some m.bytes)).message = m := SMessage.readInto_bytes _ _
      cases ht : m.messageType.isTransfer with
      | false =>
        left
        have hnone : [m].filter (fun m => m.messageType.isTransfer) = [] := by simp [ht]
        rw [he, hnone, List.append_nil]
        refine ⟨?_, hfile.receiveMain m.bytes⟩
        rw [← ht]
        exact congrArg (fun m => m.messageType.isTransfer) hmessage
      | true =>
        right
        refine ⟨p.taken, ?_, hfile.receiveMain m.bytes⟩
        rw [he, filter_transfer ht]
        exact congrArg (fun m => p.taken ++ [m]) hmessage.symm
  · cases hs

/-- **The loop handles a message**: the start opens the file, and a message before the end writes to it. -/
theorem inv_dispatch {p p' : Download} {env : DispatchEnv} (h : Inv sample start p) (hb : Broadcast start sample)
    (hs : step sample p (.dispatch env) = some p') : Inv sample start p' := by
  simp only [step] at hs
  split at hs
  · rename_i hpc
    cases hs
    obtain ⟨hcalls, -, hfile, hdone⟩ := filing.dispatch_answers p.conn.ue env
    have hcalls' : filing.answers (dispatch p.conn.ue env).trace =
        filing.answers p.conn.ue.trace ++ fileCallsFor p.conn.ue.fileToRecv p.conn.ue.message := hcalls
    have hfile' : (dispatch p.conn.ue env).fileToRecv = fileAfter p.conn.ue.fileToRecv p.conn.ue.message := hfile
    refine h.took (.inl rfl : p.conn.Delivers none) (fun ha => by cases ha) (fun hpc => by cases hpc)
      ⟨fun _ => ⟨?_, ?_⟩, (fun hpc => by cases hpc)⟩
    · change (dispatch p.conn.ue env).message.messageType.isTransfer = false
      rw [hdone]
      rfl
    · change FileAfter sample start p.taken (dispatch p.conn.ue env)
      rcases h.inLoop.2 hpc with ⟨hidle, hafter⟩ | ⟨handled, htaken, hafter⟩
      · obtain ⟨hnone, hsame⟩ := fileCallsFor_of_not_transfer p.conn.ue.fileToRecv hidle
        rw [hnone, List.append_nil] at hcalls'
        rw [hsame] at hfile'
        exact hafter.of_same hfile' hcalls'
      · intro _ hlt
        have hpre : handled ++ [p.conn.ue.message] <+: sample := htaken ▸ taken_prefix h p.conn.got
        rw [htaken, List.length_append, List.length_singleton] at hlt
        rcases hb.at_prefix hpre with ⟨-, hm⟩ | ⟨hne, -, hdata⟩
        · rw [hm] at hfile' hcalls'
          refine ⟨hfile', ?_⟩
          rw [hcalls']
          exact since_here rfl
        · obtain ⟨hopen, hsince⟩ := hafter hne (Nat.lt_of_succ_lt hlt)
          unfold fileAfter at hfile'
          unfold fileCallsFor at hcalls'
          simp only [hdata hlt] at hfile' hcalls'
          refine ⟨hfile'.trans hopen, ?_⟩
          rw [hcalls']
          exact hsince.keep ⟨_, _, rfl⟩
  · cases hs

/-- **Every step keeps the invariant**, when the setup is spared. -/
theorem inv_step {p p' : Download} {a : DownloadLabel} (hb : Broadcast start sample) (h : Inv sample start p)
    (hC : SetupSpared p a) (hs : step sample p a = some p') : Inv sample start p' := by
  cases a with
  | connect => exact inv_connect h hs
  | accept socket fresh => exact inv_accept h hs
  | serve now => exact inv_serve h hs
  | ping now => exact inv_background h rfl hs
  | measurementControlRequest => exact inv_background h rfl hs
  | transfer => exact inv_transfer h (fun m hm => hb.transfer hm) hs
  | attach a =>
    simp only [step] at hs
    obtain ⟨c', hc', rfl⟩ := Option.map_eq_some_iff.1 hs
    exact inv_attach h hb hC hc'
  | test => exact inv_test h hs
  | receive recv => exact inv_receive h hs
  | dispatch env => exact inv_dispatch h hb hs
  | exit =>
    simp only [step] at hs
    split at hs
    · cases hs
      exact ⟨h.registry, h.isOpen, h.down, h.sent, h.got, h.attaching, h.asked, h.inLoop⟩
    · cases hs

theorem Inv.findsOpen {p : Download} (h : Inv sample start p) (hb : Broadcast start sample) : FindsOpen start p := by
  intro hpc hm
  rcases h.inLoop.2 hpc with ⟨hidle, -⟩ | ⟨handled, htaken, hafter⟩
  · exfalso
    rcases hm with hm | hm <;> rw [hm] at hidle <;> cases hidle
  · have hpre : handled ++ [p.conn.ue.message] <+: sample := htaken ▸ taken_prefix h p.conn.got
    rcases hb.at_prefix hpre with ⟨-, he⟩ | ⟨hne, -⟩
    · exfalso
      rw [he] at hm
      rcases hm with hm | hm <;> cases hm
    · have hlen := hpre.length_le
      rw [List.length_append, List.length_singleton] at hlen
      exact hafter hne hlen

/-- **Downloads use an open file**: in every run whose attach does not take the `data_start` for the setup, the loop
handles a `data` or a `data_end` with the file that it opened for the `data_start` of the transfer, and that it has
not closed since. -/
theorem findsOpen_of_run {start : MessageValue} {sample : List SMessage} (hb : Broadcast start sample)
    {p₀ p : Download} {as : List DownloadLabel} (h₀ : Start p₀) (hC : Along (step sample) SetupSpared p₀ as)
    (hrun : run (step sample) p₀ as = some p) : FindsOpen start p :=
  (run_inv_along (fun _ _ _ => inv_step hb) (inv_start h₀) hC hrun).findsOpen hb

/-- The messages for a file of one byte. -/
def oneByte : List SMessage := Loop.sent [7]
def oneByteStart : MessageValue := (SMessage.zero.messageValue.setBuffer zeros).setBuffer (List.ofFn Loop.nameF)

theorem broadcast_oneByte : Broadcast oneByteStart oneByte :=
  broadcast_of_broadcastSample (Loop.sent_eq (by decide +kernel))

def bytesAt (i : Nat) : Option (List UInt8) := oneByte[i]?.map SMessage.bytes

def notAttached : Download :=
  { server := Server.init 3
    conn := { ue := Ue.start (fun _ => 50) 0, pc := .sendPrachPreamble, ended := false, link := .unconnected, handled := 0,
              down := [], got := 0 }
    sent := 0 }

theorem start_notAttached : Start notAttached := ⟨⟨3, rfl⟩, ⟨_, _, rfl⟩, rfl, rfl, rfl, rfl, rfl⟩

def answeredOnce : List DownloadLabel :=
  [.connect, .accept 5 Net.aRecord, .attach (.sendPreamble 31 true), .serve 9,
    .attach (.prachResponse (some (Net.responseTo 31 9).bytes)), .attach (.sendRequest ⟨1, 1⟩ true)]

def setupFor (rnti : Int16) : SMessage :=
  ⟨.rrcSetup, SMessage.zero.messageValue.setRrcResponse (generateRrcConfig rnti)⟩

/-- The broadcast begins after the setup has been sent. -/
def broadcastLate : List DownloadLabel :=
  answeredOnce ++ [.serve 9, .transfer, .transfer, .attach (.setup (some (setupFor 31).bytes) true), .test,
    .receive (bytesAt 0), .dispatch Loop.calm, .test, .receive (bytesAt 1)]

theorem findsOpen_of_run_late :
    HoldsOpen (fileName oneByteStart) (finish (step oneByte) notAttached broadcastLate).conn.ue :=
  findsOpen_of_run broadcast_oneByte start_notAttached (by decide +kernel) (run_finish (by decide +kernel))
    (by decide +kernel) (by decide +kernel)

/-- It begins between the response and the setup. -/
def broadcastEarly : List DownloadLabel :=
  answeredOnce ++ [.transfer, .serve 9, .attach (.setup (bytesAt 0) true), .transfer, .test,
    .receive (some (setupFor 31).bytes), .dispatch Loop.calm, .test, .receive (bytesAt 1)]

/-- **Data without a file**: the start is taken for the setup, and the loop handles the data with `file_to_recv` as it
was declared. -/
theorem data_without_file :
    Start notAttached ∧ Broadcast oneByteStart oneByte ∧
    run (step oneByte) notAttached broadcastEarly = some (finish (step oneByte) notAttached broadcastEarly) ∧
    (finish (step oneByte) notAttached broadcastEarly).conn.ue.fileToRecv = .uninitialised ∧
    ¬ FindsOpen oneByteStart (finish (step oneByte) notAttached broadcastEarly) := by
  have hfile : (finish (step oneByte) notAttached broadcastEarly).conn.ue.fileToRecv = .uninitialised := by
    decide +kernel
  refine ⟨start_notAttached, broadcast_oneByte, run_finish (by decide +kernel), hfile, fun h => ?_⟩
  have hopen := (h (by decide +kernel) (.inl (by decide +kernel))).1
  rw [hfile] at hopen
  cases hopen

end Download

end Lte
