import Lte.Cuts
import Lte.MainLoop
import Lte.PacketHandler
/-!
# Framing — whole structs on a stream that may be cut anywhere

Neither end puts a struct together from several reads: `parse_packet`, the two `recv` calls of the attach and the
receive loop each take what one read returned for a message.  A short read is then a message of its own, made of the
bytes that came and whatever the buffer held after them, and so is the rest of the struct.
-/
namespace Lte

open Runs Mem

/-- `m` is what a read of `bs` left in some buffer. -/
def ReadAs (bs : List UInt8) (m : SMessage) : Prop := ∃ old, m = SMessage.readInto old bs

/-! ## The server -/

/-- A server, and the messages `parse_packet` has dispatched on for one connection. -/
structure ServerReader where
  server : Server
  dispatched : List SMessage

namespace ServerReader

/-- One read of the connection's socket, and the clock. -/
def step (socket : Nat) (l : ServerReader) (read : List UInt8 × Int) : Option ServerReader :=
  let message := SMessage.zero.readInto read.1
  match l.server.handlePacket socket message read.2 with
  | none => none
  | some server => some { server := server, dispatched := l.dispatched ++ [message] }

/-- The reader goes through `parse_packet`. -/
theorem step_server {socket : Nat} {l l' : ServerReader} {read : List UInt8 × Int} (h : step socket l read = some l') :
    l.server.parsePacket socket (.bytes read.1) read.2 = some l'.server := by
  simp only [step] at h
  split at h
  · cases h
  · rename_i server hp
    cases h
    exact hp

theorem readAs_of_run {socket : Nat} {l l' : ServerReader} {reads : List (List UInt8 × Int)}
    (hnew : l.dispatched = []) (hrun : run (step socket) l reads = some l') :
    List.Forall₂ ReadAs (reads.map Prod.fst) l'.dispatched := by
  have hstep : ∀ (s : ServerReader) (a : List UInt8 × Int) (t : ServerReader), True → step socket s a = some t →
      True ∧ ∃ ms, t.dispatched = s.dispatched ++ ms ∧ List.Forall₂ ReadAs [a.1] ms := by
    intro s a t _ h
    simp only [step] at h
    split at h
    · cases h
    · cases h
      exact ⟨trivial, _, rfl, .cons ⟨_, rfl⟩ .nil⟩
  obtain ⟨ms, hms, hR⟩ := run_appends ServerReader.dispatched hstep trivial hrun
  rw [hnew, List.nil_append] at hms
  rw [hms]
  rwa [← List.map_eq_flatMap] at hR

end ServerReader

/-! ## The UE -/

/-- The main thread of a UE, and the messages it has dispatched on: what a `recv` of the attach looked at, and what
the switch looked at in an iteration that received something or that held a type the switch has a case for. -/
structure UeReader where
  pc : MainPc
  ue : Ue
  dispatched : List SMessage

inductive ReadLabel
  | attach (a : AttachLabel)
  | iterate (recv : Option (List UInt8)) (env : DispatchEnv)

def ReadLabel.received : ReadLabel → List (List UInt8)
  | attach a => a.received.toList
  | iterate recv _ => recv.toList

namespace UeReader

def step (l : UeReader) : ReadLabel → Option UeReader
  | .attach a =>
    match attachStep l.pc l.ue a with
    | none => none
    | some (pc, ue) =>
      let looked := (receivedBy ue.trace).drop (receivedBy l.ue.trace).length
      some { pc := pc, ue := ue, dispatched := l.dispatched ++ looked }
  | .iterate recv env =>
    if l.pc = .loopTest ∧ Loop.keepsOn l.ue then
      let ue := receiveMain l.ue recv
      let looked := if recv.isSome ∨ ue.message.messageType.dispatched then [ue.message] else []
      some { l with ue := dispatch ue env, dispatched := l.dispatched ++ looked }
    else none

def start (startRsrp : Fin 2 → Int) (now : Int) : UeReader :=
  { pc := .sendPrachPreamble, ue := Ue.start startRsrp now, dispatched := [] }

/-- Between iterations the buffer holds nothing the switch would act on. -/
def Idle (l : UeReader) : Prop :=
  l.pc = .receiveRrcSetup ∨ l.pc = .loopTest → l.ue.message.messageType.dispatched = false

theorem step_appends {l l' : UeReader} {a : ReadLabel} (h : Idle l) (hs : step l a = some l') :
    Idle l' ∧ ∃ ms, l'.dispatched = l.dispatched ++ ms ∧ List.Forall₂ ReadAs a.received ms := by
  cases a with
  | attach a =>
    simp only [step] at hs
    split at hs
    · cases hs
    · rename_i pc ue hstep
      cases hs
      obtain ⟨cs, hcs, hrecv, -⟩ := attachStep_trace hstep
      obtain ⟨-, -, hsetup, hloop⟩ := attachStep_pc hstep
      refine ⟨?_, receivedBy cs, ?_, ?_⟩
      · rintro (hpc | hpc)
        · rw [hsetup hpc]
          rfl
        · obtain ⟨h1, h2⟩ := hloop hpc
          rw [h2]
          exact h (.inl h1)
      · rw [hcs, receivedBy_append, List.drop_left]
      · rw [hrecv, ReadLabel.received]
        cases a.received with
        | none => exact .nil
        | some bs => exact .cons ⟨_, rfl⟩ .nil
  | iterate recv env =>
    simp only [step] at hs
    split at hs
    · rename_i hc
      cases hs
      refine ⟨fun _ => ?_, _, rfl, ?_⟩
      · have hlast := (answering.dispatch_answers (receiveMain l.ue recv) env).2.2.2
        rw [hlast]
        rfl
      · cases recv with
        | none =>
          have hidle : (receiveMain l.ue none).message.messageType.dispatched = false := h (.inr hc.1)
          rw [hidle]
          exact .nil
        | some bs => exact .cons ⟨_, rfl⟩ .nil
    · cases hs

theorem readAs_of_run {startRsrp : Fin 2 → Int} {now : Int} {as : List ReadLabel} {l : UeReader}
    (hrun : run step (start startRsrp now) as = some l) :
    List.Forall₂ ReadAs (as.flatMap ReadLabel.received) l.dispatched := by
  have hidle : Idle (start startRsrp now) := by
    rintro (h | h) <;> cases h
  obtain ⟨ms, hms, hR⟩ := run_appends UeReader.dispatched (fun _ _ _ h hs => step_appends h hs) hidle hrun
  rw [hms]
  exact hR

end UeReader

/-! ## Both ends -/

/-- The stream of the structs, as they lie in the writer's memory. -/
def stream (written : List (Block sizeofSMessage)) : List UInt8 := (written.map List.ofFn).flatten

/-- **Framing needs whole reads.**  However the stream of the structs is cut into reads of at most one struct, the
messages each end dispatches on are the ones written exactly when every read is of a whole struct. -/
theorem dispatched_eq_written_iff {written : List (Block sizeofSMessage)} {cuts : List (List UInt8)}
    (hle : ∀ c ∈ cuts, c.length ≤ sizeofSMessage) (hcut : cuts.flatten = stream written) :
    (∀ (socket : Nat) (reads : List (List UInt8 × Int)) (l l' : ServerReader), l.dispatched = [] →
      run (ServerReader.step socket) l reads = some l' → reads.map Prod.fst = cuts →
        (l'.dispatched = written.map SMessage.ofImage ↔ ∀ c ∈ cuts, c.length = sizeofSMessage)) ∧
    (∀ (startRsrp : Fin 2 → Int) (now : Int) (as : List ReadLabel) (l : UeReader),
      run UeReader.step (UeReader.start startRsrp now) as = some l → as.flatMap ReadLabel.received = cuts →
        (l.dispatched = written.map SMessage.ofImage ↔ ∀ c ∈ cuts, c.length = sizeofSMessage)) := by
  have hread : ∀ (b : Block sizeofSMessage) (m : SMessage), ReadAs (List.ofFn b) m → m = SMessage.ofImage b := by
    rintro b m ⟨old, rfl⟩
    exact SMessage.readInto_ofFn old b
  have hall : ∀ ms, List.Forall₂ ReadAs cuts ms →
      (ms = written.map SMessage.ofImage ↔ ∀ c ∈ cuts, c.length = sizeofSMessage) := fun ms hR =>
    Cuts.forall₂_iff_whole (by decide) (fun _ => List.length_ofFn) hread hR hle hcut
  constructor
  · intro socket reads l l' hnew hrun hreads
    have hR := ServerReader.readAs_of_run hnew hrun
    rw [hreads] at hR
    exact hall l'.dispatched hR
  · intro startRsrp now as l hrun hreads
    have hR := UeReader.readAs_of_run hrun
    rw [hreads] at hR
    exact hall l.dispatched hR

/-- A server with one client on socket 5. -/
def oneClient : ServerReader :=
  { server := (Server.init 3).acceptClient 5 ⟨0, 0, 0, 0, .ok, 0⟩, dispatched := [] }

def aPong : SMessage := ⟨.pong, fun _ => 0⟩

/-- **One pong, two messages**: the first read ends after the type, the second one is dispatched on as a random
access request. -/
theorem split_pong :
    [aPong.bytes.take 4, aPong.bytes.drop 4].flatten = stream [aPong.image] ∧
    (∀ c ∈ [aPong.bytes.take 4, aPong.bytes.drop 4], c ≠ [] ∧ c.length ≤ sizeofSMessage) ∧
    (∃ l, run (ServerReader.step 5) oneClient [(aPong.bytes.take 4, 7), (aPong.bytes.drop 4, 7)] = some l ∧
      l.dispatched.map SMessage.messageType = [.pong, .randomAccessRequest] ∧
      l.dispatched ≠ [aPong.image].map SMessage.ofImage) := by
  refine ⟨by decide +kernel, by decide +kernel, _, run_finish (by decide +kernel), by decide +kernel, ?_⟩
  intro h
  have hlen : (finish (ServerReader.step 5) oneClient
      [(aPong.bytes.take 4, 7), (aPong.bytes.drop 4, 7)]).dispatched.length = 2 := by decide +kernel
  rw [h] at hlen
  cases hlen

/-- A response whose index is the one a preamble of 31 expects. -/
def aResponse : SMessage := ⟨.randomAccessResponse, SMessage.zero.messageValue.setRapid (valueExpected 31)⟩

/-- The pong in one read, and a response in one `recv`. -/
theorem dispatched_eq_written_whole :
    (finish (ServerReader.step 5) oneClient [(aPong.bytes, 7)]).dispatched = [aPong.image].map SMessage.ofImage ∧
    (finish UeReader.step (UeReader.start (fun _ => 50) 0)
      [.attach (.sendPreamble 31 true), .attach (.prachResponse (some aResponse.bytes))]).dispatched =
      [aResponse.image].map SMessage.ofImage := by
  have hserver := @dispatched_eq_written_iff [aPong.image] [aPong.bytes] (by decide +kernel) (by decide +kernel)
  have hue := @dispatched_eq_written_iff [aResponse.image] [aResponse.bytes] (by decide +kernel) (by decide +kernel)
  exact ⟨(hserver.1 5 _ oneClient _ rfl (run_finish (by decide +kernel)) rfl).2 (by decide +kernel),
    (hue.2 _ 0 _ _ (run_finish (by decide +kernel)) (by decide +kernel)).2 (by decide +kernel)⟩

end Lte
