import Lte.Mealy
import Lte.Runs
import Lte.Client
/-!
# MainLoop — the receive loop beside the battery thread

The loop of `main` as two atomic steps, `receive` and `dispatch`, and the battery thread's `update_battery` between
them: all three use the global `message`.  What the UE owes for the messages it has received is what it has answered
and, between the two steps, what the message in the buffer still asks for (`Inv`).  A notification written into that
buffer between the two steps cancels the debt, which is the message lost (`lost_ping`).
-/
namespace Lte

open Runs

/-! ## The two steps of the loop and the battery thread -/

/-- The UE, and whether its main thread is between `recv` and the switch. -/
structure Loop where
  ue : Ue
  pending : Bool

inductive LoopLabel
  | receive (m : Option SMessage)
  | dispatch (env : DispatchEnv)
  | battery (timeNow timeReset : Int) (ok : Bool)

namespace Loop

/-- The loop condition of both threads: no signal came, and `received` is not a shutdown. -/
def keepsOn (u : Ue) : Bool := u.running && decide (u.received.messageType ≠ .enbOff)

def step (l : Loop) : LoopLabel → Option Loop
  | .receive m =>
    if l.pending = false ∧ keepsOn l.ue then
      some { ue := receiveMain l.ue (m.map SMessage.bytes), pending := true }
    else none
  | .dispatch env => if l.pending = true then some { ue := dispatch l.ue env, pending := false } else none
  | .battery timeNow timeReset ok =>
    if keepsOn l.ue then some { l with ue := updateBattery l.ue timeNow timeReset ok } else none

end Loop

/-! ## What a UE does with the messages it receives -/

/-- The messages a UE has received, oldest first. -/
def receivedBy (trace : List UeCall) : List SMessage :=
  trace.filterMap (fun c => match c with
    | .recv m => some m
    | _ => none)

@[simp] theorem receivedBy_append (t t' : List UeCall) : receivedBy (t ++ t') = receivedBy t ++ receivedBy t' :=
  List.filterMap_append

/-- **What a call of the attach adds to the trace**: what its `recv` left, if it has one, and no close. -/
theorem attachStep_trace {pc pc' : MainPc} {u u' : Ue} {a : AttachLabel} (h : attachStep pc u a = some (pc', u')) :
    ∃ cs, u'.trace = u.trace ++ cs ∧ receivedBy cs = (a.received.map u.received.readInto).toList ∧
      UeCall.close ∉ cs := by
  cases a with
  | sendPreamble raRnti ok =>
    simp only [attachStep] at h
    split at h
    · cases h
      exact ⟨_, rfl, rfl, by simp⟩
    · cases h
  | prachResponse recv =>
    simp only [attachStep] at h
    split at h
    · injection h with h
      injection h with _ hue
      rw [← hue]
      cases recv with
      | none => exact ⟨[], (List.append_nil _).symm, rfl, List.not_mem_nil⟩
      | some bs =>
        refine ⟨[.recv (u.received.readInto bs)], ?_, rfl, by simp⟩
        unfold receivePrachResponse
        simp only
        split <;> rfl
    · cases h
  | sendRequest identity ok =>
    simp only [attachStep] at h
    split at h
    · cases h
      exact ⟨_, rfl, rfl, by simp⟩
    · cases h
  | setup recv ok =>
    simp only [attachStep] at h
    split at h
    · injection h with h
      injection h with _ hue
      rw [← hue]
      cases recv with
      | none => exact ⟨[], (List.append_nil _).symm, rfl, List.not_mem_nil⟩
      | some bs =>
        unfold receiveRrcSetup sendRrcSetupComplete
        simp only
        split
        · exact ⟨_, List.append_assoc _ _ _, rfl, by simp⟩
        · exact ⟨_, rfl, rfl, by simp⟩
    · cases h

/-- Where a call of the attach leads, and the buffer the loop is entered with. -/
theorem attachStep_pc {pc pc' : MainPc} {u u' : Ue} {a : AttachLabel} (h : attachStep pc u a = some (pc', u')) :
    pc.attaching = true ∧ (pc'.attaching = true ∨ pc' = .loopTest ∨ pc' = .returned) ∧
    (pc' = .receiveRrcSetup → u'.message.messageType = .rrcRequest) ∧
    (pc' = .loopTest → pc = .receiveRrcSetup ∧ u'.message = u.message) := by
  cases a with
  | sendPreamble raRnti ok =>
    simp only [attachStep] at h
    split at h
    · rename_i hpc
      cases h
      rw [hpc]
      refine ⟨rfl, ?_, ?_, ?_⟩ <;> split <;> simp [MainPc.attaching]
    · cases h
  | prachResponse recv =>
    simp only [attachStep] at h
    split at h
    · rename_i hpc
      injection h with h
      injection h with hpc' _
      rw [hpc, ← hpc']
      refine ⟨rfl, ?_, ?_, ?_⟩ <;> split <;> simp [MainPc.attaching]
    · cases h
  | sendRequest identity ok =>
    simp only [attachStep] at h
    split at h
    · rename_i hpc
      cases h
      rw [hpc]
      refine ⟨rfl, ?_, fun _ => rfl, ?_⟩ <;> split <;> simp [MainPc.attaching]
    · cases h
  | setup recv ok =>
    simp only [attachStep] at h
    split at h
    · rename_i hpc
      injection h with h
      injection h with hpc' hue
      rw [hpc, ← hpc', ← hue]
      refine ⟨rfl, .inr (.inl rfl), by simp, fun _ => ⟨rfl, ?_⟩⟩
      cases recv with
      | none => rfl
      | some bs =>
        unfold receiveRrcSetup sendRrcSetupComplete
        simp only
        split <;> rfl
    · cases h

/-- The switch adds to the trace and receives nothing. -/
theorem handleMessage_trace (u : Ue) (env : DispatchEnv) :
    ∃ cs, (handleMessage u env).trace = u.trace ++ cs ∧ receivedBy cs = [] := by
  have hnone : ∃ cs, u.trace = u.trace ++ cs ∧ receivedBy cs = [] := ⟨[], (List.append_nil _).symm, rfl⟩
  unfold handleMessage
  split
  · split
    · simp only
      split
      · exact ⟨_, rfl, rfl⟩
      · rcases decreaseAfterPing_frame (sendPong u env.pongOk).1 env.noteOk with ⟨b, he⟩ | ⟨t, b, -, he⟩
        · rw [he]
          exact ⟨_, rfl, rfl⟩
        · rw [he]
          exact ⟨_, List.append_assoc _ _ _, rfl⟩
    · exact hnone
  · exact ⟨_, rfl, rfl⟩
  · exact ⟨_, rfl, rfl⟩
  · simp only
    split
    · exact ⟨_, rfl, rfl⟩
    · exact ⟨_, rfl, rfl⟩
  · exact ⟨_, rfl, rfl⟩
  · exact hnone

theorem dispatch_trace (u : Ue) (env : DispatchEnv) :
    ∃ cs, (dispatch u env).trace = u.trace ++ cs ∧ receivedBy cs = [] := by
  obtain ⟨cs, hcs, hnone⟩ := handleMessage_trace u env
  refine ⟨cs ++ [.checked (setCurrentSignalEvent (handleMessage u env) env.timeNow env.timeReset).cells.currentEvent],
    ?_, ?_⟩
  · rw [← List.append_assoc, ← hcs]
    rfl
  · rw [receivedBy_append, hnone]
    rfl

/-- What the switch is for, as a machine over the messages received: the answers it gives, of those calls `answerOf`
counts, and the part of the file's state it depends on.  Types that do not `concern` it are ignored, and the types the
UE writes itself into the buffer are among these. -/
structure Responder (σ ω : Type) extends Mealy σ SMessage ω where
  view : FileToRecv → σ
  answerOf : UeCall → Option ω
  concerns : EMessageType → Bool
  ignores : ∀ m : SMessage, concerns m.messageType = false → toMealy.Ignores m
  own : ∀ t, t = .ueBatteryLow ∨ t = .ueBatteryHigh ∨ t = .minusOne → concerns t = false
  recv : ∀ m, answerOf (.recv m) = none
  checked : ∀ e, answerOf (.checked e) = none
  notes : ∀ m ok, m.messageType = .ueBatteryLow ∨ m.messageType = .ueBatteryHigh → answerOf (.write m ok) = none
  handles : ∀ (u : Ue) (env : DispatchEnv),
    (handleMessage u env).trace.filterMap answerOf = u.trace.filterMap answerOf ++ out (view u.fileToRecv) u.message ∧
      view (handleMessage u env).fileToRecv = next (view u.fileToRecv) u.message

namespace Responder

variable {σ ω : Type} (R : Responder σ ω)

def answers (trace : List UeCall) : List ω := trace.filterMap R.answerOf

theorem dispatch_answers (u : Ue) (env : DispatchEnv) :
    R.answers (dispatch u env).trace = R.answers u.trace ++ R.out (R.view u.fileToRecv) u.message ∧
    receivedBy (dispatch u env).trace = receivedBy u.trace ∧
    R.view (dispatch u env).fileToRecv = R.next (R.view u.fileToRecv) u.message ∧
    (dispatch u env).message.messageType = .minusOne := by
  obtain ⟨h1, h2⟩ := R.handles u env
  obtain ⟨cs, hcs, hnone⟩ := dispatch_trace u env
  refine ⟨?_, ?_, h2, rfl⟩
  · simp only [dispatch, setCurrentSignalEvent, Ue.call, answers, List.filterMap_append]
    rw [h1]
    simp [R.checked]
  · rw [hcs, receivedBy_append, hnone, List.append_nil]

/-! ## Runs -/

/-- A battery step does not write a notification over a message of concern that waits for its dispatch. -/
def Spares (l : Loop) : LoopLabel → Prop
  | .battery _ _ _ =>
    ¬ (l.pending = true ∧ R.concerns l.ue.message.messageType = true ∧ l.ue.battery.Notifies updateStep)
  | _ => True

instance (l : Loop) (a : LoopLabel) : Decidable (R.Spares l a) := by
  unfold Spares; cases a <;> infer_instance

/-- The loop is entered with nothing of concern in the buffer, and with the file as `s₀` says. -/
structure Start (s₀ : σ) (l : Loop) : Prop where
  pending : l.pending = false
  trace : l.ue.trace = []
  file : R.view l.ue.fileToRecv = s₀
  buffer : R.concerns l.ue.message.messageType = false

/-- What the message in the buffer still asks for, and the state after it. -/
def debt (l : Loop) : List ω := if l.pending then R.out (R.view l.ue.fileToRecv) l.ue.message else []
def settled (l : Loop) : σ :=
  if l.pending then R.next (R.view l.ue.fileToRecv) l.ue.message else R.view l.ue.fileToRecv

structure Inv (s₀ : σ) (l : Loop) : Prop where
  account : R.answers l.ue.trace ++ R.debt l = R.outputs s₀ (receivedBy l.ue.trace)
  state : R.settled l = R.final s₀ (receivedBy l.ue.trace)
  idle : l.pending = false → R.concerns l.ue.message.messageType = false

variable {R} {s₀ : σ} {l l' : Loop}

theorem inv_start (h : R.Start s₀ l) : R.Inv s₀ l where
  account := by simp [h.trace, debt, h.pending, answers, receivedBy, Mealy.outputs]
  state := by simp [settled, h.pending, h.file, h.trace, receivedBy, Mealy.final]
  idle _ := h.buffer

theorem inv_receive {m : Option SMessage} (h : R.Inv s₀ l) (hs : Loop.step l (.receive m) = some l') :
    R.Inv s₀ l' := by
  simp only [Loop.step] at hs
  split at hs
  · rename_i hc
    have hacc := h.account
    have hst := h.state
    simp only [debt, settled, hc.1, Bool.false_eq_true, if_false, List.append_nil] at hacc hst
    cases m with
    | none =>
      cases hs
      -- no data: the buffer holds what the last iteration left, which asks for nothing
      obtain ⟨h1, h2⟩ := R.ignores _ (h.idle hc.1) (R.view l.ue.fileToRecv)
      refine ⟨?_, ?_, fun hp => by cases hp⟩
      · simp only [debt, if_true, Option.map_none, receiveMain, h1, List.append_nil]
        exact hacc
      · simp only [settled, if_true, Option.map_none, receiveMain, h2]
        exact hst
    | some m =>
      cases hs
      have hrecv : receivedBy [.recv m] = [m] := rfl
      have hans : R.answers [.recv m] = [] := by simp [answers, R.recv]
      refine ⟨?_, ?_, fun hp => by cases hp⟩
      · simp only [debt, if_true, Option.map_some, receiveMain, SMessage.readInto_bytes, Ue.call, receivedBy_append]
        rw [hrecv, Mealy.outputs_concat, ← hacc, ← hst, answers, List.filterMap_append]
        rw [answers] at hans
        rw [hans, List.append_nil]
        rfl
      · simp only [settled, if_true, Option.map_some, receiveMain, SMessage.readInto_bytes, Ue.call,
          receivedBy_append]
        rw [hrecv, Mealy.final_concat, ← hst]
  · cases hs

theorem inv_dispatch {env : DispatchEnv} (h : R.Inv s₀ l) (hs : Loop.step l (.dispatch env) = some l') :
    R.Inv s₀ l' := by
  simp only [Loop.step] at hs
  split at hs
  · rename_i hp
    cases hs
    obtain ⟨h1, h2, h3, h4⟩ := R.dispatch_answers l.ue env
    have hacc := h.account
    have hst := h.state
    simp only [debt, settled, hp, if_true] at hacc hst
    refine ⟨?_, ?_, fun _ => ?_⟩
    · simp only [debt, Bool.false_eq_true, if_false, List.append_nil]
      rw [h1, h2, hacc]
    · simp only [settled, Bool.false_eq_true, if_false]
      rw [h3, h2, hst]
    · rw [h4]
      exact R.own _ (.inr (.inr rfl))
  · cases hs

theorem inv_battery {n r : Int} {ok : Bool} (h : R.Inv s₀ l) (hC : R.Spares l (.battery n r ok))
    (hs : Loop.step l (.battery n r ok) = some l') : R.Inv s₀ l' := by
  simp only [Loop.step] at hs
  split at hs
  · cases hs
    rcases updateBattery_frame l.ue n r ok with ⟨b, he⟩ | ⟨hn, t, b, ht, he⟩
    · rw [he]
      exact ⟨h.account, h.state, h.idle⟩
    · -- the buffer that is overwritten holds nothing of concern, and neither does what replaces it
      have hold : l.pending = true → R.Ignores l.ue.message := by
        intro hp
        apply R.ignores
        cases hd : R.concerns l.ue.message.messageType with
        | false => rfl
        | true => exact absurd ⟨hp, hd, hn⟩ hC
      have hown : R.concerns t = false := R.own t (ht.imp_right .inl)
      have hnew : R.Ignores (l.ue.notified t ok b).message := R.ignores _ hown
      have hans : R.answers (l.ue.notified t ok b).trace = R.answers l.ue.trace := by
        have hnote : R.answerOf (.write { l.ue.message with messageType := t } ok) = none := R.notes _ ok ht
        simp [Ue.notified, answers, hnote]
      have hrecv : receivedBy (l.ue.notified t ok b).trace = receivedBy l.ue.trace := by
        simp [Ue.notified, receivedBy]
      have hfile : (l.ue.notified t ok b).fileToRecv = l.ue.fileToRecv := rfl
      rw [he]
      refine ⟨?_, ?_, fun _ => hown⟩
      · rw [hans, hrecv, ← h.account]
        simp only [debt]
        split
        · rename_i hp
          rw [(hnew _).1, (hold hp _).1]
        · rfl
      · rw [hrecv, ← h.state]
        simp only [settled]
        split
        · rename_i hp
          rw [(hnew _).2, (hold hp _).2, hfile]
        · rw [hfile]
  · cases hs

theorem inv_step {a : LoopLabel} (h : R.Inv s₀ l) (hC : R.Spares l a) (hs : Loop.step l a = some l') :
    R.Inv s₀ l' := by
  cases a with
  | receive m => exact inv_receive h hs
  | dispatch env => exact inv_dispatch h hs
  | battery n r ok => exact inv_battery h hC hs

/-- **A UE gives the answers its messages ask for**, in every run that spares the messages of concern. -/
theorem answers_of_run {l₀ : Loop} {as : List LoopLabel} (h₀ : R.Start s₀ l₀) (hC : Along Loop.step R.Spares l₀ as)
    (hrun : run Loop.step l₀ as = some l) (hp : l.pending = false) :
    R.answers l.ue.trace = R.outputs s₀ (receivedBy l.ue.trace) := by
  have h := (run_inv_along (fun _ _ _ h hC hs => inv_step h hC hs) (inv_start h₀) hC hrun).account
  simpa [debt, hp] using h

end Responder

/-! ## Every message is answered -/

/-- What answers a server message: the pong, the report, the block appended to the open file. -/
inductive Answer
  | pong
  | report
  | block (bs : List UInt8)
deriving DecidableEq

def answerOf : UeCall → Option Answer
  | .write m _ =>
    match m.messageType with
    | .pong => some .pong
    | .measurementReport => some .report
    | _ => none
  | .fwrite (.opened _) bs => some (.block bs)
  | _ => none

/-- Whether a file is being transferred after `m`, when `o` says whether one was before. -/
def transferAfter (o : Bool) (m : SMessage) : Bool :=
  match m.messageType with
  | .dataStart => true
  | .dataEnd => false
  | _ => o

/-- The answers one message asks for; a data message asks for one inside a transfer. -/
def owedFor (o : Bool) (m : SMessage) : List Answer :=
  match m.messageType with
  | .ping => [.pong]
  | .measurementControlRequest => [.report]
  | .data => if o then [.block m.messageValue.buffer] else []
  | _ => []

def FileToRecv.isOpen : FileToRecv → Bool
  | .opened _ => true
  | _ => false

/-- The types the switch has a case for. -/
def EMessageType.dispatched : EMessageType → Bool
  | ping | dataStart | data | dataEnd | measurementControlRequest => true
  | _ => false

theorem owedFor_of_not_dispatched {m : SMessage} (o : Bool) (h : m.messageType.dispatched = false) :
    owedFor o m = [] ∧ transferAfter o m = o := by
  unfold owedFor transferAfter
  revert h
  cases m.messageType <;> simp [EMessageType.dispatched]

/-- **What the switch does**: it gives exactly the answers the message in the buffer asks for, and opens or closes
the file. -/
theorem handleMessage_answers (u : Ue) (env : DispatchEnv) :
    (handleMessage u env).trace.filterMap answerOf = u.trace.filterMap answerOf ++
      owedFor u.fileToRecv.isOpen u.message ∧
    (handleMessage u env).fileToRecv.isOpen = transferAfter u.fileToRecv.isOpen u.message := by
  unfold handleMessage owedFor transferAfter
  cases ht : u.message.messageType with
  | ping =>
    simp only [receivePing, ht, if_true]
    cases hok : env.pongOk with
    | false => simp [sendPong, Ue.writeMessage, Ue.call, answerOf]
    | true =>
      -- the pong, and after it at most a notification, which answers nothing
      have hframe := decreaseAfterPing_frame (sendPong u true).1 env.noteOk
      have hstatus : (sendPong u true).2 = 0 := rfl
      simp only [hstatus, show ¬ (0 : Int) = -1 by decide, if_false]
      rcases hframe with ⟨b, he⟩ | ⟨t, b, htype, he⟩
      · rw [he]
        simp [sendPong, Ue.writeMessage, Ue.call, answerOf]
      · rw [he]
        rcases htype with rfl | rfl <;> simp [Ue.notified, sendPong, Ue.writeMessage, Ue.call, answerOf]
  | dataStart => simp [Ue.call, answerOf, FileToRecv.isOpen]
  | data => cases hf : u.fileToRecv <;> simp [downloadData, Ue.call, answerOf, FileToRecv.isOpen, hf]
  | dataEnd => cases hf : u.fileToRecv <;> simp [Ue.call, answerOf, FileToRecv.isOpen, hf]
  | measurementControlRequest =>
    simp [receiveMeasurementControlRequest, sendMeasurementReport, Ue.writeMessage, Ue.call, answerOf]
  | _ => simp

/-- The switch as what answers every message it has a case for. -/
def answering : Responder Bool Answer where
  out := owedFor
  next := transferAfter
  view := FileToRecv.isOpen
  answerOf := answerOf
  concerns := EMessageType.dispatched
  ignores _ h o := owedFor_of_not_dispatched o h
  own t h := by rcases h with rfl | rfl | rfl <;> rfl
  recv _ := rfl
  checked _ := rfl
  notes m ok h := by
    unfold answerOf
    rcases h with h | h <;> simp [h]
  handles := handleMessage_answers

def answers (trace : List UeCall) : List Answer := answering.answers trace

/-- The answers a sequence of messages asks for, in its order, when no file was open before it. -/
def owed (ms : List SMessage) : List Answer := answering.outputs false ms

namespace Loop

/-- The loop is entered with the connection request still in the buffer, or left by its last iteration with -1. -/
def Start (l : Loop) : Prop := answering.Start false l

/-- A battery step does not write a notification over a message that waits for its dispatch. -/
def SparesMessage (l : Loop) (a : LoopLabel) : Prop := answering.Spares l a

instance (l : Loop) (a : LoopLabel) : Decidable (SparesMessage l a) := by unfold SparesMessage; infer_instance

/-- **Every received message is answered once, in order**, in every run in which no battery step notifies over a
message that waits for its dispatch. -/
theorem answers_eq_owed {l₀ l : Loop} {as : List LoopLabel} (h₀ : Start l₀)
    (hC : Along step SparesMessage l₀ as) (hrun : run step l₀ as = some l) (hp : l.pending = false) :
    answers l.ue.trace = owed (receivedBy l.ue.trace) :=
  Responder.answers_of_run h₀ hC hrun hp

/-- A UE that has attached and whose battery thread then ran for seven seconds: 16 percent. -/
def lowLoop : Loop :=
  finish step
    { ue := { Ue.start (fun _ => 50) 0 with
        message := ⟨.rrcRequest, fun _ => 0⟩, received := ⟨.rrcComplete, fun _ => 0⟩ }, pending := false }
    (List.replicate 7 (.battery 1 0 true))

def aPing : SMessage := ⟨.ping, fun _ => 0⟩

def calm : DispatchEnv := { pongOk := true, noteOk := true, reportOk := true, timeNow := 0, timeReset := 0 }

theorem start_lowLoop : Start lowLoop := ⟨by decide +kernel, by decide +kernel, by decide +kernel, by decide +kernel⟩

/-- **A ping lost**: the battery thread notifies between the receive and the dispatch of a ping, and no pong is
sent. -/
theorem lost_ping :
    Start lowLoop ∧
    run step lowLoop [.receive (some aPing), .battery 0 0 true, .dispatch calm] =
      some (finish step lowLoop [.receive (some aPing), .battery 0 0 true, .dispatch calm]) ∧
    (finish step lowLoop [.receive (some aPing), .battery 0 0 true, .dispatch calm]).pending = false ∧
    owed (receivedBy (finish step lowLoop
      [.receive (some aPing), .battery 0 0 true, .dispatch calm]).ue.trace) = [.pong] ∧
    answers (finish step lowLoop [.receive (some aPing), .battery 0 0 true, .dispatch calm]).ue.trace = [] :=
  ⟨start_lowLoop, run_finish (by decide +kernel), by decide +kernel, by decide +kernel, by decide +kernel⟩

/-- The same steps with the notification before the receive. -/
theorem answers_eq_owed_ping :
    answers (finish step lowLoop [.battery 0 0 true, .receive (some aPing), .dispatch calm]).ue.trace = [.pong] := by
  have hrun : run step lowLoop [.battery 0 0 true, .receive (some aPing), .dispatch calm] =
      some (finish step lowLoop [.battery 0 0 true, .receive (some aPing), .dispatch calm]) :=
    run_finish (by decide +kernel)
  have h := answers_eq_owed start_lowLoop (by decide +kernel) hrun (by decide +kernel)
  rw [h]
  decide +kernel

end Loop

end Lte
