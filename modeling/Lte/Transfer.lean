import Mathlib.Data.List.TakeWhile
import Lte.Broadcast
import Lte.MainLoop
/-!
# Transfer — a file sent by the server and the file the UE appends to

The UE's calls on files are those of the transfer messages it received, whatever else it received among them
(`filing`).  Put together with what `broadcast_sample` sends, the UE opens the file under the server's name, appends
its blocks in order and closes it; the bytes appended are the server's file exactly when its length is a multiple of
the block.
-/
namespace Lte

open Runs MessageValue

def EMessageType.isTransfer : EMessageType → Bool
  | dataStart | data | dataEnd => true
  | _ => false

/-- The calls of the UE on files. -/
def fileCall : UeCall → Option UeCall
  | .fopen name => some (.fopen name)
  | .fwrite file bs => some (.fwrite file bs)
  | .fclose file => some (.fclose file)
  | _ => none

def fileCallsFor (file : FileToRecv) (m : SMessage) : List UeCall :=
  match m.messageType with
  | .dataStart => [.fopen (fileName m.messageValue)]
  | .data => [.fwrite file m.messageValue.buffer]
  | .dataEnd => [.fclose file]
  | _ => []

def fileAfter (file : FileToRecv) (m : SMessage) : FileToRecv :=
  match m.messageType with
  | .dataStart => .opened (fileName m.messageValue)
  | .dataEnd =>
    match file with
    | .opened name => .closed name
    | file => file
  | _ => file

theorem handleMessage_fileCalls (u : Ue) (env : DispatchEnv) :
    (handleMessage u env).trace.filterMap fileCall = u.trace.filterMap fileCall ++ fileCallsFor u.fileToRecv u.message ∧
    (handleMessage u env).fileToRecv = fileAfter u.fileToRecv u.message := by
  unfold handleMessage fileCallsFor fileAfter
  cases ht : u.message.messageType with
  | ping =>
    have hpong : (sendPong u env.pongOk).1.trace.filterMap fileCall = u.trace.filterMap fileCall := by
      simp [sendPong, Ue.writeMessage, Ue.call, fileCall]
    simp only [receivePing, ht, if_true, List.append_nil]
    split
    · exact ⟨hpong, rfl⟩
    · rcases decreaseAfterPing_frame (sendPong u env.pongOk).1 env.noteOk with ⟨b, he⟩ | ⟨t, b, -, he⟩
      · rw [he]
        exact ⟨hpong, rfl⟩
      · rw [he]
        refine ⟨?_, rfl⟩
        rw [← hpong]
        simp [Ue.notified, fileCall]
  | dataStart => simp [Ue.call, fileCall]
  | data => simp [downloadData, Ue.call, fileCall]
  | dataEnd => cases hf : u.fileToRecv <;> simp [Ue.call, fileCall, hf]
  | measurementControlRequest =>
    simp [receiveMeasurementControlRequest, sendMeasurementReport, Ue.writeMessage, Ue.call, fileCall]
  | _ => simp

theorem fileCallsFor_of_not_transfer {m : SMessage} (file : FileToRecv) (h : m.messageType.isTransfer = false) :
    fileCallsFor file m = [] ∧ fileAfter file m = file := by
  unfold fileCallsFor fileAfter
  revert h
  cases m.messageType <;> simp [EMessageType.isTransfer]

/-- The switch as what handles a transfer. -/
def filing : Responder FileToRecv UeCall where
  out := fileCallsFor
  next := fileAfter
  view := id
  answerOf := fileCall
  concerns := EMessageType.isTransfer
  ignores _ h file := fileCallsFor_of_not_transfer file h
  own t h := by rcases h with rfl | rfl | rfl <;> rfl
  recv _ := rfl
  checked _ := rfl
  notes _ _ _ := rfl
  handles := handleMessage_fileCalls

/-- The bytes appended to the file of a name while it is open. -/
def appended (name : List UInt8) (trace : List UeCall) : List UInt8 :=
  trace.flatMap (fun c => match c with
    | .fwrite (.opened n) bs => if n = name then bs else []
    | _ => [])

theorem appended_fileCalls (name : List UInt8) (trace : List UeCall) :
    appended name (trace.filterMap fileCall) = appended name trace := by
  induction trace with
  | nil => rfl
  | cons c trace ih =>
    unfold appended at ih ⊢
    cases c <;> simp [fileCall, List.filterMap_cons, ih]

/-! ## One transfer -/

/-- The calls for the data messages of an open file. -/
theorem outputs_data (name : List UInt8) (vs : List MessageValue) :
    filing.outputs (.opened name) (vs.map (SMessage.mk .data)) = vs.map (fun v => .fwrite (.opened name) v.buffer) ∧
    filing.final (.opened name) (vs.map (SMessage.mk .data)) = .opened name := by
  induction vs with
  | nil => exact ⟨rfl, rfl⟩
  | cons v vs ih =>
    obtain ⟨h1, h2⟩ := ih
    refine ⟨?_, h2⟩
    rw [List.map_cons, List.map_cons, ← h1]
    rfl

/-- **The calls for a whole transfer**, whatever file there was before: open, append each block, close. -/
theorem outputs_transfer (file : FileToRecv) (start stop : MessageValue) (vs : List MessageValue) :
    filing.outputs file (⟨.dataStart, start⟩ :: (vs.map (SMessage.mk .data) ++ [⟨.dataEnd, stop⟩])) =
      .fopen (fileName start) :: (vs.map (fun v => .fwrite (.opened (fileName start)) v.buffer) ++
        [.fclose (.opened (fileName start))]) := by
  obtain ⟨h1, h2⟩ := outputs_data (fileName start) vs
  have hstart : filing.outputs file (⟨.dataStart, start⟩ :: (vs.map (SMessage.mk .data) ++ [⟨.dataEnd, stop⟩])) =
      .fopen (fileName start) :: filing.outputs (.opened (fileName start))
        (vs.map (SMessage.mk .data) ++ [⟨.dataEnd, stop⟩]) := rfl
  rw [hstart, Mealy.outputs_concat, h1, h2]
  rfl

theorem appended_transfer (name : List UInt8) (vs : List MessageValue) :
    appended name (.fopen name :: (vs.map (fun v => .fwrite (.opened name) v.buffer) ++ [.fclose (.opened name)])) =
      (vs.map buffer).flatten := by
  unfold appended
  rw [List.flatMap_cons, List.flatMap_append, List.nil_append]
  have hclose : ([UeCall.fclose (.opened name)].flatMap fun c => match c with
      | .fwrite (.opened n) bs => if n = name then bs else []
      | _ => []) = ([] : List UInt8) := rfl
  rw [hclose, List.append_nil, List.flatMap_map]
  simp [List.flatMap]

/-- The name reaches `fopen` as it is, when it ends within the sixteen bytes that are sent. -/
theorem fileName_setBuffer (v : MessageValue) (filename : Mem.Block bufferSize) (h : 0 ∈ List.ofFn filename) :
    fileName (v.setBuffer (List.ofFn filename)) = (List.ofFn filename).takeWhile (· ≠ 0) := by
  have hbuf : Mem.slice (v.setBuffer (List.ofFn filename)) 0 16 = List.ofFn filename :=
    buffer_setBuffer v _ List.length_ofFn
  have hnul : (List.ofFn filename).takeWhile (· ≠ 0) ≠ List.ofFn filename := by
    intro he
    have hall := List.takeWhile_eq_self_iff.1 he 0 h
    simp at hall
  have hshort : ((List.ofFn filename).takeWhile (· ≠ 0)).length ≠ (List.ofFn filename).length := fun he =>
    hnul ((List.takeWhile_prefix _).eq_of_length he)
  rw [fileName, Mem.slice_add _ 0 16 24, hbuf, List.takeWhile_append, if_neg hshort]

/-- A battery step does not write a notification over a transfer message that waits for its dispatch. -/
def Loop.SparesTransfer (l : Loop) (a : LoopLabel) : Prop := filing.Spares l a

instance (l : Loop) (a : LoopLabel) : Decidable (Loop.SparesTransfer l a) := by
  unfold Loop.SparesTransfer; infer_instance

namespace Loop

/-- **A file is transferred exactly when its length is a multiple of sixteen**, whatever else the UE receives among
the messages of a `broadcast_sample` that completed and whatever its battery thread does between them. -/
theorem appended_eq_content_iff {fuel : Nat} {content : List UInt8} {filename : Mem.Block bufferSize}
    {tag v : MessageValue} {ms : List SMessage} (hname : 0 ∈ List.ofFn filename)
    (hms : broadcastSample fuel content filename tag v = some ms) {file : FileToRecv} {l₀ l : Loop}
    {as : List LoopLabel} (h₀ : filing.Start file l₀) (hC : Along step SparesTransfer l₀ as)
    (hrun : run step l₀ as = some l) (hp : l.pending = false)
    (hrecv : (receivedBy l.ue.trace).filter (fun m => m.messageType.isTransfer) = ms) :
    appended ((List.ofFn filename).takeWhile (· ≠ 0)) l.ue.trace = content ↔ 16 ∣ content.length := by
  obtain ⟨name, vs, hn, hsent, hvs⟩ := broadcastSample_blocks hms
  have hcalls : filing.answers l.ue.trace = filing.outputs file (receivedBy l.ue.trace) :=
    Responder.answers_of_run h₀ hC hrun hp
  have hopened : fileName name = (List.ofFn filename).takeWhile (· ≠ 0) := by
    rw [hn]
    exact fileName_setBuffer _ filename hname
  have hothers : filing.outputs file (receivedBy l.ue.trace) = filing.outputs file ms := by
    rw [← hrecv]
    exact (Mealy.outputs_filter _ (fun m hm => filing.ignores m hm) file _).symm
  have hbytes : appended (fileName name) l.ue.trace = (blocks content).flatten := by
    rw [← appended_fileCalls]
    change appended (fileName name) (filing.answers l.ue.trace) = _
    rw [hcalls, hothers, hsent, outputs_transfer, appended_transfer, hvs]
  rw [← hopened, hbytes]
  exact flatten_blocks_eq_iff content

/-- `"f"` and what follows it in memory. -/
def nameF : Mem.Block bufferSize := fun i => if i.val = 0 then 102 else 0

/-- The messages for a file, and a UE in its loop that receives them with a ping after the first. -/
def sent (content : List UInt8) : List SMessage :=
  (broadcastSample 9 content nameF SMessage.zero.messageValue SMessage.zero.messageValue).getD []

def receiveAll (content : List UInt8) : List LoopLabel :=
  ((sent content).take 1 ++ [aPing] ++ (sent content).drop 1).flatMap (fun m => [.receive (some m), .dispatch calm])

def inLoop : Loop :=
  { ue := { Ue.start (fun _ => 50) 0 with message := ⟨.rrcRequest, fun _ => 0⟩ }, pending := false }

theorem start_inLoop : filing.Start .uninitialised inLoop := ⟨rfl, rfl, rfl, rfl⟩

theorem sent_eq {content : List UInt8}
    (h : (broadcastSample 9 content nameF SMessage.zero.messageValue SMessage.zero.messageValue).isSome = true) :
    broadcastSample 9 content nameF SMessage.zero.messageValue SMessage.zero.messageValue = some (sent content) := by
  obtain ⟨ms, hms⟩ := Option.isSome_iff_exists.1 h
  rw [sent, hms]
  rfl

/-- Messages are the same when their bytes are. -/
theorem eq_of_bytes {ms ms' : List SMessage} (h : ms.map SMessage.bytes = ms'.map SMessage.bytes) : ms = ms' :=
  List.map_injective_iff.2 SMessage.bytes_injective h

/-- **One byte sent, sixteen appended.** -/
theorem padded_byte :
    filing.Start .uninitialised inLoop ∧
    broadcastSample 9 [7] nameF SMessage.zero.messageValue SMessage.zero.messageValue = some (sent [7]) ∧
    run step inLoop (receiveAll [7]) = some (finish step inLoop (receiveAll [7])) ∧
    (receivedBy (finish step inLoop (receiveAll [7])).ue.trace).filter (fun m => m.messageType.isTransfer) =
      sent [7] ∧
    appended [102] (finish step inLoop (receiveAll [7])).ue.trace = 7 :: List.replicate 15 0 :=
  ⟨start_inLoop, sent_eq (by decide +kernel), run_finish (by decide +kernel), eq_of_bytes (by decide +kernel),
    by decide +kernel⟩

/-- A file of two full blocks. -/
def twoBlocks : List UInt8 := (List.range 32).map UInt8.ofNat

theorem appended_eq_content_twoBlocks :
    appended ((List.ofFn nameF).takeWhile (· ≠ 0)) (finish step inLoop (receiveAll twoBlocks)).ue.trace =
      twoBlocks := by
  have hname : (0 : UInt8) ∈ List.ofFn nameF := by decide +kernel
  have hdiv : 16 ∣ twoBlocks.length := by decide +kernel
  exact (appended_eq_content_iff hname (sent_eq (by decide +kernel)) start_inLoop (by decide +kernel)
    (run_finish (by decide +kernel)) (by decide +kernel) (eq_of_bytes (by decide +kernel))).2 hdiv

end Loop

end Lte
