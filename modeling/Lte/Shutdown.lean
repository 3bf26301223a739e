import Lte.MainLoop
/-!
# Shutdown — what a UE does after an `enb_off`

The whole process: `main` from the preamble to its return, and the battery thread beside its loop.  Both threads look
for a shutdown in `received`, which only the attach reads into; the loop reads into `message`, which nothing looks at
but the test before `ue_off`, after it has been overwritten.  So an `enb_off` ends the process properly only as the
answer to the preamble; as the setup it is acted on by both threads, and in the loop by none.
-/
namespace Lte

open Runs

/-! ## The process -/

inductive BatteryPc
  | notStarted | test | update | ended
deriving DecidableEq

structure Proc where
  pc : MainPc
  batteryPc : BatteryPc
  ue : Ue

inductive ProcLabel
  | attach (a : AttachLabel)
  | test
  | receive (recv : Option (List UInt8))
  | dispatch (env : DispatchEnv)
  | join
  | ueOff (ok : Bool)
  | batteryTest
  | batteryUpdate (timeNow timeReset : Int) (ok : Bool)
  | signal

def UeCall.closes : UeCall → Bool
  | close | exitClose => true
  | _ => false

namespace Proc

/-- `return` from `main`: the end of the process closes the socket, if it is still open. -/
def exit (p : Proc) : Proc :=
  { p with pc := .returned, ue := if UeCall.close ∈ p.ue.trace then p.ue else p.ue.call .exitClose }

def step (p : Proc) : ProcLabel → Option Proc
  | .attach a =>
    match attachStep p.pc p.ue a with
    | none => none
    | some (.returned, ue) => some { p with ue := ue }.exit
    -- the battery thread is created after the setup
    | some (.loopTest, ue) => some { pc := .loopTest, batteryPc := .test, ue := ue }
    | some (pc, ue) => some { p with pc := pc, ue := ue }
  | .test =>
    if p.pc = .loopTest then
      if p.ue.running then
        match checkForShutdown p.ue with
        | (ue, off) => some { p with pc := if off then .join else .loopReceive, ue := ue }
      else some { p with pc := .join }
    else none
  | .receive recv =>
    if p.pc = .loopReceive then some { p with pc := .loopDispatch, ue := receiveMain p.ue recv } else none
  | .dispatch env =>
    if p.pc = .loopDispatch then some { p with pc := .loopTest, ue := dispatch p.ue env } else none
  | .join => if p.pc = .join ∧ p.batteryPc = .ended then some { p with pc := .sendUeOff } else none
  | .ueOff ok =>
    if p.pc = .sendUeOff then
      if p.ue.message.messageType ≠ .enbOff then some { p with ue := (sendUeOffSignal p.ue ok).1 }.exit
      else some p.exit
    else none
  | .batteryTest =>
    if p.batteryPc = .test then
      if p.ue.running then
        match checkForShutdown p.ue with
        | (ue, off) => some { p with batteryPc := if off then .ended else .update, ue := ue }
      else some { p with batteryPc := .ended }
    else none
  | .batteryUpdate timeNow timeReset ok =>
    if p.batteryPc = .update then
      some { p with batteryPc := .test, ue := updateBattery p.ue timeNow timeReset ok }
    else none
  -- the handler is installed after the setup
  | .signal => if p.batteryPc ≠ .notStarted then some { p with ue := { p.ue with running := false } } else none

def start (startRsrp : Fin 2 → Int) (now : Int) : Proc :=
  { pc := .sendPrachPreamble, batteryPc := .notStarted, ue := Ue.start startRsrp now }

end Proc

/-! ## After the shutdown -/

/-- Whether an `enb_off` has been received. -/
def heard (trace : List UeCall) : Bool := (receivedBy trace).any (fun m => m.messageType = .enbOff)

/-- The calls after the first `enb_off` was received. -/
def afterShutdown : List UeCall → List UeCall
  | [] => []
  | .recv m :: cs => if m.messageType = .enbOff then cs else afterShutdown cs
  | _ :: cs => afterShutdown cs

/-- After an `enb_off` the UE writes nothing and closes its socket at most once, and once when it has ended. -/
def Proc.Final (p : Proc) : Prop :=
  heard p.ue.trace = true →
    (∀ m ok, UeCall.write m ok ∉ afterShutdown p.ue.trace) ∧
    (afterShutdown p.ue.trace).countP UeCall.closes ≤ 1 ∧
    (p.pc = .returned → (afterShutdown p.ue.trace).countP UeCall.closes = 1)

theorem heard_append (t t' : List UeCall) : heard (t ++ t') = (heard t || heard t') := by
  simp [heard]

theorem afterShutdown_append_of_heard {t : List UeCall} (t' : List UeCall) (h : heard t = true) :
    afterShutdown (t ++ t') = afterShutdown t ++ t' := by
  induction t with
  | nil => cases h
  | cons c t ih =>
    cases c with
    | recv m =>
      by_cases hm : m.messageType = .enbOff
      · simp only [List.cons_append, afterShutdown, hm, if_true]
      · have ht : heard t = true := by simpa [heard, receivedBy, hm] using h
        simp only [List.cons_append, afterShutdown, hm, if_false]
        exact ih ht
    | _ =>
      have ht : heard t = true := by simpa [heard, receivedBy] using h
      exact ih ht

theorem afterShutdown_recv {t : List UeCall} {m : SMessage} (t' : List UeCall) (h : heard t = false)
    (hm : m.messageType = .enbOff) : afterShutdown (t ++ .recv m :: t') = t' := by
  induction t with
  | nil => simp [afterShutdown, hm]
  | cons c t ih =>
    cases c with
    | recv m' =>
      have hb : m'.messageType ≠ .enbOff ∧ heard t = false := by simpa [heard, receivedBy] using h
      simp only [List.cons_append, afterShutdown, hb.1, if_false]
      exact ih hb.2
    | _ =>
      have ht : heard t = false := by simpa [heard, receivedBy] using h
      exact ih ht

/-! ## What a step can do -/

namespace Proc

/-- The ways through a step, one constructor for each. -/
inductive Stepped (p : Proc) : ProcLabel → Proc → Prop
  | attachReturned {a : AttachLabel} {ue : Ue} (h : attachStep p.pc p.ue a = some (.returned, ue)) :
      Stepped p (.attach a) { p with ue := ue }.exit
  | attachEntered {a : AttachLabel} {ue : Ue} (h : attachStep p.pc p.ue a = some (.loopTest, ue)) :
      Stepped p (.attach a) { pc := .loopTest, batteryPc := .test, ue := ue }
  | attachWent {a : AttachLabel} {pc : MainPc} {ue : Ue} (h : attachStep p.pc p.ue a = some (pc, ue))
      (hret : pc ≠ .returned) (hloop : pc ≠ .loopTest) : Stepped p (.attach a) { p with pc := pc, ue := ue }
  | tested (hpc : p.pc = .loopTest) :
      Stepped p .test
        { p with
          pc := if (checkForShutdown p.ue).2 then .join else .loopReceive
          ue := (checkForShutdown p.ue).1 }
  | stopped (hpc : p.pc = .loopTest) : Stepped p .test { p with pc := .join }
  | received {recv : Option (List UInt8)} (hpc : p.pc = .loopReceive) :
      Stepped p (.receive recv) { p with pc := .loopDispatch, ue := receiveMain p.ue recv }
  | dispatched {env : DispatchEnv} (hpc : p.pc = .loopDispatch) :
      Stepped p (.dispatch env) { p with pc := .loopTest, ue := dispatch p.ue env }
  | joined (hpc : p.pc = .join) (hb : p.batteryPc = .ended) : Stepped p .join { p with pc := .sendUeOff }
  | wroteUeOff {ok : Bool} (hpc : p.pc = .sendUeOff) :
      Stepped p (.ueOff ok) { p with ue := (sendUeOffSignal p.ue ok).1 }.exit
  | sparedUeOff {ok : Bool} (hpc : p.pc = .sendUeOff) (hoff : p.ue.message.messageType = .enbOff) :
      Stepped p (.ueOff ok) p.exit
  | batteryTested (hb : p.batteryPc = .test) :
      Stepped p .batteryTest
        { p with
          batteryPc := if (checkForShutdown p.ue).2 then .ended else .update
          ue := (checkForShutdown p.ue).1 }
  | batteryStopped (hb : p.batteryPc = .test) : Stepped p .batteryTest { p with batteryPc := .ended }
  | batteryUpdated {timeNow timeReset : Int} {ok : Bool} (hb : p.batteryPc = .update) :
      Stepped p (.batteryUpdate timeNow timeReset ok)
        { p with batteryPc := .test, ue := updateBattery p.ue timeNow timeReset ok }
  | signalled : Stepped p .signal { p with ue := { p.ue with running := false } }

/-- **Every step is one of these.** -/
theorem step_cases {p p' : Proc} {a : ProcLabel} (h : step p a = some p') : Stepped p a p' := by
  cases a with
  | attach a =>
    simp only [step] at h
    split at h
    · cases h
    · rename_i ue hs
      cases h
      exact .attachReturned hs
    · rename_i ue hs
      cases h
      exact .attachEntered hs
    · rename_i pc ue hret hloop hs
      cases h
      exact .attachWent hs (by simpa using hret) (by simpa using hloop)
  | test =>
    simp only [step] at h
    split at h
    · rename_i hpc
      split at h
      · cases h
        exact .tested hpc
      · cases h
        exact .stopped hpc
    · cases h
  | receive recv =>
    simp only [step] at h
    split at h
    · rename_i hpc
      cases h
      exact .received hpc
    · cases h
  | dispatch env =>
    simp only [step] at h
    split at h
    · rename_i hpc
      cases h
      exact .dispatched hpc
    · cases h
  | join =>
    simp only [step] at h
    split at h
    · rename_i hc
      cases h
      exact .joined hc.1 hc.2
    · cases h
  | ueOff ok =>
    simp only [step] at h
    split at h
    · rename_i hpc
      by_cases hoff : p.ue.message.messageType = .enbOff
      · rw [if_neg (not_not.2 hoff)] at h
        cases h
        exact .sparedUeOff hpc hoff
      · rw [if_pos hoff] at h
        cases h
        exact .wroteUeOff hpc
    · cases h
  | batteryTest =>
    simp only [step] at h
    split at h
    · rename_i hb
      split at h
      · cases h
        exact .batteryTested hb
      · cases h
        exact .batteryStopped hb
    · cases h
  | batteryUpdate n r ok =>
    simp only [step] at h
    split at h
    · rename_i hb
      cases h
      exact .batteryUpdated hb
    · cases h
  | signal =>
    simp only [step] at h
    split at h
    · cases h
      exact .signalled
    · cases h

/-- The step is a `recv` that leaves an `enb_off`. -/
def hears (p : Proc) : ProcLabel → Bool
  | .attach a => a.received.any (fun bs => (p.ue.received.readInto bs).messageType = .enbOff)
  | .receive recv => recv.any (fun bs => (p.ue.message.readInto bs).messageType = .enbOff)
  | _ => false

theorem exit_trace (p : Proc) : ∃ cs, p.exit.ue.trace = p.ue.trace ++ cs ∧ receivedBy cs = [] := by
  unfold exit
  simp only
  split
  · exact ⟨[], (List.append_nil _).symm, rfl⟩
  · exact ⟨[.exitClose], rfl, rfl⟩

theorem checkForShutdown_trace (u : Ue) :
    ∃ cs, (checkForShutdown u).1.trace = u.trace ++ cs ∧ receivedBy cs = [] := by
  unfold checkForShutdown
  split
  · exact ⟨[.close], rfl, rfl⟩
  · exact ⟨[], (List.append_nil _).symm, rfl⟩

/-- **A step adds to the trace**, and an `enb_off` only where it hears one. -/
theorem step_trace {p p' : Proc} {a : ProcLabel} (h : step p a = some p') :
    ∃ cs, p'.ue.trace = p.ue.trace ++ cs ∧ (heard cs = true → p.hears a = true) := by
  have hquiet : ∀ {t : List UeCall}, (∃ cs, t = p.ue.trace ++ cs ∧ receivedBy cs = []) →
      ∃ cs, t = p.ue.trace ++ cs ∧ (heard cs = true → p.hears a = true) := by
    rintro t ⟨cs, hcs, hnone⟩
    refine ⟨cs, hcs, fun hh => ?_⟩
    rw [heard, hnone] at hh
    cases hh
  have hattach : ∀ {b : AttachLabel} {pc : MainPc} {ue : Ue}, attachStep p.pc p.ue b = some (pc, ue) →
      ∃ cs, ue.trace = p.ue.trace ++ cs ∧ (heard cs = true → p.hears (.attach b) = true) := by
    intro b pc ue hs
    obtain ⟨cs, hcs, hrecv, -⟩ := attachStep_trace hs
    refine ⟨cs, hcs, fun hh => ?_⟩
    rw [heard, hrecv] at hh
    unfold hears
    cases hr : b.received <;> simp_all
  cases step_cases h with
  | @attachReturned _ ue hs =>
    obtain ⟨cs, hcs, hh⟩ := hattach hs
    obtain ⟨cs', hcs', hnone⟩ := exit_trace { p with ue := ue }
    refine ⟨cs ++ cs', by rw [hcs', hcs, List.append_assoc], ?_⟩
    rw [heard_append, heard, heard, hnone]
    simpa [heard] using hh
  | attachEntered hs => exact hattach hs
  | attachWent hs => exact hattach hs
  | tested => exact hquiet (checkForShutdown_trace p.ue)
  | @received recv =>
    cases recv with
    | none => exact ⟨[], (List.append_nil _).symm, fun hh => by cases hh⟩
    | some bs => exact ⟨_, rfl, fun hh => by simpa [heard, receivedBy, hears] using hh⟩
  | @dispatched env => exact hquiet (dispatch_trace p.ue env)
  | @wroteUeOff ok =>
    obtain ⟨cs, hcs, hnone⟩ := exit_trace { p with ue := (sendUeOffSignal p.ue ok).1 }
    refine hquiet ⟨.write { p.ue.message with messageType := .ueOff } ok :: cs, ?_, hnone⟩
    rw [hcs]
    exact List.append_assoc _ _ _
  | sparedUeOff => exact hquiet (exit_trace p)
  | batteryTested => exact hquiet (checkForShutdown_trace p.ue)
  | @batteryUpdated n r ok =>
    rcases updateBattery_frame p.ue n r ok with ⟨b, he⟩ | ⟨-, t, b, -, he⟩
    · exact hquiet ⟨[], by rw [he]; exact (List.append_nil _).symm, rfl⟩
    · exact hquiet ⟨_, by rw [he]; rfl, rfl⟩
  | stopped => exact hquiet ⟨[], (List.append_nil _).symm, rfl⟩
  | joined => exact hquiet ⟨[], (List.append_nil _).symm, rfl⟩
  | batteryStopped => exact hquiet ⟨[], (List.append_nil _).symm, rfl⟩
  | signalled => exact hquiet ⟨[], (List.append_nil _).symm, rfl⟩

/-- The control points at which the test before `ue_off` may still find what the buffer holds. -/
def Clear (p : Proc) : Prop :=
  p.pc = .receiveRrcSetup ∨ p.pc = .loopTest ∨ p.pc = .loopReceive ∨ p.pc = .join ∨ p.pc = .sendUeOff →
    p.ue.message.messageType ≠ .enbOff

/-- What holds in every run: the battery thread lives beside the loop, no shutdown was seen before it, and the buffer
holds no `enb_off` but between a `recv` and its dispatch. -/
structure Inv (p : Proc) : Prop where
  battery : p.batteryPc = .test ∨ p.batteryPc = .update →
    p.pc.attaching = false ∧ p.pc ≠ .sendUeOff ∧ p.pc ≠ .returned
  unclosed : p.pc.attaching = true → UeCall.close ∉ p.ue.trace
  clear : Clear p

theorem inv_start (startRsrp : Fin 2 → Int) (now : Int) : Inv (start startRsrp now) where
  battery h := by rcases h with h | h <;> cases h
  unclosed _ := List.not_mem_nil
  clear h := by rcases h with h | h | h | h | h <;> cases h

theorem inv_exit {p : Proc} (h : p.batteryPc ≠ .test ∧ p.batteryPc ≠ .update) : Inv p.exit where
  battery hb := by
    rcases hb with hb | hb
    · exact absurd hb h.1
    · exact absurd hb h.2
  unclosed ha := by cases ha
  clear hc := by rcases hc with hc | hc | hc | hc | hc <;> cases hc

theorem checkForShutdown_message (u : Ue) : (checkForShutdown u).1.message = u.message := by
  unfold checkForShutdown
  split <;> rfl

/-- The loop's test leads on into the loop or out to the join. -/
theorem tested_pc (off : Bool) :
    (if off then MainPc.join else .loopReceive).attaching = false ∧
      (if off then MainPc.join else .loopReceive) ≠ .sendUeOff ∧
      (if off then MainPc.join else .loopReceive) ≠ .returned := by
  cases off <;> decide

/-- No battery thread runs beside the attach. -/
theorem Inv.idle {p : Proc} (h : Inv p) (ha : p.pc.attaching = true) :
    p.batteryPc ≠ .test ∧ p.batteryPc ≠ .update := by
  constructor
  · intro hb
    cases (h.battery (.inl hb)).1.symm.trans ha
  · intro hb
    cases (h.battery (.inr hb)).1.symm.trans ha

/-- **Every step keeps the invariant.** -/
theorem inv_step {p p' : Proc} {a : ProcLabel} (h : Inv p) (hs : step p a = some p') : Inv p' := by
  have hlive : ∀ {pc : MainPc}, pc = .loopTest ∨ pc = .loopReceive ∨ pc = .loopDispatch ∨ pc = .join →
      pc.attaching = false ∧ pc ≠ .sendUeOff ∧ pc ≠ .returned := by
    rintro pc (rfl | rfl | rfl | rfl) <;> decide
  cases step_cases hs with
  | attachReturned hst => exact inv_exit (h.idle (attachStep_pc hst).1)
  | attachEntered hst =>
    obtain ⟨-, -, -, hmsg⟩ := attachStep_pc hst
    obtain ⟨hpc, hsame⟩ := hmsg rfl
    refine ⟨fun _ => hlive (.inl rfl), fun ha => (nomatch ha), fun _ => ?_⟩
    dsimp only
    rw [hsame]
    exact h.clear (.inl hpc)
  | @attachWent a pc ue hst hret hloop =>
    obtain ⟨ha, hpc, hreq, -⟩ := attachStep_pc hst
    obtain ⟨hb1, hb2⟩ := h.idle ha
    obtain ⟨cs, hcs, -, hopen⟩ := attachStep_trace hst
    refine ⟨fun hb => ?_, fun _ => ?_, fun hc => ?_⟩
    · rcases hb with hb | hb
      · exact absurd hb hb1
      · exact absurd hb hb2
    · dsimp only
      rw [hcs, List.mem_append]
      rintro (hm | hm)
      · exact h.unclosed ha hm
      · exact hopen hm
    · have hattaching : pc.attaching = true := (hpc.resolve_right (not_or.2 ⟨hloop, hret⟩))
      have hsetup : pc = .receiveRrcSetup := by
        rcases hc with hc | hc | hc | hc | hc
        · exact hc
        all_goals
          dsimp only at hc
          rw [hc] at hattaching
          cases hattaching
      dsimp only
      rw [hreq hsetup]
      exact fun he => (nomatch he)
  | tested hpc =>
    have hmsg := checkForShutdown_message p.ue
    refine ⟨fun _ => tested_pc _, fun ha => ?_, fun _ => hmsg.symm ▸ h.clear (.inr (.inl hpc))⟩
    cases (tested_pc _).1.symm.trans ha
  | stopped hpc =>
    exact ⟨fun _ => hlive (.inr (.inr (.inr rfl))), fun ha => (nomatch ha), fun _ => h.clear (.inr (.inl hpc))⟩
  | received =>
    refine ⟨fun _ => hlive (.inr (.inr (.inl rfl))), fun ha => (nomatch ha), fun hc => ?_⟩
    rcases hc with hc | hc | hc | hc | hc <;> cases hc
  | dispatched =>
    -- every iteration ends with -1 in the buffer
    exact ⟨fun _ => hlive (.inl rfl), fun ha => (nomatch ha), fun _ he => (nomatch he)⟩
  | joined hpc hb =>
    refine ⟨fun hb' => ?_, fun ha => (nomatch ha), fun _ => h.clear (.inr (.inr (.inr (.inl hpc))))⟩
    rcases hb' with hb' | hb' <;> cases hb.symm.trans hb'
  | wroteUeOff hpc =>
    exact inv_exit ⟨fun hb => (h.battery (.inl hb)).2.1 hpc, fun hb => (h.battery (.inr hb)).2.1 hpc⟩
  | sparedUeOff hpc =>
    exact inv_exit ⟨fun hb => (h.battery (.inl hb)).2.1 hpc, fun hb => (h.battery (.inr hb)).2.1 hpc⟩
  | batteryTested hb =>
    have halive := h.battery (.inl hb)
    refine ⟨fun _ => halive, fun ha => ?_, fun hc => ?_⟩
    · cases halive.1.symm.trans ha
    · dsimp only
      rw [checkForShutdown_message]
      exact h.clear hc
  | batteryStopped hb => exact ⟨fun _ => h.battery (.inl hb), h.unclosed, h.clear⟩
  | @batteryUpdated n r ok hb =>
    have halive := h.battery (.inr hb)
    refine ⟨fun _ => halive, fun ha => ?_, fun hc => ?_⟩
    · cases halive.1.symm.trans ha
    · dsimp only
      rcases updateBattery_frame p.ue n r ok with ⟨b, he⟩ | ⟨-, t, b, ht, he⟩
      · rw [he]
        exact h.clear hc
      · rw [he]
        change t ≠ .enbOff
        rcases ht with rfl | rfl <;> exact fun he => (nomatch he)
  | signalled => exact ⟨h.battery, h.unclosed, h.clear⟩

/-! ## When the shutdown is final -/

/-- An `enb_off` is received as the answer to the preamble, or not at all. -/
def OnlyFirst (p : Proc) (a : ProcLabel) : Prop := p.hears a = true → p.pc = .receivePrachResponse

instance (p : Proc) (a : ProcLabel) : Decidable (OnlyFirst p a) := by unfold OnlyFirst; infer_instance

/-- A UE that has heard an `enb_off` returned at once, and the end of its process closed the socket. -/
def Obeyed (p : Proc) : Prop :=
  heard p.ue.trace = true → p.pc = .returned ∧ afterShutdown p.ue.trace = [.exitClose]

/-- A UE that has heard an `enb_off` later, and if it has returned has written since. -/
structure Ignored (p : Proc) : Prop where
  heard : heard p.ue.trace = true
  left : p.pc.attaching = false
  wrote : p.pc = .returned → ∃ m ok, UeCall.write m ok ∈ afterShutdown p.ue.trace

theorem attachStep_left {pc : MainPc} {u : Ue} {a : AttachLabel} {r : MainPc × Ue} (hleft : pc.attaching = false) :
    attachStep pc u a ≠ some r := by
  intro hst
  cases hleft.symm.trans (attachStep_pc hst).1

/-- Nothing happens after the return but a signal. -/
theorem step_returned {p p' : Proc} {a : ProcLabel} (h : Inv p) (hpc : p.pc = .returned) (hs : step p a = some p') :
    p'.pc = .returned ∧ p'.ue.trace = p.ue.trace := by
  have hleft : p.pc.attaching = false := by rw [hpc]; rfl
  cases step_cases hs with
  | attachReturned hst => exact absurd hst (attachStep_left hleft)
  | attachEntered hst => exact absurd hst (attachStep_left hleft)
  | attachWent hst => exact absurd hst (attachStep_left hleft)
  | tested hpc' => cases hpc.symm.trans hpc'
  | stopped hpc' => cases hpc.symm.trans hpc'
  | received hpc' => cases hpc.symm.trans hpc'
  | dispatched hpc' => cases hpc.symm.trans hpc'
  | joined hpc' => cases hpc.symm.trans hpc'
  | wroteUeOff hpc' => cases hpc.symm.trans hpc'
  | sparedUeOff hpc' => cases hpc.symm.trans hpc'
  | batteryTested hb => exact absurd hpc (h.battery (.inl hb)).2.2
  | batteryStopped hb => exact absurd hpc (h.battery (.inl hb)).2.2
  | batteryUpdated hb => exact absurd hpc (h.battery (.inr hb)).2.2
  | signalled => exact ⟨hpc, rfl⟩

/-- **An `enb_off` as the answer to the preamble** ends the process. -/
theorem returned_of_hears {p p' : Proc} {a : ProcLabel} (h : Inv p) (hnew : heard p.ue.trace = false)
    (hh : p.hears a = true) (hpc : p.pc = .receivePrachResponse) (hs : step p a = some p') :
    p'.pc = .returned ∧ afterShutdown p'.ue.trace = [.exitClose] := by
  have hopen : UeCall.close ∉ p.ue.trace := h.unclosed (by rw [hpc]; rfl)
  cases a with
  | attach a =>
    cases a with
    | prachResponse recv =>
      simp only [hears, AttachLabel.received, Option.any_eq_true, decide_eq_true_eq] at hh
      obtain ⟨bs, rfl, hoff⟩ := hh
      have hrecv : receivePrachResponse p.ue (some bs) =
          ({ p.ue with received := p.ue.received.readInto bs }.call (.recv (p.ue.received.readInto bs)), 1) := by
        have hne : (p.ue.received.readInto bs).messageType ≠ .randomAccessResponse := by
          rw [hoff]
          exact fun he => (nomatch he)
        simp only [receivePrachResponse, Ue.call, if_neg hne]
      have hstep : attachStep p.pc p.ue (.prachResponse (some bs)) = some (.returned,
          { p.ue with received := p.ue.received.readInto bs }.call (.recv (p.ue.received.readInto bs))) := by
        rw [attachStep, if_pos hpc, hrecv]
        rfl
      simp only [step, hstep, Option.some.injEq] at hs
      subst hs
      refine ⟨rfl, ?_⟩
      have hstill : UeCall.close ∉ p.ue.trace ++ [UeCall.recv (p.ue.received.readInto bs)] := by
        simpa using hopen
      simp only [exit, Ue.call, if_neg hstill, List.append_assoc, List.singleton_append]
      exact afterShutdown_recv _ hnew hoff
    | sendPreamble _ _ => cases hh
    | sendRequest _ _ => cases hh
    | setup _ _ => simp [step, attachStep, hpc] at hs
  | receive recv => simp [step, hpc] at hs
  | _ => cases hh

theorem obeyed_step {p p' : Proc} {a : ProcLabel} (h : Inv p) (ho : Obeyed p) (hC : OnlyFirst p a)
    (hs : step p a = some p') : Obeyed p' := by
  intro hh
  obtain ⟨cs, hcs, hcs'⟩ := step_trace hs
  cases hp : heard p.ue.trace with
  | true =>
    obtain ⟨hpc, hafter⟩ := ho hp
    obtain ⟨hpc', hsame⟩ := step_returned h hpc hs
    exact ⟨hpc', by rw [hsame, hafter]⟩
  | false =>
    rw [hcs, heard_append, hp, Bool.false_or] at hh
    exact returned_of_hears h hp (hcs' hh) (hC (hcs' hh)) hs

/-- An `enb_off` received anywhere else leaves the UE running. -/
theorem ignored_of_breach {p p' : Proc} {a : ProcLabel} (hC : ¬ OnlyFirst p a) (hs : step p a = some p') :
    Ignored p' := by
  unfold OnlyFirst at hC
  simp only [Classical.not_imp] at hC
  obtain ⟨hh, hpc⟩ := hC
  cases a with
  | attach a =>
    cases a with
    | prachResponse recv => simp [step, attachStep, hpc] at hs
    | sendPreamble _ _ => cases hh
    | sendRequest _ _ => cases hh
    | setup recv ok =>
      by_cases hpc' : p.pc = .receiveRrcSetup
      · have hstep : attachStep p.pc p.ue (.setup recv ok) = some (.loopTest, (receiveRrcSetup p.ue recv ok).1) := by
          rw [attachStep, if_pos hpc']
        obtain ⟨cs, hcs, hrecv, -⟩ := attachStep_trace hstep
        simp only [step, hstep, Option.some.injEq] at hs
        subst hs
        refine ⟨?_, rfl, by intro he; cases he⟩
        change heard (receiveRrcSetup p.ue recv ok).1.trace = true
        rw [hcs, heard_append, Bool.or_eq_true]
        right
        simp only [hears, Option.any_eq_true] at hh
        obtain ⟨bs, hbs, hoff⟩ := hh
        rw [heard, hrecv, hbs]
        simpa using hoff
      · simp [step, attachStep, hpc'] at hs
  | receive recv =>
    simp only [step] at hs
    split at hs
    · cases hs
      refine ⟨?_, rfl, by intro he; cases he⟩
      simp only [hears, Option.any_eq_true] at hh
      obtain ⟨bs, rfl, hoff⟩ := hh
      change heard (p.ue.trace ++ [.recv (p.ue.message.readInto bs)]) = true
      rw [heard_append, Bool.or_eq_true]
      right
      simpa [heard, receivedBy] using hoff
    · cases hs
  | _ => cases hh

/-- A UE past its attach returns through `ue_off`, which the buffer does not stop. -/
theorem step_left {p p' : Proc} {a : ProcLabel} (h : Inv p) (hleft : p.pc.attaching = false)
    (hs : step p a = some p') :
    p'.pc.attaching = false ∧
      (p'.pc = .returned → p.pc = .returned ∨ ∃ m ok cs, p'.ue.trace = p.ue.trace ++ UeCall.write m ok :: cs) := by
  cases step_cases hs with
  | attachReturned hst => exact absurd hst (attachStep_left hleft)
  | attachEntered hst => exact absurd hst (attachStep_left hleft)
  | attachWent hst => exact absurd hst (attachStep_left hleft)
  | tested => exact ⟨(tested_pc _).1, fun he => absurd he (tested_pc _).2.2⟩
  | @wroteUeOff ok =>
    refine ⟨rfl, fun _ => .inr ?_⟩
    obtain ⟨cs, hcs, -⟩ := exit_trace { p with ue := (sendUeOffSignal p.ue ok).1 }
    refine ⟨{ p.ue.message with messageType := .ueOff }, ok, cs, ?_⟩
    rw [hcs]
    exact List.append_assoc _ _ _
  | sparedUeOff hpc hoff => exact absurd hoff (h.clear (.inr (.inr (.inr (.inr hpc)))))
  | stopped => exact ⟨rfl, fun he => (nomatch he)⟩
  | received => exact ⟨rfl, fun he => (nomatch he)⟩
  | dispatched => exact ⟨rfl, fun he => (nomatch he)⟩
  | joined => exact ⟨rfl, fun he => (nomatch he)⟩
  -- the battery thread and the handler leave `main` where it is
  | batteryTested => exact ⟨hleft, .inl⟩
  | batteryStopped => exact ⟨hleft, .inl⟩
  | batteryUpdated => exact ⟨hleft, .inl⟩
  | signalled => exact ⟨hleft, .inl⟩

theorem ignored_step {p p' : Proc} {a : ProcLabel} (h : Inv p) (hi : Ignored p) (hs : step p a = some p') :
    Ignored p' := by
  obtain ⟨cs, hcs, -⟩ := step_trace hs
  obtain ⟨hleft, hret⟩ := step_left h hi.left hs
  have hafter : ∀ t, p'.ue.trace = p.ue.trace ++ t → afterShutdown p'.ue.trace = afterShutdown p.ue.trace ++ t := by
    intro t ht
    rw [ht]
    exact afterShutdown_append_of_heard t hi.heard
  refine ⟨?_, hleft, fun hpc => ?_⟩
  · rw [hcs, heard_append, hi.heard, Bool.true_or]
  · rcases hret hpc with hpc | ⟨m, ok, t, ht⟩
    · obtain ⟨m, ok, hm⟩ := hi.wrote hpc
      refine ⟨m, ok, ?_⟩
      rw [hafter cs hcs]
      exact List.mem_append_left cs hm
    · refine ⟨m, ok, ?_⟩
      rw [hafter _ ht]
      exact List.mem_append_right _ List.mem_cons_self

/-- **Exactly when a shutdown is final.**  In a run in which an `enb_off` is received as the answer to the preamble or
not at all, it is final in every state; and a run that ended keeps it only if it is such a run. -/
theorem final_iff_of_run {startRsrp : Fin 2 → Int} {now : Int} {as : List ProcLabel} {p : Proc}
    (hrun : run step (start startRsrp now) as = some p) :
    (Along step OnlyFirst (start startRsrp now) as → Final p) ∧
    (p.pc = .returned → (Final p ↔ Along step OnlyFirst (start startRsrp now) as)) := by
  have hfinal : Obeyed p → Final p := by
    intro ho hh
    obtain ⟨-, hafter⟩ := ho hh
    rw [hafter]
    exact ⟨fun m ok hm => by simp at hm, Nat.le_refl 1, fun _ => rfl⟩
  have hnew : Obeyed (start startRsrp now) := fun hh => (nomatch hh)
  rcases run_inv_or (C := OnlyFirst) (I := fun p => Inv p ∧ Obeyed p) (K := fun p => Inv p ∧ Ignored p)
    (fun _ _ _ hI hC hs => ⟨inv_step hI.1 hs, obeyed_step hI.1 hI.2 hC hs⟩)
    (fun _ _ _ hI hC hs => ⟨inv_step hI.1 hs, ignored_of_breach hC hs⟩)
    (fun _ _ _ hK hs => ⟨inv_step hK.1 hs, ignored_step hK.1 hK.2 hs⟩)
    ⟨inv_start startRsrp now, hnew⟩ hrun with ⟨hC, -, ho⟩ | ⟨hC, -, hi⟩
  · exact ⟨fun _ => hfinal ho, fun _ => iff_of_true (hfinal ho) hC⟩
  · refine ⟨fun h => absurd h hC, fun hpc => iff_of_false (fun hf => ?_) hC⟩
    obtain ⟨m, ok, hm⟩ := hi.wrote hpc
    exact (hf hi.heard).1 m ok hm

def offMessage : SMessage := ⟨.enbOff, fun _ => 0⟩

/-- A UE whose preamble is answered by an `enb_off`. -/
def offAtOnce : List ProcLabel := [.attach (.sendPreamble 31 true), .attach (.prachResponse (some offMessage.bytes))]

theorem final_of_first :
    heard (finish step (start (fun _ => 50) 0) offAtOnce).ue.trace = true ∧
      Final (finish step (start (fun _ => 50) 0) offAtOnce) := by
  have hrun : run step (start (fun _ => 50) 0) offAtOnce = some (finish step (start (fun _ => 50) 0) offAtOnce) :=
    run_finish (by decide +kernel)
  exact ⟨by decide +kernel, (final_iff_of_run hrun).1 (by decide +kernel)⟩

/-- A UE that attaches and receives in its loop an `enb_off` and then a ping. -/
def offInLoop : List ProcLabel :=
  [.attach (.sendPreamble 31 true),
    .attach (.prachResponse (some
      (SMessage.mk .randomAccessResponse (SMessage.zero.messageValue.setRapid (valueExpected 31))).bytes)),
    .attach (.sendRequest ⟨1, 1⟩ true), .attach (.setup (some (SMessage.mk .rrcSetup (fun _ => 0)).bytes) true),
    .test, .receive (some offMessage.bytes), .dispatch Loop.calm, .test, .receive (some Loop.aPing.bytes),
    .dispatch Loop.calm]

/-- **A pong after the shutdown.** -/
theorem pong_after_shutdown :
    ∃ p, run step (start (fun _ => 50) 0) offInLoop = some p ∧ heard p.ue.trace = true ∧ ¬ Final p := by
  have hheard : heard (finish step (start (fun _ => 50) 0) offInLoop).ue.trace = true := by decide +kernel
  have hpong : ((delivered (afterShutdown (finish step (start (fun _ => 50) 0) offInLoop).ue.trace)).map
      SMessage.messageType) = [.pong] := by decide +kernel
  refine ⟨_, run_finish (by decide +kernel), hheard, fun hf => ?_⟩
  have hone : (delivered (afterShutdown (finish step (start (fun _ => 50) 0) offInLoop).ue.trace)).length = 1 := by
    rw [← List.length_map SMessage.messageType, hpong]
    rfl
  obtain ⟨m, hm⟩ := List.length_eq_one_iff.1 hone
  have hwrite : UeCall.write m true ∈ afterShutdown (finish step (start (fun _ => 50) 0) offInLoop).ue.trace :=
    mem_delivered.1 (by rw [hm]; exact List.mem_singleton_self m)
  exact (hf hheard).1 m true hwrite

end Proc

end Lte
