import Lte.Projection
import Lte.Shutdown
/-!
# Protocol — the order in which a UE writes

Whatever the server sends, whatever the battery thread and the signal handler do beside the loop and whichever writes
fail, what a UE writes over its whole life is one `random_access_request`, one `rrc_request`, at most one
`rrc_complete` before any traffic of the loop, and at most one `ue_off`, after which it writes nothing
(`writes_follow`).
-/
namespace Lte

open Runs

/-! ## The order -/

/-- What the loop and the battery thread write. -/
def EMessageType.ofLoop : EMessageType → Bool
  | pong | ueBatteryLow | ueBatteryHigh | measurementReport => true
  | _ => false

/-- How far a UE is in what it writes; `ended` when it writes nothing more. -/
inductive UePhase
  | silent | requested | asked | attached | ended
deriving DecidableEq

namespace UePhase

/-- The phase after a write of a message of the type, with its outcome.  A failed write ends the process where `main`
tests its status: in the attach but for `rrc_complete`. -/
def next (ph : UePhase) (w : EMessageType × Bool) : Option UePhase :=
  match ph, w.1 with
  | silent, .randomAccessRequest => some (if w.2 then requested else ended)
  | requested, .rrcRequest => some (if w.2 then asked else ended)
  | asked, .rrcComplete => some attached
  | asked, .ueOff => some ended
  | attached, .ueOff => some ended
  | asked, t => if t.ofLoop then some attached else none
  | attached, t => if t.ofLoop then some attached else none
  | _, _ => none

/-- The phases in which `main` may be at a control point. -/
def At : MainPc → UePhase → Prop
  | .sendPrachPreamble, ph => ph = silent
  | .receivePrachResponse, ph => ph = requested
  | .sendRrcConnectionRequest, ph => ph = requested
  | .receiveRrcSetup, ph => ph = asked
  | .returned, _ => True
  | _, ph => ph = asked ∨ ph = attached

/-- The ways from a phase to the next, one constructor for each. -/
inductive Advanced : UePhase → EMessageType × Bool → UePhase → Prop
  | requested (ok : Bool) : Advanced silent (.randomAccessRequest, ok) (if ok then .requested else .ended)
  | asked (ok : Bool) : Advanced .requested (.rrcRequest, ok) (if ok then .asked else .ended)
  | completed (ok : Bool) : Advanced .asked (.rrcComplete, ok) .attached
  | looped {ph : UePhase} (hph : ph = .asked ∨ ph = .attached) {t : EMessageType} (ht : t.ofLoop = true) (ok : Bool) :
      Advanced ph (t, ok) .attached
  | left {ph : UePhase} (hph : ph = .asked ∨ ph = .attached) (ok : Bool) : Advanced ph (.ueOff, ok) .ended

/-- **Every advance is one of these.** -/
theorem next_cases {ph ph' : UePhase} {w : EMessageType × Bool} (h : next ph w = some ph') : Advanced ph w ph' := by
  obtain ⟨t, ok⟩ := w
  have hloop : ∀ {ph : UePhase}, ph = asked ∨ ph = attached → (if t.ofLoop then some attached else none) = some ph' →
      Advanced ph (t, ok) ph' := by
    intro ph hph h
    split at h
    · rename_i ht
      cases h
      exact .looped hph ht ok
    · cases h
  unfold next at h
  split at h
  · rename_i ht
    cases h
    cases ht
    exact .requested ok
  · rename_i ht
    cases h
    cases ht
    exact .asked ok
  · rename_i ht
    cases h
    cases ht
    exact .completed ok
  · rename_i ht
    cases h
    cases ht
    exact .left (.inl rfl) ok
  · rename_i ht
    cases h
    cases ht
    exact .left (.inr rfl) ok
  · exact hloop (.inl rfl) h
  · exact hloop (.inr rfl) h
  · cases h

theorem next_ofLoop {ph : UePhase} (hph : ph = asked ∨ ph = attached) {w : EMessageType × Bool}
    (hw : w.1.ofLoop = true) : next ph w = some attached := by
  obtain ⟨t, ok⟩ := w
  rcases hph with rfl | rfl <;> cases t <;> first | rfl | cases hw

theorem run_ofLoop : ∀ {ws : List (EMessageType × Bool)} {ph : UePhase}, ph = asked ∨ ph = attached →
    (∀ w ∈ ws, w.1.ofLoop = true) → ∃ ph', run next ph ws = some ph' ∧ (ph' = asked ∨ ph' = attached)
  | [], ph, hph, _ => ⟨ph, rfl, hph⟩
  | w :: ws, ph, hph, hws => by
    obtain ⟨ph', hrun, hph'⟩ := run_ofLoop (.inr rfl) fun v hv => hws v (List.mem_cons_of_mem w hv)
    exact ⟨ph', run_cons_some.2 ⟨attached, next_ofLoop hph (hws w List.mem_cons_self), hrun⟩, hph'⟩

end UePhase

/-- The types of the messages a UE wrote, with the outcomes of the writes. -/
def writes (trace : List UeCall) : List (EMessageType × Bool) :=
  trace.filterMap (fun c => match c with
    | .write m ok => some (m.messageType, ok)
    | _ => none)

@[simp] theorem writes_append (t t' : List UeCall) : writes (t ++ t') = writes t ++ writes t' :=
  List.filterMap_append

/-! ## What each call writes -/

/-- From `u` to `u'` the UE wrote `ws`. -/
def Wrote (u u' : Ue) (ws : List (EMessageType × Bool)) : Prop := writes u'.trace = writes u.trace ++ ws

/-- From `u` to `u'` the UE wrote what the loop writes. -/
def WroteOfLoop (u u' : Ue) : Prop := ∃ ws, Wrote u u' ws ∧ ∀ w ∈ ws, w.1.ofLoop = true

section
variable {u u₁ u₂ : Ue}

theorem Wrote.of_append {cs : List UeCall} {ws : List (EMessageType × Bool)} (h : u₁.trace = u.trace ++ cs)
    (hws : writes cs = ws) : Wrote u u₁ ws := by
  rw [Wrote, h, writes_append, hws]

theorem Wrote.of_same (h : u₁.trace = u.trace) : Wrote u u₁ [] := by
  rw [Wrote, h, List.append_nil]

theorem Wrote.trans {ws ws' : List (EMessageType × Bool)} (h : Wrote u u₁ ws) (h' : Wrote u₁ u₂ ws') :
    Wrote u u₂ (ws ++ ws') := by
  rw [Wrote, h', h, List.append_assoc]

theorem Wrote.ofLoop {t : EMessageType} {ok : Bool} (h : Wrote u u₁ [(t, ok)]) (ht : t.ofLoop = true) :
    WroteOfLoop u u₁ := by
  refine ⟨_, h, fun w hw => ?_⟩
  rw [List.mem_singleton.1 hw]
  exact ht

theorem Wrote.quiet (h : Wrote u u₁ []) : WroteOfLoop u u₁ := ⟨[], h, fun w hw => absurd hw List.not_mem_nil⟩

theorem WroteOfLoop.trans (h : WroteOfLoop u u₁) (h' : WroteOfLoop u₁ u₂) : WroteOfLoop u u₂ := by
  obtain ⟨ws, hws, hloop⟩ := h
  obtain ⟨ws', hws', hloop'⟩ := h'
  refine ⟨ws ++ ws', hws.trans hws', fun w hw => ?_⟩
  rcases List.mem_append.1 hw with hw | hw
  · exact hloop w hw
  · exact hloop' w hw

end

theorem wrote_notified (u : Ue) {t : EMessageType} (ht : t = .ueBatteryLow ∨ t = .ueBatteryHigh) (ok : Bool)
    (b : UeBattery) : WroteOfLoop u (u.notified t ok b) := by
  have hw : Wrote u (u.notified t ok b) [(t, ok)] := Wrote.of_append rfl rfl
  rcases ht with rfl | rfl
  · exact hw.ofLoop rfl
  · exact hw.ofLoop rfl

theorem wrote_updateBattery (u : Ue) (timeNow timeReset : Int) (ok : Bool) :
    WroteOfLoop u (updateBattery u timeNow timeReset ok) := by
  rcases updateBattery_frame u timeNow timeReset ok with ⟨b, he⟩ | ⟨-, t, b, ht, he⟩
  · exact (Wrote.of_same (by rw [he])).quiet
  · rw [he]
    exact wrote_notified u ht ok b

theorem wrote_decreaseAfterPing (u : Ue) (ok : Bool) : WroteOfLoop u (decreaseAfterPing u ok) := by
  rcases decreaseAfterPing_frame u ok with ⟨b, he⟩ | ⟨t, b, ht, he⟩
  · exact (Wrote.of_same (by rw [he])).quiet
  · rw [he]
    exact wrote_notified u ht ok b

/-- **The switch** writes a pong and a notification, or a report, or nothing. -/
theorem wrote_handleMessage (u : Ue) (env : DispatchEnv) : WroteOfLoop u (handleMessage u env) := by
  have hpong : Wrote u (sendPong u env.pongOk).1 [(.pong, env.pongOk)] := Wrote.of_append rfl rfl
  have hfile : ∀ {u' : Ue} {c : UeCall}, u'.trace = u.trace ++ [c] → writes [c] = [] → WroteOfLoop u u' :=
    fun h hc => (Wrote.of_append h hc).quiet
  unfold handleMessage
  split
  · split
    · simp only
      split
      · exact hpong.ofLoop rfl
      · exact (hpong.ofLoop rfl).trans (wrote_decreaseAfterPing _ env.noteOk)
    · exact (Wrote.of_same rfl).quiet
  · exact hfile rfl rfl
  · exact hfile rfl rfl
  · simp only
    split
    · exact hfile rfl rfl
    · exact hfile rfl rfl
  · have hreport : Wrote u (sendMeasurementReport u env.reportOk) [(.measurementReport, env.reportOk)] :=
      Wrote.of_append rfl rfl
    exact hreport.ofLoop rfl
  · exact (Wrote.of_same rfl).quiet

theorem wrote_dispatch (u : Ue) (env : DispatchEnv) : WroteOfLoop u (dispatch u env) := by
  have hchecked : Wrote (handleMessage u env) (dispatch u env) [] := Wrote.of_append rfl rfl
  exact (wrote_handleMessage u env).trans hchecked.quiet

/-- **A call of the attach** writes what the phase allows, and leads to where the new phase is. -/
theorem wrote_attachStep {pc pc' : MainPc} {u u' : Ue} {a : AttachLabel} {ph : UePhase} (hat : UePhase.At pc ph)
    (h : attachStep pc u a = some (pc', u')) :
    ∃ ws ph', Wrote u u' ws ∧ run UePhase.next ph ws = some ph' ∧ UePhase.At pc' ph' := by
  cases a with
  | sendPreamble raRnti ok =>
    simp only [attachStep] at h
    split at h
    · rename_i hpc
      cases h
      rw [hpc] at hat
      cases hat
      refine ⟨[(.randomAccessRequest, ok)], if ok then .requested else .ended, Wrote.of_append rfl rfl, rfl, ?_⟩
      cases ok
      · exact trivial
      · rfl
    · cases h
  | prachResponse recv =>
    simp only [attachStep] at h
    split at h
    · rename_i hpc
      injection h with h
      injection h with hpc' hue
      rw [hpc] at hat
      cases hat
      have hquiet : Wrote u u' [] := by
        rw [← hue]
        cases recv with
        | none => exact Wrote.of_same rfl
        | some bs =>
          unfold receivePrachResponse
          simp only
          split <;> exact Wrote.of_append rfl rfl
      refine ⟨[], .requested, hquiet, rfl, ?_⟩
      rw [← hpc']
      split
      · exact trivial
      · rfl
    · cases h
  | sendRequest identity ok =>
    simp only [attachStep] at h
    split at h
    · rename_i hpc
      cases h
      rw [hpc] at hat
      cases hat
      refine ⟨[(.rrcRequest, ok)], if ok then .asked else .ended, Wrote.of_append rfl rfl, rfl, ?_⟩
      cases ok
      · exact trivial
      · rfl
    · cases h
  | setup recv ok =>
    simp only [attachStep] at h
    split at h
    · rename_i hpc
      injection h with h
      injection h with hpc' hue
      rw [hpc] at hat
      cases hat
      rw [← hpc', ← hue]
      cases recv with
      | none => exact ⟨[], .asked, Wrote.of_same rfl, rfl, .inl rfl⟩
      | some bs =>
        unfold receiveRrcSetup sendRrcSetupComplete
        simp only
        split
        · exact ⟨[(.rrcComplete, ok)], .attached, Wrote.of_append (List.append_assoc _ _ _) rfl, rfl, .inr rfl⟩
        -- anything but a setup is not answered, and the loop entered all the same
        · exact ⟨[], .asked, Wrote.of_append rfl rfl, rfl, .inl rfl⟩
    · cases h

namespace Proc

theorem wrote_exit (p : Proc) : Wrote p.ue p.exit.ue [] := by
  unfold exit
  simp only
  split
  · exact Wrote.of_same rfl
  · exact Wrote.of_append rfl rfl

theorem wrote_checkForShutdown (u : Ue) : Wrote u (checkForShutdown u).1 [] := by
  unfold checkForShutdown
  split
  · exact Wrote.of_append rfl rfl
  · exact Wrote.of_same rfl

/-- The control points beside which the battery thread runs are those of the loop. -/
theorem at_of_battery {p : Proc} (h : Inv p) (hb : p.batteryPc = .test ∨ p.batteryPc = .update) (ph : UePhase) :
    UePhase.At p.pc ph ↔ ph = .asked ∨ ph = .attached := by
  obtain ⟨hattach, hoff, hret⟩ := h.battery hb
  cases hpc : p.pc <;> simp_all [UePhase.At, MainPc.attaching]

/-- **A step** of either thread writes what the phase allows. -/
theorem writes_step {p p' : Proc} {a : ProcLabel} {ph : UePhase} (h : Inv p) (hat : UePhase.At p.pc ph)
    (hs : step p a = some p') :
    ∃ ws ph', Wrote p.ue p'.ue ws ∧ run UePhase.next ph ws = some ph' ∧ UePhase.At p'.pc ph' := by
  have hloop : ∀ {pc : MainPc} {u : Ue}, WroteOfLoop p.ue u → (∀ ph, UePhase.At pc ph ↔ ph = .asked ∨ ph = .attached) →
      ph = .asked ∨ ph = .attached →
      ∃ ws ph', Wrote p.ue u ws ∧ run UePhase.next ph ws = some ph' ∧ UePhase.At pc ph' := by
    rintro pc u ⟨ws, hws, hall⟩ hpc hph
    obtain ⟨ph', hrun, hph'⟩ := UePhase.run_ofLoop hph hall
    exact ⟨ws, ph', hws, hrun, (hpc ph').2 hph'⟩
  have hquiet : ∀ {pc : MainPc} {u : Ue}, Wrote p.ue u [] → UePhase.At pc ph →
      ∃ ws ph', Wrote p.ue u ws ∧ run UePhase.next ph ws = some ph' ∧ UePhase.At pc ph' :=
    fun hw hpc => ⟨[], ph, hw, rfl, hpc⟩
  cases step_cases hs with
  | @attachReturned _ ue hst =>
    obtain ⟨ws, ph', hws, hrun, -⟩ := wrote_attachStep hat hst
    refine ⟨ws, ph', ?_, hrun, trivial⟩
    rw [← List.append_nil ws]
    exact hws.trans (wrote_exit { p with ue := ue })
  | attachEntered hst => exact wrote_attachStep hat hst
  | attachWent hst => exact wrote_attachStep hat hst
  | tested hpc =>
    rw [hpc] at hat
    refine hquiet (wrote_checkForShutdown p.ue) ?_
    split
    · exact hat
    · exact hat
  | stopped hpc =>
    rw [hpc] at hat
    exact hquiet (Wrote.of_same rfl) hat
  | @received recv hpc =>
    rw [hpc] at hat
    refine hquiet ?_ hat
    cases recv with
    | none => exact Wrote.of_same rfl
    | some bs => exact Wrote.of_append rfl rfl
  | dispatched hpc =>
    rw [hpc] at hat
    exact hloop (wrote_dispatch p.ue _) (fun _ => Iff.rfl) hat
  | joined hpc hb =>
    rw [hpc] at hat
    exact hquiet (Wrote.of_same rfl) hat
  | @wroteUeOff ok hpc =>
    rw [hpc] at hat
    have hoff : Wrote p.ue (sendUeOffSignal p.ue ok).1 [(.ueOff, ok)] := Wrote.of_append rfl rfl
    refine ⟨[(.ueOff, ok)], .ended, hoff.trans (wrote_exit { p with ue := _ }), ?_, trivial⟩
    rcases hat with rfl | rfl <;> rfl
  | sparedUeOff => exact ⟨[], ph, wrote_exit p, rfl, trivial⟩
  | batteryTested hb => exact hquiet (wrote_checkForShutdown p.ue) hat
  | batteryStopped hb => exact hquiet (Wrote.of_same rfl) hat
  | batteryUpdated hb =>
    have hpc := at_of_battery h (.inr hb)
    exact hloop (wrote_updateBattery p.ue _ _ _) hpc ((hpc ph).1 hat)
  | signalled => exact hquiet (Wrote.of_same rfl) hat

theorem conforms : Conforms step Inv UePhase.next (fun p ph => UePhase.At p.pc ph) (fun p => writes p.ue.trace) where
  inv h hs := inv_step h hs
  step h hat hs := writes_step h hat hs

end Proc

end Lte
