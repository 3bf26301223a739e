import Lte.Histories
import Lte.BatteryAgreement
/-!
# BatteryPhases — the notifications of one charge or discharge

The UE's two battery calls, in any order, and a log of the notifications that left and of the turns between charging
and discharging.  `check_battery_status` looks for the level in a window as wide as its caller's own step, so a ping
can take the level out of the window of `update_battery` before that one has looked (`announced_iff_of_run`); and the
latch is cleared wherever the level is 0 or 100, also when the direction stays what it was (`once_per_phase`).
-/
namespace Lte

open Runs Histories

inductive PhaseEvent
  | notified (t : EMessageType) (charging : Bool)
  | turned (charging : Bool)
deriving DecidableEq

def PhaseEvent.isNote : PhaseEvent → Bool
  | notified _ _ => true
  | turned _ => false

/-- A UE, and what its battery calls have done so far. -/
structure Phases where
  ue : Ue
  log : List PhaseEvent

inductive PhaseLabel
  | update (timeNow timeReset : Int) (ok : Bool)
  | ping (ok : Bool)

def UeCall.failed : UeCall → Bool
  | write _ false => true
  | _ => false

theorem noFailedWrite_iff (t : List UeCall) : BatteryLink.NoFailedWrite t ↔ ∀ c ∈ t, c.failed = false := by
  constructor
  · intro h c hc
    unfold UeCall.failed
    split
    · exact absurd hc (h _)
    · rfl
  · intro h m hm
    cases h _ hm

instance (t : List UeCall) : Decidable (BatteryLink.NoFailedWrite t) := decidable_of_iff _ (noFailedWrite_iff t).symm

namespace Phases

/-- The notifications that left between `u` and `u'`, and the direction they were sent in. -/
def sends (u u' : Ue) : List PhaseEvent :=
  ((delivered u'.trace).drop (delivered u.trace).length).map (fun m => .notified m.messageType u.battery.charging)

def turns (u u' : Ue) : List PhaseEvent :=
  if u'.battery.charging = u.battery.charging then [] else [.turned u'.battery.charging]

def after (p : Phases) (ue : Ue) : Phases := { ue := ue, log := p.log ++ sends p.ue ue ++ turns p.ue ue }

def step (p : Phases) : PhaseLabel → Option Phases
  | .update timeNow timeReset ok => some (p.after (updateBattery p.ue timeNow timeReset ok))
  | .ping ok => some (p.after (decreaseAfterPing p.ue ok))

structure Start (p : Phases) : Prop where
  battery : ∃ now, p.ue.battery = initializeBatteryLife now
  log : p.log = []

/-! ## What a step can do -/

/-- The notification a check sends. -/
def note (b : UeBattery) (step : Int) (ok : Bool) : Option EMessageType :=
  if b.sentNotification = false ∧ ok = true then b.due step else none

def notes (b : UeBattery) (step : Int) (ok : Bool) : List PhaseEvent :=
  (note b step ok).toList.map (fun t => .notified t b.charging)

/-- The latch after a check. -/
def latch (b : UeBattery) (step : Int) (ok : Bool) : Bool := b.sentNotification || (note b step ok).isSome

/-- **What a check can do** to the level, the latch and the log. -/
theorem check_spec (step : Int) (u : Ue) (ok : Bool) :
    (checkBatteryStatus step u ok).battery.powerPercentage = u.battery.powerPercentage ∧
    (checkBatteryStatus step u ok).battery.charging = u.battery.charging ∧
    (checkBatteryStatus step u ok).battery.startingTime = u.battery.startingTime ∧
    (checkBatteryStatus step u ok).battery.sentNotification = latch u.battery step ok ∧
    sends u (checkBatteryStatus step u ok) = notes u.battery step ok ∧
    (BatteryLink.NoFailedWrite (checkBatteryStatus step u ok).trace →
      BatteryLink.NoFailedWrite u.trace ∧
        (u.battery.sentNotification = false → note u.battery step ok = u.battery.due step)) := by
  unfold latch notes note sends
  rcases checkBatteryStatus_cases step u ok with ⟨hd, he⟩ | ⟨t, hd, hs, he⟩ | ⟨t, hd, hs, he⟩
  · rw [he, hd]
    simp
  · rw [he, hd, hs]
    simp
  · rw [he, hd, hs]
    cases ok with
    | false =>
      refine ⟨rfl, rfl, rfl, by simp, by simp, fun hno => ?_⟩
      exact absurd (by simp) (hno { u.message with messageType := t })
    | true =>
      refine ⟨rfl, rfl, rfl, by simp, by simp, fun hno => ⟨fun m hm => ?_, by simp⟩⟩
      exact hno m (List.mem_append_left _ hm)

/-- The level before the turn. -/
def level (b : UeBattery) (timeNow timeReset : Int) : Int := (elapse b timeNow timeReset).powerPercentage

theorem level_cases {b : UeBattery} (h0 : 0 ≤ b.powerPercentage) (h100 : b.powerPercentage ≤ 100) (n r : Int) :
    (level b n r = b.powerPercentage ∧ n - b.startingTime < batteryDecreaseTime) ∨
    (b.charging = false ∧ level b n r = b.powerPercentage - updateStep) ∨
    (b.charging = true ∧ level b n r = b.powerPercentage + updateStep) := by
  unfold level elapse
  split
  · right
    cases hc : b.charging with
    | false =>
      left
      simp only [if_true, int8, updateStep, true_and]
      omega
    | true =>
      right
      simp only [int8, updateStep, true_and, Bool.true_eq_false, if_false]
      omega
  · rename_i hn
    exact .inl ⟨rfl, by omega⟩

/-- **What an `update_battery` can do**: run empty, be full, or move the level. -/
inductive Updated (b : UeBattery) (n r : Int) (ok : Bool) : UeBattery → Prop
  | empty {b' : UeBattery} (hl : level b n r ≤ 0) (hp : b'.powerPercentage = 0) (hc : b'.charging = true)
      (hs : b'.sentNotification = false) : Updated b n r ok b'
  | full {b' : UeBattery} (hl : 100 ≤ level b n r) (hp : b'.powerPercentage = 100) (hc : b'.charging = false)
      (hs : b'.sentNotification = false) : Updated b n r ok b'
  | moved {b' : UeBattery} (h0 : 0 < level b n r) (h100 : level b n r < 100) (hp : b'.powerPercentage = level b n r)
      (hc : b'.charging = b.charging) (hs : b'.sentNotification = latch b updateStep ok) : Updated b n r ok b'

theorem updateBattery_updated (u : Ue) (n r : Int) (ok : Bool) :
    Updated u.battery n r ok (updateBattery u n r ok).battery := by
  obtain ⟨h1, h2, h3, h4, -, -⟩ := check_spec updateStep u ok
  have hlevel : (elapse (checkBatteryStatus updateStep u ok).battery n r).powerPercentage = level u.battery n r := by
    unfold level elapse
    rw [h3]
    split
    · simp only [h1, h2]
    · exact h1
  obtain ⟨-, f2, f3⟩ := BatteryLink.elapse_flags (checkBatteryStatus updateStep u ok).battery n r
  simp only [updateBattery, turn, hlevel]
  split
  · rename_i hl
    exact .empty hl rfl rfl rfl
  · split
    · rename_i hl
      exact .full hl rfl rfl rfl
    · rename_i h0 h100
      exact .moved (by omega) (by omega) hlevel (f3.trans h2) (f2.trans h4)

theorem step_update {p p' : Phases} {n r : Int} {ok : Bool} (hs : step p (.update n r ok) = some p') :
    Updated p.ue.battery n r ok p'.ue.battery ∧
    p'.log = p.log ++ notes p.ue.battery updateStep ok ++
      (if p'.ue.battery.charging = p.ue.battery.charging then [] else [.turned p'.ue.battery.charging]) ∧
    (BatteryLink.NoFailedWrite p'.ue.trace → BatteryLink.NoFailedWrite p.ue.trace ∧
      (p.ue.battery.sentNotification = false →
        note p.ue.battery updateStep ok = p.ue.battery.due updateStep)) := by
  simp only [step, Option.some.injEq] at hs
  subst hs
  obtain ⟨-, -, -, -, h5, h6⟩ := check_spec updateStep p.ue ok
  refine ⟨updateBattery_updated p.ue n r ok, ?_, h6⟩
  rw [← h5]
  rfl

theorem step_ping {p p' : Phases} {ok : Bool} (h0 : 0 ≤ p.ue.battery.powerPercentage)
    (h100 : p.ue.battery.powerPercentage ≤ 100) (hs : step p (.ping ok) = some p') :
    (decreaseAmount ≤ p.ue.battery.powerPercentage ∧
        p'.ue.battery.powerPercentage = p.ue.battery.powerPercentage - decreaseAmount ∨
      p.ue.battery.powerPercentage < decreaseAmount ∧ p'.ue.battery.powerPercentage = 0) ∧
    p'.ue.battery.charging = p.ue.battery.charging ∧
    p'.ue.battery.sentNotification = latch p.ue.battery decreaseAmount ok ∧
    p'.log = p.log ++ notes p.ue.battery decreaseAmount ok ∧
    (BatteryLink.NoFailedWrite p'.ue.trace → BatteryLink.NoFailedWrite p.ue.trace ∧
      (p.ue.battery.sentNotification = false →
        note p.ue.battery decreaseAmount ok = p.ue.battery.due decreaseAmount)) := by
  simp only [step, Option.some.injEq] at hs
  subst hs
  obtain ⟨h1, h2, -, h4, h5, h6⟩ := check_spec decreaseAmount p.ue ok
  have hue : ∃ b : UeBattery, decreaseAfterPing p.ue ok = { checkBatteryStatus decreaseAmount p.ue ok with battery := b } ∧
      b.charging = (checkBatteryStatus decreaseAmount p.ue ok).battery.charging ∧
      b.sentNotification = (checkBatteryStatus decreaseAmount p.ue ok).battery.sentNotification ∧
      (decreaseAmount ≤ p.ue.battery.powerPercentage ∧
          b.powerPercentage = p.ue.battery.powerPercentage - decreaseAmount ∨
        p.ue.battery.powerPercentage < decreaseAmount ∧ b.powerPercentage = 0) := by
    unfold decreaseAfterPing
    simp only [h1]
    split
    · rename_i hl
      exact ⟨_, rfl, rfl, rfl, .inr ⟨by omega, rfl⟩⟩
    · split
      · rename_i hl hn
        refine ⟨_, rfl, rfl, rfl, .inl ⟨by omega, ?_⟩⟩
        simp only [int8, decreaseAmount]
        omega
      · rename_i hl hn
        simp only [decreaseAmount] at hl hn
        omega
  obtain ⟨b, he, hc, hsent, hp⟩ := hue
  have hlog : (p.after (decreaseAfterPing p.ue ok)).log = p.log ++ notes p.ue.battery decreaseAmount ok := by
    unfold after turns
    rw [he, if_pos (hc.trans h2), List.append_nil, ← h5]
    rfl
  refine ⟨?_, ?_, ?_, hlog, ?_⟩
  · simpa only [after, he] using hp
  · simpa only [after, he] using hc.trans h2
  · simpa only [after, he] using hsent.trans h4
  · simpa only [after, he] using h6

/-! ## The level, whatever is written -/

/-- The level is a percentage, and a notification of a discharge was sent at the threshold or below. -/
structure Level (p : Phases) : Prop where
  nonneg : 0 ≤ p.ue.battery.powerPercentage
  le : p.ue.battery.powerPercentage ≤ 100
  low : p.ue.battery.charging = false → p.ue.battery.sentNotification = true →
    p.ue.battery.powerPercentage ≤ lowBatteryThreshold

/-- A discharge moves the level down by a step at most, a charge up. -/
theorem Level.discharging {p : Phases} (h : Level p) (hc : p.ue.battery.charging = false) (n r : Int) :
    p.ue.battery.powerPercentage - updateStep ≤ level p.ue.battery n r ∧
      level p.ue.battery n r ≤ p.ue.battery.powerPercentage := by
  simp only [updateStep]
  rcases level_cases h.nonneg h.le n r with ⟨hl, -⟩ | ⟨-, hl⟩ | ⟨hc', -⟩
  · omega
  · simp only [updateStep] at hl
    omega
  · cases hc.symm.trans hc'

theorem Level.charging {p : Phases} (h : Level p) (hc : p.ue.battery.charging = true) (n r : Int) :
    p.ue.battery.powerPercentage ≤ level p.ue.battery n r ∧
      level p.ue.battery n r ≤ p.ue.battery.powerPercentage + updateStep := by
  simp only [updateStep]
  rcases level_cases h.nonneg h.le n r with ⟨hl, -⟩ | ⟨hc', -⟩ | ⟨-, hl⟩
  · omega
  · cases hc.symm.trans hc'
  · simp only [updateStep] at hl
    omega

theorem level_start {p : Phases} (h : Start p) : Level p := by
  obtain ⟨now, hb⟩ := h.battery
  refine ⟨?_, ?_, fun _ hs => ?_⟩
  · rw [hb]; exact Int.zero_le_ofNat 100
  · rw [hb]; exact Int.le_refl 100
  · rw [hb] at hs; cases hs

/-- A check of a discharging battery is due in the window below the threshold, of a charging one in that above. -/
theorem due_discharging {b : UeBattery} (hc : b.charging = false) (step : Int) :
    b.due step = if b.powerPercentage ≤ lowBatteryThreshold ∧ lowBatteryThreshold - step < b.powerPercentage then
      some .ueBatteryLow else none := by
  simp [UeBattery.due, hc]

theorem due_charging {b : UeBattery} (hc : b.charging = true) (step : Int) :
    b.due step = if b.powerPercentage ≥ lowBatteryThreshold ∧ lowBatteryThreshold + step > b.powerPercentage then
      some .ueBatteryHigh else none := by
  simp [UeBattery.due, hc]

theorem note_due {b : UeBattery} {step : Int} {ok : Bool} {t : EMessageType} (h : note b step ok = some t) :
    b.due step = some t ∧ b.sentNotification = false := by
  unfold note at h
  split at h
  · rename_i hc
    exact ⟨h, hc.1⟩
  · cases h

theorem latch_cases (b : UeBattery) (step : Int) (ok : Bool) :
    (latch b step ok = true ∧ (b.sentNotification = true ∨ ∃ t, note b step ok = some t)) ∨
    (latch b step ok = false ∧ b.sentNotification = false ∧ note b step ok = none) := by
  unfold latch
  cases hs : b.sentNotification with
  | true => exact .inl ⟨rfl, .inl rfl⟩
  | false =>
    cases hn : note b step ok with
    | none => exact .inr ⟨rfl, rfl, rfl⟩
    | some t => exact .inl ⟨rfl, .inr ⟨t, rfl⟩⟩

/-- A latch that is set after a check of a discharging battery was set at the threshold or below. -/
theorem Level.latch_low {p : Phases} (h : Level p) (hc : p.ue.battery.charging = false) {step : Int} {ok : Bool}
    (hl : latch p.ue.battery step ok = true) : p.ue.battery.powerPercentage ≤ lowBatteryThreshold := by
  rcases latch_cases p.ue.battery step ok with ⟨-, hs | ⟨t, ht⟩⟩ | ⟨hf, -⟩
  · exact h.low hc hs
  · have hd := (note_due ht).1
    rw [due_discharging hc] at hd
    split at hd
    · rename_i hw
      exact hw.1
    · cases hd
  · rw [hl] at hf
    cases hf

theorem level_step {p p' : Phases} {a : PhaseLabel} (h : Level p) (hs : step p a = some p') : Level p' := by
  cases a with
  | update n r ok =>
    obtain ⟨hu, -, -⟩ := step_update hs
    cases hu with
    | empty hl hp hc hsent => exact ⟨by omega, by omega, fun _ h => by rw [hsent] at h; cases h⟩
    | full hl hp hc hsent => exact ⟨by omega, by omega, fun _ h => by rw [hsent] at h; cases h⟩
    | moved h0 h100 hp hc hsent =>
      refine ⟨by omega, by omega, fun hc' hs' => ?_⟩
      rw [hc] at hc'
      rw [hsent] at hs'
      have hlow := h.latch_low hc' hs'
      have hlevel := (h.discharging hc' n r).2
      omega
  | ping ok =>
    obtain ⟨hp, hc, hsent, -, -⟩ := step_ping h.nonneg h.le hs
    have h0 := h.nonneg
    have h100 := h.le
    simp only [decreaseAmount] at hp
    refine ⟨by omega, by omega, fun hc' hs' => ?_⟩
    rw [hc] at hc'
    rw [hsent] at hs'
    have hlow := h.latch_low hc' hs'
    simp only [lowBatteryThreshold] at hlow ⊢
    omega

/-! ## Every turn is announced -/

/-- A notification of type `t` has left since the last turn to `c`. -/
def Told (t : EMessageType) (c : Bool) (log : List PhaseEvent) : Prop :=
  Since (fun e => ∃ c', e = .notified t c') (fun e => e ≠ .turned c) log

/-- Every turn was announced when it came: to charging by a `ue_battery_low`, from it by a `ue_battery_high`. -/
def Announced (log : List PhaseEvent) : Prop :=
  Each (fun pre e => (e = .turned true → Told .ueBatteryLow false pre) ∧
    (e = .turned false → Told .ueBatteryHigh true pre)) log

theorem told_notes {t : EMessageType} {c : Bool} {log : List PhaseEvent} {b : UeBattery} {step : Int} {ok : Bool} :
    Told t c (log ++ notes b step ok) ↔ Told t c log ∨ note b step ok = some t := by
  unfold Told notes
  cases note b step ok with
  | none => simp
  | some t' =>
    simp only [Option.toList_some, List.map_cons, List.map_nil, since_concat, PhaseEvent.notified.injEq]
    constructor
    · rintro (⟨c', rfl, -⟩ | ⟨h, -⟩)
      · exact .inr rfl
      · exact .inl h
    · rintro (h | h)
      · exact .inr ⟨h, by simp⟩
      · cases h
        exact .inl ⟨_, rfl, rfl⟩

theorem told_turned {t : EMessageType} {c c' : Bool} {log : List PhaseEvent} :
    Told t c (log ++ [.turned c']) ↔ Told t c log ∧ c' ≠ c := by
  unfold Told
  rw [since_concat]
  simp

theorem announced_notes {log : List PhaseEvent} {b : UeBattery} {step : Int} {ok : Bool} :
    Announced (log ++ notes b step ok) ↔ Announced log := by
  unfold Announced notes
  cases note b step ok with
  | none => simp
  | some t =>
    simp only [Option.toList_some, List.map_cons, List.map_nil, each_concat]
    simp

theorem announced_turned {log : List PhaseEvent} {c : Bool} :
    Announced (log ++ [.turned c]) ↔
      Announced log ∧ Told (if c then .ueBatteryLow else .ueBatteryHigh) (!c) log := by
  unfold Announced
  rw [each_concat]
  cases c <;> simp

/-- A ping does not take the level of an unannounced discharge out of the window of `update_battery`. -/
def LeavesWindow (p : Phases) : PhaseLabel → Prop
  | .ping _ => ¬ (p.ue.battery.charging = false ∧ p.ue.battery.sentNotification = false ∧
      lowBatteryThreshold - updateStep < p.ue.battery.powerPercentage ∧
      p.ue.battery.powerPercentage - decreaseAmount ≤ lowBatteryThreshold - updateStep)
  | .update _ _ _ => True

instance (p : Phases) (a : PhaseLabel) : Decidable (LeavesWindow p a) := by
  unfold LeavesWindow; cases a <;> infer_instance

/-- A discharge is announced, or its level is still above the end of the window; so with a charge. -/
structure Promised (p : Phases) : Prop where
  low : p.ue.battery.charging = false →
    (p.ue.battery.sentNotification = true ↔ Told .ueBatteryLow false p.log)
  lowLeft : p.ue.battery.charging = false → p.ue.battery.sentNotification = false →
    lowBatteryThreshold - updateStep < p.ue.battery.powerPercentage
  high : p.ue.battery.charging = true → p.ue.battery.sentNotification = true → Told .ueBatteryHigh true p.log
  highLeft : p.ue.battery.charging = true → p.ue.battery.sentNotification = false →
    p.ue.battery.powerPercentage < lowBatteryThreshold + updateStep
  announced : Announced p.log

theorem promised_start {p : Phases} (h : Start p) : Promised p := by
  obtain ⟨now, hb⟩ := h.battery
  have hnil : ∀ {t : EMessageType} {c : Bool}, ¬ Told t c p.log := by
    rw [h.log]
    exact not_since_nil
  refine ⟨fun _ => ?_, fun _ _ => ?_, fun hc => ?_, fun hc => ?_, ?_⟩
  · rw [hb]
    exact iff_of_false Bool.false_ne_true hnil
  · rw [hb]
    exact (by decide : (8 : Int) < 100)
  · rw [hb] at hc
    cases hc
  · rw [hb] at hc
    cases hc
  · rw [h.log]
    exact each_nil

/-- What a check leaves of the promise, whoever called it: the latch is set, or the level is outside its window. -/
structure Kept (b : UeBattery) (latched : Bool) (log : List PhaseEvent) (step : Int) : Prop where
  low : b.charging = false → (latched = true ↔ Told .ueBatteryLow false log)
  lowLeft : b.charging = false → latched = false → lowBatteryThreshold - updateStep < b.powerPercentage ∧
    ¬ (b.powerPercentage ≤ lowBatteryThreshold ∧ lowBatteryThreshold - step < b.powerPercentage)
  high : b.charging = true → latched = true → Told .ueBatteryHigh true log
  highLeft : b.charging = true → latched = false → b.powerPercentage < lowBatteryThreshold + updateStep ∧
    ¬ (b.powerPercentage ≥ lowBatteryThreshold ∧ lowBatteryThreshold + step > b.powerPercentage)

theorem Promised.kept {p : Phases} (h : Promised p) {step : Int} {ok : Bool}
    (hnote : p.ue.battery.sentNotification = false → note p.ue.battery step ok = p.ue.battery.due step) :
    Kept p.ue.battery (latch p.ue.battery step ok) (p.log ++ notes p.ue.battery step ok) step := by
  rcases latch_cases p.ue.battery step ok with ⟨hl, hs | ⟨t, ht⟩⟩ | ⟨hl, hs, hn⟩
  · rw [hl]
    refine ⟨fun hc => ?_, fun _ hf => ?_, fun hc _ => ?_, fun _ hf => ?_⟩
    · exact iff_of_true rfl (told_notes.2 (.inl ((h.low hc).1 hs)))
    · cases hf
    · exact told_notes.2 (.inl (h.high hc hs))
    · cases hf
  · rw [hl]
    obtain ⟨hd, -⟩ := note_due ht
    refine ⟨fun hc => ?_, fun _ hf => ?_, fun hc _ => ?_, fun _ hf => ?_⟩
    · rcases UeBattery.due_some hd with ⟨rfl, -⟩ | ⟨-, hc'⟩
      · exact iff_of_true rfl (told_notes.2 (.inr ht))
      · cases hc.symm.trans hc'
    · cases hf
    · rcases UeBattery.due_some hd with ⟨-, hc'⟩ | ⟨rfl, -⟩
      · cases hc.symm.trans hc'
      · exact told_notes.2 (.inr ht)
    · cases hf
  · -- nothing was written, so nothing was due
    have hdue := (hnote hs).symm.trans hn
    rw [hl]
    refine ⟨fun hc => ?_, fun hc _ => ⟨h.lowLeft hc hs, fun hw => ?_⟩, fun _ hf => ?_,
      fun hc _ => ⟨h.highLeft hc hs, fun hw => ?_⟩⟩
    · refine iff_of_false Bool.false_ne_true ?_
      rw [told_notes, hn, ← h.low hc, hs]
      simp
    · rw [due_discharging hc, if_pos hw] at hdue
      cases hdue
    · cases hf
    · rw [due_charging hc, if_pos hw] at hdue
      cases hdue

theorem promised_update {p p' : Phases} {n r : Int} {ok : Bool} (hv : Level p) (h : Promised p)
    (hs : step p (.update n r ok) = some p') (hno : BatteryLink.NoFailedWrite p'.ue.trace) : Promised p' := by
  obtain ⟨hu, hlog, hnote⟩ := step_update hs
  have hk := h.kept (hnote hno).2
  have hann : Announced (p.log ++ notes p.ue.battery updateStep ok) := announced_notes.2 h.announced
  have hfall := fun hold => hv.discharging hold n r
  have hrise := fun hold => hv.charging hold n r
  have hlowLeft := hk.lowLeft
  have hhighLeft := hk.highLeft
  simp only [lowBatteryThreshold, updateStep] at hlowLeft hhighLeft hfall hrise
  cases hu with
  | empty hl hp hc hsent =>
    refine ⟨fun h => ?_, fun h => ?_, fun _ h => ?_, fun _ _ => ?_, ?_⟩
    · cases hc.symm.trans h
    · cases hc.symm.trans h
    · cases hsent.symm.trans h
    · rw [hp]
      decide
    · cases hold : p.ue.battery.charging with
      | true =>
        rw [hlog, hc, hold, if_pos rfl, List.append_nil]
        exact hann
      | false =>
        rw [hlog, hc, hold, if_neg Bool.true_eq_false_eq_False, announced_turned]
        refine ⟨hann, (hk.low hold).1 ?_⟩
        -- a step of the update from above its window does not run empty
        apply eq_true_of_ne_false
        intro hf
        have habove := hlowLeft hold hf
        have hlevel := hfall hold
        omega
  | full hl hp hc hsent =>
    refine ⟨fun _ => ?_, fun _ _ => ?_, fun h => ?_, fun h => ?_, ?_⟩
    · rw [hsent]
      refine iff_of_false Bool.false_ne_true ?_
      cases hold : p.ue.battery.charging with
      | true =>
        rw [hlog, hc, hold, if_neg Bool.false_ne_true, told_turned]
        exact fun ht => ht.2 rfl
      | false =>
        rw [hlog, hc, hold, if_pos rfl, List.append_nil, ← hk.low hold]
        intro hlat
        -- a discharge that has been announced is far from full
        have hlow := hv.latch_low hold hlat
        have hlevel := hfall hold
        simp only [lowBatteryThreshold] at hlow
        omega
    · rw [hp]
      decide
    · cases hc.symm.trans h
    · cases hc.symm.trans h
    · cases hold : p.ue.battery.charging with
      | false =>
        rw [hlog, hc, hold, if_pos rfl, List.append_nil]
        exact hann
      | true =>
        rw [hlog, hc, hold, if_neg Bool.false_ne_true, announced_turned]
        refine ⟨hann, hk.high hold ?_⟩
        -- a step of the update from below the end of its window does not reach 100
        apply eq_true_of_ne_false
        intro hf
        have hbelow := hhighLeft hold hf
        have hlevel := hrise hold
        omega
  | moved h0 h100 hp hc hsent =>
    rw [hc, if_pos rfl, List.append_nil] at hlog
    refine ⟨fun hold => ?_, fun hold hf => ?_, fun hold hs' => ?_, fun hold hf => ?_, hlog ▸ hann⟩
    · rw [hsent, hlog]
      exact hk.low (hc.symm.trans hold)
    · have habove := hlowLeft (hc.symm.trans hold) (hsent.symm.trans hf)
      have hlevel := hfall (hc.symm.trans hold)
      simp only [lowBatteryThreshold, updateStep]
      omega
    · rw [hlog]
      exact hk.high (hc.symm.trans hold) (hsent.symm.trans hs')
    · have hbelow := hhighLeft (hc.symm.trans hold) (hsent.symm.trans hf)
      have hlevel := hrise (hc.symm.trans hold)
      simp only [lowBatteryThreshold, updateStep]
      omega

theorem promised_ping {p p' : Phases} {ok : Bool} (hv : Level p) (h : Promised p) (hC : LeavesWindow p (.ping ok))
    (hs : step p (.ping ok) = some p') (hno : BatteryLink.NoFailedWrite p'.ue.trace) : Promised p' := by
  obtain ⟨hp, hc, hsent, hlog, hnote⟩ := step_ping hv.nonneg hv.le hs
  have hk := h.kept (hnote hno).2
  refine ⟨fun hold => ?_, fun hold hf => ?_, fun hold hs' => ?_, fun hold hf => ?_, ?_⟩
  · rw [hsent, hlog]
    exact hk.low (hc.symm.trans hold)
  · have hold' := hc.symm.trans hold
    have hf' := hsent.symm.trans hf
    have hleft := hk.lowLeft hold' hf'
    have hunsent : p.ue.battery.sentNotification = false := by
      rcases latch_cases p.ue.battery decreaseAmount ok with ⟨hl, -⟩ | ⟨-, hu, -⟩
      · cases hl.symm.trans hf'
      · exact hu
    unfold LeavesWindow at hC
    simp only [hold', hunsent, true_and] at hC
    simp only [lowBatteryThreshold, updateStep, decreaseAmount] at hleft hC hp ⊢
    omega
  · rw [hlog]
    exact hk.high (hc.symm.trans hold) (hsent.symm.trans hs')
  · have := hk.highLeft (hc.symm.trans hold) (hsent.symm.trans hf)
    simp only [lowBatteryThreshold, updateStep, decreaseAmount] at this hp ⊢
    omega
  · rw [hlog]
    exact announced_notes.2 h.announced

theorem note_below {b : UeBattery} (hc : b.charging = false) {step : Int} {ok : Bool}
    (hp : b.powerPercentage ≤ lowBatteryThreshold - step) : note b step ok = none := by
  cases hn : note b step ok with
  | none => rfl
  | some t =>
    have hd := (note_due hn).1
    rw [due_discharging hc] at hd
    split at hd
    · omega
    · cases hd

/-- A turn was not announced, or the discharge that goes on cannot be any more. -/
def Missed (p : Phases) : Prop :=
  ¬ Announced p.log ∨
    (p.ue.battery.charging = false ∧ p.ue.battery.sentNotification = false ∧
      p.ue.battery.powerPercentage ≤ lowBatteryThreshold - updateStep ∧ ¬ Told .ueBatteryLow false p.log)

theorem missed_ping {p p' : Phases} {ok : Bool} (hv : Level p) (h : Promised p) (hC : ¬ LeavesWindow p (.ping ok))
    (hs : step p (.ping ok) = some p') : Missed p' := by
  obtain ⟨hp, hc, hsent, hlog, -⟩ := step_ping hv.nonneg hv.le hs
  unfold LeavesWindow at hC
  obtain ⟨hold, hunsent, h1, h2⟩ := not_not.1 hC
  simp only [lowBatteryThreshold, updateStep, decreaseAmount] at h1 h2 hp
  -- the ping's own window is above the level
  have hnone : note p.ue.battery decreaseAmount ok = none := by
    refine note_below hold ?_
    simp only [lowBatteryThreshold, decreaseAmount]
    omega
  refine .inr ⟨hc.trans hold, ?_, ?_, ?_⟩
  · rw [hsent, latch, hunsent, hnone]
    rfl
  · simp only [lowBatteryThreshold, updateStep]
    omega
  · rw [hlog, told_notes, hnone, ← h.low hold, hunsent]
    simp

/-- Once missed, missed for good. -/
theorem missed_step {p p' : Phases} {a : PhaseLabel} (hv : Level p) (h : Missed p) (hs : step p a = some p') :
    Missed p' := by
  rcases h with h | ⟨hold, hunsent, hp, hnt⟩
  · left
    cases a with
    | update n r ok =>
      obtain ⟨-, hlog, -⟩ := step_update hs
      rw [hlog]
      split
      · rwa [List.append_nil, announced_notes]
      · rw [announced_turned, announced_notes]
        exact fun ha => h ha.1
    | ping ok =>
      obtain ⟨-, -, -, hlog, -⟩ := step_ping hv.nonneg hv.le hs
      rwa [hlog, announced_notes]
  · have hsilent : ∀ (step : Int) (ok : Bool), step = updateStep ∨ step = decreaseAmount →
        note p.ue.battery step ok = none ∧ latch p.ue.battery step ok = false := by
      intro step ok hstep
      have hn : note p.ue.battery step ok = none := by
        refine note_below hold ?_
        simp only [lowBatteryThreshold, updateStep, decreaseAmount] at hp hstep ⊢
        omega
      exact ⟨hn, by rw [latch, hunsent, hn]; rfl⟩
    cases a with
    | update n r ok =>
      obtain ⟨hu, hlog, -⟩ := step_update hs
      obtain ⟨hn, hlat⟩ := hsilent updateStep ok (.inl rfl)
      have hle : level p.ue.battery n r ≤ lowBatteryThreshold - updateStep := (hv.discharging hold n r).2.trans hp
      cases hu with
      | empty hl hp' hc hsent =>
        left
        rw [hlog, hc, hold, if_neg Bool.true_eq_false_eq_False, announced_turned]
        intro ha
        have ht : Told .ueBatteryLow false (p.log ++ notes p.ue.battery updateStep ok) := ha.2
        rw [told_notes, hn] at ht
        exact ht.elim hnt (fun h => by cases h)
      | full hl hp' hc hsent =>
        simp only [lowBatteryThreshold, updateStep] at hle
        omega
      | moved h0 h100 hp' hc hsent =>
        refine .inr ⟨hc.trans hold, hsent.trans hlat, hp'.trans_le hle, ?_⟩
        rw [hlog, hc, if_pos rfl, List.append_nil, told_notes, hn]
        exact fun ht => ht.elim hnt (fun h => by cases h)
    | ping ok =>
      obtain ⟨hp', hc, hsent, hlog, -⟩ := step_ping hv.nonneg hv.le hs
      obtain ⟨hn, hlat⟩ := hsilent decreaseAmount ok (.inr rfl)
      refine .inr ⟨hc.trans hold, hsent.trans hlat, ?_, ?_⟩
      · simp only [lowBatteryThreshold, updateStep, decreaseAmount] at hp hp' ⊢
        omega
      · rw [hlog, told_notes, hn]
        exact fun ht => ht.elim hnt (fun h => by cases h)

/-- The writes of a run all succeeded only if those of its steps did. -/
theorem noFailedWrite_step {p p' : Phases} {a : PhaseLabel} (hv : Level p) (hs : step p a = some p')
    (hno : BatteryLink.NoFailedWrite p'.ue.trace) : BatteryLink.NoFailedWrite p.ue.trace := by
  cases a with
  | update n r ok => exact ((step_update hs).2.2 hno).1
  | ping ok => exact ((step_ping hv.nonneg hv.le hs).2.2.2.2 hno).1

/-- **Exactly when no phase goes unannounced.**  While all writes succeed: in a run whose pings leave the window of
`update_battery` to it, every turn was announced; and a run that ends charging announced every turn only if it is such
a run. -/
theorem announced_iff_of_run {p₀ p : Phases} {as : List PhaseLabel} (h₀ : Start p₀) (hrun : run step p₀ as = some p)
    (hno : BatteryLink.NoFailedWrite p.ue.trace) :
    (Along step LeavesWindow p₀ as → Announced p.log) ∧
    (p.ue.battery.charging = true → (Announced p.log ↔ Along step LeavesWindow p₀ as)) := by
  have hor := run_inv_or (C := LeavesWindow)
    (I := fun p => Level p ∧ (BatteryLink.NoFailedWrite p.ue.trace → Promised p))
    (K := fun p => Level p ∧ (BatteryLink.NoFailedWrite p.ue.trace → Missed p))
    ?_ ?_ ?_ ⟨level_start h₀, fun _ => promised_start h₀⟩ hrun
  · rcases hor with ⟨hC, -, hp⟩ | ⟨hC, -, hm⟩
    · have hann := (hp hno).announced
      exact ⟨fun _ => hann, fun _ => iff_of_true hann hC⟩
    · refine ⟨fun h => absurd h hC, fun hch => iff_of_false ?_ hC⟩
      rcases hm hno with hm | ⟨hold, -⟩
      · exact hm
      · cases hch.symm.trans hold
  · intro p a p' hI hC hs
    refine ⟨level_step hI.1 hs, fun hno => ?_⟩
    have hp := hI.2 (noFailedWrite_step hI.1 hs hno)
    cases a with
    | update n r ok => exact promised_update hI.1 hp hs hno
    | ping ok => exact promised_ping hI.1 hp hC hs hno
  · intro p a p' hI hC hs
    refine ⟨level_step hI.1 hs, fun hno => ?_⟩
    have hp := hI.2 (noFailedWrite_step hI.1 hs hno)
    cases a with
    | update n r ok => exact absurd trivial hC
    | ping ok => exact missed_ping hI.1 hp hC hs
  · intro p a p' hK hs
    exact ⟨level_step hK.1 hs, fun hno => missed_step hK.1 (hK.2 (noFailedWrite_step hK.1 hs hno)) hs⟩

/-- A full battery on the connection of an attached UE. -/
def full : Phases := { ue := Ue.start (fun _ => 50) 0, log := [] }

theorem start_full : Start full := ⟨⟨0, rfl⟩, rfl⟩

/-- Three pings, seven seconds, a ping, and a second. -/
def pingedAtTen : List PhaseLabel :=
  List.replicate 3 (.ping true) ++ List.replicate 7 (.update 1 0 true) ++ [.ping true, .update 1 0 true]

/-- **A discharge without a notification**: the ping at 10 percent takes the level below the window. -/
theorem unannounced_discharge :
    Start full ∧ run step full pingedAtTen = some (finish step full pingedAtTen) ∧
    BatteryLink.NoFailedWrite (finish step full pingedAtTen).ue.trace ∧
    (finish step full pingedAtTen).log = [.turned true] ∧ ¬ Announced (finish step full pingedAtTen).log := by
  have hlog : (finish step full pingedAtTen).log = [.turned true] := by decide +kernel
  refine ⟨start_full, run_finish (by decide +kernel), by decide +kernel, hlog, ?_⟩
  rw [hlog]
  intro ha
  exact not_since_nil ((ha [] (.turned true) [] rfl).1 rfl)

/-- A discharge and a charge without pings. -/
def cycle : List PhaseLabel := List.replicate 20 (.update 1 0 true)

theorem announced_iff_of_run_cycle : Announced (finish step full cycle).log :=
  (announced_iff_of_run start_full (run_finish (by decide +kernel)) (by decide +kernel)).1 (by decide +kernel)

/-! ## One notification a phase -/

/-- The notification of a direction. -/
def noteFor (charging : Bool) : EMessageType := if charging then .ueBatteryHigh else .ueBatteryLow

/-- In every stretch of the log without a turn at most one notification left, and it was that of its direction. -/
def OncePerPhase (log : List PhaseEvent) : Prop :=
  (∀ pre phase post, log = pre ++ phase ++ post → (∀ e ∈ phase, e.isNote = true) → phase.length ≤ 1) ∧
  ∀ t c, .notified t c ∈ log → t = noteFor c

/-- A notification has left since the last turn. -/
def Noted (log : List PhaseEvent) : Prop := Since (fun e => e.isNote = true) (fun e => e.isNote = true) log

/-- No `update_battery` runs, without a tick, at level 0 of a charge that has been announced. -/
def KeepsLatch (p : Phases) : PhaseLabel → Prop
  | .update timeNow _ _ => ¬ (p.ue.battery.charging = true ∧ p.ue.battery.sentNotification = true ∧
      p.ue.battery.powerPercentage = 0 ∧ timeNow - p.ue.battery.startingTime < batteryDecreaseTime)
  | .ping _ => True

instance (p : Phases) (a : PhaseLabel) : Decidable (KeepsLatch p a) := by
  unfold KeepsLatch; cases a <;> infer_instance

/-- The latch is set from the notification of a phase to its end. -/
structure Latched (p : Phases) : Prop where
  noted : Noted p.log → p.ue.battery.sentNotification = true
  once : Each (fun pre e => ∀ t c, e = .notified t c → ¬ Noted pre ∧ t = noteFor c) p.log

theorem noted_turned {log : List PhaseEvent} {c : Bool} : ¬ Noted (log ++ [.turned c]) := by
  unfold Noted
  rw [since_concat]
  simp [PhaseEvent.isNote]

/-- A check writes only while the latch is open, and then sets it. -/
theorem Latched.checked {p : Phases} (h : Latched p) (step : Int) (ok : Bool) :
    (Noted (p.log ++ notes p.ue.battery step ok) → latch p.ue.battery step ok = true) ∧
      Each (fun pre e => ∀ t c, e = .notified t c → ¬ Noted pre ∧ t = noteFor c)
        (p.log ++ notes p.ue.battery step ok) := by
  unfold notes latch
  cases hn : note p.ue.battery step ok with
  | none =>
    simp only [Option.toList_none, List.map_nil, List.append_nil, Option.isSome_none, Bool.or_false]
    exact ⟨h.noted, h.once⟩
  | some t =>
    obtain ⟨hd, hs⟩ := note_due hn
    refine ⟨fun _ => by simp, ?_⟩
    simp only [Option.toList_some, List.map_cons, List.map_nil, each_concat]
    refine ⟨h.once, fun t' c he => ?_⟩
    cases he
    refine ⟨fun ht => ?_, ?_⟩
    · rw [h.noted ht] at hs
      cases hs
    · rcases UeBattery.due_some hd with ⟨rfl, hc⟩ | ⟨rfl, hc⟩ <;> rw [hc] <;> rfl

theorem latched_step {p p' : Phases} {a : PhaseLabel} (hv : Level p) (h : Latched p) (hC : KeepsLatch p a)
    (hs : step p a = some p') : Latched p' := by
  cases a with
  | ping ok =>
    obtain ⟨-, -, hsent, hlog, -⟩ := step_ping hv.nonneg hv.le hs
    obtain ⟨h1, h2⟩ := h.checked decreaseAmount ok
    rw [← hlog] at h1 h2
    exact ⟨fun hn => hsent.trans (h1 hn), h2⟩
  | update n r ok =>
    obtain ⟨hu, hlog, -⟩ := step_update hs
    obtain ⟨h1, h2⟩ := h.checked updateStep ok
    have honce : Each (fun pre e => ∀ t c, e = .notified t c → ¬ Noted pre ∧ t = noteFor c) p'.log := by
      rw [hlog]
      split
      · rwa [List.append_nil]
      · exact each_concat.2 ⟨h2, fun t c he => by cases he⟩
    refine ⟨fun hn => ?_, honce⟩
    rw [hlog] at hn
    split at hn
    · rename_i hsame
      rw [List.append_nil] at hn
      have hlat := h1 hn
      have hlevel := level_cases hv.nonneg hv.le n r
      have h0 := hv.nonneg
      cases hu with
      | empty hl hp hc hsent =>
        have hold := hsame.symm.trans hc
        simp only [updateStep] at hlevel
        rcases hlevel with ⟨hl', ht⟩ | ⟨hc', -⟩ | ⟨-, hl'⟩
        · -- the level was 0 before, so the check wrote nothing and the latch was set
          have hp0 : p.ue.battery.powerPercentage = 0 := by omega
          rcases latch_cases p.ue.battery updateStep ok with ⟨-, hset | ⟨t, ht'⟩⟩ | ⟨hf, -⟩
          · exact absurd ⟨hold, hset, hp0, ht⟩ hC
          · have hd := (note_due ht').1
            rw [due_charging hold, hp0] at hd
            cases hd
          · cases hlat.symm.trans hf
        · cases hold.symm.trans hc'
        · omega
      | full hl hp hc hsent =>
        have hold := hsame.symm.trans hc
        have hlow := hv.latch_low hold hlat
        have hfall := (hv.discharging hold n r).2
        simp only [lowBatteryThreshold] at hlow
        omega
      | moved h0 h100 hp hc hsent => exact hsent.trans hlat
    · exact absurd hn noted_turned

/-- **One notification a phase.**  In every run that does not clear the latch inside a charge, every stretch without a
turn has at most one notification that left, of its own direction. -/
theorem once_per_phase {p₀ p : Phases} {as : List PhaseLabel} (h₀ : Start p₀) (hC : Along step KeepsLatch p₀ as)
    (hrun : run step p₀ as = some p) : OncePerPhase p.log := by
  have hinit : Level p₀ ∧ Latched p₀ := by
    refine ⟨level_start h₀, ?_⟩
    refine ⟨fun hn => ?_, ?_⟩
    · rw [h₀.log] at hn
      exact absurd hn not_since_nil
    · rw [h₀.log]
      exact each_nil
  have hkeep : ∀ p a p', Level p ∧ Latched p → KeepsLatch p a → step p a = some p' → Level p' ∧ Latched p' :=
    fun p a p' h hC hs => ⟨level_step h.1 hs, latched_step h.1 h.2 hC hs⟩
  have hl := (run_inv_along hkeep hinit hC hrun).2
  refine ⟨fun pre phase post hlog hnotes => ?_, fun t c hm => ?_⟩
  · rcases phase with _ | ⟨e₁, _ | ⟨e₂, phase⟩⟩
    · exact Nat.zero_le 1
    · exact Nat.le_refl 1
    · -- the second of two notifications came after the first, with no turn between
      exfalso
      have hsplit : p.log = (pre ++ [e₁]) ++ e₂ :: (phase ++ post) := by rw [hlog]; simp
      have h₁ : e₁.isNote = true := hnotes e₁ (by simp)
      have h₂ : e₂.isNote = true := hnotes e₂ (by simp)
      cases e₂ with
      | notified t c => exact (hl.once _ _ _ hsplit t c rfl).1 (since_here h₁)
      | turned c => cases h₂
  · obtain ⟨pre, post, hlog⟩ := List.append_of_mem hm
    exact (hl.once pre _ post hlog t c rfl).2

/-- A discharge and a charge up to 36 percent, thirty pings down to 0, an update without a tick, and three seconds. -/
def drainedCharging : List PhaseLabel :=
  List.replicate 12 (.update 1 0 true) ++ List.replicate 30 (.ping true) ++ [.update 0 0 true] ++
    List.replicate 3 (.update 1 0 true)

/-- **A charge with two notifications**: pings drain the level to 0 while it charges, which clears the latch. -/
theorem notified_twice :
    Start full ∧ run step full drainedCharging = some (finish step full drainedCharging) ∧
    (finish step full drainedCharging).log = [.notified .ueBatteryLow false, .turned true,
      .notified .ueBatteryHigh true, .notified .ueBatteryHigh true] ∧
    ¬ OncePerPhase (finish step full drainedCharging).log := by
  have hlog : (finish step full drainedCharging).log = [.notified .ueBatteryLow false, .turned true] ++
      [.notified .ueBatteryHigh true, .notified .ueBatteryHigh true] ++ [] := by decide +kernel
  refine ⟨start_full, run_finish (by decide +kernel), hlog, fun h => ?_⟩
  have := h.1 _ _ _ hlog (by decide)
  cases this with
  | step h => cases h

theorem once_per_phase_cycle : OncePerPhase (finish step full cycle).log :=
  once_per_phase start_full (by decide +kernel) (run_finish (by decide +kernel))

end Phases
end Lte
