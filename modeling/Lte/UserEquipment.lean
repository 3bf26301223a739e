import Mathlib.Data.Fin.VecNotation
import Lte.Message
/-!
# UserEquipment — `user_equipment.c` and the state of a UE process

`Ue` is what the two threads of a UE process share: the globals of `main.c`, the cells, the static variables of
`check_events` and the file being received.  `trace` lists, oldest first, the calls whose order the properties speak
of.  A write takes its outcome as an argument and a call of `time` its reading, so every function is total and its
caller decides what the environment did.
-/
namespace Lte

/-- An `int8_t` that was assigned `x`. -/
def int8 (x : Int) : Int := (x + 128) % 256 - 128

/-! ## The state of a UE -/

structure UeBattery where
  powerPercentage : Int
  powerIsLow : Bool
  charging : Bool
  sentNotification : Bool
  startingTime : Int
deriving DecidableEq

structure SCellSignal where
  rsrp : Int
  thresholds : Fin 2 → Int
  signalCourse : Int
deriving DecidableEq

structure SCells where
  cellsSignals : Fin 2 → SCellSignal
  startingTime : Int
  currentEvent : SEvent
deriving DecidableEq

/-- The static variables of `check_events`. -/
structure CheckEventsStatics where
  eventChange : Int
  a3Checked : Bool
  a4Checked : Bool
deriving DecidableEq

/-- `file_to_recv`: a local of `main` that only `data_start` assigns. -/
inductive FileToRecv
  | uninitialised
  | opened (name : List UInt8)
  | closed (name : List UInt8)
deriving DecidableEq

/-- A call a UE made.  `recv m` left `m` in the buffer it reads into, `exitClose` is the descriptor closed by the
end of the process, `checked e` is `check_events` returning `e`. -/
inductive UeCall
  | write (m : SMessage) (ok : Bool)
  | recv (m : SMessage)
  | close
  | exitClose
  | fopen (name : List UInt8)
  | fwrite (file : FileToRecv) (block : List UInt8)
  | fclose (file : FileToRecv)
  | checked (e : SEvent)
deriving DecidableEq

structure Ue where
  running : Bool
  message : SMessage
  received : SMessage
  battery : UeBattery
  cells : SCells
  statics : CheckEventsStatics
  fileToRecv : FileToRecv
  trace : List UeCall
deriving DecidableEq

def Ue.call (u : Ue) (c : UeCall) : Ue := { u with trace := u.trace ++ [c] }

/-- `write(socketfd, message, sizeof(*message))` of the shared buffer after its type was set, and the status the
caller returns. -/
def Ue.writeMessage (u : Ue) (t : EMessageType) (ok : Bool) : Ue × Int :=
  let u := { u with message := { u.message with messageType := t } }
  (u.call (.write u.message ok), if ok then 0 else -1)

/-- The messages that left, oldest first: the writes that succeeded. -/
def delivered (trace : List UeCall) : List SMessage :=
  trace.filterMap (fun c => match c with
    | .write m true => some m
    | _ => none)

@[simp] theorem delivered_nil : delivered [] = [] := rfl

@[simp] theorem delivered_append (t t' : List UeCall) : delivered (t ++ t') = delivered t ++ delivered t' :=
  List.filterMap_append

@[simp] theorem delivered_write (m : SMessage) (ok : Bool) : delivered [.write m ok] = if ok then [m] else [] := by
  cases ok <;> rfl

theorem mem_delivered {m : SMessage} {t : List UeCall} : m ∈ delivered t ↔ UeCall.write m true ∈ t := by
  unfold delivered
  rw [List.mem_filterMap]
  constructor
  · rintro ⟨c, hc, he⟩
    split at he
    · cases he
      exact hc
    · cases he
  · intro h
    exact ⟨_, h, rfl⟩

/-! ## The battery -/

def initializeBatteryLife (now : Int) : UeBattery :=
  { powerPercentage := 100, powerIsLow := false, charging := false, sentNotification := false, startingTime := now }

def sendLowBatteryNotification (u : Ue) (ok : Bool) : Ue × Int := u.writeMessage .ueBatteryLow ok

def sendHighBatteryNotification (u : Ue) (ok : Bool) : Ue × Int := u.writeMessage .ueBatteryHigh ok

def lowBatteryThreshold : Int := 20

def checkBatteryStatus (step : Int) (u : Ue) (ok : Bool) : Ue :=
  let p := u.battery.powerPercentage
  if p ≤ lowBatteryThreshold ∧ lowBatteryThreshold - step < p ∧ u.battery.charging = false then
    let u := { u with battery := { u.battery with powerIsLow := true } }
    if u.battery.sentNotification = false then
      match sendLowBatteryNotification u ok with
      | (u, status) =>
        if status = 0 then { u with battery := { u.battery with sentNotification := true } } else u
    else u
  else if p ≥ lowBatteryThreshold ∧ lowBatteryThreshold + step > p ∧ u.battery.charging = true then
    let u := { u with battery := { u.battery with powerIsLow := false } }
    if u.battery.sentNotification = false then
      match sendHighBatteryNotification u ok with
      | (u, status) =>
        if status = 0 then { u with battery := { u.battery with sentNotification := true } } else u
    else u
  else u

/-- The step of `update_battery` and its `battery_decrease_time`. -/
def updateStep : Int := 12
def batteryDecreaseTime : Int := 1

/-- The middle of `update_battery`: one step when enough time went by, and the clock read again. -/
def elapse (b : UeBattery) (timeNow timeReset : Int) : UeBattery :=
  if timeNow - b.startingTime ≥ batteryDecreaseTime then
    { b with
      powerPercentage :=
        if b.charging = false then int8 (b.powerPercentage - updateStep) else int8 (b.powerPercentage + updateStep)
      startingTime := timeReset }
  else b

/-- The end of `update_battery`: at 0 and at 100 the direction turns. -/
def turn (b : UeBattery) : UeBattery :=
  if b.powerPercentage ≤ 0 then
    { b with sentNotification := false, powerPercentage := 0, charging := true }
  else if b.powerPercentage ≥ 100 then
    { b with sentNotification := false, powerPercentage := 100, charging := false }
  else b

def updateBattery (u : Ue) (timeNow timeReset : Int) (ok : Bool) : Ue :=
  let u := checkBatteryStatus updateStep u ok
  { u with battery := turn (elapse u.battery timeNow timeReset) }

/-- `decrase_amount` -/
def decreaseAmount : Int := 2

def decreaseAfterPing (u : Ue) (ok : Bool) : Ue :=
  let u := checkBatteryStatus decreaseAmount u ok
  let p := u.battery.powerPercentage
  if p - decreaseAmount < 0 then
    { u with battery := { u.battery with powerPercentage := 0 } }
  else if p ≠ 0 ∧ p - decreaseAmount ≥ 0 then
    { u with battery := { u.battery with powerPercentage := int8 (p - decreaseAmount) } }
  else u

/-- The notification a check finds due: the level is in the window of the direction it moves in. -/
def UeBattery.due (b : UeBattery) (step : Int) : Option EMessageType :=
  if b.powerPercentage ≤ lowBatteryThreshold ∧ lowBatteryThreshold - step < b.powerPercentage ∧ b.charging = false then
    some .ueBatteryLow
  else if b.powerPercentage ≥ lowBatteryThreshold ∧ lowBatteryThreshold + step > b.powerPercentage ∧
      b.charging = true then
    some .ueBatteryHigh
  else none

/-- **What a check can do**: nothing; note the level when its notification has been sent; or try to send it. -/
theorem checkBatteryStatus_cases (step : Int) (u : Ue) (ok : Bool) :
    (u.battery.due step = none ∧ checkBatteryStatus step u ok = u) ∨
    (∃ t, u.battery.due step = some t ∧ u.battery.sentNotification = true ∧
      checkBatteryStatus step u ok =
        { u with battery := { u.battery with powerIsLow := decide (t = .ueBatteryLow) } }) ∨
    (∃ t, u.battery.due step = some t ∧ u.battery.sentNotification = false ∧
      checkBatteryStatus step u ok =
        { u with
          message := { u.message with messageType := t }
          battery := { u.battery with powerIsLow := decide (t = .ueBatteryLow), sentNotification := ok }
          trace := u.trace ++ [.write { u.message with messageType := t } ok] }) := by
  have hsend : ∀ t : EMessageType, (u.writeMessage t ok).2 = if ok then 0 else -1 := fun _ => rfl
  unfold checkBatteryStatus UeBattery.due
  by_cases hlow : u.battery.powerPercentage ≤ lowBatteryThreshold ∧
      lowBatteryThreshold - step < u.battery.powerPercentage ∧ u.battery.charging = false
  · right
    simp only [if_pos hlow]
    cases hs : u.battery.sentNotification with
    | true => left; exact ⟨_, rfl, rfl, by simp⟩
    | false =>
      right
      refine ⟨_, rfl, rfl, ?_⟩
      cases ok <;> simp [sendLowBatteryNotification, Ue.writeMessage, Ue.call]
  · simp only [if_neg hlow]
    by_cases hhigh : u.battery.powerPercentage ≥ lowBatteryThreshold ∧
        lowBatteryThreshold + step > u.battery.powerPercentage ∧ u.battery.charging = true
    · right
      simp only [if_pos hhigh]
      cases hs : u.battery.sentNotification with
      | true => left; exact ⟨_, rfl, rfl, by simp⟩
      | false =>
        right
        refine ⟨_, rfl, rfl, ?_⟩
        cases ok <;> simp [sendHighBatteryNotification, Ue.writeMessage, Ue.call]
    · left
      simp only [if_neg hhigh]
      exact ⟨trivial, trivial⟩

/-- A notification is due only in its own direction. -/
theorem UeBattery.due_some {b : UeBattery} {step : Int} {t : EMessageType} (h : b.due step = some t) :
    (t = .ueBatteryLow ∧ b.charging = false) ∨ (t = .ueBatteryHigh ∧ b.charging = true) := by
  unfold UeBattery.due at h
  split at h
  · rename_i hc
    exact .inl ⟨by simpa using h.symm, hc.2.2⟩
  · split at h
    · rename_i hc
      exact .inr ⟨by simpa using h.symm, hc.2.2⟩
    · cases h

/-- A check with this step would try to send a notification. -/
def UeBattery.Notifies (b : UeBattery) (step : Int) : Prop := b.due step ≠ none ∧ b.sentNotification = false

instance (b : UeBattery) (step : Int) : Decidable (b.Notifies step) := by unfold UeBattery.Notifies; infer_instance

/-- `u` after a notification of type `t` was written through the shared buffer, its battery then being `b`. -/
def Ue.notified (u : Ue) (t : EMessageType) (ok : Bool) (b : UeBattery) : Ue :=
  { u with
    message := { u.message with messageType := t }
    battery := b
    trace := u.trace ++ [.write { u.message with messageType := t } ok] }

theorem checkBatteryStatus_frame (step : Int) (u : Ue) (ok : Bool) :
    (∃ b, checkBatteryStatus step u ok = { u with battery := b }) ∨
    (u.battery.Notifies step ∧ ∃ t b, (t = .ueBatteryLow ∨ t = .ueBatteryHigh) ∧
      checkBatteryStatus step u ok = u.notified t ok b) := by
  rcases checkBatteryStatus_cases step u ok with ⟨-, he⟩ | ⟨t, ht, -, he⟩ | ⟨t, ht, hs, he⟩
  · exact .inl ⟨u.battery, he⟩
  · exact .inl ⟨_, he⟩
  · refine .inr ⟨⟨?_, hs⟩, t, _, (UeBattery.due_some ht).imp And.left And.left, he⟩
    rw [ht]
    exact Option.some_ne_none t

/-- `update_battery` changes the battery, and writes at most one notification. -/
theorem updateBattery_frame (u : Ue) (timeNow timeReset : Int) (ok : Bool) :
    (∃ b, updateBattery u timeNow timeReset ok = { u with battery := b }) ∨
    (u.battery.Notifies updateStep ∧ ∃ t b, (t = .ueBatteryLow ∨ t = .ueBatteryHigh) ∧
      updateBattery u timeNow timeReset ok = u.notified t ok b) := by
  unfold updateBattery
  rcases checkBatteryStatus_frame updateStep u ok with ⟨b, he⟩ | ⟨hn, t, b, ht, he⟩
  · exact .inl ⟨turn (elapse b timeNow timeReset), by rw [he]⟩
  · exact .inr ⟨hn, t, turn (elapse b timeNow timeReset), ht, by rw [he]; rfl⟩

/-- So does `decrease_after_ping`. -/
theorem decreaseAfterPing_frame (u : Ue) (ok : Bool) :
    (∃ b, decreaseAfterPing u ok = { u with battery := b }) ∨
    (∃ t b, (t = .ueBatteryLow ∨ t = .ueBatteryHigh) ∧ decreaseAfterPing u ok = u.notified t ok b) := by
  have hlevel : ∃ b, decreaseAfterPing u ok = { checkBatteryStatus decreaseAmount u ok with battery := b } := by
    unfold decreaseAfterPing
    simp only
    split
    · exact ⟨_, rfl⟩
    · split
      · exact ⟨_, rfl⟩
      · exact ⟨_, rfl⟩
  obtain ⟨b', hb'⟩ := hlevel
  rcases checkBatteryStatus_frame decreaseAmount u ok with ⟨b, he⟩ | ⟨-, t, b, ht, he⟩
  · exact .inl ⟨b', by rw [hb', he]⟩
  · exact .inr ⟨t, b', ht, by rw [hb', he]; rfl⟩

/-! ## The cells -/

def timeUp : Int := 1
def maxRsrp : Int := 97

/-- `initialize_cells`; `start i` is `rand() % max_rsrp` for cell `i`. -/
def initializeCells (start : Fin 2 → Int) (now : Int) : SCells :=
  { cellsSignals := fun i => { rsrp := start i, thresholds := ![19, 77], signalCourse := 5 }
    startingTime := now
    currentEvent := .defEvent }

/-- The body of the loop of `update_rsrps`. -/
def updateRsrp (c : SCellSignal) : SCellSignal :=
  let c := { c with rsrp := int8 (c.rsrp + c.signalCourse) }
  let c := if c.rsrp > maxRsrp then { c with rsrp := maxRsrp } else c
  let c := if c.rsrp < 0 then { c with rsrp := 0 } else c
  if c.rsrp ≥ maxRsrp ∨ c.rsrp ≤ 0 then { c with signalCourse := int8 (c.signalCourse * -1) } else c

def updateRsrps (cells : SCells) (timeNow timeReset : Int) : SCells :=
  if timeNow - cells.startingTime > timeUp then
    { cells with cellsSignals := fun i => updateRsrp (cells.cellsSignals i), startingTime := timeReset }
  else cells

/-- The static variables before the first call. -/
def CheckEventsStatics.init : CheckEventsStatics := { eventChange := 5, a3Checked := false, a4Checked := false }

def checkEvents (cells : SCells) (st : CheckEventsStatics) : SEvent × CheckEventsStatics :=
  let c0 := cells.cellsSignals 0
  let c1 := cells.cellsSignals 1
  let st := if c0.rsrp < c0.thresholds 0 ∧ 5 = st.eventChange then { st with eventChange := 1 } else st
  let st := if c0.rsrp > c0.thresholds 1 ∧ 5 = st.eventChange then { st with eventChange := 2 } else st
  if c0.rsrp > c0.thresholds 0 ∧ 1 = st.eventChange then (.a1, { st with eventChange := 5 })
  else if c0.rsrp < c0.thresholds 1 ∧ 2 = st.eventChange then (.a2, { st with eventChange := 5 })
  else
    let st := if c1.rsrp < c0.rsrp then { st with a3Checked := false } else st
    if c1.rsrp > c0.rsrp ∧ st.a3Checked = false then (.a3, { st with eventChange := 5, a3Checked := true })
    else
      let st := if c1.rsrp < c1.thresholds 1 then { st with a4Checked := false } else st
      if c1.rsrp > c1.thresholds 1 ∧ st.a4Checked = false then (.a4, { st with eventChange := 5, a4Checked := true })
      else (.defEvent, st)

def setCurrentSignalEvent (u : Ue) (timeNow timeReset : Int) : Ue :=
  let cells := updateRsrps u.cells timeNow timeReset
  let (event, st) := checkEvents cells u.statics
  { u with cells := { cells with currentEvent := event }, statics := st }.call (.checked event)

end Lte
