import Lte.Client
import Lte.SignalEvents
/-!
# ServingCell — what the neighbour cell does to a1 and a2

The course of the serving cell and the tests of a1 and a2 read nothing of the neighbour cell.  But a3 and a4 write the
variable that arms a1 and a2, and so forget a crossing: a1 comes exactly for one that was kept (`Tracked.a1_iff`).  Two
runs that differ in the neighbour cell alone return the same serving events exactly when they keep the same crossings
(`servingEventsAgree_iff`), and not always (`serving_event_lost`).
-/
namespace Lte
namespace ServingCell

open Histories CheckEvents

/-- What `time` answers during a call of `set_current_signal_event`. -/
structure Reading where
  timeNow : Int
  timeReset : Int

/-- What a call of `check_events` finds: the powers, and its static variables. -/
structure Found where
  rsrp : Fin 2 → Int
  statics : CheckEventsStatics

/-- The powers of the cells. -/
def powers (cells : SCells) : Fin 2 → Int := fun i => (cells.cellsSignals i).rsrp

def found (u : Ue) (t : Reading) : Found where
  rsrp := powers (updateRsrps u.cells t.timeNow t.timeReset)
  statics := u.statics

/-- `set_current_signal_event` as a machine that puts out what each call of `check_events` finds. -/
def signals : Mealy Ue Reading Found where
  out u t := [found u t]
  next u t := setCurrentSignalEvent u t.timeNow t.timeReset

/-- The UE after these calls, from `initialize_cells`. -/
def after (start : Fin 2 → Int) (now : Int) (ts : List Reading) : Ue := signals.final (Ue.start start now) ts

/-- What these calls found, oldest first. -/
def history (start : Fin 2 → Int) (now : Int) (ts : List Reading) : List Found :=
  signals.outputs (Ue.start start now) ts

/-- The body of the A3 or of the A4 branch would be run. -/
def Found.Resets (c : Found) : Prop :=
  (c.rsrp neighbour > c.rsrp serving ∧ c.statics.a3Checked = false) ∨
  (c.rsrp neighbour > threshold2 ∧ c.statics.a4Checked = false)

/-- The serving cell was found beyond `limit`, later calls found it at `limit`, and neither that call nor a later one
took the branch of A3 or A4. -/
def Kept (beyond : Int → Prop) (limit : Int) (h : List Found) : Prop :=
  Since (fun c => beyond (c.rsrp serving) ∧ ¬ c.Resets) (fun c => c.rsrp serving = limit ∧ ¬ c.Resets) h

def KeptUp (h : List Found) : Prop := Kept (· < threshold1) threshold1 h
def KeptDown (h : List Found) : Prop := Kept (· > threshold2) threshold2 h

/-- a1, and a2, is returned in both runs or in neither. -/
def SameServingEvent (e e' : SEvent) : Prop := (e = .a1 ↔ e' = .a1) ∧ (e = .a2 ↔ e' = .a2)

/-- Every call of the two runs stores the same serving event. -/
def ServingEventsAgree (start start' : Fin 2 → Int) (now : Int) (ts : List Reading) : Prop :=
  Each (fun pre t => SameServingEvent (after start now (pre ++ [t])).cells.currentEvent
    (after start' now (pre ++ [t])).cells.currentEvent) ts

/-- At every call that finds the serving cell across a threshold, the crossing was kept in both runs or in neither. -/
def CrossingsAgree (start start' : Fin 2 → Int) (now : Int) (ts : List Reading) : Prop :=
  Each (fun pre t =>
    ((found (after start now pre) t).rsrp serving > threshold1 →
      (KeptUp (history start now pre) ↔ KeptUp (history start' now pre))) ∧
    ((found (after start now pre) t).rsrp serving < threshold2 →
      (KeptDown (history start now pre) ↔ KeptDown (history start' now pre)))) ts

/-! ## The course of one cell -/

/-- What `initialize_cells` and `update_rsrps` keep of a cell. -/
structure Moving (c : SCellSignal) : Prop where
  thresholds : c.thresholds = ![threshold1, threshold2]
  range : 0 ≤ c.rsrp ∧ c.rsrp ≤ maxRsrp
  course : c.signalCourse = 5 ∨ c.signalCourse = -5

/-- The update of a cell in range: no `int8_t` of it overflows. -/
theorem updateRsrp_eq {c : SCellSignal} (h : Moving c) :
    updateRsrp c =
      let rsrp := max 0 (min maxRsrp (c.rsrp + c.signalCourse))
      { c with
        rsrp := rsrp
        signalCourse := if rsrp ≥ maxRsrp ∨ rsrp ≤ 0 then -c.signalCourse else c.signalCourse } := by
  obtain ⟨hlow, hhigh⟩ := h.range
  have hcourse := h.course
  unfold maxRsrp at hhigh
  have hadd : int8 (c.rsrp + c.signalCourse) = c.rsrp + c.signalCourse := by
    unfold int8
    omega
  have hneg : int8 (-c.signalCourse) = -c.signalCourse := by
    unfold int8
    omega
  simp only [updateRsrp, hadd, maxRsrp, mul_neg, mul_one]
  by_cases h97 : c.rsrp + c.signalCourse > 97
  · have hmax : max 0 (min 97 (c.rsrp + c.signalCourse)) = 97 := by omega
    simp [h97, hmax, hneg]
  · by_cases h0 : c.rsrp + c.signalCourse < 0
    · have hmax : max 0 (min 97 (c.rsrp + c.signalCourse)) = 0 := by omega
      simp [h97, h0, hmax, hneg]
    · have hmax : max 0 (min 97 (c.rsrp + c.signalCourse)) = c.rsrp + c.signalCourse := by omega
      simp only [if_neg h97, if_neg h0, hmax, hneg]
      split <;> rfl

/-- An update moves the power of a cell by at most five. -/
theorem updateRsrp_moving {c : SCellSignal} (h : Moving c) :
    Moving (updateRsrp c) ∧ c.rsrp - 5 ≤ (updateRsrp c).rsrp ∧ (updateRsrp c).rsrp ≤ c.rsrp + 5 := by
  rw [updateRsrp_eq h]
  obtain ⟨hlow, hhigh⟩ := h.range
  have hcourse := h.course
  unfold maxRsrp at hhigh
  refine ⟨⟨h.thresholds, ?_, ?_⟩, ?_⟩
  · simp only [maxRsrp]
    omega
  · simp only
    split <;> omega
  · simp only [maxRsrp]
    omega

/-- So does `update_rsrps`, which may leave the cells as they are. -/
theorem updateRsrps_moving {cells : SCells} (h : ∀ i, Moving (cells.cellsSignals i)) (t : Reading) (i : Fin 2) :
    let cells' := updateRsrps cells t.timeNow t.timeReset
    Moving (cells'.cellsSignals i) ∧ powers cells i - 5 ≤ powers cells' i ∧ powers cells' i ≤ powers cells i + 5 := by
  simp only [updateRsrps, powers]
  split
  · exact updateRsrp_moving (h i)
  · exact ⟨h i, by omega, by omega⟩

/-! ## One call -/

/-- `check_events` reads nothing of a cell but its power and its thresholds. -/
theorem checkEvents_congr {cells cells' : SCells} (hpowers : powers cells = powers cells')
    (hthresholds : ∀ i, (cells.cellsSignals i).thresholds = (cells'.cellsSignals i).thresholds)
    (st : CheckEventsStatics) : checkEvents cells st = checkEvents cells' st := by
  have h0 : (cells.cellsSignals 0).rsrp = (cells'.cellsSignals 0).rsrp := congrFun hpowers 0
  have h1 : (cells.cellsSignals 1).rsrp = (cells'.cellsSignals 1).rsrp := congrFun hpowers 1
  unfold checkEvents
  simp only [h0, h1, hthresholds]

/-- With the serving cell above the first threshold, a1 waits for its crossing exactly if it did before the call. -/
theorem armed_one_iff {st : CheckEventsStatics} {x : Int} :
    (x > threshold1 ∧ armed st x = 1) ↔ (x > threshold1 ∧ st.eventChange = 1) := by
  refine and_congr_right (fun hx => ⟨fun ha => (armed_eq_one ha).resolve_right (by omega), fun hec => ?_⟩)
  rw [armed, hec]
  rfl

theorem armed_two_iff {st : CheckEventsStatics} {x : Int} :
    (x < threshold2 ∧ armed st x = 2) ↔ (x < threshold2 ∧ st.eventChange = 2) := by
  refine and_congr_right (fun hx => ⟨fun ha => (armed_eq_two ha).resolve_right (by omega), fun hec => ?_⟩)
  rw [armed, hec]
  rfl

section
variable {st : CheckEventsStatics} {r : Fin 2 → Int} {x : Int}

theorem resets_iff : Found.Resets ⟨r, st⟩ ↔
    (r 1 > r 0 ∧ st.a3Checked = false) ∨ (r 1 > threshold2 ∧ st.a4Checked = false) := Iff.rfl

instance (c : Found) : Decidable c.Resets := by unfold Found.Resets; infer_instance

theorem checkEvents_a1_iff :
    (checkEvents (sampled r) st).1 = .a1 ↔ r 0 > threshold1 ∧ st.eventChange = 1 := by
  simp only [checkEvents_sampled, armed_one_iff]
  split_ifs with h1 <;> simp [h1]

theorem checkEvents_a2_iff :
    (checkEvents (sampled r) st).1 = .a2 ↔ r 0 < threshold2 ∧ st.eventChange = 2 := by
  simp only [checkEvents_sampled, armed_one_iff, armed_two_iff]
  split_ifs with h1 h2
  · simp [h1.2]
  all_goals simp [h2]

/-- **What a call makes of the armed crossing**: it is used up or forgotten, or stays as the first two tests left it. -/
theorem checkEvents_change : (checkEvents (sampled r) st).2.eventChange =
    if (r 0 > threshold1 ∧ st.eventChange = 1) ∨ (r 0 < threshold2 ∧ st.eventChange = 2) ∨ Found.Resets ⟨r, st⟩ then 5
    else armed st (r 0) := by
  simp only [checkEvents_sampled, armed_one_iff, armed_two_iff, resets_iff]
  by_cases h1 : r 0 > threshold1 ∧ st.eventChange = 1
  · rw [if_pos h1, if_pos (.inl h1)]
  by_cases h2 : r 0 < threshold2 ∧ st.eventChange = 2
  · rw [if_neg h1, if_pos h2, if_pos (.inr (.inl h2))]
  by_cases h3 : r 1 > r 0 ∧ st.a3Checked = false
  · rw [if_neg h1, if_neg h2, if_pos h3, if_pos (.inr (.inr (.inl h3)))]
  by_cases h4 : r 1 > threshold2 ∧ st.a4Checked = false
  · rw [if_neg h1, if_neg h2, if_neg h3, if_pos h4, if_pos (.inr (.inr (.inr h4)))]
  rw [if_neg h1, if_neg h2, if_neg h3, if_neg h4, if_neg]
  rintro (h | h | h | h)
  · exact h1 h
  · exact h2 h
  · exact h3 h
  · exact h4 h

/-- The power has not yet crossed what is armed. -/
structure Behind (st : CheckEventsStatics) (rsrp0 : Int) : Prop where
  change : st.eventChange = 1 ∨ st.eventChange = 2 ∨ st.eventChange = 5
  up : st.eventChange = 1 → rsrp0 ≤ threshold1
  down : st.eventChange = 2 → rsrp0 ≥ threshold2

/-- **What leaves the upward crossing armed**.  One update does not lead from above the second threshold to the first,
so the other crossing is never in the way. -/
theorem checkEvents_up (hb : Behind st x) (hlow : x - 5 ≤ r 0) :
    (checkEvents (sampled r) st).2.eventChange = 1 ↔
      (r 0 < threshold1 ∨ r 0 = threshold1 ∧ st.eventChange = 1) ∧ ¬ Found.Resets ⟨r, st⟩ := by
  have hchange := hb.change
  have hdown := hb.down
  rw [checkEvents_change]
  unfold armed threshold1
  unfold threshold2 at hdown ⊢
  by_cases hr : Found.Resets ⟨r, st⟩
  · simp [hr]
  · simp only [hr, or_false, not_false_eq_true, and_true]
    split_ifs <;> omega

/-- So for the downward crossing. -/
theorem checkEvents_down (hb : Behind st x) (hhigh : r 0 ≤ x + 5) :
    (checkEvents (sampled r) st).2.eventChange = 2 ↔
      (r 0 > threshold2 ∨ r 0 = threshold2 ∧ st.eventChange = 2) ∧ ¬ Found.Resets ⟨r, st⟩ := by
  have hchange := hb.change
  have hup := hb.up
  rw [checkEvents_change]
  unfold armed threshold2
  unfold threshold1 at hup ⊢
  by_cases hr : Found.Resets ⟨r, st⟩
  · simp [hr]
  · simp only [hr, or_false, not_false_eq_true, and_true]
    split_ifs <;> omega

theorem behind_after (hb : Behind st x) (hlow : x - 5 ≤ r 0) (hhigh : r 0 ≤ x + 5) :
    Behind (checkEvents (sampled r) st).2 (r 0) := by
  refine ⟨?_, fun h => ?_, fun h => ?_⟩
  · have := hb.change
    rw [checkEvents_change]
    unfold armed
    split_ifs <;> omega
  · have := ((checkEvents_up hb hlow).1 h).1
    omega
  · have := ((checkEvents_down hb hhigh).1 h).1
    omega

end

/-! ## One run -/

/-- **What the UE knows of the serving cell** after calls that found `h`. -/
structure Tracked (u : Ue) (h : List Found) : Prop where
  moving : ∀ i, Moving (u.cells.cellsSignals i)
  behind : Behind u.statics (powers u.cells serving)
  up : u.statics.eventChange = 1 ↔ KeptUp h
  down : u.statics.eventChange = 2 ↔ KeptDown h

theorem tracked_start {start : Fin 2 → Int} (hs : ∀ i, 0 ≤ start i ∧ start i ≤ 96) (now : Int) :
    Tracked (Ue.start start now) [] where
  moving i := ⟨rfl, ⟨(hs i).1, Int.le_trans (hs i).2 (by decide)⟩, .inl rfl⟩
  behind := ⟨.inr (.inr rfl), (fun h => by cases h), (fun h => by cases h)⟩
  up := iff_of_false (by decide : (5 : Int) ≠ 1) not_since_nil
  down := iff_of_false (by decide : (5 : Int) ≠ 2) not_since_nil

section
variable {u : Ue} {h : List Found}

/-- A call stores what `check_events` makes of what it finds. -/
theorem setCurrentSignalEvent_spec (hu : ∀ i, Moving (u.cells.cellsSignals i)) (t : Reading) :
    (setCurrentSignalEvent u t.timeNow t.timeReset).cells.currentEvent =
      (checkEvents (sampled (found u t).rsrp) u.statics).1 ∧
    (setCurrentSignalEvent u t.timeNow t.timeReset).statics =
      (checkEvents (sampled (found u t).rsrp) u.statics).2 := by
  have hsampled : checkEvents (updateRsrps u.cells t.timeNow t.timeReset) u.statics =
      checkEvents (sampled (found u t).rsrp) u.statics := by
    apply checkEvents_congr
    · funext i
      rfl
    · exact fun i => (updateRsrps_moving hu t i).1.thresholds
  exact ⟨congrArg Prod.fst hsampled, congrArg Prod.snd hsampled⟩

/-- One more call leaves a crossing kept when it finds the power beyond the limit, or at it with the crossing kept. -/
theorem kept_concat {beyond : Int → Prop} {limit : Int} {c : Found} :
    Kept beyond limit (h ++ [c]) ↔
      (beyond (c.rsrp serving) ∨ c.rsrp serving = limit ∧ Kept beyond limit h) ∧ ¬ c.Resets := by
  unfold Kept
  rw [since_concat, or_and_right, and_assoc, and_left_comm]

/-- **A call keeps what the UE knows.** -/
theorem Tracked.call (hu : Tracked u h) (t : Reading) :
    Tracked (setCurrentSignalEvent u t.timeNow t.timeReset) (h ++ [found u t]) := by
  obtain ⟨-, hlow, hhigh⟩ := updateRsrps_moving hu.moving t serving
  have hst := (setCurrentSignalEvent_spec hu.moving t).2
  refine ⟨fun i => (updateRsrps_moving hu.moving t i).1, ?_, ?_, ?_⟩
  · rw [hst]
    exact behind_after hu.behind hlow hhigh
  · rw [hst, KeptUp, kept_concat]
    apply (checkEvents_up hu.behind hlow).trans
    rw [hu.up]
    rfl
  · rw [hst, KeptDown, kept_concat]
    apply (checkEvents_down hu.behind hhigh).trans
    rw [hu.down]
    rfl

/-- **a1 comes exactly for an upward crossing that was kept.** -/
theorem Tracked.a1_iff (hu : Tracked u h) (t : Reading) :
    (setCurrentSignalEvent u t.timeNow t.timeReset).cells.currentEvent = .a1 ↔
      (found u t).rsrp serving > threshold1 ∧ KeptUp h := by
  rw [(setCurrentSignalEvent_spec hu.moving t).1, checkEvents_a1_iff, hu.up]
  rfl

theorem Tracked.a2_iff (hu : Tracked u h) (t : Reading) :
    (setCurrentSignalEvent u t.timeNow t.timeReset).cells.currentEvent = .a2 ↔
      (found u t).rsrp serving < threshold2 ∧ KeptDown h := by
  rw [(setCurrentSignalEvent_spec hu.moving t).1, checkEvents_a2_iff, hu.down]
  rfl

end

theorem after_concat (start : Fin 2 → Int) (now : Int) (ts : List Reading) (t : Reading) :
    after start now (ts ++ [t]) = setCurrentSignalEvent (after start now ts) t.timeNow t.timeReset :=
  signals.final_concat _ ts t

theorem tracked_after {start : Fin 2 → Int} (hs : ∀ i, 0 ≤ start i ∧ start i ≤ 96) (now : Int) (ts : List Reading) :
    Tracked (after start now ts) (history start now ts) := by
  induction ts using List.reverseRecOn with
  | nil => exact tracked_start hs now
  | append_singleton ts t ih =>
    rw [after_concat, history, Mealy.outputs_concat]
    exact ih.call t

/-! ## Two runs -/

/-- The serving cell and the clock, which is all that decides where the serving cell goes. -/
def servingPart (u : Ue) : SCellSignal × Int := (u.cells.cellsSignals serving, u.cells.startingTime)

theorem servingPart_call {u u' : Ue} (h : servingPart u = servingPart u') (t : Reading) :
    servingPart (setCurrentSignalEvent u t.timeNow t.timeReset) =
      servingPart (setCurrentSignalEvent u' t.timeNow t.timeReset) := by
  obtain ⟨hcell, htime⟩ := Prod.mk.inj h
  simp only [servingPart, setCurrentSignalEvent, Ue.call, updateRsrps, htime]
  split
  · simp only [hcell]
  · simp only [hcell, htime]

/-- **The neighbour cell has no part in the course of the serving cell.** -/
theorem servingPart_after {start start' : Fin 2 → Int} (h0 : start serving = start' serving) (now : Int)
    (ts : List Reading) : servingPart (after start now ts) = servingPart (after start' now ts) := by
  induction ts using List.reverseRecOn with
  | nil =>
    simp only [after, Mealy.final, List.foldl_nil, servingPart, Ue.start, initializeCells, h0]
  | append_singleton ts t ih =>
    rw [after_concat, after_concat]
    exact servingPart_call ih t

/-- So both runs find it at the same power. -/
theorem found_serving {start start' : Fin 2 → Int} (h0 : start serving = start' serving) (now : Int)
    (ts : List Reading) (t : Reading) :
    (found (after start now ts) t).rsrp serving = (found (after start' now ts) t).rsrp serving := by
  have h := servingPart_after h0 now (ts ++ [t])
  rw [after_concat, after_concat] at h
  exact congrArg (fun p => p.1.rsrp) h

/-- **The serving events do not depend on the neighbour cell exactly when the crossings that are kept do not.** -/
theorem servingEventsAgree_iff {start start' : Fin 2 → Int} (hs : ∀ i, 0 ≤ start i ∧ start i ≤ 96)
    (hs' : ∀ i, 0 ≤ start' i ∧ start' i ≤ 96) (h0 : start serving = start' serving) (now : Int) (ts : List Reading) :
    ServingEventsAgree start start' now ts ↔ CrossingsAgree start start' now ts := by
  apply each_congr
  intro pre t
  have hu := tracked_after hs now pre
  have hu' := tracked_after hs' now pre
  rw [after_concat, after_concat]
  apply and_congr
  · rw [hu.a1_iff, hu'.a1_iff, ← found_serving h0]
    exact and_congr_right_iff
  · rw [hu.a2_iff, hu'.a2_iff, ← found_serving h0]
    exact and_congr_right_iff

/-- The calls of one second, and the first call after an update. -/
def twoCalls : List Reading := [⟨0, 0⟩, ⟨2, 2⟩]

/-- The serving cell passes 19, and neither neighbour cell comes near it: a1 in both runs. -/
theorem servingEventsAgree_iff_kept :
    (after ![15, 10] 0 twoCalls).cells.currentEvent = .a1 ∧ CrossingsAgree ![15, 10] ![15, 12] 0 twoCalls := by
  have hs : ∀ i, 0 ≤ (![15, 10] : Fin 2 → Int) i ∧ (![15, 10] : Fin 2 → Int) i ≤ 96 := by decide
  have hs' : ∀ i, 0 ≤ (![15, 12] : Fin 2 → Int) i ∧ (![15, 12] : Fin 2 → Int) i ≤ 96 := by decide
  refine ⟨by decide, (servingEventsAgree_iff hs hs' rfl 0 twoCalls).1 ?_⟩
  have hfirst : ServingEventsAgree ![15, 10] ![15, 12] 0 [⟨0, 0⟩] :=
    each_concat.2 ⟨each_nil, by unfold SameServingEvent; decide⟩
  exact each_concat.2 ⟨hfirst, by unfold SameServingEvent; decide⟩

/-- **A stronger neighbour cell loses the a1 of the serving cell**: its a3 forgets that the cell was below 19. -/
theorem serving_event_lost :
    ¬ ∀ (start start' : Fin 2 → Int) (now : Int) (ts : List Reading), (∀ i, 0 ≤ start i ∧ start i ≤ 96) →
      (∀ i, 0 ≤ start' i ∧ start' i ≤ 96) → start serving = start' serving →
      ServingEventsAgree start start' now ts := by
  intro h
  have hagree := h ![15, 20] ![15, 10] 0 twoCalls (by decide) (by decide) rfl [⟨0, 0⟩] ⟨2, 2⟩ [] rfl
  have hkept : (after ![15, 10] 0 twoCalls).cells.currentEvent = .a1 := by decide
  have hlost : (after ![15, 20] 0 twoCalls).cells.currentEvent ≠ .a1 := by decide
  exact hlost (hagree.1.2 hkept)

end ServingCell
end Lte
