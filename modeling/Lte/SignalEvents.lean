import Lte.Histories
import Lte.Mealy
import Lte.UserEquipment
/-!
# SignalEvents — `check_events` over a sequence of calls

Four detectors share one function and one return value.  A call returns at the first that fires, so the memory of the
ones after it is not brought up to date on that call, and a3 and a4 also forget a crossing that a1 or a2 waited for.
`Memory` says what the static variables stand for nevertheless, for a history of any length.
-/
namespace Lte
namespace CheckEvents

open Histories

/-- A call of `check_events`: the powers it read and what it returned. -/
structure Call where
  rsrp : Fin 2 → Int
  event : SEvent

/-- The places of the two cells in `cells_signals`. -/
def serving : Fin 2 := ⟨0, Nat.two_pos⟩
def neighbour : Fin 2 := ⟨1, Nat.one_lt_two⟩

/-- Cells with these powers, and the thresholds `initialize_cells` sets. -/
def sampled (rsrp : Fin 2 → Int) : SCells := initializeCells rsrp 0

/-- `check_events` as a machine: its static variables are the state, and a sample is answered by its call. -/
def detector : Mealy CheckEventsStatics (Fin 2 → Int) Call where
  out st rsrp := [{ rsrp := rsrp, event := (checkEvents (sampled rsrp) st).1 }]
  next st rsrp := (checkEvents (sampled rsrp) st).2

/-- The calls on these powers, oldest first, from the first call of the process. -/
def calls (samples : List (Fin 2 → Int)) : List Call := detector.outputs .init samples

/-- `thresholds[0]` and `thresholds[1]` -/
def threshold1 : Int := 19
def threshold2 : Int := 77

/-! ## One call -/

/-- The crossing a1 or a2 waits for, after the first two tests of a call. -/
def armed (st : CheckEventsStatics) (rsrp0 : Int) : Int :=
  if st.eventChange = 5 then if rsrp0 < threshold1 then 1 else if rsrp0 > threshold2 then 2 else 5
  else st.eventChange

def a3After (st : CheckEventsStatics) (rsrp : Fin 2 → Int) : Bool :=
  if rsrp neighbour < rsrp serving then false else st.a3Checked

def a4After (st : CheckEventsStatics) (rsrp : Fin 2 → Int) : Bool :=
  if rsrp neighbour < threshold2 then false else st.a4Checked

theorem a3After_eq (st : CheckEventsStatics) (r : Fin 2 → Int) :
    a3After st r = if r 1 < r 0 then false else st.a3Checked := rfl

theorem a4After_eq (st : CheckEventsStatics) (r : Fin 2 → Int) :
    a4After st r = if r 1 < 77 then false else st.a4Checked := rfl

/-- The first two tests of a call arm a crossing. -/
theorem armed_eq {st low high : CheckEventsStatics} {x : Int}
    (hlow : low = if x < 19 ∧ 5 = st.eventChange then { st with eventChange := 1 } else st)
    (hhigh : high = if x > 77 ∧ 5 = low.eventChange then { low with eventChange := 2 } else low) :
    high = { st with eventChange := armed st x } := by
  subst hhigh hlow
  unfold armed threshold1 threshold2
  by_cases hec : st.eventChange = 5
  · by_cases h1 : x < 19
    · simp [hec, h1]
    · by_cases h2 : x > 77
      · simp [hec, h1, h2]
      · obtain ⟨ec, b3, b4⟩ := st
        simp only at hec
        subst hec
        simp [h1, h2]
  · have hec' : ¬ 5 = st.eventChange := fun h => hec h.symm
    simp [hec, hec']

/-- **The tests of a call**, in order, from the crossing the first two armed. -/
theorem checkEvents_sampled (st : CheckEventsStatics) (r : Fin 2 → Int) :
    checkEvents (sampled r) st =
      if r 0 > threshold1 ∧ armed st (r 0) = 1 then (.a1, { st with eventChange := 5 })
      else if r 0 < threshold2 ∧ armed st (r 0) = 2 then (.a2, { st with eventChange := 5 })
      else if r 1 > r 0 ∧ st.a3Checked = false then (.a3, { st with eventChange := 5, a3Checked := true })
      else if r 1 > threshold2 ∧ st.a4Checked = false then
        (.a4, { eventChange := 5, a3Checked := a3After st r, a4Checked := true })
      else (.defEvent, { eventChange := armed st (r 0), a3Checked := a3After st r, a4Checked := a4After st r }) := by
  have ha3 : (if r 1 < r 0 then ({ st with eventChange := armed st (r 0), a3Checked := false } : CheckEventsStatics)
      else { st with eventChange := armed st (r 0) }) =
      { st with eventChange := armed st (r 0), a3Checked := a3After st r } := by
    rw [a3After_eq]
    split <;> rfl
  have ha4 : (if r 1 < 77 then ({ eventChange := armed st (r 0), a3Checked := a3After st r, a4Checked := false } :
        CheckEventsStatics)
      else { st with eventChange := armed st (r 0), a3Checked := a3After st r }) =
      { eventChange := armed st (r 0), a3Checked := a3After st r, a4Checked := a4After st r } := by
    rw [a4After_eq]
    split <;> rfl
  -- the test that clears a flag says nothing where its detector fires
  have hf3 : (r 1 > r 0 ∧ a3After st r = false) ↔ (r 1 > r 0 ∧ st.a3Checked = false) := by
    refine and_congr_right (fun hr => ?_)
    rw [a3After_eq, if_neg (by omega)]
  have hf4 : (r 1 > 77 ∧ a4After st r = false) ↔ (r 1 > 77 ∧ st.a4Checked = false) := by
    refine and_congr_right (fun hr => ?_)
    rw [a4After_eq, if_neg (by omega)]
  have hcells : (sampled r).cellsSignals = fun i => { rsrp := r i, thresholds := ![19, 77], signalCourse := 5 } := rfl
  unfold checkEvents
  simp only [hcells, Matrix.cons_val_zero, Matrix.cons_val_one]
  rw [armed_eq rfl rfl, ha3, ha4]
  simp only [hf3, hf4, eq_comm (a := (1 : Int)), eq_comm (a := (2 : Int))]
  rfl

/-- **What a call can do**: return at the first detector that fires, or `def`. -/
inductive Checked (st : CheckEventsStatics) (r : Fin 2 → Int) : SEvent → CheckEventsStatics → Prop
  | a1 (hr : r 0 > threshold1) (ha : armed st (r 0) = 1) :
      Checked st r .a1 { st with eventChange := 5 }
  | a2 (hr : r 0 < threshold2) (ha : armed st (r 0) = 2) :
      Checked st r .a2 { st with eventChange := 5 }
  | a3 (hr : r 1 > r 0) (hst : st.a3Checked = false) :
      Checked st r .a3 { st with eventChange := 5, a3Checked := true }
  | a4 (hr : r 1 > threshold2) (hst : st.a4Checked = false) :
      Checked st r .a4 { eventChange := 5, a3Checked := a3After st r, a4Checked := true }
  | defEvent (h3 : r 1 > r 0 → st.a3Checked = true) (h4 : r 1 > threshold2 → st.a4Checked = true) :
      Checked st r .defEvent
        { eventChange := armed st (r 0), a3Checked := a3After st r, a4Checked := a4After st r }

theorem checkEvents_cases (st : CheckEventsStatics) (r : Fin 2 → Int) :
    Checked st r (checkEvents (sampled r) st).1 (checkEvents (sampled r) st).2 := by
  rw [checkEvents_sampled]
  by_cases h1 : r 0 > threshold1 ∧ armed st (r 0) = 1
  · rw [if_pos h1]
    exact .a1 h1.1 h1.2
  rw [if_neg h1]
  by_cases h2 : r 0 < threshold2 ∧ armed st (r 0) = 2
  · rw [if_pos h2]
    exact .a2 h2.1 h2.2
  rw [if_neg h2]
  by_cases h3 : r 1 > r 0 ∧ st.a3Checked = false
  · rw [if_pos h3]
    exact .a3 h3.1 h3.2
  rw [if_neg h3]
  by_cases h4 : r 1 > threshold2 ∧ st.a4Checked = false
  · rw [if_pos h4]
    exact .a4 h4.1 h4.2
  rw [if_neg h4]
  refine .defEvent (fun hr => ?_) (fun hr => ?_)
  · exact eq_true_of_ne_false (fun hf => h3 ⟨hr, hf⟩)
  · exact eq_true_of_ne_false (fun hf => h4 ⟨hr, hf⟩)

/-! ## What the static variables remember -/

/-- A call with `P` came after the latest call that returned `e`, if any did. -/
def CrossedSince (P : Call → Prop) (e : SEvent) (h : List Call) : Prop :=
  Since (fun c => P c ∧ c.event ≠ e) (fun c => c.event ≠ e) h

/-- `e` was returned, and every later call with `P` returned at one of the detectors before that of `e`. -/
def HiddenSince (e : SEvent) (P : Call → Prop) (before : List SEvent) (h : List Call) : Prop :=
  Since (fun c => c.event = e) (fun c => P c → c.event ∈ before) h

/-- What a static flag that `e` sets and `P` clears stands for. -/
structure Latch (set : Bool) (e : SEvent) (P : Call → Prop) (before : List SEvent) (h : List Call) : Prop where
  hidden : set = true → HiddenSince e P before h
  crossed : set = false → (∃ c ∈ h, c.event = e) → CrossedSince P e h

section
variable {e : SEvent} {P : Call → Prop} {before : List SEvent} {h : List Call} {c : Call} {set : Bool}

theorem CrossedSince.keep (hs : CrossedSince P e h) (hne : c.event ≠ e) : CrossedSince P e (h ++ [c]) :=
  Since.keep hs hne

theorem CrossedSince.here (hP : P c) (hne : c.event ≠ e) : CrossedSince P e (h ++ [c]) :=
  since_here ⟨hP, hne⟩

theorem Latch.fire (he : c.event = e) : Latch true e P before (h ++ [c]) where
  hidden _ := since_here he
  crossed hf := by cases hf

/-- A call that returned before the flag's own detector leaves it. -/
theorem Latch.stay (hl : Latch set e P before h) (hne : c.event ≠ e) (hb : P c → c.event ∈ before) :
    Latch set e P before (h ++ [c]) where
  hidden hs := Since.keep (hl.hidden hs) hb
  crossed hs := by
    rintro ⟨d, hd, hde⟩
    rcases List.mem_append.1 hd with hd | hd
    · exact (hl.crossed hs ⟨d, hd, hde⟩).keep hne
    · rw [List.mem_singleton.1 hd] at hde
      exact absurd hde hne

/-- A call that reached the flag's own detector, without firing it, clears the flag on `P`. -/
theorem Latch.after [Decidable (P c)] (hl : Latch set e P before h) (hne : c.event ≠ e) :
    Latch (if P c then false else set) e P before (h ++ [c]) := by
  by_cases hP : P c
  · rw [if_pos hP]
    refine ⟨fun hs => absurd hs Bool.false_ne_true, fun _ _ => ?_⟩
    exact CrossedSince.here hP hne
  · rw [if_neg hP]
    exact hl.stay hne (fun h => absurd h hP)

end

def belowFirst (c : Call) : Prop := c.rsrp serving < threshold1
def aboveSecond (c : Call) : Prop := c.rsrp serving > threshold2
def neighbourWeaker (c : Call) : Prop := c.rsrp neighbour < c.rsrp serving
def neighbourBelow (c : Call) : Prop := c.rsrp neighbour < threshold2

instance (c : Call) : Decidable (neighbourWeaker c) := by unfold neighbourWeaker; infer_instance
instance (c : Call) : Decidable (neighbourBelow c) := by unfold neighbourBelow; infer_instance

/-- **What the static variables stand for** after the calls `h`. -/
structure Memory (st : CheckEventsStatics) (h : List Call) : Prop where
  a1 : st.eventChange = 1 → CrossedSince belowFirst .a1 h
  a2 : st.eventChange = 2 → CrossedSince aboveSecond .a2 h
  a3 : Latch st.a3Checked .a3 neighbourWeaker [.a1, .a2] h
  a4 : Latch st.a4Checked .a4 neighbourBelow [.a1, .a2, .a3] h

theorem memory_init : Memory .init [] where
  a1 h := by cases h
  a2 h := by cases h
  a3 := ⟨fun h => absurd h Bool.false_ne_true, fun _ h => by simp at h⟩
  a4 := ⟨fun h => absurd h Bool.false_ne_true, fun _ h => by simp at h⟩

/-- A crossing is armed on a call that makes it, or was before. -/
theorem armed_eq_one {st : CheckEventsStatics} {x : Int} (h : armed st x = 1) : st.eventChange = 1 ∨ x < threshold1 := by
  unfold armed at h
  split at h
  · split at h
    · rename_i hx
      exact .inr hx
    · split at h <;> cases h
  · exact .inl h

theorem armed_eq_two {st : CheckEventsStatics} {x : Int} (h : armed st x = 2) : st.eventChange = 2 ∨ x > threshold2 := by
  unfold armed at h
  split at h
  · split at h
    · cases h
    · split at h
      · rename_i hx
        exact .inr hx
      · cases h
  · exact .inl h

/-- **A call keeps the memory**, whichever detector it returned at. -/
theorem memory_step {st st' : CheckEventsStatics} {h : List Call} {r : Fin 2 → Int} {e : SEvent} (hm : Memory st h)
    (hc : Checked st r e st') : Memory st' (h ++ [{ rsrp := r, event := e }]) := by
  cases hc with
  | a1 =>
    refine ⟨fun h => absurd h (by simp), fun h => absurd h (by simp), ?_, ?_⟩
    · exact hm.a3.stay (by simp) (fun _ => by simp)
    · exact hm.a4.stay (by simp) (fun _ => by simp)
  | a2 =>
    refine ⟨fun h => absurd h (by simp), fun h => absurd h (by simp), ?_, ?_⟩
    · exact hm.a3.stay (by simp) (fun _ => by simp)
    · exact hm.a4.stay (by simp) (fun _ => by simp)
  | a3 =>
    refine ⟨fun h => absurd h (by simp), fun h => absurd h (by simp), ?_, ?_⟩
    · exact Latch.fire rfl
    · exact hm.a4.stay (by simp) (fun _ => by simp)
  | a4 =>
    refine ⟨fun h => absurd h (by simp), fun h => absurd h (by simp), ?_, ?_⟩
    · exact hm.a3.after (c := ⟨r, .a4⟩) (by simp)
    · exact Latch.fire rfl
  | defEvent =>
    refine ⟨fun h => ?_, fun h => ?_, ?_, ?_⟩
    · rcases armed_eq_one h with hec | hr
      · exact (hm.a1 hec).keep (by simp)
      · exact CrossedSince.here hr (by simp)
    · rcases armed_eq_two h with hec | hr
      · exact (hm.a2 hec).keep (by simp)
      · exact CrossedSince.here hr (by simp)
    · exact hm.a3.after (c := ⟨r, .defEvent⟩) (by simp)
    · exact hm.a4.after (c := ⟨r, .defEvent⟩) (by simp)

theorem memory_calls (samples : List (Fin 2 → Int)) : Memory (detector.final .init samples) (calls samples) := by
  induction samples using List.reverseRecOn with
  | nil => exact memory_init
  | append_singleton samples r ih =>
    rw [calls, Mealy.outputs_concat, Mealy.final_concat]
    exact memory_step ih (checkEvents_cases _ r)

/-- What a call returned is an edge of the calls `pre` before it, or hides nothing of the neighbour cell. -/
def OnEdge (pre : List Call) (c : Call) : Prop :=
  (c.event = .a1 → c.rsrp serving > threshold1 ∧ CrossedSince belowFirst .a1 pre) ∧
  (c.event = .a2 → c.rsrp serving < threshold2 ∧ CrossedSince aboveSecond .a2 pre) ∧
  (c.event = .a3 →
    c.rsrp neighbour > c.rsrp serving ∧ ((∃ d ∈ pre, d.event = .a3) → CrossedSince neighbourWeaker .a3 pre)) ∧
  (c.event = .a4 →
    c.rsrp neighbour > threshold2 ∧ ((∃ d ∈ pre, d.event = .a4) → CrossedSince neighbourBelow .a4 pre)) ∧
  (c.event = .defEvent →
    (c.rsrp neighbour > c.rsrp serving → HiddenSince .a3 neighbourWeaker [.a1, .a2] pre) ∧
    (c.rsrp neighbour > threshold2 → HiddenSince .a4 neighbourBelow [.a1, .a2, .a3] pre))

theorem onEdge_of_checked {st st' : CheckEventsStatics} {pre : List Call} {r : Fin 2 → Int} {e : SEvent}
    (hm : Memory st pre) (hc : Checked st r e st') : OnEdge pre { rsrp := r, event := e } := by
  cases hc with
  | a1 hr ha =>
    refine ⟨fun _ => ⟨hr, ?_⟩, by simp⟩
    exact hm.a1 ((armed_eq_one ha).resolve_right (by omega))
  | a2 hr ha =>
    refine ⟨by simp, fun _ => ⟨hr, ?_⟩, by simp⟩
    exact hm.a2 ((armed_eq_two ha).resolve_right (by omega))
  | a3 hr hst => exact ⟨by simp, by simp, fun _ => ⟨hr, hm.a3.crossed hst⟩, by simp, by simp⟩
  | a4 hr hst => exact ⟨by simp, by simp, by simp, fun _ => ⟨hr, hm.a4.crossed hst⟩, by simp⟩
  | defEvent h3 h4 =>
    refine ⟨by simp, by simp, by simp, by simp, fun _ => ⟨fun hr => ?_, fun hr => ?_⟩⟩
    · exact hm.a3.hidden (h3 hr)
    · exact hm.a4.hidden (h4 hr)

/-- **Events come on edges, and a quiet call hides nothing of the neighbour cell**: every call of every sequence. -/
theorem events_on_edges (samples : List (Fin 2 → Int)) : Each OnEdge (calls samples) := by
  induction samples using List.reverseRecOn with
  | nil => exact each_nil
  | append_singleton samples r ih =>
    rw [calls, Mealy.outputs_concat]
    exact each_concat.2 ⟨ih, onEdge_of_checked (memory_calls samples) (checkEvents_cases _ r)⟩

end CheckEvents
end Lte
