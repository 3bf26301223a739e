import Lte.MainLoop
/-!
# Reports — the events a UE detects and the events it reports

`check_events` runs in every iteration and overwrites `current_event`; a report reads that field.  So a report carries
what the last call of `check_events` returned (`report_carries_last`), and an event detected earlier is reported only
if no call came between.
-/
namespace Lte

open Runs

/-- One `measurement_report`: the event it carries, the latest event `check_events` had returned since the report
before it, and what the last call of `check_events` had returned. -/
structure Report where
  carried : Option SEvent
  detected : Option SEvent
  last : SEvent
deriving DecidableEq

structure History where
  detected : Option SEvent
  last : SEvent
  reports : List Report
deriving DecidableEq

def History.add (h : History) : UeCall → History
  | .checked e => { h with detected := if e = .defEvent then h.detected else some e, last := e }
  | .write m _ =>
    if m.messageType = .measurementReport then
      { h with detected := none, reports := h.reports ++ [⟨m.messageValue.events, h.detected, h.last⟩] }
    else h
  | _ => h

/-- The history of a UE whose `current_event` was still `def` at the start of the trace. -/
def history (trace : List UeCall) : History := trace.foldl History.add ⟨none, .defEvent, []⟩

theorem history_concat (t : List UeCall) (c : UeCall) : history (t ++ [c]) = (history t).add c := by
  unfold history
  rw [List.foldl_append]
  rfl

/-- A detection is an event, and the last result is that event or, after a later call, `def`. -/
def Follows (detected : Option SEvent) (last : SEvent) : Prop :=
  ∀ e, detected = some e → e ≠ .defEvent ∧ (last = e ∨ last = .defEvent)

/-- What every history satisfies, whoever made the calls. -/
theorem history_follows (t : List UeCall) :
    Follows (history t).detected (history t).last ∧ ∀ r ∈ (history t).reports, Follows r.detected r.last := by
  induction t using List.reverseRecOn with
  | nil =>
    constructor
    · intro e he
      cases he
    · intro r hr
      cases hr
  | append_singleton t c ih =>
    obtain ⟨h1, h2⟩ := ih
    rw [history_concat]
    unfold History.add
    split
    · rename_i e
      refine ⟨fun e' he' => ?_, h2⟩
      by_cases hd : e = .defEvent
      · simp only [hd, if_true] at he'
        exact ⟨(h1 e' he').1, .inr hd⟩
      · simp only [hd, if_false, Option.some.injEq] at he'
        exact ⟨he' ▸ hd, .inl he'⟩
    · split
      · refine ⟨fun e' he' => (nomatch he'), fun r hr => ?_⟩
        rcases List.mem_append.1 hr with hr | hr
        · exact h2 r hr
        · rw [List.mem_singleton.1 hr]
          exact h1
      · exact ⟨h1, h2⟩
    · exact ⟨h1, h2⟩

namespace Loop

structure StartDef (l : Loop) : Prop where
  trace : l.ue.trace = []
  event : l.ue.cells.currentEvent = .defEvent

/-- The field a report reads is the last result, and every report so far carried the last result. -/
structure ReportInv (l : Loop) : Prop where
  field : (history l.ue.trace).last = l.ue.cells.currentEvent
  carried : ∀ r ∈ (history l.ue.trace).reports, r.carried = some r.last

theorem history_notified (u : Ue) {t : EMessageType} (ht : t = .ueBatteryLow ∨ t = .ueBatteryHigh) (ok : Bool)
    (b : UeBattery) : history (u.notified t ok b).trace = history u.trace := by
  unfold Ue.notified
  rw [history_concat]
  rcases ht with rfl | rfl <;> rfl

/-- The switch leaves the cells, and writes at most one report, of the field. -/
theorem handleMessage_history (u : Ue) (env : DispatchEnv) :
    (handleMessage u env).cells = u.cells ∧
    (history (handleMessage u env).trace = history u.trace ∨
      ∃ m ok, m.messageType = .measurementReport ∧ m.messageValue.events = some u.cells.currentEvent ∧
        history (handleMessage u env).trace = (history u.trace).add (.write m ok)) := by
  unfold handleMessage
  split
  · rename_i ht
    simp only [receivePing, ht, if_true]
    have hpong : history (sendPong u env.pongOk).1.trace = history u.trace := by
      unfold sendPong Ue.writeMessage Ue.call
      rw [history_concat]
      rfl
    have hcells : (sendPong u env.pongOk).1.cells = u.cells := rfl
    split
    · exact ⟨hcells, .inl hpong⟩
    · rcases decreaseAfterPing_frame (sendPong u env.pongOk).1 env.noteOk with ⟨b, he⟩ | ⟨t, b, htype, he⟩
      · rw [he]
        exact ⟨hcells, .inl hpong⟩
      · rw [he, history_notified _ htype]
        exact ⟨hcells, .inl hpong⟩
  · exact ⟨rfl, .inl (history_concat _ _)⟩
  · exact ⟨rfl, .inl (history_concat _ _)⟩
  · have hclose : history (u.call (.fclose u.fileToRecv)).trace = history u.trace := history_concat _ _
    simp only
    split
    · exact ⟨rfl, .inl hclose⟩
    · exact ⟨rfl, .inl hclose⟩
  · refine ⟨rfl, .inr ⟨_, _, ?_, ?_, history_concat _ _⟩⟩
    · rfl
    · exact MessageValue.events_setEvents _ _
  · exact ⟨rfl, .inl rfl⟩

theorem reportInv_dispatch {u : Ue} {env : DispatchEnv} {p q : Bool} (h : ReportInv ⟨u, p⟩) :
    ReportInv ⟨dispatch u env, q⟩ := by
  obtain ⟨hcells, hhist⟩ := handleMessage_history u env
  have hswitch : (history (handleMessage u env).trace).last = u.cells.currentEvent ∧
      ∀ r ∈ (history (handleMessage u env).trace).reports, r.carried = some r.last := by
    rcases hhist with he | ⟨m, ok, ht, hev, he⟩
    · rw [he]
      exact ⟨h.field, h.carried⟩
    · have hfield : (history u.trace).last = u.cells.currentEvent := h.field
      rw [he, History.add, if_pos ht]
      refine ⟨hfield, fun r hr => ?_⟩
      rcases List.mem_append.1 hr with hr | hr
      · exact h.carried r hr
      · rw [List.mem_singleton.1 hr, hev, hfield]
  have hcheck : ∀ e, (history ((handleMessage u env).trace ++ [.checked e])).last = e ∧
      (history ((handleMessage u env).trace ++ [.checked e])).reports = (history (handleMessage u env).trace).reports := by
    intro e
    rw [history_concat]
    exact ⟨rfl, rfl⟩
  refine ⟨(hcheck _).1, fun r hr => hswitch.2 r ?_⟩
  exact (hcheck _).2 ▸ hr

theorem reportInv_step {l l' : Loop} {a : LoopLabel} (h : ReportInv l) (hs : step l a = some l') : ReportInv l' := by
  cases a with
  | receive m =>
    simp only [step] at hs
    split at hs
    · cases hs
      cases m with
      | none => exact ⟨h.field, h.carried⟩
      | some m =>
        have he : history (receiveMain l.ue (some m.bytes)).trace = history l.ue.trace := history_concat _ _
        constructor
        · rw [Option.map_some, he]
          exact h.field
        · rw [Option.map_some, he]
          exact h.carried
    · cases hs
  | dispatch env =>
    simp only [step] at hs
    split at hs
    · cases hs
      exact reportInv_dispatch (p := l.pending) h
    · cases hs
  | battery n r ok =>
    simp only [step] at hs
    split at hs
    · cases hs
      rcases updateBattery_frame l.ue n r ok with ⟨b, he⟩ | ⟨-, t, b, ht, he⟩
      · rw [he]
        exact ⟨h.field, h.carried⟩
      · have hh := history_notified l.ue ht ok b
        rw [he]
        exact ⟨hh ▸ h.field, hh ▸ h.carried⟩
    · cases hs

/-- **A report carries the last result of `check_events`.**  So it carries the latest event detected since the report
before it exactly when that event is what the last call returned. -/
theorem report_carries_last {l₀ l : Loop} {as : List LoopLabel} (h₀ : StartDef l₀) (hrun : run step l₀ as = some l)
    {r : Report} (hr : r ∈ (history l.ue.trace).reports) :
    r.carried = some r.last ∧
      ((∀ e, r.detected = some e → r.carried = some e) ↔ (r.detected ≠ none → r.last ≠ .defEvent)) := by
  have hinit : ReportInv l₀ := by
    refine ⟨?_, fun r hr => ?_⟩
    · rw [h₀.trace, h₀.event]
      rfl
    · rw [h₀.trace] at hr
      cases hr
  have hcar := (run_inv (fun _ _ _ => reportInv_step) hinit hrun).carried r hr
  have hfol := (history_follows l.ue.trace).2 r hr
  refine ⟨hcar, ?_⟩
  constructor
  · intro h hd hlast
    obtain ⟨e, he⟩ := Option.ne_none_iff_exists'.1 hd
    have h1 := h e he
    rw [hcar, hlast, Option.some.injEq] at h1
    exact (hfol e he).1 h1.symm
  · intro h e he
    rcases (hfol e he).2 with h1 | h1
    · rw [hcar, h1]
    · exact absurd h1 (h (by rw [he]; exact Option.some_ne_none e))

/-- A UE whose neighbour cell is the stronger one from the start. -/
def strongNeighbour : Loop :=
  { ue := { Ue.start ![50, 60] 0 with message := ⟨.rrcRequest, fun _ => 0⟩ }, pending := false }

/-- Two iterations without data, and one that receives a request. -/
def laterRequest : List LoopLabel :=
  [.receive none, .dispatch calm, .receive none, .dispatch calm,
    .receive (some ⟨.measurementControlRequest, fun _ => 0⟩), .dispatch calm]

/-- **An event missed**: the first iteration detects a3, the second overwrites it, and the report carries `def`. -/
theorem missed_event :
    StartDef strongNeighbour ∧
    run step strongNeighbour laterRequest = some (finish step strongNeighbour laterRequest) ∧
    (history (finish step strongNeighbour laterRequest).ue.trace).reports =
      [{ carried := some .defEvent, detected := some .a3, last := .defEvent }] :=
  ⟨⟨rfl, rfl⟩, run_finish (by decide +kernel), by decide +kernel⟩

/-- With the request in the iteration after the detection the report carries it. -/
theorem report_carries_last_a3 :
    ∃ r ∈ (history (finish step strongNeighbour
      [.receive none, .dispatch calm, .receive (some ⟨.measurementControlRequest, fun _ => 0⟩),
        .dispatch calm]).ue.trace).reports, r.detected = some .a3 ∧ r.carried = some .a3 := by
  have hr : (⟨some .a3, some .a3, .a3⟩ : Report) ∈ (history (finish step strongNeighbour
      [.receive none, .dispatch calm, .receive (some ⟨.measurementControlRequest, fun _ => 0⟩),
        .dispatch calm]).ue.trace).reports := by decide +kernel
  have h := report_carries_last ⟨rfl, rfl⟩ (run_finish (by decide +kernel)) hr
  exact ⟨_, hr, rfl, h.1⟩

end Loop

end Lte
