import Lte.Runs
import Lte.Histories
import Lte.Message
/-!
# Teardown — `clean` beside the threads that use the registry

`clean` sets `threads_done` and joins the ping thread only, and destroys `server.clients` while the measurement and the
transfer thread may be asleep or in an iteration; as the handler of SIGINT it does so in the middle of whatever the
main thread was doing, which then goes on.  `nothing_after_destroy` says when the registry is left alone.
-/
namespace Lte

open Runs Histories

inductive TableOp
  | lookup | insertion | deletion | iteration
deriving DecidableEq

/-- What a trace records of `server.clients`. -/
inductive TableEvent
  | used (op : TableOp)
  | destroyed
deriving DecidableEq

/-! ## The main thread -/

/-- A step of handling an event; the failure of a `checkedCall` is an `error`. -/
inductive MainStep
  | call | checkedCall
  | table (op : TableOp)
deriving DecidableEq

inductive ServerEvent
  | accept | eof
  | packet (messageType : EMessageType)

/-- The calls of `accept_client` and `parse_packet`, and their operations on the registry. -/
def ServerEvent.steps : ServerEvent → List MainStep
  | .accept => [.checkedCall, .checkedCall, .table .insertion]
  | .eof => [.checkedCall, .call, .table .deletion]
  | .packet .randomAccessRequest => [.checkedCall, .call, .table .lookup]
  | .packet .rrcRequest => [.checkedCall, .table .lookup, .call]
  | .packet .ueBatteryLow => [.checkedCall, .table .lookup]
  | .packet .ueBatteryHigh => [.checkedCall, .table .lookup]
  | .packet .pong => [.checkedCall, .table .lookup]
  | .packet .ueOff => [.checkedCall, .call, .table .deletion]
  | .packet _ => [.checkedCall]

/-- The steps of `clean`; `closing` is the `close_clients_sockets` of `server_t__destroy`. -/
inductive CleanPc
  | broadcast | setDone | join | closing | destroy
deriving DecidableEq

/-- Where the main thread is in `receive_packets`: in `epoll_wait`, before its return with EINTR, with `events` of the
batch to come and the steps of the present one, in the `clean` of an `error`, before its `exit`. -/
inductive ServerPc
  | waiting | interrupted
  | handling (events : Nat) (steps : List MainStep)
  | erroring (clean : CleanPc)
  | exiting
deriving DecidableEq

/-! ## The other threads -/

/-- `ping_and_timeout_in_thread` or `send_measurement_control_requests`, with the `hashmap_iter` calls left. -/
inductive LoopPc
  | test | sleep
  | iterating (left : Nat)
  | ended
deriving DecidableEq

/-- `transfer_data`; after its one iteration it sleeps and exits. -/
inductive TransferPc
  | asleep | test | iterating | done | ended
deriving DecidableEq

structure Teardown where
  main : ServerPc
  handler : Option CleanPc
  threadsDone : Bool
  ping : LoopPc
  measurement : LoopPc
  transfer : TransferPc
  exited : Bool
  trace : List TableEvent

inductive TeardownLabel
  | ready (events : Nat)
  | waitFails
  | event (e : ServerEvent)
  | mainStep
  | mainFails (eintr : Bool)
  | poll
  | exit
  | sigint
  | clean
  | cleanVisit
  | ping | pingVisit
  | measurement | measurementVisit
  | transfer | transferVisit | transferFails

namespace Teardown

def use (p : Teardown) (op : TableOp) : Teardown := { p with trace := p.trace ++ [.used op] }

/-- The next step of a loop that makes `iters` iterations at a time; the second component is the use of the table by the
end of an iteration. -/
def loopStep (threadsDone : Bool) (iters : Nat) : LoopPc → Option (LoopPc × Bool)
  | .test => some (if threadsDone then .ended else .sleep, false)
  | .sleep => some (.iterating iters, false)
  | .iterating (left + 2) => some (.iterating (left + 1), true)
  | .iterating _ => some (.test, true)
  | .ended => none

/-- The step of a `clean`; `none` after its last. -/
def cleanStep (p : Teardown) : CleanPc → Option (Teardown × Option CleanPc)
  | .broadcast => some (p.use .iteration, some .setDone)
  | .setDone => some ({ p with threadsDone := true }, some .join)
  | .join => if p.ping = .ended then some (p, some .closing) else none
  | .closing => some (p.use .iteration, some .destroy)
  | .destroy => some ({ p with trace := p.trace ++ [.destroyed] }, none)

/-- The `clean` the main thread is in. -/
def cleaning (p : Teardown) : Option CleanPc :=
  match p.handler, p.main with
  | some pc, _ => some pc
  | none, .erroring pc => some pc
  | none, _ => none

/-- Where the `clean` goes on. -/
def cleanTo (p : Teardown) (pc : Option CleanPc) : Teardown :=
  match p.handler with
  | some _ => { p with handler := pc }
  | none => { p with main := pc.elim .exiting .erroring }

def stepMain (p : Teardown) : TeardownLabel → Option Teardown
  | .ready events => if p.main = .waiting then some { p with main := .handling events [] } else none
  | .waitFails => if p.main = .waiting then some { p with main := .erroring .broadcast } else none
  | .event e =>
    match p.main with
    | .handling (events + 1) [] => some { p with main := .handling events e.steps }
    | _ => none
  | .mainStep =>
    match p.main with
    | .handling events (.table op :: steps) => some ({ p with main := .handling events steps }.use op)
    | .handling events (_ :: steps) => some { p with main := .handling events steps }
    | _ => none
  | .mainFails eintr =>
    match p.main with
    | .handling _ (.checkedCall :: _) =>
      if eintr then some { p with main := .exiting } else some { p with main := .erroring .broadcast }
    | _ => none
  | .poll =>
    match p.main with
    | .handling 0 [] => some { p with main := .waiting }
    | _ => none
  | .exit => if p.main = .interrupted ∨ p.main = .exiting then some { p with exited := true } else none
  | _ => none

def step (p : Teardown) (a : TeardownLabel) : Option Teardown :=
  if p.exited then none
  else
    match a with
    -- the handler runs with SIGINT blocked
    | .sigint =>
      if p.handler = none then
        some { p with handler := some .broadcast, main := if p.main = .waiting then .interrupted else p.main }
      else none
    | .clean =>
      match p.cleaning with
      | none => none
      | some pc => (cleanStep p pc).map (fun r => r.1.cleanTo r.2)
    | .cleanVisit =>
      if p.cleaning = some .broadcast ∨ p.cleaning = some .closing then some (p.use .iteration) else none
    | .ping =>
      match loopStep p.threadsDone 2 p.ping with
      | none => none
      | some (pc, uses) => some (if uses then { p with ping := pc }.use .iteration else { p with ping := pc })
    | .pingVisit =>
      match p.ping with
      | .iterating _ => some (p.use .iteration)
      | _ => none
    | .measurement =>
      match loopStep p.threadsDone 1 p.measurement with
      | none => none
      | some (pc, uses) =>
        some (if uses then { p with measurement := pc }.use .iteration else { p with measurement := pc })
    | .measurementVisit =>
      match p.measurement with
      | .iterating _ => some (p.use .iteration)
      | _ => none
    | .transfer =>
      match p.transfer with
      | .asleep => some { p with transfer := .test }
      | .test => some { p with transfer := if p.threadsDone then .ended else .iterating }
      | .iterating => some ({ p with transfer := .done }.use .iteration)
      | .done => some { p with exited := true }
      | .ended => none
    | .transferVisit => if p.transfer = .iterating then some (p.use .iteration) else none
    | .transferFails => if p.transfer = .iterating then some { p with exited := true } else none
    | a => if p.handler = none then stepMain p a else none

/-- The threads have been created, and the main thread enters its loop. -/
def init : Teardown :=
  { main := .waiting, handler := none, threadsDone := false, ping := .test, measurement := .test, transfer := .asleep
    exited := false, trace := [] }

/-! ## When the registry is left alone -/

/-- The registry is destroyed once at most, and nothing is done to it afterwards. -/
def LeftAlone (trace : List TableEvent) : Prop := Each (fun before _ => .destroyed ∉ before) trace

/-- A thread that has not ended will see `threads_done` before it comes to the table. -/
def Away (p : Teardown) : Prop :=
  (p.measurement = .test ∨ p.measurement = .ended) ∧ p.transfer ≠ .iterating

/-- SIGINT comes in `epoll_wait` only, and the registry is destroyed with the two threads away from it. -/
def Timely (p : Teardown) : TeardownLabel → Prop
  | .sigint => p.main = .waiting
  | .clean => p.cleaning = some .destroy → Away p
  | _ => True

instance (p : Teardown) (a : TeardownLabel) : Decidable (Timely p a) := by
  unfold Timely Away
  cases a <;> infer_instance

structure Inv (p : Teardown) : Prop where
  handled : p.handler ≠ none → p.main = .interrupted
  joining : ∀ pc ∈ p.cleaning, pc ≠ .broadcast → pc ≠ .setDone → p.threadsDone = true
  joined : ∀ pc ∈ p.cleaning, pc = .closing ∨ pc = .destroy → p.ping = .ended
  destroyed : .destroyed ∈ p.trace →
    p.handler = none ∧ (p.main = .interrupted ∨ p.main = .exiting) ∧ p.threadsDone = true ∧ p.ping = .ended ∧ Away p
  leftAlone : LeftAlone p.trace

theorem inv_init : Inv init where
  handled h := absurd rfl h
  joining pc hpc := by cases hpc
  joined pc hpc := by cases hpc
  destroyed h := by cases h
  leftAlone := each_nil

/-- A step that adds no more than a use, before the registry is destroyed. -/
theorem Inv.before {p p' : Teardown} (h : Inv p) (hd : .destroyed ∉ p.trace)
    (htrace : p'.trace = p.trace ∨ ∃ op, p'.trace = p.trace ++ [.used op])
    (handled : p'.handler ≠ none → p'.main = .interrupted)
    (joining : ∀ pc ∈ p'.cleaning, pc ≠ .broadcast → pc ≠ .setDone → p'.threadsDone = true)
    (joined : ∀ pc ∈ p'.cleaning, pc = .closing ∨ pc = .destroy → p'.ping = .ended) : Inv p' := by
  have hd' : .destroyed ∉ p'.trace := by
    rcases htrace with ht | ⟨op, ht⟩
    · rwa [ht]
    · rw [ht]
      simpa using hd
  refine ⟨handled, joining, joined, fun hin => absurd hin hd', ?_⟩
  rcases htrace with ht | ⟨op, ht⟩
  · rw [ht]
    exact h.leftAlone
  · rw [ht]
    exact each_concat.2 ⟨h.leftAlone, hd⟩

theorem Inv.not_destroyed_of_main {p : Teardown} (h : Inv p) (hi : p.main ≠ .interrupted) (he : p.main ≠ .exiting) :
    .destroyed ∉ p.trace := by
  intro hd
  rcases (h.destroyed hd).2.1 with hm | hm
  · exact hi hm
  · exact he hm

theorem Inv.not_destroyed_of_cleaning {p : Teardown} (h : Inv p) {pc : CleanPc} (hc : p.cleaning = some pc) :
    .destroyed ∉ p.trace := by
  intro hd
  obtain ⟨hh, hm, -⟩ := h.destroyed hd
  unfold cleaning at hc
  rw [hh] at hc
  rcases hm with hm | hm
  · rw [hm] at hc
    cases hc
  · rw [hm] at hc
    cases hc

/-- A step of the main thread outside a `clean`, or into its first call: nothing is asked of it. -/
theorem Inv.outside {p p' : Teardown} (h : Inv p) (hi : p.main ≠ .interrupted) (he : p.main ≠ .exiting)
    (hh : p'.handler = none) (htrace : p'.trace = p.trace ∨ ∃ op, p'.trace = p.trace ++ [.used op])
    (hc : p'.cleaning = none ∨ p'.cleaning = some .broadcast) : Inv p' := by
  refine h.before (h.not_destroyed_of_main hi he) htrace (fun hne => absurd hh hne) (fun pc hpc hb => ?_)
    (fun pc hpc hb => ?_)
  · rcases hc with hc | hc
    · rw [hc] at hpc
      cases hpc
    · rw [hc] at hpc
      cases hpc
      exact absurd rfl hb
  · rcases hc with hc | hc
    · rw [hc] at hpc
      cases hpc
    · rw [hc] at hpc
      cases hpc
      rcases hb with hb | hb <;> cases hb

theorem inv_stepMain {p p' : Teardown} (h : Inv p) {a : TeardownLabel} (hh : p.handler = none)
    (hs : stepMain p a = some p') : Inv p' := by
  unfold stepMain at hs
  cases a with
  | ready events =>
    simp only [Option.ite_none_right_eq_some, Option.some.injEq] at hs
    obtain ⟨hm, rfl⟩ := hs
    exact h.outside (by simp [hm]) (by simp [hm]) hh (.inl rfl) (.inl (by simp [cleaning, hh]))
  | waitFails =>
    simp only [Option.ite_none_right_eq_some, Option.some.injEq] at hs
    obtain ⟨hm, rfl⟩ := hs
    exact h.outside (by simp [hm]) (by simp [hm]) hh (.inl rfl) (.inr (by simp [cleaning, hh]))
  | event e =>
    simp only at hs
    split at hs
    · rename_i hm
      cases hs
      exact h.outside (by simp [hm]) (by simp [hm]) hh (.inl rfl)
        (.inl (by simp [cleaning, hh]))
    · cases hs
  | mainStep =>
    simp only at hs
    split at hs
    · rename_i hm
      cases hs
      exact h.outside (by simp [hm]) (by simp [hm]) hh (.inr ⟨_, rfl⟩)
        (.inl (by simp [cleaning, use, hh]))
    · rename_i hm
      cases hs
      exact h.outside (by simp [hm]) (by simp [hm]) hh (.inl rfl)
        (.inl (by simp [cleaning, hh]))
    · cases hs
  | mainFails eintr =>
    simp only at hs
    split at hs
    · rename_i hm
      by_cases he : eintr = true
      · rw [if_pos he] at hs
        cases hs
        exact h.outside (by simp [hm]) (by simp [hm]) hh (.inl rfl) (.inl (by simp [cleaning, hh]))
      · rw [if_neg he] at hs
        cases hs
        exact h.outside (by simp [hm]) (by simp [hm]) hh (.inl rfl) (.inr (by simp [cleaning, hh]))
    · cases hs
  | poll =>
    simp only at hs
    split at hs
    · rename_i hm
      cases hs
      exact h.outside (by simp [hm]) (by simp [hm]) hh (.inl rfl)
        (.inl (by simp [cleaning, hh]))
    · cases hs
  | exit =>
    simp only [Option.ite_none_right_eq_some, Option.some.injEq] at hs
    obtain ⟨hm, rfl⟩ := hs
    exact ⟨h.handled, h.joining, h.joined, h.destroyed, h.leftAlone⟩
  | _ => cases hs

section
variable (p : Teardown) (pc : Option CleanPc)

@[simp] theorem cleanTo_trace : (p.cleanTo pc).trace = p.trace := by unfold cleanTo; cases p.handler <;> rfl
@[simp] theorem cleanTo_threadsDone : (p.cleanTo pc).threadsDone = p.threadsDone := by
  unfold cleanTo; cases p.handler <;> rfl
@[simp] theorem cleanTo_ping : (p.cleanTo pc).ping = p.ping := by unfold cleanTo; cases p.handler <;> rfl
@[simp] theorem cleanTo_away : Away (p.cleanTo pc) ↔ Away p := by unfold cleanTo Away; cases p.handler <;> rfl

theorem cleanTo_cleaning (pc : CleanPc) : (p.cleanTo (some pc)).cleaning = some pc := by
  unfold cleanTo cleaning
  cases hh : p.handler with
  | none => simp
  | some _ => rfl

theorem cleanTo_handled (h : p.handler ≠ none → p.main = .interrupted) :
    (p.cleanTo pc).handler ≠ none → (p.cleanTo pc).main = .interrupted := by
  unfold cleanTo
  cases hh : p.handler with
  | none => exact fun hne => absurd rfl hne
  | some _ => exact fun _ => h (by rw [hh]; exact Option.some_ne_none _)

/-- A finished `clean` returns to `epoll_wait`, or to an `exit`. -/
theorem cleanTo_none (h : p.handler ≠ none → p.main = .interrupted) :
    (p.cleanTo none).handler = none ∧ ((p.cleanTo none).main = .interrupted ∨ (p.cleanTo none).main = .exiting) := by
  unfold cleanTo
  cases hh : p.handler with
  | none => exact ⟨rfl, .inr rfl⟩
  | some _ => exact ⟨rfl, .inl (h (by rw [hh]; exact Option.some_ne_none _))⟩

end

/-- The next step of a `clean`, other than its last. -/
theorem inv_cleanTo {p q : Teardown} {pc : CleanPc} (h : Inv p) (hd : .destroyed ∉ p.trace)
    (hhandler : q.handler = p.handler) (hmain : q.main = p.main)
    (htrace : q.trace = p.trace ∨ ∃ op, q.trace = p.trace ++ [.used op])
    (hdone : pc ≠ .broadcast → pc ≠ .setDone → q.threadsDone = true)
    (hjoined : pc = .closing ∨ pc = .destroy → q.ping = .ended) : Inv (q.cleanTo (some pc)) := by
  have hhandled : q.handler ≠ none → q.main = .interrupted := by
    rw [hhandler, hmain]
    exact h.handled
  refine h.before hd (by simpa using htrace) (cleanTo_handled q _ hhandled) ?_ ?_
  · rw [cleanTo_cleaning]
    rintro pc' ⟨⟩
    simpa using hdone
  · rw [cleanTo_cleaning]
    rintro pc' ⟨⟩
    simpa using hjoined

/-- **A step of a `clean`** keeps the invariant, when the destroy finds the threads away. -/
theorem inv_clean {p : Teardown} (h : Inv p) {pc : CleanPc} (hc : p.cleaning = some pc)
    (haway : pc = .destroy → Away p) {q : Teardown} {next : Option CleanPc} (hs : cleanStep p pc = some (q, next)) :
    Inv (q.cleanTo next) := by
  have hd := h.not_destroyed_of_cleaning hc
  cases pc with
  | broadcast =>
    cases hs
    exact inv_cleanTo h hd rfl rfl (.inr ⟨_, rfl⟩) (fun _ hne => absurd rfl hne) (by rintro (hb | hb) <;> cases hb)
  | setDone =>
    cases hs
    exact inv_cleanTo h hd rfl rfl (.inl rfl) (fun _ _ => rfl) (by rintro (hb | hb) <;> cases hb)
  | join =>
    simp only [cleanStep, Option.ite_none_right_eq_some, Option.some.injEq, Prod.mk.injEq] at hs
    obtain ⟨hping, rfl, rfl⟩ := hs
    have hdone := h.joining _ hc (by decide) (by decide)
    exact inv_cleanTo h hd rfl rfl (.inl rfl) (fun _ _ => hdone) (fun _ => hping)
  | closing =>
    cases hs
    have hdone := h.joining _ hc (by decide) (by decide)
    exact inv_cleanTo h hd rfl rfl (.inr ⟨_, rfl⟩) (fun _ _ => hdone) (fun _ => h.joined _ hc (.inl rfl))
  | destroy =>
    cases hs
    have hdone := h.joining _ hc (by decide) (by decide)
    have hping := h.joined _ hc (.inr rfl)
    obtain ⟨hnone, hmain⟩ := cleanTo_none { p with trace := p.trace ++ [.destroyed] } h.handled
    have hcl : (cleanTo { p with trace := p.trace ++ [.destroyed] } none).cleaning = none := by
      unfold cleaning
      rw [hnone]
      rcases hmain with hm | hm <;> rw [hm]
    refine ⟨fun hne => absurd hnone hne, ?_, ?_, fun _ => ⟨hnone, hmain, ?_, ?_, ?_⟩, ?_⟩
    · rw [hcl]
      rintro pc ⟨⟩
    · rw [hcl]
      rintro pc ⟨⟩
    · simpa using hdone
    · simpa using hping
    · exact (cleanTo_away _ none).2 (haway rfl)
    · rw [cleanTo_trace]
      exact each_concat.2 ⟨h.leftAlone, hd⟩

/-- A step of a thread that a `clean` does not wait for. -/
theorem inv_thread {p p' : Teardown} (h : Inv p) (hhandler : p'.handler = p.handler) (hmain : p'.main = p.main)
    (hdone : p'.threadsDone = p.threadsDone) (hping : p'.ping = p.ping)
    (htrace : p'.trace = p.trace ∨ (∃ op, p'.trace = p.trace ++ [.used op]) ∧ .destroyed ∉ p.trace)
    (haway : p.threadsDone = true → Away p → Away p') : Inv p' := by
  have hcl : p'.cleaning = p.cleaning := by
    unfold cleaning
    rw [hhandler, hmain]
  have hmem : .destroyed ∈ p'.trace → .destroyed ∈ p.trace := by
    rcases htrace with ht | ⟨⟨op, ht⟩, -⟩
    · rw [ht]
      exact id
    · rw [ht]
      simp
  refine ⟨by rw [hhandler, hmain]; exact h.handled, ?_, ?_, fun hd => ?_, ?_⟩
  · rw [hcl, hdone]
    exact h.joining
  · rw [hcl, hping]
    exact h.joined
  · obtain ⟨h1, h2, h3, h4, h5⟩ := h.destroyed (hmem hd)
    rw [hhandler, hmain, hdone, hping]
    exact ⟨h1, h2, h3, h4, haway h3 h5⟩
  · rcases htrace with ht | ⟨⟨op, ht⟩, hd⟩
    · rw [ht]
      exact h.leftAlone
    · rw [ht]
      exact each_concat.2 ⟨h.leftAlone, hd⟩

/-- A step of the ping thread, which has not ended: no `clean` is past the join. -/
theorem inv_ping {p p' : Teardown} (h : Inv p) (hping : p.ping ≠ .ended) (hhandler : p'.handler = p.handler)
    (hmain : p'.main = p.main) (hdone : p'.threadsDone = p.threadsDone)
    (htrace : p'.trace = p.trace ∨ ∃ op, p'.trace = p.trace ++ [.used op]) : Inv p' := by
  have hcl : p'.cleaning = p.cleaning := by
    unfold cleaning
    rw [hhandler, hmain]
  have hd : .destroyed ∉ p.trace := fun hd => hping (h.destroyed hd).2.2.2.1
  refine h.before hd htrace (by rw [hhandler, hmain]; exact h.handled) ?_ ?_
  · rw [hcl, hdone]
    exact h.joining
  · rw [hcl]
    exact fun pc hpc hlate => absurd (h.joined pc hpc hlate) hping

theorem inv_pingLoop {p : Teardown} (h : Inv p) {pc : LoopPc} {uses : Bool}
    (hl : loopStep p.threadsDone 2 p.ping = some (pc, uses)) :
    Inv (if uses then { p with ping := pc }.use .iteration else { p with ping := pc }) := by
  have hne : p.ping ≠ .ended := by
    intro he
    rw [he] at hl
    cases hl
  cases uses with
  | true => exact inv_ping h hne rfl rfl rfl (.inr ⟨_, rfl⟩)
  | false => exact inv_ping h hne rfl rfl rfl (.inl rfl)

/-- A use of the table by a thread that is not away from it. -/
theorem inv_use {p p' : Teardown} (h : Inv p) (hno : p.threadsDone = true → ¬ Away p)
    (hhandler : p'.handler = p.handler) (hmain : p'.main = p.main) (hdone : p'.threadsDone = p.threadsDone)
    (hping : p'.ping = p.ping) (htrace : ∃ op, p'.trace = p.trace ++ [.used op]) : Inv p' := by
  have hd : .destroyed ∉ p.trace := by
    intro hd
    obtain ⟨-, -, hset, -, haw⟩ := h.destroyed hd
    exact hno hset haw
  exact inv_thread h hhandler hmain hdone hping (.inr ⟨htrace, hd⟩) (fun hset haw => absurd haw (hno hset))

theorem inv_measurement {p : Teardown} (h : Inv p) {pc : LoopPc} {uses : Bool}
    (hl : loopStep p.threadsDone 1 p.measurement = some (pc, uses)) :
    Inv (if uses then { p with measurement := pc }.use .iteration else { p with measurement := pc }) := by
  -- a thread away from the table that finds `threads_done` set ends, and does not use the table
  have haway : p.threadsDone = true → Away p → pc = .ended ∧ uses = false := by
    intro hdone haw
    rw [hdone] at hl
    rcases haw.1 with hm | hm
    · rw [hm] at hl
      cases hl
      exact ⟨rfl, rfl⟩
    · rw [hm] at hl
      cases hl
  cases uses with
  | true =>
    refine inv_use h (fun hdone haw => ?_) rfl rfl rfl rfl ⟨_, rfl⟩
    cases (haway hdone haw).2
  | false => exact inv_thread h rfl rfl rfl rfl (.inl rfl) (fun hdone haw => ⟨.inr (haway hdone haw).1, haw.2⟩)

theorem inv_step {p p' : Teardown} {a : TeardownLabel} (h : Inv p) (ht : Timely p a) (hs : step p a = some p') :
    Inv p' := by
  unfold step at hs
  split at hs
  · cases hs
  · cases a with
    | sigint =>
      simp only [Option.ite_none_right_eq_some, Option.some.injEq] at hs
      obtain ⟨-, rfl⟩ := hs
      have hm : p.main = .waiting := ht
      refine h.before (h.not_destroyed_of_main (by simp [hm]) (by simp [hm])) (.inl rfl) (fun _ => if_pos hm) ?_ ?_
      · rintro pc ⟨⟩ hb
        exact absurd rfl hb
      · rintro pc ⟨⟩ (hb | hb) <;> cases hb
    | clean =>
      simp only at hs
      cases hc : p.cleaning with
      | none =>
        rw [hc] at hs
        cases hs
      | some pc =>
        rw [hc] at hs
        obtain ⟨⟨q, next⟩, hq, rfl⟩ := Option.map_eq_some_iff.1 hs
        refine inv_clean h hc (fun he => ?_) hq
        subst he
        exact ht hc
    | cleanVisit =>
      simp only [Option.ite_none_right_eq_some, Option.some.injEq] at hs
      obtain ⟨hc, rfl⟩ := hs
      have hd : .destroyed ∉ p.trace := by
        rcases hc with hc | hc
        · exact h.not_destroyed_of_cleaning hc
        · exact h.not_destroyed_of_cleaning hc
      exact h.before hd (.inr ⟨_, rfl⟩) h.handled h.joining h.joined
    | ping =>
      simp only at hs
      split at hs
      · cases hs
      · rename_i hl
        cases hs
        exact inv_pingLoop h hl
    | pingVisit =>
      simp only at hs
      split at hs
      · rename_i hp
        cases hs
        exact inv_ping h (by rw [hp]; simp) rfl rfl rfl (.inr ⟨_, rfl⟩)
      · cases hs
    | measurement =>
      simp only at hs
      split at hs
      · cases hs
      · rename_i hl
        cases hs
        exact inv_measurement h hl
    | measurementVisit =>
      simp only at hs
      split at hs
      · rename_i hm
        cases hs
        refine inv_use h (fun _ haw => ?_) rfl rfl rfl rfl ⟨_, rfl⟩
        rcases haw.1 with hm' | hm' <;> rw [hm] at hm' <;> cases hm'
      · cases hs
    | transfer =>
      simp only at hs
      split at hs
      · cases hs
        exact inv_thread h rfl rfl rfl rfl (.inl rfl) (fun _ haw => ⟨haw.1, by simp⟩)
      · cases hs
        refine inv_thread h rfl rfl rfl rfl (.inl rfl) (fun hdone haw => ⟨haw.1, ?_⟩)
        simp [hdone]
      · rename_i hm
        cases hs
        exact inv_use h (fun _ haw => haw.2 hm) rfl rfl rfl rfl ⟨_, rfl⟩
      · cases hs
        exact ⟨h.handled, h.joining, h.joined, h.destroyed, h.leftAlone⟩
      · cases hs
    | transferVisit =>
      simp only [Option.ite_none_right_eq_some, Option.some.injEq] at hs
      obtain ⟨hm, rfl⟩ := hs
      exact inv_use h (fun _ haw => haw.2 hm) rfl rfl rfl rfl ⟨_, rfl⟩
    | transferFails =>
      simp only [Option.ite_none_right_eq_some, Option.some.injEq] at hs
      obtain ⟨-, rfl⟩ := hs
      exact ⟨h.handled, h.joining, h.joined, h.destroyed, h.leftAlone⟩
    | _ =>
      simp only [Option.ite_none_right_eq_some] at hs
      exact inv_stepMain h hs.1 hs.2

/-- **Nothing is done to the registry after its destroy**, and it is destroyed once at most, in every run in which
SIGINT comes in `epoll_wait` only and every destroy finds the measurement and the transfer thread away. -/
theorem nothing_after_destroy {as : List TeardownLabel} {p : Teardown} (ht : Along step Timely init as)
    (hrun : run step init as = some p) : LeftAlone p.trace :=
  (run_inv_along (fun _ _ _ => inv_step) inv_init ht hrun).leftAlone

/-- SIGINT in `epoll_wait`, before the first sleep of the two threads. -/
def interruptedAtOnce : List TeardownLabel :=
  [.sigint, .cleanVisit, .clean, .clean, .ping, .clean, .clean, .clean, .measurement, .exit]

theorem nothing_after_destroy_sigint :
    ∃ p, run step init interruptedAtOnce = some p ∧ .destroyed ∈ p.trace ∧ LeftAlone p.trace := by
  have hrun : run step init interruptedAtOnce = some (finish step init interruptedAtOnce) :=
    run_finish (by decide +kernel)
  exact ⟨_, hrun, by decide +kernel, nothing_after_destroy (by decide +kernel) hrun⟩

/-- SIGINT in `epoll_wait` during the sleep of the measurement thread, which wakes up before the `exit`. -/
def interruptedAsleep : List TeardownLabel :=
  [.measurement, .sigint, .clean, .clean, .ping, .clean, .clean, .clean, .measurement, .measurementVisit]

/-- **It iterates over the destroyed registry.** -/
theorem used_after_destroy : ∃ p, run step init interruptedAsleep = some p ∧ ¬ LeftAlone p.trace := by
  refine ⟨finish step init interruptedAsleep, run_finish (by decide +kernel), fun hl => ?_⟩
  have htrace : (finish step init interruptedAsleep).trace =
      [.used .iteration, .used .iteration, .destroyed, .used .iteration] := by decide +kernel
  exact hl [.used .iteration, .used .iteration, .destroyed] (.used .iteration) [] htrace (by decide)

end Teardown

end Lte
