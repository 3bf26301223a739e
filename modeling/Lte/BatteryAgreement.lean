import Lte.Runs
import Lte.Client
import Lte.PacketHandler
/-!
# BatteryAgreement — the battery state a UE has and the one the server holds

The UE's two battery calls, in any order, and the server handling the notifications they write, in order.  The latch
`sent_notification` ties the two ends: while it is set the last notification was the one of the direction the level
moves in, and `power_is_low` can only be set to what that notification said (`Inv`).
-/
namespace Lte

open Runs

/-- A UE, the server, and how many of the messages the UE wrote the server has handled. -/
structure BatteryLink where
  ue : Ue
  server : Server
  handled : Nat

inductive BatteryLabel
  | update (timeNow timeReset : Int) (ok : Bool)
  | ping (ok : Bool)
  | handle (now : Int)

namespace BatteryLink

/-- The notifications in flight, oldest first. -/
def inFlight (l : BatteryLink) : List SMessage := (delivered l.ue.trace).drop l.handled

def step (sock : Nat) (l : BatteryLink) : BatteryLabel → Option BatteryLink
  | .update timeNow timeReset ok => some { l with ue := updateBattery l.ue timeNow timeReset ok }
  | .ping ok => some { l with ue := decreaseAfterPing l.ue ok }
  | .handle now =>
    match l.inFlight with
    | [] => none
    | m :: _ =>
      match l.server.parsePacket sock (.bytes m.bytes) now with
      | none => none
      | some server => some { l with server := server, handled := l.handled + 1 }

/-- A full battery, and a record a random access request has just set. -/
structure Start (sock : Nat) (l : BatteryLink) : Prop where
  battery : ∃ now, l.ue.battery = initializeBatteryLife now
  trace : l.ue.trace = []
  handled : l.handled = 0
  server : ∃ (srv : Server) (c : Client) (m : SMessage) (now : Int),
    srv.getClientBySocket sock = some c ∧ l.server = srv.handleRandomAccessRequest sock m now

def NoFailedWrite (trace : List UeCall) : Prop := ∀ m, UeCall.write m false ∉ trace

/-- The server's record says LOW exactly when the UE's level is low. -/
def Agree (sock : Nat) (l : BatteryLink) : Prop :=
  ∃ c, l.server.getClientBySocket sock = some c ∧
    (c.batteryState = .low ↔ l.ue.battery.powerIsLow = true)

/-- What a message does to the battery state of its sender's record. -/
def batteryAfter (b : BatteryState) (m : SMessage) : BatteryState :=
  match m.messageType with
  | .randomAccessRequest | .ueBatteryHigh => .ok
  | .ueBatteryLow => .low
  | _ => b

/-- The battery state of the record once the messages have been handled. -/
def settled (c : Client) (ms : List SMessage) : BatteryState := ms.foldl batteryAfter c.batteryState

structure Inv (sock : Nat) (l : BatteryLink) (c : Client) : Prop where
  record : l.server.getClientBySocket sock = some c
  bound : l.handled ≤ (delivered l.ue.trace).length
  notes : ∀ m ∈ l.inFlight, m.messageType = .ueBatteryLow ∨ m.messageType = .ueBatteryHigh
  latch : l.ue.battery.sentNotification = true → l.ue.battery.powerIsLow = !l.ue.battery.charging
  told : l.ue.battery.sentNotification = true ∨ NoFailedWrite l.ue.trace →
    (settled c l.inFlight = .low ↔ l.ue.battery.powerIsLow = true)

theorem clientAfter_batteryState (c : Client) (m : SMessage) (now : Int) :
    (Server.clientAfter c m now).batteryState = batteryAfter c.batteryState m := by
  unfold Server.clientAfter batteryAfter
  cases m.messageType <;> rfl

theorem inv_start {sock : Nat} {l : BatteryLink} (h : Start sock l) : ∃ c, Inv sock l c := by
  obtain ⟨t, hb⟩ := h.battery
  obtain ⟨srv, c, m, now, hc, hs⟩ := h.server
  have hrec : l.server.getClientBySocket sock = some { c with
      preambleIndex := (extractPreambleIndex m.messageValue.raRnti).toUInt8.toInt8
      lastActivity := now
      firstConnectionTimestamp := now
      rnti := m.messageValue.raRnti
      batteryState := .ok } := by
    rw [hs]
    have hc' : (srv.sendRandomAccessResponse sock (extractPreambleIndex m.messageValue.raRnti).toUInt8.toInt8
      now).getClientBySocket sock = some c := hc
    simp only [Server.handleRandomAccessRequest, Server.updateClientByRaRntiData, hc']
    exact (Server.lookup_putClientInHashmap _ _ _ _).trans (if_pos rfl)
  refine ⟨_, hrec, by simp [h.handled], ?_, ?_, ?_⟩
  · simp [inFlight, h.trace]
  · simp [hb, initializeBatteryLife]
  · simp [inFlight, settled, h.trace, hb, initializeBatteryLife]

/-- A check keeps the invariant: what it writes is what it sets `power_is_low` to. -/
theorem inv_check {sock : Nat} {l : BatteryLink} {c : Client} (h : Inv sock l c) (n : Int) (ok : Bool) :
    Inv sock { l with ue := checkBatteryStatus n l.ue ok } c := by
  rcases checkBatteryStatus_cases n l.ue ok with ⟨-, he⟩ | ⟨t, ht, hs, he⟩ | ⟨t, ht, hs, he⟩
  · rw [he]; exact h
  · -- the notification is out, so `power_is_low` already says what the check sets it to
    have hsame : decide (t = .ueBatteryLow) = l.ue.battery.powerIsLow := by
      rw [h.latch hs]
      rcases UeBattery.due_some ht with ⟨rfl, hc⟩ | ⟨rfl, hc⟩ <;> simp [hc]
    rw [he, hsame]
    exact h
  · have hlow : decide (t = .ueBatteryLow) = !l.ue.battery.charging := by
      rcases UeBattery.due_some ht with ⟨rfl, hc⟩ | ⟨rfl, hc⟩ <;> simp [hc]
    have htype : t = .ueBatteryLow ∨ t = .ueBatteryHigh :=
      (UeBattery.due_some ht).imp And.left And.left
    rw [he]
    cases ok with
    | false =>
      -- a failed write leaves the latch open and is in the trace
      refine ⟨h.record, by simpa using h.bound, by simpa [inFlight] using h.notes, by simp, ?_⟩
      rintro (h1 | h1)
      · cases h1
      · exact absurd (by simp) (h1 { l.ue.message with messageType := t })
    | true =>
      have hfl : inFlight
          { l with
            ue :=
              { l.ue with
                message := { l.ue.message with messageType := t }
                battery :=
                  { l.ue.battery with powerIsLow := decide (t = .ueBatteryLow), sentNotification := true }
                trace := l.ue.trace ++ [.write { l.ue.message with messageType := t } true] } }
          = l.inFlight ++ [{ l.ue.message with messageType := t }] := by
        simp only [inFlight, delivered_append, delivered_write, if_true]
        exact List.drop_append_of_le_length h.bound
      refine ⟨h.record, ?_, ?_, fun _ => hlow, fun _ => ?_⟩
      · have := h.bound
        simp only [delivered_append, delivered_write, List.length_append]
        omega
      · rw [hfl]
        intro m hm
        rcases List.mem_append.1 hm with hm | hm
        · exact h.notes m hm
        · rw [List.mem_singleton.1 hm]; exact htype
      · rw [hfl, settled, List.foldl_append]
        rcases htype with rfl | rfl <;> simp [batteryAfter]

/-- A battery that keeps what it was told and can only open the latch keeps the invariant. -/
theorem inv_battery {sock : Nat} {l : BatteryLink} {c : Client} (h : Inv sock l c) {b : UeBattery}
    (hlow : b.powerIsLow = l.ue.battery.powerIsLow)
    (hsent : b.sentNotification = true →
      l.ue.battery.sentNotification = true ∧ b.charging = l.ue.battery.charging) :
    Inv sock { l with ue := { l.ue with battery := b } } c where
  record := h.record
  bound := h.bound
  notes := h.notes
  latch hs := by
    obtain ⟨h1, h2⟩ := hsent hs
    simp only [hlow, h2]
    exact h.latch h1
  told ht := by
    simp only [hlow]
    exact h.told (ht.imp (fun hs => (hsent hs).1) id)

theorem elapse_flags (b : UeBattery) (n r : Int) :
    (elapse b n r).powerIsLow = b.powerIsLow ∧ (elapse b n r).sentNotification = b.sentNotification ∧
      (elapse b n r).charging = b.charging := by
  unfold elapse; split <;> exact ⟨rfl, rfl, rfl⟩

theorem turn_flags (b : UeBattery) :
    (turn b).powerIsLow = b.powerIsLow ∧
      ((turn b).sentNotification = true → b.sentNotification = true ∧ (turn b).charging = b.charging) := by
  unfold turn
  split
  · exact ⟨rfl, fun h => by cases h⟩
  · split
    · exact ⟨rfl, fun h => by cases h⟩
    · exact ⟨rfl, fun h => ⟨h, rfl⟩⟩

theorem inv_update {sock : Nat} {l : BatteryLink} {c : Client} (h : Inv sock l c) (n r : Int) (ok : Bool) :
    Inv sock { l with ue := updateBattery l.ue n r ok } c := by
  have hc := inv_check h updateStep ok
  obtain ⟨e1, e2, e3⟩ := elapse_flags (checkBatteryStatus updateStep l.ue ok).battery n r
  obtain ⟨t1, t2⟩ := turn_flags (elapse (checkBatteryStatus updateStep l.ue ok).battery n r)
  refine inv_battery hc (t1.trans e1) (fun hs => ?_)
  obtain ⟨s1, s2⟩ := t2 hs
  exact ⟨e2 ▸ s1, s2.trans e3⟩

theorem inv_ping {sock : Nat} {l : BatteryLink} {c : Client} (h : Inv sock l c) (ok : Bool) :
    Inv sock { l with ue := decreaseAfterPing l.ue ok } c := by
  have hc := inv_check h decreaseAmount ok
  unfold decreaseAfterPing
  simp only
  split
  · exact inv_battery hc rfl (fun hs => ⟨hs, rfl⟩)
  · split
    · exact inv_battery hc rfl (fun hs => ⟨hs, rfl⟩)
    · exact hc

/-- Handling the oldest notification in flight succeeds, and leaves what the others will settle to. -/
theorem inv_handle {sock : Nat} {l : BatteryLink} {c : Client} {m : SMessage} {ms : List SMessage} (h : Inv sock l c)
    (hfl : l.inFlight = m :: ms) (now : Int) :
    ∃ l', step sock l (.handle now) = some l' ∧ l'.ue = l.ue ∧ l'.inFlight = ms ∧
      Inv sock l' (Server.clientAfter c m now) := by
  have hnote := h.notes m (by rw [hfl]; exact List.mem_cons_self)
  have hoff : m.messageType ≠ .ueOff := by rcases hnote with e | e <;> rw [e] <;> decide
  obtain ⟨srv', hp, hh⟩ := Server.handlePacket_handled h.record m now hoff
  have hstep : step sock l (.handle now) = some { l with server := srv', handled := l.handled + 1 } := by
    simp only [step, hfl, Server.parsePacket, SMessage.readInto_bytes, hp]
  have hms : (delivered l.ue.trace).drop (l.handled + 1) = ms := by
    rw [← List.tail_drop]
    exact congrArg List.tail hfl
  refine ⟨_, hstep, rfl, hms, ?_⟩
  have hrec : srv'.getClientBySocket sock = some (Server.clientAfter c m now) :=
    (hh.clients (key sock)).trans (if_pos rfl)
  have hset : settled (Server.clientAfter c m now) ms = settled c l.inFlight := by
    rw [settled, settled, hfl, List.foldl_cons, clientAfter_batteryState]
  refine ⟨hrec, ?_, ?_, h.latch, ?_⟩
  · have : l.inFlight.length = (delivered l.ue.trace).length - l.handled := List.length_drop
    rw [hfl, List.length_cons] at this
    have := h.bound
    show l.handled + 1 ≤ (delivered l.ue.trace).length
    omega
  · intro m' hm'
    refine h.notes m' ?_
    rw [hfl]
    exact List.mem_cons_of_mem m (hms ▸ hm')
  · intro ht
    have hfl' : inFlight { l with server := srv', handled := l.handled + 1 } = ms := hms
    rw [hfl', hset]
    exact h.told ht

theorem inv_step {sock : Nat} {l l' : BatteryLink} {a : BatteryLabel} (h : ∃ c, Inv sock l c)
    (hs : step sock l a = some l') : ∃ c, Inv sock l' c := by
  obtain ⟨c, h⟩ := h
  cases a with
  | update n r ok =>
    simp only [step, Option.some.injEq] at hs
    exact hs ▸ ⟨c, inv_update h n r ok⟩
  | ping ok =>
    simp only [step, Option.some.injEq] at hs
    exact hs ▸ ⟨c, inv_ping h ok⟩
  | handle now =>
    cases hfl : l.inFlight with
    | nil => simp [step, hfl] at hs
    | cons m ms =>
      obtain ⟨l'', hs', -, -, h'⟩ := inv_handle h hfl now
      rw [hs'] at hs
      cases hs
      exact ⟨_, h'⟩

/-- All notifications in flight can be handled, whatever the clock reads, and the UE takes no part in it. -/
theorem settle {sock : Nat} : ∀ (nows : List Int) {l : BatteryLink} {c : Client}, Inv sock l c →
    nows.length = l.inFlight.length →
      ∃ l' c', run (step sock) l (nows.map .handle) = some l' ∧ l'.ue = l.ue ∧ l'.inFlight = [] ∧ Inv sock l' c'
  | [], l, c, h, hn => ⟨l, c, rfl, rfl, List.length_eq_zero_iff.1 hn.symm, h⟩
  | now :: nows, l, c, h, hn => by
    cases hfl : l.inFlight with
    | nil => rw [hfl] at hn; cases hn
    | cons m ms =>
      obtain ⟨l1, hs, hue, hms, h1⟩ := inv_handle h hfl now
      rw [hfl, List.length_cons, List.length_cons, Nat.add_right_cancel_iff] at hn
      obtain ⟨l', c', hrun, hue', hnil, h'⟩ := settle nows h1 (by rw [hms]; exact hn)
      refine ⟨l', c', ?_, hue'.trans hue, hnil, h'⟩
      exact run_cons_some.2 ⟨l1, hs, hrun⟩

/-- **The two ends agree.**  In every state of every run: while the latch is set, or as long as no notification write
has failed, handling what is in flight leaves the server with LOW exactly when the UE's level is low. -/
theorem battery_agreement {sock : Nat} {l₀ l : BatteryLink} {as : List BatteryLabel} (h₀ : Start sock l₀)
    (hrun : run (step sock) l₀ as = some l) (nows : List Int) (hn : nows.length = l.inFlight.length) :
    ∃ l', run (step sock) l (nows.map .handle) = some l' ∧ l'.ue = l.ue ∧ l'.inFlight = [] ∧
      (l.ue.battery.sentNotification = true → Agree sock l') ∧ (NoFailedWrite l.ue.trace → Agree sock l') := by
  obtain ⟨c, h⟩ := run_inv (fun _ _ _ => inv_step) (inv_start h₀) hrun
  obtain ⟨l', c', hr, hue, hnil, h'⟩ := settle nows h hn
  have hagree : l.ue.battery.sentNotification = true ∨ NoFailedWrite l.ue.trace → Agree sock l' := by
    intro ht
    have := h'.told (by rw [hue]; exact ht)
    rw [hnil] at this
    exact ⟨c', h'.record, this⟩
  exact ⟨l', hr, hue, hnil, fun hs => hagree (.inl hs), fun hf => hagree (.inr hf)⟩

/-- A UE fresh from the attach and a server that has just answered its random access request on socket 5. -/
def attached : BatteryLink :=
  { ue := Ue.start (fun _ => 50) 0
    server := ((Server.init 3).acceptClient 5 ⟨0, 0, 0, 0, .low, 0⟩).handleRandomAccessRequest 5 .zero 0
    handled := 0 }

/-- Eight calls of `update_battery`, a second apart: the last one finds 16 percent and notifies. -/
def discharge : List BatteryLabel := List.replicate 8 (.update 1 0 true)

theorem battery_agreement_discharge :
    ∃ l l', run (step 5) attached discharge = some l ∧ l.ue.battery.powerIsLow = true ∧
      run (step 5) l [.handle 9] = some l' ∧ Agree 5 l' := by
  have h₀ : Start 5 attached := ⟨⟨0, rfl⟩, rfl, rfl, (Server.init 3).acceptClient 5 ⟨0, 0, 0, 0, .low, 0⟩, _, .zero, 0, rfl, rfl⟩
  have hrun : run (step 5) attached discharge = some (finish (step 5) attached discharge) :=
    run_finish (by decide +kernel)
  obtain ⟨l', hr, -, -, hs, -⟩ := battery_agreement h₀ hrun [9] (by decide +kernel)
  exact ⟨_, l', hrun, by decide +kernel, hr, hs (by decide +kernel)⟩

end BatteryLink

end Lte
