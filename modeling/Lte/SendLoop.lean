import Lte.Broadcast
import Lte.Runs
/-!
# SendLoop — the `while` loop of `broadcast_sample`, one pass at a time

`broadcastLoop` says what the loop sends.  Here the loop is a step relation whose label is the outcome of its `send`,
over a state with both counters and the offsets it has looked at; a `send` that fails ends the process.  The loop
covers its file exactly when `bytes_read` can pass the end of it (`covers_iff`).
-/
namespace Lte

open Runs MessageValue

structure SendLoop where
  bytesRead : Int32
  packetsSent : Int32
  file : FileStream
  dataMessage : MessageValue
  /-- What `fseek` was called with, oldest first. -/
  seeks : List Int
  sent : List SMessage
  exited : Bool

namespace SendLoop

/-- Before the first test, the stack holding `dataMessage`. -/
def start (content : List UInt8) (dataMessage : MessageValue) : SendLoop :=
  { bytesRead := 0
    packetsSent := 0
    file := { content := content, position := 0 }
    dataMessage := dataMessage
    seeks := []
    sent := []
    exited := false }

/-- One pass, if the test of the loop lets it begin. -/
def pass (s : SendLoop) (ok : Bool) : Option SendLoop :=
  if s.exited = false ∧ s.bytesRead.toInt < s.file.content.length then
    let file := s.file.fseek s.bytesRead.toInt
    let dataMessage := s.dataMessage.setBuffer zeros
    let (bs, file) := file.fread
    let dataMessage := dataMessage.setBuffer bs
    let s := { s with
      bytesRead := s.bytesRead + 16
      file := file
      dataMessage := dataMessage
      seeks := s.seeks ++ [s.bytesRead.toInt] }
    if ok then
      some { s with packetsSent := s.packetsSent + 1, sent := s.sent ++ [⟨.data, dataMessage⟩] }
    else some { s with exited := true }
  else none

/-- Neither counter overflows in a pass from here. -/
def CountersFit (s : SendLoop) : Prop := s.bytesRead.toInt + 16 < 2 ^ 31 ∧ s.packetsSent.toInt + 1 < 2 ^ 31

/-- With every `send` succeeding: as many passes as the file has blocks and no more, pass `i` at offset `16 * i`, and
counters that never overflow. -/
def Covers (content : List UInt8) (dataMessage : MessageValue) : Prop :=
  let passes := List.replicate (blockCount content) true
  (∃ s, run pass (start content dataMessage) passes = some s ∧ s.exited = false ∧ pass s true = none ∧
    s.seeks = (List.range (blockCount content)).map (fun i : Nat => 16 * (i : Int))) ∧
  Along pass (fun s _ => s.CountersFit) (start content dataMessage) passes

/-! ## The passes of a run -/

/-- After `k` passes whose counters did not overflow. -/
structure At (content : List UInt8) (k : Nat) (s : SendLoop) : Prop where
  bytesRead : s.bytesRead.toInt = 16 * k
  packetsSent : s.packetsSent.toInt = k
  content : s.file.content = content
  seeks : s.seeks = (List.range k).map (fun i : Nat => 16 * (i : Int))
  running : s.exited = false

theorem at_start (content : List UInt8) (dataMessage : MessageValue) : At content 0 (start content dataMessage) :=
  ⟨rfl, rfl, rfl, rfl, rfl⟩

theorem content_fseek (file : FileStream) (offset : Int) : (file.fseek offset).content = file.content := by
  unfold FileStream.fseek
  split <;> rfl

variable {content : List UInt8} {k : Nat} {s : SendLoop}

/-- **What a pass does when its `send` succeeds.** -/
theorem pass_spec (hexit : s.exited = false) (hlt : s.bytesRead.toInt < s.file.content.length) :
    ∃ t, pass s true = some t ∧ t.bytesRead = s.bytesRead + 16 ∧ t.packetsSent = s.packetsSent + 1 ∧
      t.file.content = s.file.content ∧ t.seeks = s.seeks ++ [s.bytesRead.toInt] ∧ t.exited = false := by
  unfold pass
  rw [if_pos ⟨hexit, hlt⟩]
  exact ⟨_, rfl, rfl, rfl, content_fseek _ _, rfl, hexit⟩

theorem pass_none_iff (hexit : s.exited = false) (ok : Bool) :
    pass s ok = none ↔ s.file.content.length ≤ s.bytesRead.toInt := by
  unfold pass
  by_cases hlt : s.bytesRead.toInt < s.file.content.length
  · rw [if_pos ⟨hexit, hlt⟩]
    cases ok <;> simpa using hlt
  · rw [if_neg (fun ht => hlt ht.2)]
    exact iff_of_true rfl (Int.not_lt.1 hlt)

/-- **A pass that the counter can count.** -/
theorem At.next (h : At content k s) (hlt : 16 * k < content.length) (hk : 16 * (k + 1) < 2 ^ 31) :
    ∃ t, pass s true = some t ∧ At content (k + 1) t := by
  have htest : s.bytesRead.toInt < s.file.content.length := by
    rw [h.bytesRead, h.content]
    omega
  obtain ⟨t, hpass, hread, hsent, hcontent, hseeks, hexit⟩ := pass_spec h.running htest
  refine ⟨t, hpass, ?_, ?_, hcontent.trans h.content, ?_, hexit⟩
  · rw [hread, toInt_add_sixteen (by rw [h.bytesRead]; omega), h.bytesRead]
    omega
  · have h1 : (1 : Int32).toInt = 1 := by decide
    rw [hsent, toInt_add_of_lt (by decide) (by rw [h1, h.packetsSent]; omega), h1, h.packetsSent]
    omega
  · rw [hseeks, h.seeks, h.bytesRead, List.range_succ, List.map_append]
    rfl

/-- **A run whose counter stays in range**, pass by pass. -/
theorem run_passes (content : List UInt8) (dataMessage : MessageValue) : ∀ k, k ≤ blockCount content → 16 * k < 2 ^ 31 →
    (∃ s, run pass (start content dataMessage) (List.replicate k true) = some s ∧ At content k s) ∧
    Along pass (fun s _ => s.CountersFit) (start content dataMessage) (List.replicate k true)
  | 0, _, _ => ⟨⟨_, rfl, at_start content dataMessage⟩, trivial⟩
  | k + 1, hk, hfit => by
    obtain ⟨⟨s, hrun, hat⟩, halong⟩ := run_passes content dataMessage k (by omega) (by omega)
    have hlt : 16 * k < content.length := by
      unfold blockCount at hk
      omega
    obtain ⟨t, ht, hat'⟩ := hat.next hlt hfit
    rw [List.replicate_succ']
    refine ⟨⟨t, run_concat_some.2 ⟨s, hrun, ht⟩, hat'⟩, along_concat.2 ⟨halong, fun u hu => ?_⟩⟩
    rw [hrun, Option.some.injEq] at hu
    rw [← hu, CountersFit, hat.bytesRead, hat.packetsSent]
    omega

theorem covers_of_le {content : List UInt8} (hn : content.length ≤ 2 ^ 31 - 16) (dataMessage : MessageValue) :
    Covers content dataMessage := by
  have hfit : 16 * blockCount content < 2 ^ 31 := by
    unfold blockCount
    omega
  obtain ⟨⟨s, hrun, hat⟩, halong⟩ := run_passes content dataMessage _ (Nat.le_refl _) hfit
  refine ⟨⟨s, hrun, hat.running, (pass_none_iff hat.running true).2 ?_, hat.seeks⟩, halong⟩
  rw [hat.content, hat.bytesRead]
  unfold blockCount
  omega

/-- The pass that starts at `2 ^ 31 - 16` overflows. -/
theorem not_covers {content : List UInt8} (hn : 2 ^ 31 - 16 < content.length) (dataMessage : MessageValue) :
    ¬ Covers content dataMessage := by
  rintro ⟨-, halong⟩
  obtain ⟨m, hm⟩ : ∃ m, blockCount content = (2 ^ 27 - 1) + (m + 1) :=
    ⟨blockCount content - 2 ^ 27, by unfold blockCount; omega⟩
  obtain ⟨⟨s, hrun, hat⟩, -⟩ := run_passes content dataMessage (2 ^ 27 - 1) (by omega) (by omega)
  rw [hm, List.replicate_add, along_append] at halong
  have hfit := (halong.2 s hrun).1.1
  rw [hat.bytesRead] at hfit
  omega

/-- **The loop covers its file exactly when the file has at most `2 ^ 31 - 16` bytes.** -/
theorem covers_iff (content : List UInt8) (dataMessage : MessageValue) :
    Covers content dataMessage ↔ content.length ≤ 2 ^ 31 - 16 := by
  constructor
  · intro h
    apply Nat.le_of_not_lt
    exact fun hn => not_covers hn dataMessage h
  · exact fun hn => covers_of_le hn dataMessage

/-- A file one byte longer than the counter can pass. -/
theorem covers_fails_past_limit :
    ¬ ∀ (content : List UInt8) (dataMessage : MessageValue), content.length < 2 ^ 63 → Covers content dataMessage := by
  intro h
  have hlen : (List.replicate (2 ^ 31 - 15) (0 : UInt8)).length = 2 ^ 31 - 15 := List.length_replicate
  refine not_covers (by rw [hlen]; omega) (fun _ => 0) (h _ _ ?_)
  rw [hlen]
  omega

/-- **Past that limit the passes never end**: the counter wraps, and stays below the size. -/
theorem run_never_ends {content : List UInt8} (hn : 2 ^ 31 - 16 < content.length) (dataMessage : MessageValue) :
    ∀ m, ∃ s, run pass (start content dataMessage) (List.replicate m true) = some s ∧
      (16 : Int) ∣ s.bytesRead.toInt ∧ s.file.content = content ∧ s.exited = false
  | 0 => ⟨_, rfl, (by decide : (16 : Int) ∣ (0 : Int32).toInt), rfl, rfl⟩
  | m + 1 => by
    obtain ⟨s, hrun, hdvd, hcontent, hexit⟩ := run_never_ends hn dataMessage m
    have hlt : s.bytesRead.toInt < s.file.content.length := by
      have := s.bytesRead.toInt_lt
      rw [hcontent]
      omega
    obtain ⟨t, hpass, hread, -, hcontent', -, hexit'⟩ := pass_spec hexit hlt
    rw [List.replicate_succ']
    refine ⟨t, run_concat_some.2 ⟨s, hrun, hpass⟩, ?_, hcontent'.trans hcontent, hexit'⟩
    rw [hread]
    exact dvd_toInt_add_sixteen hdvd

/-! ## The messages of a run -/

/-- One pass is one unfolding of `broadcastLoop`. -/
theorem broadcastLoop_of_pass {s t : SendLoop} (h : pass s true = some t) (fuel : Nat) :
    t.sent = s.sent ++ [⟨.data, t.dataMessage⟩] ∧
    broadcastLoop (fuel + 1) s.bytesRead s.file s.dataMessage =
      (broadcastLoop fuel t.bytesRead t.file t.dataMessage).map (fun ms => ⟨.data, t.dataMessage⟩ :: ms) := by
  unfold pass at h
  split at h
  · rename_i htest
    simp only [if_true, Option.some.injEq] at h
    subst h
    exact ⟨rfl, by rw [broadcastLoop, if_pos htest.2]⟩
  · cases h

/-- **The passes of a run send what `broadcastLoop` says.** -/
theorem broadcastLoop_of_run : ∀ {m : Nat} {s t : SendLoop},
    run pass s (List.replicate m true) = some t → t.exited = false → pass t true = none →
      ∃ ms, broadcastLoop (m + 1) s.bytesRead s.file s.dataMessage = some ms ∧ t.sent = s.sent ++ ms
  | 0, s, t, hrun, hexit, hend => by
    rw [List.replicate_zero, run_nil, Option.some.injEq] at hrun
    subst hrun
    refine ⟨[], ?_, (List.append_nil _).symm⟩
    rw [broadcastLoop, if_neg (Int.not_lt.2 ((pass_none_iff hexit true).1 hend))]
  | m + 1, s, t, hrun, hexit, hend => by
    obtain ⟨u, hu, hrest⟩ := run_cons_some.1 (List.replicate_succ ▸ hrun)
    obtain ⟨ms, hms, hsent⟩ := broadcastLoop_of_run hrest hexit hend
    obtain ⟨hsent', hloop⟩ := broadcastLoop_of_pass hu (m + 1)
    refine ⟨⟨.data, u.dataMessage⟩ :: ms, ?_, ?_⟩
    · rw [hloop, hms]
      rfl
    · rw [hsent, hsent', List.append_assoc]
      rfl

end SendLoop
end Lte
