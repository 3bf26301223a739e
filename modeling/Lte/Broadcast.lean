import Lte.Cuts
import Lte.Message
/-!
# Broadcast — `broadcast_sample`

What the server sends one client for a file: the name, the bytes in blocks of sixteen, the name again.  The loop counts
in an `int` and compares it with a `long`, and takes what is left of the file into a block it has cleared before; so a
last block that is not full is padded with zeros (`broadcastSample_blocks`), and a file longer than the counter can
reach is sent for ever (`broadcastLoop_none`).
-/
namespace Lte

open Mem MessageValue

/-- The stream of the file. -/
structure FileStream where
  content : List UInt8
  position : Nat

namespace FileStream

/-- `fseek(file, offset, SEEK_SET)`, which fails for a negative offset. -/
def fseek (file : FileStream) (offset : Int) : FileStream :=
  if offset < 0 then file else { file with position := offset.toNat }

/-- The bytes `fread(buffer, BUFFER_SIZE, 1, file)` puts into the buffer. -/
def fread (file : FileStream) : List UInt8 × FileStream :=
  let bs := (file.content.drop file.position).take bufferSize
  (bs, { file with position := file.position + bs.length })

end FileStream

def zeros : List UInt8 := List.replicate bufferSize 0

/-- The loop from a value of `bytes_read`: the data messages it sends before it ends. -/
def broadcastLoop : Nat → Int32 → FileStream → MessageValue → Option (List SMessage)
  | 0, _, _, _ => none
  | fuel + 1, bytesRead, file, dataMessage =>
    if bytesRead.toInt < file.content.length then
      let file := file.fseek bytesRead.toInt
      let dataMessage := dataMessage.setBuffer zeros
      let (bs, file) := file.fread
      let dataMessage := dataMessage.setBuffer bs
      (broadcastLoop fuel (bytesRead + 16) file dataMessage).map (fun ms => ⟨.data, dataMessage⟩ :: ms)
    else some []

/-- `broadcast_sample` when every `send` succeeds: `filename` is the memory its argument points to, and the two
messages are what the stack held. -/
def broadcastSample (fuel : Nat) (content : List UInt8) (filename : Block bufferSize)
    (dataMessageTag dataMessage : MessageValue) : Option (List SMessage) :=
  let tag := (dataMessageTag.setBuffer zeros).setBuffer (List.ofFn filename)
  match broadcastLoop fuel 0 { content := content, position := 0 } dataMessage with
  | none => none
  | some ms => some (⟨.dataStart, tag⟩ :: (ms ++ [⟨.dataEnd, tag⟩]))

/-! ## The blocks of a file -/

/-- Block `k` of a file, padded with zeros. -/
def block (content : List UInt8) (k : Nat) : List UInt8 :=
  let bs := (content.drop (bufferSize * k)).take bufferSize
  bs ++ List.replicate (bufferSize - bs.length) 0

def blockCount (content : List UInt8) : Nat := (content.length + 15) / 16

def blocks (content : List UInt8) : List (List UInt8) := (List.range (blockCount content)).map (block content)

theorem length_block (content : List UInt8) (k : Nat) : (block content k).length = bufferSize := by
  simp only [block, List.length_append, List.length_replicate, List.length_take, List.length_drop]
  omega

/-- As long as the blocks are full they are the file. -/
theorem flatten_blocks (content : List UInt8) : ∀ m, bufferSize * m ≤ content.length →
    ((List.range m).map (block content)).flatten = content.take (bufferSize * m)
  | 0, _ => by simp
  | m + 1, h => by
    have hm : bufferSize * m + bufferSize ≤ content.length := h
    rw [List.range_succ, List.map_append, List.flatten_append, flatten_blocks content m (by omega), Nat.mul_succ,
      List.take_add]
    have hfull : ((content.drop (bufferSize * m)).take bufferSize).length = bufferSize := by
      rw [List.length_take, List.length_drop]
      omega
    simp [block, hfull]

/-- **The blocks are the file exactly when the last one is full.** -/
theorem flatten_blocks_eq_iff (content : List UInt8) : (blocks content).flatten = content ↔ 16 ∣ content.length := by
  have hlen : (blocks content).flatten.length = 16 * blockCount content := by
    have hall : ∀ b ∈ blocks content, b.length = 16 := by
      intro b hb
      obtain ⟨k, -, rfl⟩ := List.mem_map.1 hb
      exact length_block content k
    rw [Cuts.length_flatten_of_whole hall, blocks, List.length_map, List.length_range]
  constructor
  · intro h
    rw [h] at hlen
    exact ⟨_, hlen⟩
  · rintro ⟨m, hm⟩
    have hcount : blockCount content = m := by
      unfold blockCount
      omega
    rw [blocks, hcount, flatten_blocks content m (by rw [hm]; exact Nat.le_refl _)]
    exact List.take_of_length_le (by rw [hm]; exact Nat.le_refl _)

/-! ## What the loop sends -/

/-- A counter that steps up below its limit. -/
theorem toInt_add_of_lt {x c : Int32} (hc : 0 ≤ c.toInt) (h : x.toInt + c.toInt < 2 ^ 31) :
    (x + c).toInt = x.toInt + c.toInt := by
  have hlow := x.le_toInt
  rw [Int32.toInt_add]
  apply Int.bmod_eq_of_le <;> omega

theorem toInt_add_sixteen {x : Int32} (h : x.toInt + 16 < 2 ^ 31) : (x + 16).toInt = x.toInt + 16 := by
  have h16 : (16 : Int32).toInt = 16 := by decide
  rw [toInt_add_of_lt (by decide) (by rw [h16]; exact h), h16]

/-- The counter stays a multiple of sixteen, also where it wraps. -/
theorem dvd_toInt_add_sixteen {x : Int32} (h : (16 : Int) ∣ x.toInt) : (16 : Int) ∣ (x + 16).toInt := by
  have h16 : (16 : Int32).toInt = 16 := by decide
  rw [Int32.toInt_add, h16, Int.bmod_def]
  split <;> omega

/-- The buffer after `memset` and `fread`. -/
theorem buffer_after_fread (v : MessageValue) {bs : List UInt8} (h : bs.length ≤ bufferSize) :
    ((v.setBuffer zeros).setBuffer bs).buffer = bs ++ List.replicate (bufferSize - bs.length) 0 := by
  have hz : bs.length ≤ zeros.length := by simpa [zeros] using h
  unfold setBuffer
  rw [copy_copy v 0 hz]
  have hdrop : zeros.drop bs.length = List.replicate (bufferSize - bs.length) 0 := by simp [zeros]
  rw [hdrop]
  apply buffer_setBuffer
  rw [List.length_append, List.length_replicate]
  omega

/-- **A file the counter can reach is sent block by block.** -/
theorem broadcastLoop_blocks {content : List UInt8} (hn : content.length ≤ 2 ^ 31 - 16) :
    ∀ (fuel k : Nat) (bytesRead : Int32) (file : FileStream) (v : MessageValue), bytesRead.toInt = 16 * k →
      file.content = content → k ≤ blockCount content → blockCount content - k < fuel →
      ∃ vs : List MessageValue, broadcastLoop fuel bytesRead file v = some (vs.map (SMessage.mk .data)) ∧
        vs.map buffer = (blocks content).drop k
  | 0, k, bytesRead, file, v, hb, hc, hk, hf => absurd hf (Nat.not_lt_zero _)
  | fuel + 1, k, bytesRead, file, v, hb, hc, hk, hf => by
    by_cases hlt : 16 * k < content.length
    · have hkc : k < blockCount content := by
        unfold blockCount
        omega
      have hpos : ¬ bytesRead.toInt < 0 := by omega
      have hseek : file.fseek bytesRead.toInt = { content := content, position := bufferSize * k } := by
        unfold FileStream.fseek
        rw [if_neg hpos, hc, hb]
        rfl
      have hnext : (bytesRead + 16).toInt = 16 * (k + 1 : Nat) := by
        rw [toInt_add_sixteen (by omega), hb]
        omega
      obtain ⟨vs, hrest, hvs⟩ := broadcastLoop_blocks hn fuel (k + 1) (bytesRead + 16)
        { content := content, position := bufferSize * k + ((content.drop (bufferSize * k)).take bufferSize).length }
        ((v.setBuffer zeros).setBuffer ((content.drop (bufferSize * k)).take bufferSize)) hnext rfl hkc (by omega)
      refine ⟨(v.setBuffer zeros).setBuffer ((content.drop (bufferSize * k)).take bufferSize) :: vs, ?_, ?_⟩
      · have hcond : bytesRead.toInt < file.content.length := by
          rw [hb, hc]
          omega
        simp only [broadcastLoop, if_pos hcond, hseek, FileStream.fread]
        rw [hrest]
        rfl
      · have hblock : k < (blocks content).length := by
          rw [blocks, List.length_map, List.length_range]
          exact hkc
        rw [List.map_cons, hvs, List.drop_eq_getElem_cons hblock,
          buffer_after_fread v (by rw [List.length_take]; exact Nat.min_le_left _ _)]
        simp [blocks, block]
    · have hkc : k = blockCount content := by
        unfold blockCount at hk ⊢
        omega
      have hcond : ¬ bytesRead.toInt < file.content.length := by
        rw [hb, hc]
        omega
      refine ⟨[], ?_, ?_⟩
      · rw [broadcastLoop, if_neg hcond]
        rfl
      · rw [hkc, List.drop_of_length_le]
        · rfl
        · rw [blocks, List.length_map, List.length_range]

/-- **A longer file is sent for ever**: the counter wraps below it. -/
theorem broadcastLoop_none {content : List UInt8} (hn : 2 ^ 31 - 16 < content.length) :
    ∀ (fuel : Nat) (bytesRead : Int32) (file : FileStream) (v : MessageValue), (16 : Int) ∣ bytesRead.toInt →
      file.content = content → broadcastLoop fuel bytesRead file v = none
  | 0, _, _, _, _, _ => rfl
  | fuel + 1, bytesRead, file, v, hb, hc => by
    have hcond : bytesRead.toInt < file.content.length := by
      have := bytesRead.toInt_lt
      rw [hc]
      omega
    have hfile : ((file.fseek bytesRead.toInt).fread).2.content = content := by
      unfold FileStream.fseek FileStream.fread
      split <;> exact hc
    simp only [broadcastLoop, if_pos hcond]
    rw [broadcastLoop_none hn fuel (bytesRead + 16) _ _ (dvd_toInt_add_sixteen hb) hfile]
    rfl

/-- More fuel changes nothing once the loop has ended. -/
theorem broadcastLoop_mono : ∀ {fuel fuel' : Nat} {bytesRead : Int32} {file : FileStream} {v : MessageValue}
    {ms : List SMessage}, fuel ≤ fuel' → broadcastLoop fuel bytesRead file v = some ms →
      broadcastLoop fuel' bytesRead file v = some ms
  | 0, _, _, _, _, _, _, h => by cases h
  | fuel + 1, 0, _, _, _, _, hle, _ => by omega
  | fuel + 1, fuel' + 1, bytesRead, file, v, ms, hle, h => by
    unfold broadcastLoop at h ⊢
    split
    · rename_i hc
      rw [if_pos hc] at h
      simp only [Option.map_eq_some_iff] at h ⊢
      obtain ⟨ms', h1, h2⟩ := h
      exact ⟨ms', broadcastLoop_mono (by omega) h1, h2⟩
    · rename_i hc
      rw [if_neg hc] at h
      exact h

/-- **What `broadcast_sample` sends, if it completes**: the name, the blocks of the file, the name. -/
theorem broadcastSample_blocks {fuel : Nat} {content : List UInt8} {filename : Block bufferSize} {tag v : MessageValue}
    {ms : List SMessage} (h : broadcastSample fuel content filename tag v = some ms) :
    ∃ (name : MessageValue) (vs : List MessageValue), name = (tag.setBuffer zeros).setBuffer (List.ofFn filename) ∧
      ms = ⟨.dataStart, name⟩ :: (vs.map (SMessage.mk .data) ++ [⟨.dataEnd, name⟩]) ∧
      vs.map buffer = blocks content := by
  unfold broadcastSample at h
  simp only at h
  split at h
  · cases h
  · rename_i ds hds
    by_cases hn : content.length ≤ 2 ^ 31 - 16
    · obtain ⟨vs, h1, h2⟩ := broadcastLoop_blocks hn (fuel + blockCount content + 1) 0 0
        { content := content, position := 0 } v rfl rfl (Nat.zero_le _) (by omega)
      rw [broadcastLoop_mono (by omega) hds, Option.some.injEq] at h1
      refine ⟨_, vs, rfl, ?_, by rw [h2, List.drop_zero]⟩
      rw [← h1]
      exact (Option.some.inj h).symm
    · have hzero : (16 : Int) ∣ (0 : Int32).toInt := by decide
      rw [broadcastLoop_none (Nat.lt_of_not_le hn) fuel 0 _ v hzero rfl] at hds
      cases hds

end Lte
