import Mathlib.Data.Fintype.Basic
import Lte.Block
/-!
# Message — `message.h`

One `s_message` is an `e_message_type` and a union of every payload; 48 bytes with the four padding bytes between
them.  A message type is a 32-bit code: the sixteen declared ones and every other, `-1` among them, which both
programs can hold in the field.  The union is a block of forty bytes and its members are views of that block at the
offsets the ABI gives them, so a member that overlaps another reads what the other left.
-/
namespace Lte

open Mem

/-! ## The message type -/

/-- `e_message_type`; `unlisted k` is the undeclared code `16 + k`. -/
inductive EMessageType
  | randomAccessRequest | randomAccessResponse | rrcRequest | rrcSetup | rrcComplete
  | ueBatteryLow | ueBatteryHigh | ping | pong | ueOff | enbOff
  | measurementControlRequest | measurementReport | dataStart | data | dataEnd
  | unlisted (k : Fin (2 ^ 32 - 16))
deriving DecidableEq

namespace EMessageType

def code : EMessageType → Nat
  | randomAccessRequest => 0
  | randomAccessResponse => 1
  | rrcRequest => 2
  | rrcSetup => 3
  | rrcComplete => 4
  | ueBatteryLow => 5
  | ueBatteryHigh => 6
  | ping => 7
  | pong => 8
  | ueOff => 9
  | enbOff => 10
  | measurementControlRequest => 11
  | measurementReport => 12
  | dataStart => 13
  | data => 14
  | dataEnd => 15
  | unlisted k => 16 + k

def ofCode : Nat → EMessageType
  | 0 => randomAccessRequest
  | 1 => randomAccessResponse
  | 2 => rrcRequest
  | 3 => rrcSetup
  | 4 => rrcComplete
  | 5 => ueBatteryLow
  | 6 => ueBatteryHigh
  | 7 => ping
  | 8 => pong
  | 9 => ueOff
  | 10 => enbOff
  | 11 => measurementControlRequest
  | 12 => measurementReport
  | 13 => dataStart
  | 14 => data
  | 15 => dataEnd
  | c + 16 => unlisted ⟨c % (2 ^ 32 - 16), Nat.mod_lt _ (by decide)⟩

/-- `message_type = -1`, what the main loop leaves in its buffer after each iteration. -/
def minusOne : EMessageType := ofCode (2 ^ 32 - 1)

theorem code_lt (t : EMessageType) : t.code < 2 ^ 32 := by
  cases t with
  | unlisted k => have := k.isLt; simp only [code]; omega
  | _ => decide

@[simp] theorem ofCode_code (t : EMessageType) : ofCode t.code = t := by
  cases t with
  | unlisted k =>
    obtain ⟨k, hk⟩ := k
    simp only [code, Nat.add_comm 16 k, ofCode, unlisted.injEq, Fin.mk.injEq]
    exact Nat.mod_eq_of_lt hk
  | _ => rfl

end EMessageType

/-! ## The union -/

/-- `u_message_value`. -/
abbrev MessageValue := Block 40

structure SStmsi where
  mmeCode : UInt8
  mtmsi : UInt32
deriving DecidableEq

/-- `e_ec`. -/
inductive EEc
  | emergency | highPriorityAccess | mtAccess | moSignaling | moData
deriving DecidableEq

def EEc.code : EEc → Nat
  | emergency => 0
  | highPriorityAccess => 1
  | mtAccess => 2
  | moSignaling => 3
  | moData => 4

inductive ECyclicPrefix
  | normal | abnormal
deriving DecidableEq

inductive EHopping
  | off | on
deriving DecidableEq

def ECyclicPrefix.code : ECyclicPrefix → Nat
  | normal => 0
  | abnormal => 1

def EHopping.code : EHopping → Nat
  | off => 0
  | on => 1

structure RrcConfig where
  NULRB : Int32
  NSubframe : Int32
  NCellID : Int32
  RNTI : Int32
  cyclicPrefix : ECyclicPrefix
  hopping : EHopping
  SegGroup : Int32
  CyclicShift : Int32
  ShortEnd : Int32
deriving DecidableEq

/-- `s_event`; `defEvent` is `def`, no event whatsoever. -/
inductive SEvent
  | a1 | a2 | a3 | a4 | defEvent
deriving DecidableEq

def SEvent.code : SEvent → Nat
  | a1 => 0
  | a2 => 1
  | a3 => 2
  | a4 => 3
  | defEvent => 4

def SEvent.ofCode : Nat → Option SEvent
  | 0 => some a1
  | 1 => some a2
  | 2 => some a3
  | 3 => some a4
  | 4 => some defEvent
  | _ => none

/-- `BUFFER_SIZE` -/
def bufferSize : Nat := 16

namespace MessageValue

variable (v : MessageValue)

-- preamble and response both start at offset 0; the timestamp is aligned to 8
def raRnti : Int16 := loadI16 v 0
def setRaRnti (x : Int16) : MessageValue := storeI16 v 0 x
def rapid : Int8 := loadI8 v 0
def setRapid (x : Int8) : MessageValue := storeI8 v 0 x
def setUnixEpochTimestamp (t : Int) : MessageValue := store v 8 8 (t % 2 ^ 64).toNat

-- rrc: c_rnti at 0, ue_identity at 4 (its mtmsi at 8), establishment_cause at 12
def setCRnti (x : Int8) : MessageValue := storeI8 v 0 x
def setUeIdentity (x : SStmsi) : MessageValue := store (store v 4 1 x.mmeCode.toNat) 8 4 x.mtmsi.toNat
def setEstablishmentCause (x : EEc) : MessageValue := store v 12 4 x.code

-- rrc_config: nine 4-byte members
def RNTI : Int32 := loadI32 v 12
def setRrcResponse (x : RrcConfig) : MessageValue :=
  let v := storeI32 v 0 x.NULRB
  let v := storeI32 v 4 x.NSubframe
  let v := storeI32 v 8 x.NCellID
  let v := storeI32 v 12 x.RNTI
  let v := store v 16 4 x.cyclicPrefix.code
  let v := store v 20 4 x.hopping.code
  let v := storeI32 v 24 x.SegGroup
  let v := storeI32 v 28 x.CyclicShift
  storeI32 v 32 x.ShortEnd

def setMcc (x : Int16) : MessageValue := storeI16 v 0 x
def setMnc (x : Int16) : MessageValue := storeI16 v 2 x

def buffer : List UInt8 := slice v 0 bufferSize
def setBuffer (bs : List UInt8) : MessageValue := copy v 0 bs

def events : Option SEvent := SEvent.ofCode (load v 0 4)
def setEvents (e : SEvent) : MessageValue := store v 0 4 e.code

@[simp] theorem rapid_setRapid (x : Int8) : (v.setRapid x).rapid = x := loadI8_storeI8 v 0 x (by omega)

/-- The timestamp does not reach the preamble index. -/
@[simp] theorem rapid_setUnixEpochTimestamp (t : Int) : (v.setUnixEpochTimestamp t).rapid = v.rapid := by
  unfold rapid setUnixEpochTimestamp loadI8
  rw [load_store_of_disjoint _ _ _ _ _ _ (by omega)]

@[simp] theorem RNTI_setRrcResponse (x : RrcConfig) : (v.setRrcResponse x).RNTI = x.RNTI := by
  have h := fun b : MessageValue => loadI32_storeI32 b 12 x.RNTI (by omega)
  unfold RNTI
  simp only [setRrcResponse, loadI32, storeI32] at h ⊢
  -- the five members after RNTI are stored past its bytes
  iterate 5 rw [load_store_of_disjoint _ _ _ _ _ _ (by omega)]
  exact h _

@[simp] theorem buffer_setBuffer (bs : List UInt8) (h : bs.length = bufferSize) : (v.setBuffer bs).buffer = bs := by
  have := slice_copy v 0 bs (by simp only [bufferSize] at h; omega)
  rwa [h] at this

@[simp] theorem events_setEvents (e : SEvent) : (v.setEvents e).events = some e := by
  unfold events setEvents
  rw [load_store _ _ _ _ (by omega)]
  cases e <;> rfl

end MessageValue

/-! ## The struct -/

structure SMessage where
  messageType : EMessageType
  messageValue : MessageValue
deriving DecidableEq

/-- `sizeof(s_message)` -/
def sizeofSMessage : Nat := 48

namespace SMessage

/-- `memset(&message, 0, sizeof(message))` -/
def zero : SMessage := ⟨.randomAccessRequest, fun _ => 0⟩

/-- The struct as it lies in memory.  The padding is zero here; no function reads it. -/
def image (m : SMessage) : Block sizeofSMessage := fun i =>
  if h : i.val < 8 then store (fun _ : Fin 8 => 0) 0 4 m.messageType.code ⟨i.val, h⟩
  else m.messageValue ⟨i.val - 8, by have := i.isLt; simp only [sizeofSMessage] at this; omega⟩

/-- The struct that 48 bytes are. -/
def ofImage (b : Block sizeofSMessage) : SMessage :=
  ⟨.ofCode (load b 0 4), fun i => b ⟨8 + i.val, by have := i.isLt; simp only [sizeofSMessage]; omega⟩⟩

/-- The bytes `write` or `send` puts on the stream for a struct. -/
def bytes (m : SMessage) : List UInt8 := List.ofFn m.image

/-- What `read` or `recv` into a struct leaves there when it returned `bs`: a short read keeps the bytes after it. -/
def readInto (m : SMessage) (bs : List UInt8) : SMessage := ofImage (copy m.image 0 bs)

@[simp] theorem ofImage_image (m : SMessage) : ofImage m.image = m := by
  obtain ⟨t, v⟩ := m
  have hcode : load (image ⟨t, v⟩) 0 4 = t.code := by
    have hbyte : ∀ i, i < 4 → byte (image ⟨t, v⟩) i = byte (store (fun _ : Fin 8 => 0) 0 4 t.code) i := by
      intro i hi
      unfold byte image
      rw [dif_pos (by simp only [sizeofSMessage]; omega), dif_pos (by omega : i < 8), dif_pos (by omega : i < 8)]
    have hload : load (image ⟨t, v⟩) 0 4 = load (store (fun _ : Fin 8 => 0) 0 4 t.code) 0 4 := by
      simp only [load]
      rw [hbyte 0 (by omega), hbyte 1 (by omega), hbyte 2 (by omega), hbyte 3 (by omega)]
    rw [hload, load_store _ _ _ _ (by omega)]
    exact Nat.mod_eq_of_lt t.code_lt
  unfold ofImage
  rw [hcode, EMessageType.ofCode_code]
  congr 1
  funext i
  simp [image]

/-- A read of a whole struct leaves exactly that struct. -/
theorem readInto_ofFn (m : SMessage) (b : Block sizeofSMessage) : readInto m (List.ofFn b) = ofImage b := by
  rw [readInto, copy_ofFn]

@[simp] theorem readInto_bytes (old m : SMessage) : readInto old m.bytes = m := by
  rw [bytes, readInto_ofFn, ofImage_image]

theorem readInto_nil (m : SMessage) : readInto m [] = m := by
  have hsame : copy m.image 0 [] = m.image := by
    funext i
    simp [copy]
  rw [readInto, hsame, ofImage_image]

theorem bytes_injective : Function.Injective bytes := fun m m' h => by
  rw [← readInto_bytes zero m, h, readInto_bytes]

end SMessage

end Lte
