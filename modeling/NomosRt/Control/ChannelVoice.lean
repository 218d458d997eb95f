/-
  NomosRt.Control.ChannelVoice

  `msg_cc`, `msg_pitch_bend` and `msg_chan_pressure`: the three cases of
  `dispatch_message` that send a MIDI channel message.

  Each narrows 64-bit integers of the payload to data bytes in its own way: the
  controller and pressure fields by the cast to `uint8_t` alone, the bend by a
  clamp to 0..16383.  What the payload stands for is stated by `ipc.hpp`; what the
  bytes stand for is stated by a receiver's decoder.
-/

import NomosRt.Control.Dispatch

namespace NomosRt.Control

open NomosRt.Lib

/-! ## The three cases of `dispatch_message` -/

section Handlers

variable {D : Type*}

/-- `get_u8`. -/
def getU8 (m : List (Edn D × Edn D)) (kw : String) (dflt : Byte) : Byte :=
  match Edn.findKw kw m with
  | some (.int n) => BitVec.ofInt 8 n
  | _ => dflt

/-- `msg_cc`. -/
def ccBytes (m : List (Edn D × Edn D)) : List Byte :=
  let ch := getU8 m "channel" 0 &&& 0x0F
  [0xB0 ||| ch, getU8 m "cc" 0, getU8 m "value" 0]

/-- `msg_pitch_bend`; the arithmetic is on `int64_t`. -/
def pitchBendBytes (m : List (Edn D × Edn D)) : List Byte :=
  let ch := (BitVec.ofInt 64 (getI m "channel" 0) &&& 0x0F).setWidth 8
  -- read as 0..16383 with the centre at 8192, where `ipc.hpp` has the centre at 0
  let raw := BitVec.ofInt 64 (max 0 (min 16383 (getI m "value" 8192)))
  [0xE0 ||| ch, (raw &&& 0x7F).setWidth 8, ((raw.sshiftRight 7) &&& 0x7F).setWidth 8]

/-- `msg_chan_pressure`. -/
def chanPressureBytes (m : List (Edn D × Edn D)) : List Byte :=
  let ch := getU8 m "channel" 0 &&& 0x0F
  [0xD0 ||| ch, getU8 m "value" 0]

/-- The three message types. -/
inductive VoiceType where
  | cc
  | pitchBend
  | chanPressure
  deriving DecidableEq, Repr

/-- `msg_cc`, `msg_pitch_bend`, `msg_chan_pressure`. -/
def VoiceType.code : VoiceType → Byte
  | .cc => 0x49
  | .pitchBend => 0x4A
  | .chanPressure => 0x4B

/-- The bytes sent for a payload map. -/
def voiceBytes (m : List (Edn D × Edn D)) : VoiceType → List Byte
  | .cc => ccBytes m
  | .pitchBend => pitchBendBytes m
  | .chanPressure => chanPressureBytes m

/-- What the case of `type` hands to `midi_io::send`; `midi` is
    `cfg_.midi != nullptr`. -/
def sendVoice (cfg : Config D) (midi : Bool) (type : VoiceType) (payload : List Byte) :
    Option (List Byte) :=
  if !midi || payload.isEmpty then none
  else
    match cfg.parse payload with
    | some (.map m) => some (voiceBytes m type)
    | _ => none

end Handlers

/-! ## What is documented -/

/-- A channel message as a receiver takes it. -/
inductive VoiceMessage where
  | cc (channel : Nat) (num value : Int)
  | bend (channel : Nat) (value : Int)
  | pressure (channel : Nat) (value : Int)
  deriving DecidableEq, Repr

/-- A receiver: one whole message, its data bytes below 0x80, the bend least
    significant byte first with 8192 at the centre. -/
def decodeVoice : List Byte → Option VoiceMessage
  | [status, a, b] =>
      -- a byte from 0x80 on would begin another message
      if a.toNat < 0x80 ∧ b.toNat < 0x80 then
        if status.toNat / 16 = 0xB then some (.cc (status.toNat % 16) a.toNat b.toNat)
        else if status.toNat / 16 = 0xE then
          some (.bend (status.toNat % 16) (a.toNat + 128 * b.toNat - 8192))
        else none
      else none
  | [status, a] =>
      if a.toNat < 0x80 ∧ status.toNat / 16 = 0xD then
        some (.pressure (status.toNat % 16) a.toNat)
      else none
  | _ => none

section Documented

variable {D : Type*}

/-- An integer field, if the payload has it; a missing or mistyped one stands for 0. -/
def intField (m : List (Edn D × Edn D)) (kw : String) : Option Int :=
  match Edn.findKw kw m with
  | some (.int n) => some n
  | _ => none

/-- The documented value of a field with range `lo..hi`. -/
def documentedValue (lo hi : Int) (n : Option Int) : Int := max lo (min hi (n.getD 0))

/-- The message that `ipc.hpp` says the payload is. -/
def documented (m : List (Edn D × Edn D)) (type : VoiceType) : VoiceMessage :=
  let channel := (((intField m "channel").getD 0) % 16).toNat
  match type with
  | .cc => .cc channel (documentedValue 0 127 (intField m "cc"))
      (documentedValue 0 127 (intField m "value"))
  | .pitchBend => .bend channel (documentedValue (-8192) 8191 (intField m "value"))
  | .chanPressure => .pressure channel (documentedValue 0 127 (intField m "value"))

/-- The byte cast of `n` is the clamp of `n` to 0..127: `n` is in range, or the cast
    of an integer out of range happens to land on the end it lies beyond. -/
def FitsDataByte (n : Int) : Prop :=
  (0 ≤ n ∧ n ≤ 127) ∨ (n < 0 ∧ n % 256 = 0) ∨ (127 < n ∧ n % 256 = 127)

/-- The two readings of a bend meet at their ends only. -/
def FitsBend (n : Int) : Prop := n ≤ -8192 ∨ 16383 ≤ n

/-- The fields of a payload that its message type casts or clamps. -/
def VoiceFits (m : List (Edn D × Edn D)) : VoiceType → Prop
  | .cc => (∀ n ∈ intField m "cc", FitsDataByte n) ∧ ∀ n ∈ intField m "value", FitsDataByte n
  | .pitchBend => ∀ n ∈ intField m "value", FitsBend n
  | .chanPressure => ∀ n ∈ intField m "value", FitsDataByte n

end Documented

/-! ## Bytes and fields -/

section Fields

variable {D : Type*}

theorem getI_eq (m : List (Edn D × Edn D)) (kw : String) (dflt : Int) :
    getI m kw dflt = (intField m kw).getD dflt := by
  unfold getI intField
  cases Edn.findKw kw m with
  | none => rfl
  | some v => cases v <;> rfl

theorem getU8_eq (m : List (Edn D × Edn D)) (kw : String) :
    getU8 m kw 0 = BitVec.ofInt 8 ((intField m kw).getD 0) := by
  unfold getU8 intField
  cases Edn.findKw kw m with
  | none => rfl
  | some v => cases v <;> rfl

theorem toNat_ofInt_byte (n : Int) : ((BitVec.ofInt 8 n).toNat : Int) = n % 256 := by
  rw [BitVec.toNat_ofInt]
  omega

/-- A status byte holds its message nibble and the channel modulo 16. -/
theorem status_byte (b : Byte) :
    (0xB0 ||| (b &&& 0x0F) : Byte).toNat = 0xB0 + b.toNat % 16 ∧
      (0xE0 ||| (b &&& 0x0F) : Byte).toNat = 0xE0 + b.toNat % 16 ∧
      (0xD0 ||| (b &&& 0x0F) : Byte).toNat = 0xD0 + b.toNat % 16 := by
  revert b
  apply byte_forall
  decide +kernel

/-- The low nibble of a 64-bit channel is that of its byte. -/
theorem channel_byte (n : Int) :
    (BitVec.ofInt 64 n &&& 0x0F).setWidth 8 = BitVec.ofInt 8 n &&& 0x0F := by
  apply BitVec.eq_of_toNat_eq
  have h64 : (BitVec.ofInt 64 n &&& 0x0F).toNat = (BitVec.ofInt 64 n).toNat % 16 := by
    rw [BitVec.toNat_and]
    exact Nat.and_two_pow_sub_one_eq_mod _ 4
  have h8 : (BitVec.ofInt 8 n &&& 0x0F).toNat = (BitVec.ofInt 8 n).toNat % 16 := by
    rw [BitVec.toNat_and]
    exact Nat.and_two_pow_sub_one_eq_mod _ 4
  rw [BitVec.toNat_setWidth, h64, h8, BitVec.toNat_ofInt, BitVec.toNat_ofInt]
  omega

/-- The two data bytes of a bend word. -/
theorem bend_bytes {w : Int} (h0 : 0 ≤ w) (hw : w ≤ 16383) :
    ((BitVec.ofInt 64 w &&& 0x7F).setWidth 8).toNat = w.toNat % 128 ∧
      (((BitVec.ofInt 64 w).sshiftRight 7 &&& 0x7F).setWidth 8).toNat = w.toNat / 128 := by
  have hnat : (BitVec.ofInt 64 w).toNat = w.toNat := by
    rw [BitVec.toNat_ofInt]
    omega
  have hmsb : (BitVec.ofInt 64 w).msb = false := by
    rw [BitVec.msb_eq_false_iff_two_mul_lt, hnat]
    omega
  have hmask : ∀ v : BitVec 64, ((v &&& 0x7F).setWidth 8).toNat = v.toNat % 128 := by
    intro v
    have hand : (v &&& 0x7F).toNat = v.toNat % 128 := by
      rw [BitVec.toNat_and]
      exact Nat.and_two_pow_sub_one_eq_mod _ 7
    rw [BitVec.toNat_setWidth, hand]
    omega
  constructor
  · rw [hmask, hnat]
  · rw [hmask, BitVec.sshiftRight_eq_of_msb_false hmsb, BitVec.toNat_ushiftRight, hnat,
      Nat.shiftRight_eq_div_pow]
    omega

/-- A cast byte is a data byte with the documented value exactly when the field fits. -/
theorem dataByte_iff (n : Int) :
    ((BitVec.ofInt 8 n).toNat < 0x80 ∧
      ((BitVec.ofInt 8 n).toNat : Int) = max 0 (min 127 n)) ↔ FitsDataByte n := by
  have hbyte := toNat_ofInt_byte n
  -- the byte is n modulo 256, and linear arithmetic compares it with the clamp
  unfold FitsDataByte
  omega

/-- The same for a field that may be missing: then the byte is 0. -/
theorem dataField_iff (x : Option Int) :
    ((BitVec.ofInt 8 (x.getD 0)).toNat < 0x80 ∧
      ((BitVec.ofInt 8 (x.getD 0)).toNat : Int) = documentedValue 0 127 x) ↔
      ∀ n ∈ x, FitsDataByte n := by
  cases x with
  | none =>
      rw [documentedValue, Option.getD_none, dataByte_iff]
      simp [FitsDataByte]
  | some n =>
      rw [documentedValue, Option.getD_some, dataByte_iff]
      simp

end Fields

/-! ## What a receiver takes -/

section Received

variable {status a b : Byte} {ch : Nat}

theorem decodeVoice_cc (hs : status.toNat = 0xB0 + ch) (hch : ch < 16) (x y : Int) :
    decodeVoice [status, a, b] = some (.cc ch x y) ↔
      (a.toNat < 0x80 ∧ (a.toNat : Int) = x) ∧ b.toNat < 0x80 ∧ (b.toNat : Int) = y := by
  have hnibble : status.toNat / 16 = 0xB := by omega
  have hchannel : status.toNat % 16 = ch := by omega
  rw [decodeVoice, if_pos hnibble, hchannel]
  split
  · simp only [Option.some.injEq, VoiceMessage.cc.injEq]
    tauto
  · simp only [reduceCtorEq, false_iff]
    tauto

theorem decodeVoice_bend (hs : status.toNat = 0xE0 + ch) (hch : ch < 16) (x : Int) :
    decodeVoice [status, a, b] = some (.bend ch x) ↔
      (a.toNat < 0x80 ∧ b.toNat < 0x80) ∧ (a.toNat + 128 * b.toNat - 8192 : Int) = x := by
  have hnotCc : ¬ status.toNat / 16 = 0xB := by omega
  have hnibble : status.toNat / 16 = 0xE := by omega
  have hchannel : status.toNat % 16 = ch := by omega
  rw [decodeVoice, if_neg hnotCc, if_pos hnibble, hchannel]
  split
  · simp only [Option.some.injEq, VoiceMessage.bend.injEq]
    tauto
  · simp only [reduceCtorEq, false_iff]
    tauto

theorem decodeVoice_pressure (hs : status.toNat = 0xD0 + ch) (hch : ch < 16) (x : Int) :
    decodeVoice [status, a] = some (.pressure ch x) ↔
      a.toNat < 0x80 ∧ (a.toNat : Int) = x := by
  have hnibble : status.toNat / 16 = 0xD := by omega
  have hchannel : status.toNat % 16 = ch := by omega
  rw [decodeVoice, hchannel]
  split
  · simp only [Option.some.injEq, VoiceMessage.pressure.injEq]
    tauto
  · simp only [reduceCtorEq, false_iff]
    tauto

end Received

/-! ## The messages sent -/

section Sent

variable {D : Type*}

/-- The channel of a status byte, modulo 16 either way. -/
theorem status_channel (n : Int) : (BitVec.ofInt 8 n).toNat % 16 = (n % 16).toNat := by
  have hbyte := toNat_ofInt_byte n
  omega

theorem decode_ccBytes (m : List (Edn D × Edn D)) :
    decodeVoice (ccBytes m) = some (documented m .cc) ↔ VoiceFits m .cc := by
  have hstatus := (status_byte (BitVec.ofInt 8 ((intField m "channel").getD 0))).1
  rw [status_channel] at hstatus
  rw [ccBytes, getU8_eq, getU8_eq, getU8_eq, documented, VoiceFits,
    decodeVoice_cc hstatus (by omega), dataField_iff, dataField_iff]

/-- A bend word reads back as its two bytes. -/
theorem bend_word {w : Int} (h0 : 0 ≤ w) (hw : w ≤ 16383) (x : Int) :
    (w.toNat % 128 < 0x80 ∧ w.toNat / 128 < 0x80) ∧
        ((w.toNat % 128 : Nat) + 128 * (w.toNat / 128 : Nat) - 8192 : Int) = x ↔
      w - 8192 = x := by
  omega

theorem decode_pitchBendBytes (m : List (Edn D × Edn D)) :
    decodeVoice (pitchBendBytes m) = some (documented m .pitchBend) ↔ VoiceFits m .pitchBend := by
  have hstatus := (status_byte (BitVec.ofInt 8 ((intField m "channel").getD 0))).2.1
  rw [status_channel] at hstatus
  rw [pitchBendBytes, channel_byte, getI_eq, getI_eq, documented, VoiceFits,
    decodeVoice_bend hstatus (by omega)]
  have h0 : 0 ≤ max 0 (min 16383 ((intField m "value").getD 8192)) := by omega
  have hw : max 0 (min 16383 ((intField m "value").getD 8192)) ≤ 16383 := by omega
  obtain ⟨hlo, hhi⟩ := bend_bytes h0 hw
  rw [hlo, hhi, bend_word h0 hw, documentedValue]
  -- without a value both are at the centre; with one, the clamps agree at their ends
  cases intField m "value" with
  | none => simp
  | some n =>
      simp only [Option.getD_some, Option.mem_some_iff, forall_eq', FitsBend]
      omega

theorem decode_chanPressureBytes (m : List (Edn D × Edn D)) :
    decodeVoice (chanPressureBytes m) = some (documented m .chanPressure) ↔
      VoiceFits m .chanPressure := by
  have hstatus := (status_byte (BitVec.ofInt 8 ((intField m "channel").getD 0))).2.2
  rw [status_channel] at hstatus
  rw [chanPressureBytes, getU8_eq, getU8_eq, documented, VoiceFits,
    decodeVoice_pressure hstatus (by omega), dataField_iff]

/-- What is sent for a map payload is the message `ipc.hpp` describes exactly when the
    fields that the message type casts or clamps fit. -/
theorem voice_documented_iff (cfg : Config D) (type : VoiceType) (payload : List Byte)
    (m : List (Edn D × Edn D)) (hne : payload ≠ []) (hparse : cfg.parse payload = some (.map m)) :
    (∃ bytes, sendVoice cfg true type payload = some bytes ∧
      decodeVoice bytes = some (documented m type)) ↔ VoiceFits m type := by
  have hsent : sendVoice cfg true type payload = some (voiceBytes m type) := by
    have hempty : payload.isEmpty = false := by
      cases payload with
      | nil => exact absurd rfl hne
      | cons b rest => rfl
    rw [sendVoice, hempty, hparse]
    rfl
  rw [hsent]
  simp only [Option.some.injEq, exists_eq_left']
  cases type with
  | cc => exact decode_ccBytes m
  | pitchBend => exact decode_pitchBendBytes m
  | chanPressure => exact decode_chanPressureBytes m

end Sent

/-! ## A controller value out of range -/

/-- A server whose parser knows one payload. -/
def onePayload (m : List (Edn Nat × Edn Nat)) : Config Nat :=
  ⟨false, fun payload => if payload = [0x7B] then some (.map m) else none, fun _ => none⟩

/-- `{:channel 17 :cc 7 :value 100}`. -/
def volumeFields : List (Edn Nat × Edn Nat) :=
  [(.keyword "channel", .int 17), (.keyword "cc", .int 7), (.keyword "value", .int 100)]

/-- In range: controller 7 at 100 on channel 1. -/
theorem voice_documented_volume :
    ∃ bytes, sendVoice (onePayload volumeFields) true .cc [0x7B] = some bytes ∧
      decodeVoice bytes = some (.cc 1 7 100) :=
  (voice_documented_iff (onePayload volumeFields) .cc [0x7B] volumeFields (by decide) rfl).mpr
    ⟨by simp [intField, Edn.findKw, volumeFields, FitsDataByte],
      by simp [intField, Edn.findKw, volumeFields, FitsDataByte]⟩

/-- `{:cc 7 :value 200}`. -/
def loudFields : List (Edn Nat × Edn Nat) := [(.keyword "cc", .int 7), (.keyword "value", .int 200)]

/-- Out of range: the second data byte is 0xC8, which a receiver takes for a status
    byte, where the documented message has 127. -/
theorem cc_value_unclamped :
    sendVoice (onePayload loudFields) true .cc [0x7B] = some [0xB0, 7, 0xC8] ∧
      documented loudFields .cc = .cc 0 7 127 ∧
      ¬ ∃ bytes, sendVoice (onePayload loudFields) true .cc [0x7B] = some bytes ∧
        decodeVoice bytes = some (documented loudFields .cc) := by
  have hsent : sendVoice (onePayload loudFields) true .cc [0x7B] = some [0xB0, 7, 0xC8] := rfl
  refine ⟨hsent, rfl, ?_⟩
  rintro ⟨bytes, hbytes, hdecode⟩
  rw [hsent, Option.some.injEq] at hbytes
  rw [← hbytes] at hdecode
  -- the receiver rejects 0xC8 as a data byte
  have hnone : decodeVoice [0xB0, 7, 0xC8] = none := by decide
  rw [hnone] at hdecode
  cases hdecode

end NomosRt.Control
