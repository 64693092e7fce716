import MagnetoX.Message.Vlq

/-!
Owns the frame around a message block: the constants shared by `src/command.h`,
`klippy/chelper/msgblock.h` and `klippy/msgproto.py`, the checksum, and the
header and trailer that both ends write.

Does not own what the content of a block means.
-/

namespace MagnetoX.Message

def MESSAGE_MIN : Nat := 5
def MESSAGE_MAX : Nat := 64
def MESSAGE_HEADER_SIZE : Nat := 2
def MESSAGE_TRAILER_SIZE : Nat := 3
def MESSAGE_PAYLOAD_MAX : Nat := MESSAGE_MAX - MESSAGE_MIN
def MESSAGE_SEQ_MASK : UInt8 := 0x0f
def MESSAGE_DEST : UInt8 := 0x10
def MESSAGE_SYNC : UInt8 := 0x7e

def crc16Step (crc : UInt16) (byte : UInt8) : UInt16 :=
  let data := byte ^^^ (crc &&& 0xff).toUInt8
  let data := data ^^^ data <<< 4
  ((data.toUInt16 <<< 8) ||| (crc >>> 8)) ^^^ (data >>> 4).toUInt16 ^^^ (data.toUInt16 <<< 3)

def crc16Ccitt (buf : Bytes) : UInt16 := buf.foldl crc16Step 0xffff

/-- The bytes that the checksum covers. -/
def blockHead (sequence : UInt8) (content : Bytes) : Bytes :=
  UInt8.ofNat (content.length + MESSAGE_MIN) :: sequence :: content

/-- The checksum and the sync byte. -/
def blockTrailer (sequence : UInt8) (content : Bytes) : Bytes :=
  let crc := crc16Ccitt (blockHead sequence content)
  [(crc >>> 8).toUInt8, crc.toUInt8, MESSAGE_SYNC]

/-- `command_add_frame`, and the last lines of `build_and_send_command`: header
and trailer around the content of a block. -/
def addFrame (sequence : UInt8) (content : Bytes) : Bytes :=
  blockHead sequence content ++ blockTrailer sequence content

theorem addFrame_length (sequence : UInt8) (content : Bytes) :
    (addFrame sequence content).length = content.length + MESSAGE_MIN := by
  simp [addFrame, blockHead, blockTrailer, MESSAGE_MIN]

theorem frame_le_max {content : Bytes} (short : content.length ≤ MESSAGE_PAYLOAD_MAX) :
    content.length + MESSAGE_MIN ≤ MESSAGE_MAX := by
  simp only [MESSAGE_PAYLOAD_MAX, MESSAGE_MAX, MESSAGE_MIN] at short ⊢
  omega

theorem standsAt_addFrame (sequence : UInt8) (content : Bytes) :
    StandsAt (addFrame sequence content) MESSAGE_HEADER_SIZE content :=
  ⟨blockTrailer sequence content, rfl⟩

end MagnetoX.Message
