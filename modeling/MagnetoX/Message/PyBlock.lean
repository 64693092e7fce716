import MagnetoX.Message.Block

/-!
Owns the blocks of `klippy/msgproto.py`: the checksum on unbounded integers, and `encode` and
`check_packet` of `MessageParser`.

`crc16_ccitt` returns its two bytes as a list, and `encode` appends that list as one item.
-/

namespace MagnetoX.Message

def pyCrc16Step (crc data : Nat) : Nat :=
  let data := data ^^^ (crc &&& 0xff)
  let data := data ^^^ (data &&& 0x0f) <<< 4
  ((data <<< 8) ||| (crc >>> 8)) ^^^ (data >>> 4) ^^^ (data <<< 3)

def pyCrc16Ccitt (buf : List Nat) : List Nat :=
  let crc := buf.foldl pyCrc16Step 0xffff
  [crc >>> 8, crc &&& 0xff]

/-- What a Python list of a block can hold. -/
inductive PyItem where
  | int (value : Nat)
  | list (values : List Nat)
deriving DecidableEq, Repr

/-- An operation on integers meets a list. -/
inductive PyTypeError where
  | unsupported
deriving DecidableEq, Repr

def PyItem.asInt : PyItem → Except PyTypeError Nat
  | .int value => .ok value
  | .list _ => .error .unsupported

/-- `MessageParser.encode`. A mask of four bits is a remainder, also of a negative number. -/
def encode (seq : Int) (cmd : List Nat) : List PyItem :=
  let msglen := MESSAGE_MIN + cmd.length
  let seq := (seq % 16).toNat ||| MESSAGE_DEST.toNat
  let out := msglen :: seq :: cmd
  out.map .int ++ [.list (pyCrc16Ccitt out)] ++ [.int MESSAGE_SYNC.toNat]

def checkPacket (s : List PyItem) : Except PyTypeError Int := do
  if s.length < MESSAGE_MIN then return 0
  let msglen ← (s.getD 0 (.int 0)).asInt
  if msglen < MESSAGE_MIN ∨ msglen > MESSAGE_MAX then return -1
  let msgseq ← (s.getD 1 (.int 0)).asInt
  if msgseq - msgseq % 16 ≠ MESSAGE_DEST.toNat then return -1
  -- Need more data
  if s.length < msglen then return 0
  if s.getD (msglen - 1) (.int 0) ≠ .int MESSAGE_SYNC.toNat then return -1
  let msgcrc := s.extract (msglen - MESSAGE_TRAILER_SIZE) (msglen - MESSAGE_TRAILER_SIZE + 2)
  let crc := pyCrc16Ccitt (← (s.take (msglen - MESSAGE_TRAILER_SIZE)).mapM PyItem.asInt)
  if crc.map .int ≠ msgcrc then return -1
  return msglen

/-- No list that `encode` returns is a list of bytes, and `check_packet` waits for more data
at each of them: the two bytes of the checksum are one item, so that one item is missing. -/
theorem encode_incomplete (seq : Int) (cmd : List Nat) (short : cmd.length ≤ 59) :
    (∀ bytes : List Nat, encode seq cmd ≠ bytes.map .int) ∧ checkPacket (encode seq cmd) = .ok 0 := by
  constructor
  · intro bytes flat
    obtain ⟨values, mem⟩ : ∃ values, PyItem.list values ∈ encode seq cmd :=
      ⟨_, List.mem_append_left _ (List.mem_append_right _ (.head _))⟩
    rw [flat] at mem
    simp at mem
  · have length : (encode seq cmd).length = cmd.length + 4 := by simp [encode]
    have dest : ((seq % 16).toNat ||| 16) - ((seq % 16).toNat ||| 16) % 16 = 16 := by
      have small : (seq % 16).toNat < 16 := by omega
      generalize (seq % 16).toNat = low at small
      revert low
      decide
    simp only [checkPacket, length]
    split
    · rfl
    · have size : MESSAGE_MIN + cmd.length ≤ MESSAGE_MAX := by
        simp only [MESSAGE_MIN, MESSAGE_MAX]
        omega
      have less : cmd.length + 4 < MESSAGE_MIN + cmd.length := by
        simp only [MESSAGE_MIN]
        omega
      simp [encode, PyItem.asInt, size, less, dest, MESSAGE_DEST, bind, Except.bind, pure, Except.pure]

theorem encode_incomplete_byte : checkPacket (encode 1 [7]) = .ok 0 := (encode_incomplete 1 [7] (by decide)).2

/-- A block of one byte announces six bytes, and is not accepted with that length. -/
theorem checkPacket_encode_byte : checkPacket (encode 1 [7]) ≠ .ok (MESSAGE_MIN + 1 : Nat) := by
  decide

end MagnetoX.Message
