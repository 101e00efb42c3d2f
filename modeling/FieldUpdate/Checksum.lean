import FieldUpdate.Bytes

namespace FieldUpdate.Checksum

/-- Shifts one bit out at the top; the divisor is `x^8 + x^2 + x + 1`. -/
def crc8Shift (register : UInt8) : UInt8 :=
  if register &&& 0x80 = 0 then register <<< 1 else (register <<< 1) ^^^ 0x07

def crc8Byte (register byte : UInt8) : UInt8 :=
  Nat.repeat crc8Shift 8 (register ^^^ byte)

def crc8 (data : Bytes) : UInt8 := data.foldl crc8Byte 0xff

/-- Shifts one bit out at the bottom; the divisor is `x^16 + x^15 + x^2 + 1`. -/
def crc16Shift (register : UInt16) : UInt16 :=
  if register &&& 1 = 0 then register >>> 1 else (register >>> 1) ^^^ 0xa001

def crc16Byte (register : UInt16) (byte : UInt8) : UInt16 :=
  Nat.repeat crc16Shift 8 (register ^^^ byte.toUInt16)

def crc16 (data : Bytes) : UInt16 := data.foldl crc16Byte 0xffff

theorem crc8_append (a b : Bytes) : crc8 (a ++ b) = b.foldl crc8Byte (crc8 a) :=
  List.foldl_append

theorem crc16_append (a b : Bytes) : crc16 (a ++ b) = b.foldl crc16Byte (crc16 a) :=
  List.foldl_append

end FieldUpdate.Checksum
