import ModbusRtu.Numeral

/-! What can be wrong with bytes taken from the line, apart from what a frame's own fields say. -/

namespace ModbusRtu

open Numeral

inductive WireError
  | functionCode
  | length
  | checksum (expected actual : UInt16)
deriving Repr, DecidableEq

namespace WireError

def message : WireError → String
  | functionCode => "invalid function code"
  | length => "invalid length"
  | checksum expected actual =>
    "invalid crc (expected 0x" ++ lowerHex 4 expected.toNat ++ ", got 0x" ++ lowerHex 4 actual.toNat ++ ")"

end WireError

end ModbusRtu
