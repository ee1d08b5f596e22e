import ModbusRtu.Protocol.Limits

/-! The four tables of addressable data. By convention an address is also shown in its long form, a
one-based number that starts at a different base in each table. -/

namespace ModbusRtu

inductive AddressSpace
  | coils
  | discreteInputs
  | inputRegisters
  | holdingRegisters
deriving Repr, DecidableEq

namespace AddressSpace

def base : AddressSpace → Nat
  | coils => 1
  | discreteInputs => 10001
  | inputRegisters => 30001
  | holdingRegisters => 40001

def longForm (space : AddressSpace) (address : UInt16) : Nat := space.base + address.toNat

def unit : AddressSpace → String
  | coils => "Coils"
  | discreteInputs => "Inputs"
  | inputRegisters => "Registers"
  | holdingRegisters => "Registers"

end AddressSpace

/-- What a write of many values writes. -/
inductive WriteTarget
  | coils
  | registers
deriving Repr, DecidableEq

namespace WriteTarget

def space : WriteTarget → AddressSpace
  | coils => .coils
  | registers => .holdingRegisters

def maxQuantity : WriteTarget → UInt16
  | coils => Limits.maxWriteCoils
  | registers => Limits.maxWriteRegisters

def noun : WriteTarget → String
  | coils => "coils"
  | registers => "registers"

/-- Bytes that `quantity` values take: eight coils to a byte, two bytes to a register. -/
def byteCount (target : WriteTarget) (quantity : UInt16) : Nat :=
  match target with
  | coils => (quantity.toNat + 7) / 8
  | registers => 2 * quantity.toNat

end WriteTarget

end ModbusRtu
