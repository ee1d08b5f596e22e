import ModbusRtu.Layout.Echo

/-! The layouts of requests: what follows the function code, up to the check sum. -/

namespace ModbusRtu

inductive RequestLayout
  | readBits (space : AddressSpace)
  | readRegisters (space : AddressSpace)
  | writeSingleCoil
  | writeSingleRegister
  | noData
  | diagnostics
  | writeMultiple (target : WriteTarget)
  | maskWriteRegister
  | readWriteMultipleRegisters
deriving Repr, DecidableEq

namespace RequestLayout

def ofCode? (code : UInt8) : Option RequestLayout :=
  match code with
  | 0x01 => some (readBits .coils)
  | 0x02 => some (readBits .discreteInputs)
  | 0x03 => some (readRegisters .holdingRegisters)
  | 0x04 => some (readRegisters .inputRegisters)
  | 0x05 => some writeSingleCoil
  | 0x06 => some writeSingleRegister
  | 0x07 => some noData
  | 0x08 => some diagnostics
  | 0x0B => some noData
  | 0x0C => some noData
  | 0x0F => some (writeMultiple .coils)
  | 0x10 => some (writeMultiple .registers)
  | 0x11 => some noData
  | 0x16 => some maskWriteRegister
  | 0x17 => some readWriteMultipleRegisters
  | _ => none

def functionNote (_ : RequestLayout) (code : UInt8) : Except Fault Note := Field.functionNote code

def readPlan (space : AddressSpace) (limit : UInt16) (bytes : Bytes) : Plan :=
  [.require 8,
    Field.address "Start at address" space 2 bytes,
    Field.quantity ⟨limit, "Read", "units of data"⟩ 4 bytes,
    .trailer 7]

def writePayload (target : WriteTarget) (first count : Nat) (bytes : Bytes) : Plan :=
  match target with
  | .coils => Field.bits AddressSpace.coils.unit first count bytes
  | .registers => Field.registers first count bytes

def writePlan (target : WriteTarget) (bytes : Bytes) : Plan :=
  let count := bytes.byte 6
  [.require 9,
    Field.address "Start at address" target.space 2 bytes,
    Field.quantity ⟨target.maxQuantity, "Write", target.noun⟩ 4 bytes,
    .await 6,
    .require (9 + count.toNat),
    .due 6 (.ruledByteCount (.implied (target.byteCount (bytes.word 4))) count)] ++
  writePayload target 7 count.toNat bytes ++
  [.trailer (8 + count.toNat)]

def exchangePlan (bytes : Bytes) : Plan :=
  let count := bytes.byte 10
  [.require 13,
    Field.address "Read from address" .holdingRegisters 2 bytes,
    Field.quantity ⟨Limits.maxReadRegisters, "Read", "registers"⟩ 4 bytes,
    Field.address "Write to address" .holdingRegisters 6 bytes,
    Field.quantity ⟨Limits.maxExchangeRegisters, "Write", "registers"⟩ 8 bytes,
    .await 10,
    .require (13 + count.toNat),
    .due 10 (.ruledByteCount (.implied (WriteTarget.registers.byteCount (bytes.word 8))) count)] ++
  Field.registers 11 count.toNat bytes ++
  [.trailer (12 + count.toNat)]

def plan (diagnosticsLength : Nat) (layout : RequestLayout) (bytes : Bytes) : Plan :=
  match layout with
  | readBits space => readPlan space Limits.maxReadBits bytes
  | readRegisters space => readPlan space Limits.maxReadRegisters bytes
  | writeSingleCoil => Echo.writeSingleCoil bytes
  | writeSingleRegister => Echo.writeSingleRegister bytes
  | noData => [.trailer 3]
  | diagnostics => Echo.diagnostics diagnosticsLength bytes
  | writeMultiple target => writePlan target bytes
  | maskWriteRegister => Echo.maskWriteRegister bytes
  | readWriteMultipleRegisters => exchangePlan bytes

end RequestLayout

end ModbusRtu
