import ModbusRtu.Layout.Echo

/-! The layouts of replies: what follows the function code, up to the check sum. A reply that announces an
exception of a named function has a layout of its own. -/

namespace ModbusRtu

inductive ResponseLayout
  | readBits (space : AddressSpace)
  | readRegisters
  | writeSingleCoil
  | writeSingleRegister
  | readExceptionStatus
  | diagnostics
  | commEventCounter
  | commEventLog
  | writeMultiple (target : WriteTarget)
  | reportServerId
  | maskWriteRegister
  | exception
deriving Repr, DecidableEq

namespace ResponseLayout

def ofCode? (code : UInt8) : Option ResponseLayout :=
  match code with
  | 0x01 => some (readBits .coils)
  | 0x02 => some (readBits .discreteInputs)
  | 0x03 => some readRegisters
  | 0x04 => some readRegisters
  | 0x05 => some writeSingleCoil
  | 0x06 => some writeSingleRegister
  | 0x07 => some readExceptionStatus
  | 0x08 => some diagnostics
  | 0x0B => some commEventCounter
  | 0x0C => some commEventLog
  | 0x0F => some (writeMultiple .coils)
  | 0x10 => some (writeMultiple .registers)
  | 0x11 => some reportServerId
  | 0x16 => some maskWriteRegister
  | 0x17 => some readRegisters
  | code => if (FunctionCode.ofException? code).isSome then some exception else none

def functionNote (layout : ResponseLayout) (code : UInt8) : Except Fault Note :=
  match layout with
  | exception => Field.exceptionNote code
  | _ => Field.functionNote code

def readBitsPlan (space : AddressSpace) (bytes : Bytes) : Plan :=
  let count := bytes.byte 2
  [Item.require 5, .await 2, .require (5 + count.toNat), .due 2 (.ruledByteCount .nonzero count)] ++
  Field.bits space.unit 3 count.toNat bytes ++
  [Item.trailer (4 + count.toNat)]

def readRegistersPlan (bytes : Bytes) : Plan :=
  let count := bytes.byte 2
  [Item.require 5, .await 2, .require (5 + count.toNat), .due 2 (.ruledByteCount .even count)] ++
  Field.registers 3 count.toNat bytes ++
  [Item.trailer (4 + count.toNat)]

def readExceptionStatusPlan (bytes : Bytes) : Plan :=
  [.require 5, .due 2 (.exceptionStatus (bytes.byte 2)), .trailer 4]

def commEventCounterPlan (bytes : Bytes) : Plan :=
  [.require 8, Field.commStatus 2 bytes, Field.counter "Event count" 4 bytes, .trailer 7]

/-- The status and the two counters take six bytes; a log that claims fewer is not read any further. -/
def commEventLogPlan (bytes : Bytes) : Plan :=
  let count := bytes.byte 2
  [Item.require 5, .await 2, .require (5 + count.toNat), .due 2 (.ruledByteCount .eventLog count)] ++
  (if ByteCountRule.eventLog.admits count then
    [Field.commStatus 3 bytes,
      Field.counter "Event count" 5 bytes,
      Field.counter "Message count" 7 bytes] ++
    Field.events 9 (count.toNat - 6) bytes
  else []) ++
  [Item.trailer (4 + count.toNat)]

def writeMultiplePlan (target : WriteTarget) (bytes : Bytes) : Plan :=
  [.require 8,
    Field.address "Start at address" target.space 2 bytes,
    Field.quantity ⟨target.maxQuantity, "Wrote", target.noun⟩ 4 bytes,
    .trailer 7]

def reportServerIdPlan (bytes : Bytes) : Plan :=
  let count := bytes.byte 2
  [Item.require 7, .await 2, .require (7 + count.toNat),
    .due 2 (.byteCount count),
    .due 3 (.serverIdentity (bytes.byte 3))] ++
  (if count ≠ 0 then
    [Item.due (3 + count.toNat) (.deviceData (bytes.slice 4 count.toNat))]
  else []) ++
  [Item.due (4 + count.toNat) (.runIndicator (bytes.byte (4 + count.toNat))),
    .trailer (6 + count.toNat)]

def exceptionPlan (bytes : Bytes) : Plan :=
  [Item.require 5, .await 2] ++
  match ExceptionReply.ofBytes (bytes.byte 1) (bytes.byte 2) with
  | .ok reply => [.due 2 (.exception reply.reason), .trailer 4]
  | .error _ => [.broken .regularFunction]

def plan (diagnosticsLength : Nat) (layout : ResponseLayout) (bytes : Bytes) : Plan :=
  match layout with
  | readBits space => readBitsPlan space bytes
  | readRegisters => readRegistersPlan bytes
  | writeSingleCoil => Echo.writeSingleCoil bytes
  | writeSingleRegister => Echo.writeSingleRegister bytes
  | readExceptionStatus => readExceptionStatusPlan bytes
  | diagnostics => Echo.diagnostics diagnosticsLength bytes
  | commEventCounter => commEventCounterPlan bytes
  | commEventLog => commEventLogPlan bytes
  | writeMultiple target => writeMultiplePlan target bytes
  | reportServerId => reportServerIdPlan bytes
  | maskWriteRegister => Echo.maskWriteRegister bytes
  | exception => exceptionPlan bytes

end ResponseLayout

end ModbusRtu
