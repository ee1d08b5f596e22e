import ModbusRtu.Protocol.WireError

/-! Function codes. A request carries its code in the low seven bits of the second byte; a reply repeats
it, with bit 7 set when it reports an exception. Codes that the protocol does not name are kept as they
are, and no exception is recognised for them. -/

namespace ModbusRtu

inductive FunctionCode
  | readCoils
  | readDiscreteInputs
  | readHoldingRegisters
  | readInputRegisters
  | writeSingleCoil
  | writeSingleRegister
  | readExceptionStatus
  | diagnostics
  | getCommEventCounter
  | getCommEventLog
  | writeMultipleCoils
  | writeMultipleRegisters
  | reportServerId
  | maskWriteRegister
  | readWriteMultipleRegisters
  | custom (code : UInt8)
deriving Repr, DecidableEq

namespace FunctionCode

def code : FunctionCode → UInt8
  | readCoils => 0x01
  | readDiscreteInputs => 0x02
  | readHoldingRegisters => 0x03
  | readInputRegisters => 0x04
  | writeSingleCoil => 0x05
  | writeSingleRegister => 0x06
  | readExceptionStatus => 0x07
  | diagnostics => 0x08
  | getCommEventCounter => 0x0B
  | getCommEventLog => 0x0C
  | writeMultipleCoils => 0x0F
  | writeMultipleRegisters => 0x10
  | reportServerId => 0x11
  | maskWriteRegister => 0x16
  | readWriteMultipleRegisters => 0x17
  | custom code => code

def name? : FunctionCode → Option String
  | readCoils => some "Read Coils"
  | readDiscreteInputs => some "Read Discrete Inputs"
  | readHoldingRegisters => some "Read Holding Registers"
  | readInputRegisters => some "Read Input Registers"
  | writeSingleCoil => some "Write Single Coil"
  | writeSingleRegister => some "Write Single Register"
  | readExceptionStatus => some "Read Exception Status"
  | diagnostics => some "Diagnostics"
  | getCommEventCounter => some "Get Comm Event Counter"
  | getCommEventLog => some "Get Comm Event Log"
  | writeMultipleCoils => some "Write Multiple Coils"
  | writeMultipleRegisters => some "Write Multiple Registers"
  | reportServerId => some "Report Server ID"
  | maskWriteRegister => some "Mask Write Register"
  | readWriteMultipleRegisters => some "Read/Write Multiple Registers"
  | custom _ => none

def ofCode (code : UInt8) : FunctionCode :=
  match code with
  | 0x01 => readCoils
  | 0x02 => readDiscreteInputs
  | 0x03 => readHoldingRegisters
  | 0x04 => readInputRegisters
  | 0x05 => writeSingleCoil
  | 0x06 => writeSingleRegister
  | 0x07 => readExceptionStatus
  | 0x08 => diagnostics
  | 0x0B => getCommEventCounter
  | 0x0C => getCommEventLog
  | 0x0F => writeMultipleCoils
  | 0x10 => writeMultipleRegisters
  | 0x11 => reportServerId
  | 0x16 => maskWriteRegister
  | 0x17 => readWriteMultipleRegisters
  | code => custom code

def hasExceptionBit (b : UInt8) : Bool := b &&& 0x80 ≠ 0

def ofByte (b : UInt8) : Except WireError FunctionCode :=
  if hasExceptionBit b then .error .functionCode else .ok (ofCode b)

/-- The named function whose exception `b` announces. -/
def ofException? (b : UInt8) : Option FunctionCode :=
  let function := ofCode (b &&& 0x7F)
  if hasExceptionBit b && function.name?.isSome then some function else none

end FunctionCode

end ModbusRtu
