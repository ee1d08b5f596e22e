/-! The diagnostics subfunctions that the protocol names. -/

namespace ModbusRtu

inductive Subfunction
  | returnQueryData
  | restartCommunicationsOption
  | returnDiagnosticRegister
  | changeAsciiInputDelimiter
  | forceListenOnlyMode
  | clearCountersAndDiagnosticRegister
  | returnBusMessageCount
  | returnBusCommunicationErrorCount
  | returnBusExceptionErrorCount
  | returnServerMessageCount
  | returnServerNoResponseCount
  | returnServerNakCount
  | returnServerBusyCount
  | returnBusCharacterOverrunCount
  | clearOverrunCounterAndFlag
deriving Repr, DecidableEq

namespace Subfunction

def ofWord? (w : UInt16) : Option Subfunction :=
  match w with
  | 0x00 => some returnQueryData
  | 0x01 => some restartCommunicationsOption
  | 0x02 => some returnDiagnosticRegister
  | 0x03 => some changeAsciiInputDelimiter
  | 0x04 => some forceListenOnlyMode
  | 0x0A => some clearCountersAndDiagnosticRegister
  | 0x0B => some returnBusMessageCount
  | 0x0C => some returnBusCommunicationErrorCount
  | 0x0D => some returnBusExceptionErrorCount
  | 0x0E => some returnServerMessageCount
  | 0x0F => some returnServerNoResponseCount
  | 0x10 => some returnServerNakCount
  | 0x11 => some returnServerBusyCount
  | 0x12 => some returnBusCharacterOverrunCount
  | 0x14 => some clearOverrunCounterAndFlag
  | _ => none

def code : Subfunction → UInt16
  | returnQueryData => 0x00
  | restartCommunicationsOption => 0x01
  | returnDiagnosticRegister => 0x02
  | changeAsciiInputDelimiter => 0x03
  | forceListenOnlyMode => 0x04
  | clearCountersAndDiagnosticRegister => 0x0A
  | returnBusMessageCount => 0x0B
  | returnBusCommunicationErrorCount => 0x0C
  | returnBusExceptionErrorCount => 0x0D
  | returnServerMessageCount => 0x0E
  | returnServerNoResponseCount => 0x0F
  | returnServerNakCount => 0x10
  | returnServerBusyCount => 0x11
  | returnBusCharacterOverrunCount => 0x12
  | clearOverrunCounterAndFlag => 0x14

def name : Subfunction → String
  | returnQueryData => "Return Query Data"
  | restartCommunicationsOption => "Restart Communications Option"
  | returnDiagnosticRegister => "Return Diagnostic Register"
  | changeAsciiInputDelimiter => "Change ASCII Input Delimiter"
  | forceListenOnlyMode => "Force Listen Only Mode"
  | clearCountersAndDiagnosticRegister => "Clear Counters and Diagnostic Register"
  | returnBusMessageCount => "Return Bus Message Count"
  | returnBusCommunicationErrorCount => "Return Bus Communication Error Count"
  | returnBusExceptionErrorCount => "Return Bus Exception Error Count"
  | returnServerMessageCount => "Return Slave Message Count"
  | returnServerNoResponseCount => "Return Slave No Response Count"
  | returnServerNakCount => "Return Slave NAK Count"
  | returnServerBusyCount => "Return Slave Busy Count"
  | returnBusCharacterOverrunCount => "Return Bus Character Overrun Count"
  | clearOverrunCounterAndFlag => "Clear Overrun Counter and Flag"

theorem ofWord?_code (s : Subfunction) : ofWord? s.code = some s := by
  cases s <;> rfl

end Subfunction

end ModbusRtu
