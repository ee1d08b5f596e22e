import ModbusRtu.Note

/-! The wording of notes. -/

namespace ModbusRtu

open Numeral

def ByteCountRule.objection (rule : ByteCountRule) (count : UInt8) : String :=
  match rule with
  | nonzero => "Byte count " ++ decimal count.toNat ++ " carries no data"
  | even => "Odd byte count: " ++ decimal count.toNat
  | implied expected =>
    "Byte count " ++ decimal count.toNat ++ " does not match quantity (expected " ++ decimal expected ++ ")"
  | eventLog => "Byte count " ++ decimal count.toNat ++ " is too small for an event log"

namespace Note

def serverIdText (role : Role) (id : UInt8) : String :=
  if id = Limits.broadcastId then
    match role with
    | .request => "Slave ID: 0 (broadcast)"
    | .response => "Slave ID 0 is a broadcast address and cannot reply"
  else if id ≤ Limits.maxServerId then
    "Slave ID: " ++ decimal id.toNat
  else
    "Slave ID " ++ decimal id.toNat ++ " is reserved"

def coilValueText (value : UInt16) : String :=
  if value = 0x0000 then "Coil value OFF"
  else if value = 0xFF00 then "Coil value ON"
  else "Invalid coil value " ++ hexWord value

def subfunctionText (code : UInt16) : String :=
  match Subfunction.ofWord? code with
  | some known => "Subfunction " ++ decimal code.toNat ++ ": " ++ known.name
  | none => "Unknown subfunction " ++ hexWord code

def commStatusText (value : UInt16) : String :=
  if value = 0x0000 then "Status: not busy"
  else if value = 0xFFFF then "Status: busy"
  else "Invalid status " ++ hexWord value

def runIndicatorText (value : UInt8) : String :=
  if value = 0x00 then "Run indicator: OFF"
  else if value = 0xFF then "Run indicator: ON"
  else "Invalid run indicator " ++ hexByte value

def byteCountText (count : UInt8) : String := "Byte count: " ++ decimal count.toNat

def quantityText (transfer : Transfer) (amount : UInt16) : String :=
  if (quantity transfer amount).accepted then
    transfer.verb ++ " " ++ decimal amount.toNat ++ " " ++ transfer.noun
  else
    "Quantity " ++ decimal amount.toNat ++ " is out of range (1..=" ++ decimal transfer.limit.toNat ++ ")"

def text : Note → String
  | serverId role id => serverIdText role id
  | function code name => "Function " ++ decimal code.toNat ++ ": " ++ name
  | exceptionFunction code name => "Function " ++ hexByte code ++ ": " ++ name ++ " exception"
  | address label space value =>
    label ++ " 0x" ++ shortHex value.toNat ++ " / " ++ decimal (space.longForm value)
  | quantity transfer amount => quantityText transfer amount
  | byteCount count => byteCountText count
  | ruledByteCount rule count => if rule.admits count then byteCountText count else rule.objection count
  | register index value =>
    "Register " ++ decimal index ++ ": " ++ hexWord value ++ " / " ++ decimal value.toNat
  | unpairedByte value => "Unpaired byte " ++ hexByte value
  | bits unit index value =>
    unit ++ " " ++ decimal (8 * index) ++ "-" ++ decimal (8 * index + 7) ++ ": " ++ binaryByte value
  | coilValue value => coilValueText value
  | registerValue value => "Register value " ++ hexWord value ++ " / " ++ decimal value.toNat
  | subfunction code => subfunctionText code
  | diagnosticData values => "Data: " ++ hexBytes values
  | mask label value => label ++ " mask " ++ hexWord value
  | exceptionStatus value => "Exception status: " ++ binaryByte value
  | commStatus value => commStatusText value
  | counter label value => label ++ ": " ++ decimal value.toNat
  | event index value => "Event " ++ decimal index ++ ": " ++ hexByte value
  | serverIdentity value => "Server ID: " ++ decimal value.toNat
  | deviceData values => "Device specific data: " ++ hexBytes values
  | runIndicator value => runIndicatorText value
  | exception reason => "Exception " ++ decimal reason.code.toNat ++ ": " ++ reason.description
  | checksumCorrect => "CRC correct"
  | checksumExpected expected =>
    "CRC should be " ++ hexByte (Word.lowByte expected) ++ " " ++ hexByte (Word.highByte expected)
  | unknownFunction code => "Unknown function: " ++ decimal code.toNat
  | oversized => "Modbus data frames are limited to 256 bytes"
  | tooShort => "Message too short or not finished"
  | tooLong => "Message too long"
  | frameWithError => "Frame contains error"
  | other _ words => words

end Note

end ModbusRtu
