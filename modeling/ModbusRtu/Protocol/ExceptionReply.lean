import ModbusRtu.Protocol.FunctionCode

/-! Exception replies: the function that failed, and the reason the server gives. -/

namespace ModbusRtu

inductive ExceptionCode
  | illegalFunction
  | illegalDataAddress
  | illegalDataValue
  | serverDeviceFailure
  | acknowledge
  | serverDeviceBusy
  | negativeAcknowledge
  | memoryParityError
  | gatewayPathUnavailable
  | gatewayTargetFailedToRespond
  | unknown (code : UInt8)
deriving Repr, DecidableEq

namespace ExceptionCode

def ofByte (b : UInt8) : ExceptionCode :=
  match b with
  | 0x01 => illegalFunction
  | 0x02 => illegalDataAddress
  | 0x03 => illegalDataValue
  | 0x04 => serverDeviceFailure
  | 0x05 => acknowledge
  | 0x06 => serverDeviceBusy
  | 0x07 => negativeAcknowledge
  | 0x08 => memoryParityError
  | 0x0A => gatewayPathUnavailable
  | 0x0B => gatewayTargetFailedToRespond
  | b => unknown b

def code : ExceptionCode → UInt8
  | illegalFunction => 0x01
  | illegalDataAddress => 0x02
  | illegalDataValue => 0x03
  | serverDeviceFailure => 0x04
  | acknowledge => 0x05
  | serverDeviceBusy => 0x06
  | negativeAcknowledge => 0x07
  | memoryParityError => 0x08
  | gatewayPathUnavailable => 0x0A
  | gatewayTargetFailedToRespond => 0x0B
  | unknown code => code

def description : ExceptionCode → String
  | illegalFunction => "Illegal function"
  | illegalDataAddress => "Illegal data address"
  | illegalDataValue => "Illegal data value"
  | serverDeviceFailure => "Slave device failure"
  | acknowledge => "Acknowledge"
  | serverDeviceBusy => "Slave device busy"
  | negativeAcknowledge => "Negative acknowledge"
  | memoryParityError => "Memory parity error"
  | gatewayPathUnavailable => "Gateway path unavailable"
  | gatewayTargetFailedToRespond => "Gateway target device failed to respond"
  | unknown _ => "Unknown exception code"

end ExceptionCode

structure ExceptionReply where
  function : FunctionCode
  reason : ExceptionCode
deriving Repr, DecidableEq

namespace ExceptionReply

def ofBytes (function reason : UInt8) : Except WireError ExceptionReply :=
  match FunctionCode.ofException? function with
  | some failed => .ok ⟨failed, .ofByte reason⟩
  | none => .error .functionCode

end ExceptionReply

end ModbusRtu
