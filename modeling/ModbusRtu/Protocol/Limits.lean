/-! The numbers that the protocol fixes: frame sizes, transfer quantities and server addresses. -/

namespace ModbusRtu.Limits

/-- Server id, function and two check bytes. -/
def minFrameLength : Nat := 4

def maxFrameLength : Nat := 256

def maxReadBits : UInt16 := 2000

def maxReadRegisters : UInt16 := 125

def maxWriteCoils : UInt16 := 1968

def maxWriteRegisters : UInt16 := 123

/-- Registers written by one combined read and write. -/
def maxExchangeRegisters : UInt16 := 121

def maxServerId : UInt8 := 247

def broadcastId : UInt8 := 0

end ModbusRtu.Limits
