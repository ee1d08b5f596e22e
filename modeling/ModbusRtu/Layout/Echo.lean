import ModbusRtu.Layout.Field

/-! The layouts that a request and its reply share, since the reply repeats the request. -/

namespace ModbusRtu.Echo

open Item

def writeSingleCoil (bytes : Bytes) : Plan :=
  [.require 8,
    Field.address "Address" .coils 2 bytes,
    due 5 (.coilValue (bytes.word 4)),
    .trailer 7]

def writeSingleRegister (bytes : Bytes) : Plan :=
  [.require 8,
    Field.address "Address" .holdingRegisters 2 bytes,
    due 5 (.registerValue (bytes.word 4)),
    .trailer 7]

/-- The length of the data is a setting: nothing on the line tells it. -/
def diagnostics (dataLength : Nat) (bytes : Bytes) : Plan :=
  [.require (6 + dataLength), due 3 (.subfunction (bytes.word 2))] ++
  (if 0 < dataLength then
    [due (3 + dataLength) (.diagnosticData (bytes.slice 4 dataLength))]
  else []) ++
  [.trailer (5 + dataLength)]

def maskWriteRegister (bytes : Bytes) : Plan :=
  [.require 10,
    Field.address "Address" .holdingRegisters 2 bytes,
    Field.mask "AND" 4 bytes,
    Field.mask "OR" 6 bytes,
    .trailer 9]

end ModbusRtu.Echo
