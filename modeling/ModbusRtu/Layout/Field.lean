import ModbusRtu.Plan

/-! The fields that layouts are made of. A field is placed by the index of its first byte, and its item is
due at its last one. -/

namespace ModbusRtu.Field

open Item

def address (label : String) (space : AddressSpace) (index : Nat) (bytes : Bytes) : Item :=
  due (index + 1) (.address label space (bytes.word index))

def quantity (transfer : Transfer) (index : Nat) (bytes : Bytes) : Item :=
  due (index + 1) (.quantity transfer (bytes.word index))

def mask (label : String) (index : Nat) (bytes : Bytes) : Item :=
  due (index + 1) (.mask label (bytes.word index))

def commStatus (index : Nat) (bytes : Bytes) : Item := due (index + 1) (.commStatus (bytes.word index))

def counter (label : String) (index : Nat) (bytes : Bytes) : Item :=
  due (index + 1) (.counter label (bytes.word index))

/-- One item for each register, and one for a byte left over at the end. -/
def registers (first count : Nat) (bytes : Bytes) : Plan :=
  (List.range (count / 2)).map (fun i =>
    due (first + 2 * i + 1) (.register i (bytes.word (first + 2 * i)))) ++
  if count % 2 = 1 then
    [due (first + (count - 1)) (.unpairedByte (bytes.byte (first + (count - 1))))]
  else []

/-- One item for each byte of eight packed states. -/
def bits (unit : String) (first count : Nat) (bytes : Bytes) : Plan :=
  (List.range count).map fun i => due (first + i) (.bits unit i (bytes.byte (first + i)))

def events (first count : Nat) (bytes : Bytes) : Plan :=
  (List.range count).map fun i => due (first + i) (.event i (bytes.byte (first + i)))

def serverId (role : Role) (bytes : Bytes) : Item := due 0 (.serverId role (bytes.byte 0))

def functionNote (code : UInt8) : Except Fault Note :=
  match FunctionCode.ofByte code with
  | .ok function =>
    match function.name? with
    | some name => .ok (.function code name)
    | none => .error .namelessFunction
  | .error _ => .error .namelessFunction

def exceptionNote (code : UInt8) : Except Fault Note :=
  match (FunctionCode.ofException? code).bind FunctionCode.name? with
  | some name => .ok (.exceptionFunction code name)
  | none => .error .namelessException

end ModbusRtu.Field
