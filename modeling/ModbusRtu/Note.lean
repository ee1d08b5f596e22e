import ModbusRtu.Span
import ModbusRtu.Bytes
import ModbusRtu.Protocol.Address
import ModbusRtu.Protocol.ExceptionReply
import ModbusRtu.Protocol.Subfunction

/-! What is said of a span of bytes. A note holds the value that the bytes carry, so that it settles by
itself whether the value keeps the rule of its field (`accepted`). A note that does not is an error
whatever its field; the others fall into the category of their field. -/

namespace ModbusRtu

/-- A rule on byte counts other than that any count will do. -/
inductive ByteCountRule
  | nonzero
  | even
  /-- The count has to be what the quantity before it implies. -/
  | implied (expected : Nat)
  /-- Status, event count and message count come before the events. -/
  | eventLog
deriving Repr, DecidableEq

def ByteCountRule.admits : ByteCountRule → UInt8 → Bool
  | nonzero, count => count ≠ 0
  | even, count => count % 2 = 0
  | implied expected, count => count.toNat = expected
  | eventLog, count => 6 ≤ count

/-- How many values a request may ask for, and how its note words them. -/
structure Transfer where
  limit : UInt16
  verb : String
  noun : String
deriving Repr, DecidableEq

inductive Note
  | serverId (role : Role) (id : UInt8)
  | function (code : UInt8) (name : String)
  | exceptionFunction (code : UInt8) (name : String)
  | address (label : String) (space : AddressSpace) (value : UInt16)
  | quantity (transfer : Transfer) (amount : UInt16)
  | byteCount (count : UInt8)
  | ruledByteCount (rule : ByteCountRule) (count : UInt8)
  | register (index : Nat) (value : UInt16)
  | unpairedByte (value : UInt8)
  | bits (unit : String) (index : Nat) (value : UInt8)
  | coilValue (value : UInt16)
  | registerValue (value : UInt16)
  | subfunction (code : UInt16)
  | diagnosticData (values : Bytes)
  | mask (label : String) (value : UInt16)
  | exceptionStatus (value : UInt8)
  | commStatus (value : UInt16)
  | counter (label : String) (value : UInt16)
  | event (index : Nat) (value : UInt8)
  | serverIdentity (value : UInt8)
  | deviceData (values : Bytes)
  | runIndicator (value : UInt8)
  | exception (reason : ExceptionCode)
  | checksumCorrect
  | checksumExpected (expected : UInt16)
  | unknownFunction (code : UInt8)
  | oversized
  | tooShort
  | tooLong
  | frameWithError
  | other (category : Category) (text : String)
deriving Repr, DecidableEq

namespace Note

def accepted : Note → Bool
  | serverId .request id => id ≤ Limits.maxServerId
  | serverId .response id => id ≠ Limits.broadcastId && id ≤ Limits.maxServerId
  | quantity transfer amount => 1 ≤ amount && amount ≤ transfer.limit
  | ruledByteCount rule count => rule.admits count
  | coilValue value => value = 0x0000 || value = 0xFF00
  | subfunction code => (Subfunction.ofWord? code).isSome
  | commStatus value => value = 0x0000 || value = 0xFFFF
  | runIndicator value => value = 0x00 || value = 0xFF
  | exception _ => false
  | checksumExpected _ => false
  | unknownFunction _ => false
  | oversized => false
  | tooShort => false
  | tooLong => false
  | _ => true

/-- The category of an accepted note. -/
def kind : Note → Category
  | serverId .. => .serverId
  | function .. => .function
  | exceptionFunction .. => .function
  | subfunction _ => .function
  | address .. => .address
  | quantity .. => .length
  | byteCount _ => .length
  | ruledByteCount .. => .length
  | checksumCorrect => .checksum
  | frameWithError => .errorIndication
  | other given _ => given
  | _ => .data

def category (n : Note) : Category := if n.accepted then n.kind else .error

def isError (n : Note) : Bool := n.category = .error

end Note

end ModbusRtu
