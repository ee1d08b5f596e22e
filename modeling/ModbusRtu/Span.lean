import ModbusRtu.Numeral
import ModbusRtu.Time

/-! What the decoder reports: a span of time on the row of one direction, with a category and a text.
Spans are ordered by row, category, start, end and text, in this order. -/

namespace ModbusRtu

open Numeral

inductive Role
  | request
  | response
deriving Repr, DecidableEq, Ord

def Role.row : Role → String
  | request => "client->server"
  | response => "server->client"

inductive Category
  | serverId
  | function
  | address
  | data
  | length
  | checksum
  | error
  /-- Marks a whole frame. -/
  | errorIndication
deriving Repr, DecidableEq, Ord

def Category.label : Category → String
  | serverId => "server-id"
  | function => "function"
  | address => "address"
  | data => "data"
  | length => "length"
  | checksum => "crc"
  | error => "error"
  | errorIndication => "error-indication"

structure Span where
  role : Role
  category : Category
  start : Time
  stop : Time
  text : String
deriving Repr, DecidableEq

namespace Span

protected def compare (a b : Span) : Ordering :=
  (compare a.role b.role).then <| (compare a.category b.category).then <|
    (compare a.start b.start).then <| (compare a.stop b.stop).then <| compare a.text b.text

instance : Ord Span := ⟨Span.compare⟩

def sort (spans : List Span) : List Span :=
  spans.mergeSort fun a b => (compare a b).isLE

/-- One line, as `[0..100] client->server server-id: Slave ID: 17`. -/
def line (a : Span) : String :=
  "[" ++ decimal a.start.toNat ++ ".." ++ decimal a.stop.toNat ++ "] " ++ a.role.row ++ " " ++
    a.category.label ++ ": " ++ a.text

end Span

end ModbusRtu
