import ModbusRtu.Frame.Reporting

/-! Plans: what to do with a frame, field by field in the order of the line. A plan is made of the bytes
received so far and takes a byte still to come for zero, so whatever depends on a byte is placed where
the run cannot get before that byte has arrived. A run ends at the first item that reports something or
has to wait. -/

namespace ModbusRtu

inductive Item
  | require (length : Nat)
  | await (index : Nat)
  | field (last : Nat) (note : Except Fault Note)
  | trailer (last : Nat)
  /-- Waits for the end of the frame. -/
  | pending
  | broken (fault : Fault)

abbrev Plan := List Item

namespace Item

def due (last : Nat) (note : Note) : Item := field last (.ok note)

def apply : Item → Frame → Outcome Frame Progress
  | require length, f => .done (f.require length) .settled
  | await index, f => .done f (if index < f.length then .settled else .waiting)
  | field last note, f => f.reportIfNew last note
  | trailer last, f => f.checkTrailer last
  | pending, f => .done f .waiting
  | broken fault, f => .failed f fault

end Item

namespace Plan

def run : Plan → Frame → Outcome Frame Progress
  | [], f => .done f .settled
  | item :: rest, f =>
    (item.apply f).andThen fun f progress =>
      match progress with
      | .settled => run rest f
      | stopped => .done f stopped

end Plan

namespace Frame

/-- One run of the plan that `plan` makes of the bytes received so far. -/
def follow (f : Frame) (plan : Bytes → Plan) : Outcome Frame Progress := (plan f.values).run f

end Frame

end ModbusRtu
