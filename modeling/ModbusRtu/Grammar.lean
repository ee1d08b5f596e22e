import ModbusRtu.Layout.Request
import ModbusRtu.Layout.Response

/-! The grammar of one direction: which function codes it knows, and the plan it makes of a frame. A frame is
parsed in passes, each a run of the plan from the start; passes repeat until one reports nothing. Every
pass but the last moves the cursor, so there are never more of them than bytes not covered yet. -/

namespace ModbusRtu

structure Grammar where
  recognizes : UInt8 → Bool
  plan : Bytes → Plan

/-- Server id and function code, then `body` if the function is known. What follows an unknown function
stays pending, since only the end of the frame tells where it ends. -/
def framePlan (role : Role) (body : Option (Except Fault Note × Plan)) (bytes : Bytes) : Plan :=
  [.await 3, Field.serverId role bytes] ++
  match body with
  | some (function, rest) => .field 1 function :: rest
  | none => [.pending]

def requestGrammar (diagnosticsLength : Nat) : Grammar where
  recognizes code := (RequestLayout.ofCode? code).isSome
  plan bytes :=
    let body := (RequestLayout.ofCode? (bytes.byte 1)).map fun layout =>
      (layout.functionNote (bytes.byte 1), layout.plan diagnosticsLength bytes)
    framePlan .request body bytes

def responseGrammar (diagnosticsLength : Nat) : Grammar where
  recognizes code := (ResponseLayout.ofCode? code).isSome
  plan bytes :=
    let body := (ResponseLayout.ofCode? (bytes.byte 1)).map fun layout =>
      (layout.functionNote (bytes.byte 1), layout.plan diagnosticsLength bytes)
    framePlan .response body bytes

def Role.grammar : Role → Nat → Grammar
  | request => requestGrammar
  | response => responseGrammar

namespace Grammar

def pass (g : Grammar) (f : Frame) : Outcome Frame Progress := f.follow g.plan

def passes (g : Grammar) : Nat → Frame → Outcome Frame Progress
  | 0, f => g.pass f
  | n + 1, f =>
    (g.pass f).andThen fun f progress =>
      match progress with
      | .reported => g.passes n f
      | stopped => .done f stopped

def parse (g : Grammar) (f : Frame) : Outcome Frame Progress := g.passes (f.length - f.covered) f

def push (g : Grammar) (f : Frame) (b : Byte) : Outcome Frame Progress := g.parse (f.append b)

end Grammar

end ModbusRtu
