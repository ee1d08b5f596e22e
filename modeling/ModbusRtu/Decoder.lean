import ModbusRtu.Config
import ModbusRtu.Grammar.Close

/-! The streaming decoder. It learns the bit time from the first timing marker that has a length, and from
then on collects the bytes of each direction into frames: a byte after more silence than a frame can
bear closes the open frame of its direction and opens the next. If both directions share a line, every
byte belongs to both. -/

namespace ModbusRtu

inductive Event
  /-- A start or stop bit, which tells the bit time. -/
  | timing (start stop : Time)
  | byte (line : Line) (b : Byte)
  /-- The capture ends or pauses here: open frames are closed. -/
  | flush
deriving Repr, DecidableEq

structure Decoder where
  config : Config
  bitTime : Option Time
  request : Option Frame
  response : Option Frame
deriving Repr, DecidableEq

def Config.line (c : Config) : Role → Line
  | .request => c.requestLine
  | .response => c.responseLine

def Config.grammar (c : Config) (role : Role) : Grammar := role.grammar c.diagnosticsLength

def Config.closeOptions (c : Config) (bitTime : Time) : CloseOptions :=
  ⟨c.closeMargin bitTime, c.marksErrors⟩

/-- Whether `b` comes soon enough after the bytes of `f` to belong to it. Overlapping bytes have no
silence between them. -/
def Frame.continuesWith (f : Frame) (silence : Time) (b : Byte) : Bool :=
  b.start.minus f.lastRead ≤ silence

namespace Decoder

def opened (config : Config) : Except ConfigError Decoder :=
  match config.validate with
  | .ok () => .ok ⟨config, none, none, none⟩
  | .error e => .error e

def frame? (d : Decoder) : Role → Option Frame
  | .request => d.request
  | .response => d.response

def withFrame (d : Decoder) (role : Role) (f : Option Frame) : Decoder :=
  match role with
  | .request => { d with request := f }
  | .response => { d with response := f }

def closeOptions (d : Decoder) : CloseOptions := d.config.closeOptions (d.bitTime.getD 0)

/-- Closes the open frame of `role`, if there is one. -/
def close (d : Decoder) (role : Role) : Outcome Decoder Unit :=
  match d.frame? role with
  | some f => ((d.config.grammar role).close d.closeOptions f).mapState fun _ => d.withFrame role none
  | none => .done d ()

/-- Adds `b` to the frame `f` of `role`. -/
def extend (d : Decoder) (role : Role) (f : Frame) (b : Byte) : Outcome Decoder Unit :=
  (((d.config.grammar role).push f b).mapState fun f => d.withFrame role (some f)).andThen fun d _ =>
    .done d ()

def start (d : Decoder) (role : Role) (b : Byte) : Outcome Decoder Unit :=
  (d.close role).andThen fun d _ => d.extend role (.opened role b.start) b

def route (d : Decoder) (role : Role) (bitTime : Time) (b : Byte) : Outcome Decoder Unit :=
  match d.frame? role with
  | some f =>
    if f.continuesWith (d.config.silence bitTime) b then d.extend role f b else d.start role b
  | none => d.start role b

/-- Hands `b` to `role` if the direction uses the line. -/
def deliver (d : Decoder) (role : Role) (line : Line) (bitTime : Time) (b : Byte) :
    Outcome Decoder Unit :=
  if line = d.config.line role then d.route role bitTime b else .done d ()

def step (d : Decoder) : Event → Outcome Decoder Unit
  | .timing start stop =>
    let length := stop.minus start
    if d.bitTime.isNone ∧ length ≠ 0 then .done { d with bitTime := some length } () else .done d ()
  | .byte line b =>
    match d.bitTime with
    | some bitTime =>
      (d.deliver .request line bitTime b).andThen fun d _ => d.deliver .response line bitTime b
    | none => .done d ()
  | .flush => (d.close .request).andThen fun d _ => d.close .response

def run (d : Decoder) : List Event → Outcome Decoder Unit
  | [] => .done d ()
  | event :: rest => (d.step event).andThen fun d _ => d.run rest

def finish (d : Decoder) : Outcome Decoder Unit := d.step .flush

end Decoder

/-- Decodes a whole capture. -/
def decode (config : Config) (events : List Event) : Except ConfigError (Outcome Decoder Unit) :=
  match Decoder.opened config with
  | .ok d => .ok ((d.run events).andThen fun d _ => d.finish)
  | .error e => .error e

end ModbusRtu
