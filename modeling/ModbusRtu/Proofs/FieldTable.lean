import ModbusRtu.Grammar

/-! The fields of a frame as a table. A slot says how many bytes a field takes, its category, when its
value keeps the rule of the field and what is said of it. A frame is a list of slots, each of which begins
right after the one before it, and a slot reads its value where it begins. Nothing here knows of passes,
of a cursor or of bytes still to come. -/

namespace ModbusRtu

/-- The notes that belong to fields. The others are about a frame as a whole. -/
def Note.ofField : Note → Bool
  | unknownFunction _ | oversized | tooShort | tooLong | frameWithError | other .. => false
  | _ => true

structure Slot where
  width : Nat
  category : Category
  keeps : Nat → Bool
  note : Nat → Note
  regular : category ≠ .error := by decide
  ofField : ∀ i, (note i).ofField = true := by intro; rfl

/-- A field at its place, from its first to its last byte. -/
structure Entry where
  first : Nat
  last : Nat
  category : Category
  note : Note

/-- A field of any value. -/
def Slot.free (width : Nat) (category : Category) (note : Nat → Note)
    (regular : category ≠ .error := by decide)
    (ofField : ∀ i, (note i).ofField = true := by intro; rfl) : Slot :=
  ⟨width, category, fun _ => true, note, regular, ofField⟩

/-- A value that breaks the rule of its field makes the field an error. -/
def Slot.entry (s : Slot) (first : Nat) : Entry :=
  ⟨first, first + s.width - 1, if s.keeps first then s.category else .error, s.note first⟩

theorem Slot.entry_category_eq_error {s : Slot} {first : Nat} :
    (s.entry first).category = .error ↔ s.keeps first = false := by
  rw [entry]
  cases s.keeps first with
  | true => simp [s.regular]
  | false => simp

def entries (first : Nat) : List Slot → List Entry
  | [] => []
  | s :: rest => s.entry first :: entries (first + s.width) rest

namespace FieldTable

variable (v : Bytes)

def serverId (role : Role) : Slot where
  width := 1
  category := .serverId
  keeps i := (role = .request || v.byte i ≠ 0) && v.byte i ≤ 247
  note i := .serverId role (v.byte i)

def functionName (code : UInt8) : String := (FunctionCode.ofCode code).name?.getD ""

def function : Slot := .free 1 .function fun i => .function (v.byte i) (functionName (v.byte i))

def exceptionFunction : Slot :=
  .free 1 .function fun i => .exceptionFunction (v.byte i) (functionName (v.byte i &&& 0x7F))

def address (label : String) (space : AddressSpace) : Slot :=
  .free 2 .address fun i => .address label space (v.word i)

def quantity (limit : UInt16) (verb noun : String) : Slot where
  width := 2
  category := .length
  keeps i := 1 ≤ v.word i && v.word i ≤ limit
  note i := .quantity ⟨limit, verb, noun⟩ (v.word i)

def coilValue : Slot where
  width := 2
  category := .data
  keeps i := v.word i = 0x0000 || v.word i = 0xFF00
  note i := .coilValue (v.word i)

def registerValue : Slot := .free 2 .data fun i => .registerValue (v.word i)

def mask (label : String) : Slot := .free 2 .data fun i => .mask label (v.word i)

def subfunction : Slot where
  width := 2
  category := .function
  keeps i := (Subfunction.ofWord? (v.word i)).isSome
  note i := .subfunction (v.word i)

def commStatus : Slot where
  width := 2
  category := .data
  keeps i := v.word i = 0x0000 || v.word i = 0xFFFF
  note i := .commStatus (v.word i)

def counter (label : String) : Slot := .free 2 .data fun i => .counter label (v.word i)

def byteCount : Slot := .free 1 .length fun i => .byteCount (v.byte i)

/-- A byte count with a rule, spelled out as `keeps`. -/
def ruledCount (rule : ByteCountRule) (keeps : UInt8 → Bool) : Slot where
  width := 1
  category := .length
  keeps i := keeps (v.byte i)
  note i := .ruledByteCount rule (v.byte i)

def impliedCount (expected : Nat) : Slot :=
  ruledCount v (.implied expected) fun count => count.toNat = expected

def exceptionStatus : Slot := .free 1 .data fun i => .exceptionStatus (v.byte i)

def serverIdentity : Slot := .free 1 .data fun i => .serverIdentity (v.byte i)

def runIndicator : Slot where
  width := 1
  category := .data
  keeps i := v.byte i = 0x00 || v.byte i = 0xFF
  note i := .runIndicator (v.byte i)

/-- The reason of an exception is an error whatever it is. -/
def exception : Slot where
  width := 1
  category := .data
  keeps _ := false
  note i := .exception (.ofByte (v.byte i))

def registers (count : Nat) : List Slot :=
  (List.range (count / 2)).map (fun k => .free 2 .data fun i => .register k (v.word i)) ++
  if count % 2 = 1 then [.free 1 .data fun i => .unpairedByte (v.byte i)] else []

def bits (unit : String) (count : Nat) : List Slot :=
  (List.range count).map fun k => .free 1 .data fun i => .bits unit k (v.byte i)

def events (count : Nat) : List Slot :=
  (List.range count).map fun k => .free 1 .data fun i => .event k (v.byte i)

/-- Bytes that are shown together, if there are any. -/
def block (count : Nat) (note : Bytes → Note) (ofField : ∀ values, (note values).ofField = true) :
    List Slot :=
  if 0 < count then [.free count .data (fun i => note (v.slice i count)) (by decide) fun _ => ofField _]
  else []

/-- The check sum of all bytes before it, behind `skipped` bytes that no field has. -/
def checksum (skipped : Nat) : Slot where
  width := skipped + 2
  category := .checksum
  keeps i := v.slice (i + skipped) 2 = Checksum.trailer (v.take (i + skipped))
  note i :=
    if v.slice (i + skipped) 2 = Checksum.trailer (v.take (i + skipped)) then .checksumCorrect
    else .checksumExpected (Checksum.crc (v.take (i + skipped)))
  ofField i := by
    split
    · rfl
    · rfl

def read (space : AddressSpace) (limit : UInt16) : List Slot :=
  [address v "Start at address" space, quantity v limit "Read" "units of data", checksum v 0]

def writeCoil : List Slot := [address v "Address" .coils, coilValue v, checksum v 0]

def writeRegister : List Slot := [address v "Address" .holdingRegisters, registerValue v, checksum v 0]

def diagnostics (n : Nat) : List Slot :=
  subfunction v :: block v n .diagnosticData (fun _ => rfl) ++ [checksum v 0]

def maskWrite : List Slot :=
  [address v "Address" .holdingRegisters, mask v "AND", mask v "OR", checksum v 0]

def writeCoils : List Slot :=
  [address v "Start at address" .coils, quantity v 1968 "Write" "coils",
    impliedCount v (((v.word 4).toNat + 7) / 8)] ++
  bits v "Coils" (v.byte 6).toNat ++ [checksum v 0]

def writeRegisters : List Slot :=
  [address v "Start at address" .holdingRegisters, quantity v 123 "Write" "registers",
    impliedCount v (2 * (v.word 4).toNat)] ++
  registers v (v.byte 6).toNat ++ [checksum v 0]

def exchange : List Slot :=
  [address v "Read from address" .holdingRegisters, quantity v 125 "Read" "registers",
    address v "Write to address" .holdingRegisters, quantity v 121 "Write" "registers",
    impliedCount v (2 * (v.word 8).toNat)] ++
  registers v (v.byte 10).toNat ++ [checksum v 0]

/-- What follows the function code of a request, `n` being the length of diagnostics data. -/
def requestBody (n : Nat) (code : UInt8) : List Slot :=
  match code with
  | 1 => read v .coils 2000
  | 2 => read v .discreteInputs 2000
  | 3 => read v .holdingRegisters 125
  | 4 => read v .inputRegisters 125
  | 5 => writeCoil v
  | 6 => writeRegister v
  | 7 | 11 | 12 | 17 => [checksum v 0]
  | 8 => diagnostics v n
  | 15 => writeCoils v
  | 16 => writeRegisters v
  | 22 => maskWrite v
  | 23 => exchange v
  | _ => []

def statesRead (unit : String) : List Slot :=
  ruledCount v .nonzero (fun count => count ≠ 0) :: bits v unit (v.byte 2).toNat ++ [checksum v 0]

def registersRead : List Slot :=
  ruledCount v .even (fun count => count % 2 = 0) :: registers v (v.byte 2).toNat ++ [checksum v 0]

/-- A log that claims fewer bytes than its status and counters take has no fields but the check sum. -/
def eventLog : List Slot :=
  let count := (v.byte 2).toNat
  ruledCount v .eventLog (fun count => 6 ≤ count) ::
  if 6 ≤ count then
    [commStatus v, counter v "Event count", counter v "Message count"] ++ events v (count - 6) ++
    [checksum v 0]
  else [checksum v count]

def written (space : AddressSpace) (limit : UInt16) (noun : String) : List Slot :=
  [address v "Start at address" space, quantity v limit "Wrote" noun, checksum v 0]

def serverReport : List Slot :=
  [byteCount v, serverIdentity v] ++ block v (v.byte 2).toNat .deviceData (fun _ => rfl) ++
  [runIndicator v, checksum v 0]

/-- What follows the function code of a reply that is no exception. -/
def responseBody (n : Nat) (code : UInt8) : List Slot :=
  match code with
  | 1 => statesRead v "Coils"
  | 2 => statesRead v "Inputs"
  | 3 | 4 | 23 => registersRead v
  | 5 => writeCoil v
  | 6 => writeRegister v
  | 7 => [exceptionStatus v, checksum v 0]
  | 8 => diagnostics v n
  | 11 => [commStatus v, counter v "Event count", checksum v 0]
  | 12 => eventLog v
  | 15 => written v .coils 1968 "coils"
  | 16 => written v .holdingRegisters 123 "registers"
  | 17 => serverReport v
  | 22 => maskWrite v
  | _ => []

def exceptionReply : List Slot := [exceptionFunction v, exception v, checksum v 0]

end FieldTable

open FieldTable

/-- All fields of a frame whose function is known. -/
def Role.fields (n : Nat) (v : Bytes) : Role → List Slot
  | .request => serverId v .request :: function v :: requestBody v n (v.byte 1)
  | .response =>
    serverId v .response ::
    if FunctionCode.hasExceptionBit (v.byte 1) then exceptionReply v
    else function v :: responseBody v n (v.byte 1)

end ModbusRtu
