import ModbusRtu.Proofs.Tiling
import ModbusRtu.Proofs.Wording

/-! Two frames side by side. As far as the bytes of two frames agree their tables of fields do, since a field
depends on no byte behind its own and a count is read before what it counts. And a field that keeps its rule can
be read back from its text, so tables that are in order and say the same stand for the same bytes. Only the check
sum says nothing of its own bytes, but it is right for one pair of them. -/

namespace ModbusRtu

namespace Bytes

/-- The bytes before `k` are the same, where a missing byte is a zero. -/
def EqUpTo (k : Nat) (v w : Bytes) : Prop := ∀ i < k, v.byte i = w.byte i

section EqUpTo

variable {v w : Bytes} {k n : Nat}

theorem EqUpTo.mono {j : Nat} (h : EqUpTo k v w) (hj : j ≤ k) : EqUpTo j v w :=
  fun i hi => h i (Nat.lt_of_lt_of_le hi hj)

theorem EqUpTo.word {i : Nat} (h : EqUpTo k v w) (hi : i + 1 < k) : v.word i = w.word i := by
  rw [Bytes.word, Bytes.word, h i (Nat.lt_of_succ_lt hi), h (i + 1) hi]

theorem EqUpTo.snoc (h : EqUpTo k v w) (same : v.byte k = w.byte k) : EqUpTo (k + 1) v w := by
  intro i hi
  rcases Nat.lt_succ_iff_lt_or_eq.mp hi with hi | rfl
  · exact h i hi
  · exact same

theorem EqUpTo.snoc_word (h : EqUpTo k v w) (same : v.word k = w.word k) : EqUpTo (k + 2) v w := by
  have high := congrArg Word.highByte same
  have low := congrArg Word.lowByte same
  rw [Bytes.word, Bytes.word, Word.highByte_join, Word.highByte_join] at high
  rw [Bytes.word, Bytes.word, Word.lowByte_join, Word.lowByte_join] at low
  exact (h.snoc high).snoc low

theorem byte_slice {i : Nat} (start : Nat) (h : i < n) : (v.slice start n).byte i = v.byte (start + i) := by
  simp only [byte, slice, List.getD, List.getElem?_take_of_lt h, List.getElem?_drop]

theorem EqUpTo.snoc_slice (h : EqUpTo k v w) (same : v.slice k n = w.slice k n) : EqUpTo (k + n) v w := by
  intro i hi
  by_cases hk : i < k
  · exact h i hk
  · have inside : i - k < n := by omega
    rw [show i = k + (i - k) by omega, ← byte_slice k inside, same, byte_slice k inside]

theorem take_append_slice (h : v.length = k + n) : v.take k ++ v.slice k n = v := by
  have rest : (v.drop k).length ≤ n := by
    rw [List.length_drop]
    omega
  rw [Bytes.slice, List.take_of_length_le rest, List.take_append_drop]

theorem length_slice (h : k + n ≤ v.length) : (v.slice k n).length = n := by
  simp only [slice, List.length_take, List.length_drop]
  omega

theorem EqUpTo.slice (h : EqUpTo (k + n) v w) (hv : k + n ≤ v.length) (hw : k + n ≤ w.length) :
    v.slice k n = w.slice k n := by
  refine List.ext_getElem ((length_slice hv).trans (length_slice hw).symm) fun i hi hi' => ?_
  have inside : i < n := length_slice hv ▸ hi
  have same := h (k + i) (Nat.add_lt_add_left inside k)
  rw [← byte_slice k inside, ← byte_slice k inside, byte, byte, List.getD_eq_getElem?_getD,
    List.getD_eq_getElem?_getD, List.getElem?_eq_getElem hi, List.getElem?_eq_getElem hi'] at same
  exact same

theorem EqUpTo.take (h : EqUpTo k v w) (hv : k ≤ v.length) (hw : k ≤ w.length) : v.take k = w.take k := by
  have all : EqUpTo (0 + k) v w := (Nat.zero_add k).symm ▸ h
  have same := all.slice ((Nat.zero_add k).symm ▸ hv) ((Nat.zero_add k).symm ▸ hw)
  rwa [Bytes.slice, Bytes.slice, List.drop_zero, List.drop_zero] at same

end EqUpTo

end Bytes

open Bytes FieldTable

/-- The number of bytes that slots take. -/
def extent : List Slot → Nat
  | [] => 0
  | s :: slots => s.width + extent slots

theorem extent_cons (s : Slot) (slots : List Slot) : extent (s :: slots) = s.width + extent slots := rfl

/-- The slot has the value `a`, of which it says `note` and which has to keep a rule. -/
structure Slot.Shows {α : Type} (s : Slot) (first width : Nat) (category : Category) (keeps : α → Bool)
    (note : α → Note) (a : α) : Prop where
  width : s.width = width
  category : s.category = category
  keeps : s.keeps first = keeps a
  note : s.note first = note a

/-- The same field of two frames. -/
structure Slot.Twin (v w : Bytes) (first width : Nat) (s t : Slot) : Prop where
  widths : s.width = width ∧ t.width = width
  reads : first + width ≤ v.length → first + width ≤ w.length → EqUpTo (first + width) v w →
    s.entry first = t.entry first
  tells : EqUpTo first v w → s.keeps first = true → t.keeps first = true →
    (s.note first).text = (t.note first).text → EqUpTo (first + width) v w

section Twin

variable {v w : Bytes} {first width : Nat} {category : Category}

theorem Slot.Twin.of_shows {α : Type} {keeps : α → Bool} {note : α → Note} {a b : α} {s t : Slot}
    (legible : Note.Legible keeps note) (hs : s.Shows first width category keeps note a)
    (ht : t.Shows first width category keeps note b)
    (reads : first + width ≤ v.length → first + width ≤ w.length → EqUpTo (first + width) v w → a = b)
    (tells : EqUpTo first v w → a = b → EqUpTo (first + width) v w) : Slot.Twin v w first width s t where
  widths := ⟨hs.width, ht.width⟩
  reads hv hw same := by
    obtain rfl := reads hv hw same
    simp only [Slot.entry, hs.width, ht.width, hs.category, ht.category, hs.keeps, ht.keeps, hs.note, ht.note]
  tells same kept kept' texts := by
    rw [hs.note, ht.note] at texts
    exact tells same (legible a b (hs.keeps ▸ kept) (ht.keeps ▸ kept') texts)

/-- A field of one byte. -/
theorem Slot.twin_byte (field : Bytes → Slot) {keeps : UInt8 → Bool} {note : UInt8 → Note}
    (legible : Note.Legible keeps note)
    (h : ∀ u : Bytes, (field u).Shows first 1 category keeps note (u.byte first)) :
    Slot.Twin v w first 1 (field v) (field w) :=
  .of_shows legible (h v) (h w) (fun _ _ same => same first (Nat.lt_succ_self first))
    fun same value => same.snoc value

/-- A field of two bytes. -/
theorem Slot.twin_word (field : Bytes → Slot) {keeps : UInt16 → Bool} {note : UInt16 → Note}
    (legible : Note.Legible keeps note)
    (h : ∀ u : Bytes, (field u).Shows first 2 category keeps note (u.word first)) :
    Slot.Twin v w first 2 (field v) (field w) :=
  .of_shows legible (h v) (h w) (fun _ _ same => same.word (Nat.lt_succ_self _))
    fun same value => same.snoc_word value

/-- A field of so many bytes. -/
theorem Slot.twin_slice (field : Bytes → Slot) {note : Bytes → Note}
    (legible : Note.Legible (fun _ => true) note)
    (h : ∀ u : Bytes, (field u).Shows first width category (fun _ => true) note (u.slice first width)) :
    Slot.Twin v w first width (field v) (field w) :=
  .of_shows legible (h v) (h w) (fun hv hw same => same.slice hv hw) fun same value => same.snoc_slice value

end Twin

/-- The tables of two frames, which have the same fields as long as the bytes are the same. -/
inductive Twins (v w : Bytes) : Nat → List Slot → List Slot → Prop
  | cons {first width : Nat} {s t : Slot} {ss ts : List Slot} (head : Slot.Twin v w first width s t)
      (rest : EqUpTo (first + width) v w → Twins v w (first + width) ss ts) :
      Twins v w first (s :: ss) (t :: ts)
  /-- A count that is refused, so that what it counts is skipped. -/
  | refused {first width skipped : Nat} {s t : Slot} {ts : List Slot} (head : Slot.Twin v w first width s t)
      (breaks : s.keeps first = false) (rest : EqUpTo (first + width) v w → ts = [checksum w skipped]) :
      Twins v w first [s, checksum v skipped] (t :: ts)
  | trailer (first : Nat) : Twins v w first [checksum v 0] [checksum w 0]

/-- What ends before `k` lies before it. -/
theorem filter_entries_eq_nil {first k : Nat} {slots : List Slot} (h : k < first) :
    (entries first slots).filter (fun e => e.last < k) = [] := by
  have behind : ∀ e ∈ entries first slots, first ≤ e.last + 1 := by
    clear h
    induction slots generalizing first with
    | nil => exact List.forall_mem_nil _
    | cons s slots ih =>
      have here : first ≤ (s.entry first).last + 1 := by
        simp only [Slot.entry]
        omega
      exact List.forall_mem_cons.mpr ⟨here, fun e he => Nat.le_trans (Nat.le_add_right _ _) (ih e he)⟩
  refine List.filter_eq_nil_iff.mpr fun e he early => ?_
  have := behind e he
  have := of_decide_eq_true early
  omega

/-- Two tables that begin with fields of one width, which are the same if they end before `k`. -/
theorem filter_entries_cons {first width k : Nat} {s t : Slot} {ss ts : List Slot}
    (hs : s.width = width) (ht : t.width = width) (head : first + width ≤ k → s.entry first = t.entry first)
    (rest : first + width ≤ k → (entries (first + width) ss).filter (fun e => e.last < k) =
      (entries (first + width) ts).filter fun e => e.last < k) :
    (entries first (s :: ss)).filter (fun e => e.last < k) =
      (entries first (t :: ts)).filter fun e => e.last < k := by
  rw [entries, entries, hs, ht, List.filter_cons, List.filter_cons]
  by_cases inside : first + width ≤ k
  · rw [head inside, rest inside]
  · have late (u : Slot) (hu : u.width = width) : decide ((u.entry first).last < k) = false := by
      simp only [Slot.entry, hu, decide_eq_false_iff_not]
      omega
    rw [filter_entries_eq_nil (Nat.not_le.mp inside), filter_entries_eq_nil (Nat.not_le.mp inside), late s hs,
      late t ht]
    rfl

theorem FieldTable.checksum_entry_eq {v w : Bytes} {first skipped : Nat} (hv : first + (skipped + 2) ≤ v.length)
    (hw : first + (skipped + 2) ≤ w.length) (same : EqUpTo (first + (skipped + 2)) v w) :
    (checksum v skipped).entry first = (checksum w skipped).entry first := by
  rw [← Nat.add_assoc] at hv hw same
  have before := (same.mono (Nat.le_add_right _ 2)).take (Nat.le_trans (Nat.le_add_right _ 2) hv)
    (Nat.le_trans (Nat.le_add_right _ 2) hw)
  simp only [Slot.entry, checksum, before, same.slice hv hw]
  rfl

namespace Twins

variable {v w : Bytes} {first : Nat} {ss ts : List Slot}

/-- The fields that end within bytes that are the same are the same. -/
theorem filter_entries_eq (h : Twins v w first ss ts) {k : Nat} (hv : k ≤ v.length) (hw : k ≤ w.length)
    (same : EqUpTo k v w) :
    (entries first ss).filter (fun e => e.last < k) = (entries first ts).filter fun e => e.last < k := by
  have sum {first : Nat} (skipped : Nat) (inside : first + (skipped + 2) ≤ k) :=
    checksum_entry_eq (Nat.le_trans inside hv) (Nat.le_trans inside hw) (same.mono inside)
  induction h with
  | cons head rest ih =>
    refine filter_entries_cons head.widths.1 head.widths.2 (fun inside => ?_) fun inside => ih (same.mono inside)
    exact head.reads (Nat.le_trans inside hv) (Nat.le_trans inside hw) (same.mono inside)
  | refused head breaks rest =>
    refine filter_entries_cons head.widths.1 head.widths.2 (fun inside => ?_) fun inside => ?_
    · exact head.reads (Nat.le_trans inside hv) (Nat.le_trans inside hw) (same.mono inside)
    · rw [rest (same.mono inside)]
      exact filter_entries_cons rfl rfl (sum _) fun _ => rfl
  | trailer first => exact filter_entries_cons rfl rfl (sum 0) fun _ => rfl

/-- Tables in order that say the same are those of the same bytes. -/
theorem eq_of_texts (h : Twins v w first ss ts) (hv : v.length = first + extent ss)
    (hw : w.length = first + extent ts) (same : EqUpTo first v w)
    (kept : ∀ e ∈ entries first ss, e.category ≠ .error) (kept' : ∀ e ∈ entries first ts, e.category ≠ .error)
    (texts : (entries first ss).map (·.note.text) = (entries first ts).map (·.note.text)) : v = w := by
  have keeps {s : Slot} {first : Nat} (kept : (s.entry first).category ≠ .error) : s.keeps first = true :=
    Bool.of_not_eq_false fun breaks => kept (Slot.entry_category_eq_error.mpr breaks)
  induction h with
  | @cons first width s t ss ts head rest ih =>
    rw [extent_cons, ← Nat.add_assoc, head.widths.1] at hv
    rw [extent_cons, ← Nat.add_assoc, head.widths.2] at hw
    obtain ⟨here, kept⟩ := List.forall_mem_cons.mp kept
    obtain ⟨here', kept'⟩ := List.forall_mem_cons.mp kept'
    obtain ⟨text, texts⟩ := List.cons.inj texts
    have further := head.tells same (keeps here) (keeps here') text
    rw [head.widths.1] at kept texts
    rw [head.widths.2] at kept' texts
    exact ih further hv hw further kept kept' texts
  | refused head breaks rest =>
    have here := keeps (kept _ List.mem_cons_self)
    rw [breaks] at here
    cases here
  | trailer first =>
    have sum : v.slice first 2 = Checksum.trailer (v.take first) :=
      of_decide_eq_true (keeps (kept _ List.mem_cons_self))
    have sum' : w.slice first 2 = Checksum.trailer (w.take first) :=
      of_decide_eq_true (keeps (kept' _ List.mem_cons_self))
    have hv : v.length = first + 2 := hv
    have hw : w.length = first + 2 := hw
    rw [← take_append_slice hv, ← take_append_slice hw, sum, sum', same.take (by omega) (by omega)]

/-- Fields of one width, as many as `count`. -/
theorem map (width : Nat) {count : Nat} (slot slot' : Nat → Slot)
    (h : ∀ k, Slot.Twin v w (first + width * k) width (slot k) (slot' k)) (same : EqUpTo first v w)
    (rest : EqUpTo (first + width * count) v w → Twins v w (first + width * count) ss ts) :
    Twins v w first ((List.range count).map slot ++ ss) ((List.range count).map slot' ++ ts) := by
  induction count generalizing ss ts with
  | zero => exact rest same
  | succ count ih =>
    simp only [List.range_succ, List.map_append, List.map_cons, List.map_nil, List.append_assoc,
      List.singleton_append]
    refine ih fun _ => .cons (h count) ?_
    rwa [Nat.add_assoc, ← Nat.mul_succ]

end Twins

namespace FieldTable

variable {v w : Bytes} {first : Nat} {ss ts : List Slot}

theorem twin_serverId (role : Role) : Slot.Twin v w first 1 (serverId v role) (serverId w role) :=
  Slot.twin_byte (serverId · role) (Note.legible_serverId role) fun _ => ⟨rfl, rfl, rfl, rfl⟩

theorem twin_function : Slot.Twin v w first 1 (function v) (function w) :=
  Slot.twin_byte function (Note.legible_function functionName) fun _ => ⟨rfl, rfl, rfl, rfl⟩

theorem twin_exceptionFunction : Slot.Twin v w first 1 (exceptionFunction v) (exceptionFunction w) :=
  Slot.twin_byte exceptionFunction (Note.legible_exceptionFunction fun code => functionName (code &&& 0x7F))
    fun _ => ⟨rfl, rfl, rfl, rfl⟩

theorem twin_address (label : String) (space : AddressSpace) :
    Slot.Twin v w first 2 (address v label space) (address w label space) :=
  Slot.twin_word (address · label space) (Note.legible_address label space) fun _ => ⟨rfl, rfl, rfl, rfl⟩

theorem twin_quantity (limit : UInt16) (verb noun : String) :
    Slot.Twin v w first 2 (quantity v limit verb noun) (quantity w limit verb noun) :=
  Slot.twin_word (quantity · limit verb noun) (Note.legible_quantity limit verb noun)
    fun _ => ⟨rfl, rfl, rfl, rfl⟩

theorem twin_coilValue : Slot.Twin v w first 2 (coilValue v) (coilValue w) :=
  Slot.twin_word coilValue Note.legible_coilValue fun _ => ⟨rfl, rfl, rfl, rfl⟩

theorem twin_registerValue : Slot.Twin v w first 2 (registerValue v) (registerValue w) :=
  Slot.twin_word registerValue Note.legible_registerValue fun _ => ⟨rfl, rfl, rfl, rfl⟩

theorem twin_mask (label : String) : Slot.Twin v w first 2 (mask v label) (mask w label) :=
  Slot.twin_word (mask · label) (Note.legible_mask label) fun _ => ⟨rfl, rfl, rfl, rfl⟩

theorem twin_subfunction : Slot.Twin v w first 2 (subfunction v) (subfunction w) :=
  Slot.twin_word subfunction Note.legible_subfunction fun _ => ⟨rfl, rfl, rfl, rfl⟩

theorem twin_commStatus : Slot.Twin v w first 2 (commStatus v) (commStatus w) :=
  Slot.twin_word commStatus Note.legible_commStatus fun _ => ⟨rfl, rfl, rfl, rfl⟩

theorem twin_counter (label : String) : Slot.Twin v w first 2 (counter v label) (counter w label) :=
  Slot.twin_word (counter · label) (Note.legible_counter label) fun _ => ⟨rfl, rfl, rfl, rfl⟩

theorem twin_byteCount : Slot.Twin v w first 1 (byteCount v) (byteCount w) :=
  Slot.twin_byte byteCount Note.legible_byteCount fun _ => ⟨rfl, rfl, rfl, rfl⟩

theorem twin_ruledCount (rule : ByteCountRule) {keeps : UInt8 → Bool} (admits : rule.admits = keeps) :
    Slot.Twin v w first 1 (ruledCount v rule keeps) (ruledCount w rule keeps) :=
  Slot.twin_byte (ruledCount · rule keeps) (admits ▸ Note.legible_ruledByteCount rule)
    fun _ => ⟨rfl, rfl, rfl, rfl⟩

theorem twin_exceptionStatus : Slot.Twin v w first 1 (exceptionStatus v) (exceptionStatus w) :=
  Slot.twin_byte exceptionStatus Note.legible_exceptionStatus fun _ => ⟨rfl, rfl, rfl, rfl⟩

theorem twin_serverIdentity : Slot.Twin v w first 1 (serverIdentity v) (serverIdentity w) :=
  Slot.twin_byte serverIdentity Note.legible_serverIdentity fun _ => ⟨rfl, rfl, rfl, rfl⟩

theorem twin_runIndicator : Slot.Twin v w first 1 (runIndicator v) (runIndicator w) :=
  Slot.twin_byte runIndicator Note.legible_runIndicator fun _ => ⟨rfl, rfl, rfl, rfl⟩

theorem twin_exception : Slot.Twin v w first 1 (exception v) (exception w) :=
  Slot.twin_byte exception (Note.legible_never fun code => .exception (.ofByte code))
    fun _ => ⟨rfl, rfl, rfl, rfl⟩

theorem twins_bits (unit : String) {count : Nat} (same : EqUpTo first v w)
    (rest : EqUpTo (first + count) v w → Twins v w (first + count) ss ts) :
    Twins v w first (bits v unit count ++ ss) (bits w unit count ++ ts) := by
  refine .map 1 _ _ (fun k => ?_) same (by rwa [Nat.one_mul])
  exact Slot.twin_byte (fun u => .free 1 .data fun i => .bits unit k (u.byte i)) (Note.legible_bits unit k)
    fun _ => ⟨rfl, rfl, rfl, rfl⟩

theorem twins_events {count : Nat} (same : EqUpTo first v w)
    (rest : EqUpTo (first + count) v w → Twins v w (first + count) ss ts) :
    Twins v w first (events v count ++ ss) (events w count ++ ts) := by
  refine .map 1 _ _ (fun k => ?_) same (by rwa [Nat.one_mul])
  exact Slot.twin_byte (fun u => .free 1 .data fun i => .event k (u.byte i)) (Note.legible_event k)
    fun _ => ⟨rfl, rfl, rfl, rfl⟩

theorem twins_registers {count : Nat} (same : EqUpTo first v w)
    (rest : EqUpTo (first + count) v w → Twins v w (first + count) ss ts) :
    Twins v w first (registers v count ++ ss) (registers w count ++ ts) := by
  rw [registers, registers, List.append_assoc, List.append_assoc]
  refine .map 2 _ _ (fun k => ?_) same fun same => ?_
  · exact Slot.twin_word (fun u => .free 2 .data fun i => .register k (u.word i)) (Note.legible_register k)
      fun _ => ⟨rfl, rfl, rfl, rfl⟩
  by_cases odd : count % 2 = 1
  · rw [if_pos odd, if_pos odd]
    refine .cons (Slot.twin_byte (fun u => .free 1 .data fun i => .unpairedByte (u.byte i))
      Note.legible_unpairedByte fun _ => ⟨rfl, rfl, rfl, rfl⟩) ?_
    rwa [show first + 2 * (count / 2) + 1 = first + count by omega]
  · rw [if_neg odd, if_neg odd]
    rw [show first + 2 * (count / 2) = first + count by omega] at same ⊢
    exact rest same

theorem twins_block {count : Nat} {note : Bytes → Note} (legible : Note.Legible (fun _ => true) note)
    (ofField : ∀ values, (note values).ofField = true) (same : EqUpTo first v w)
    (rest : EqUpTo (first + count) v w → Twins v w (first + count) ss ts) :
    Twins v w first (block v count note ofField ++ ss) (block w count note ofField ++ ts) := by
  rw [block, block]
  by_cases some : 0 < count
  · rw [if_pos some, if_pos some]
    refine .cons ?_ rest
    exact Slot.twin_slice (fun u => .free count .data (fun i => note (u.slice i count)) (by decide) fun _ => ofField _)
      legible fun _ => ⟨rfl, rfl, rfl, rfl⟩
  · obtain rfl := Nat.eq_zero_of_not_pos some
    rw [if_neg some, if_neg some]
    exact rest same

theorem twins_writeCoil : Twins v w 2 (writeCoil v) (writeCoil w) :=
  .cons (twin_address _ _) fun _ => .cons twin_coilValue fun _ => .trailer _

theorem twins_writeRegister : Twins v w 2 (writeRegister v) (writeRegister w) :=
  .cons (twin_address _ _) fun _ => .cons twin_registerValue fun _ => .trailer _

theorem twins_maskWrite : Twins v w 2 (maskWrite v) (maskWrite w) :=
  .cons (twin_address _ _) fun _ => .cons (twin_mask _) fun _ => .cons (twin_mask _) fun _ => .trailer _

theorem twins_diagnostics (n : Nat) : Twins v w 2 (diagnostics v n) (diagnostics w n) :=
  .cons twin_subfunction fun same =>
    twins_block Note.legible_diagnosticData (fun _ => rfl) same fun _ => .trailer _

theorem twins_read (space : AddressSpace) (limit : UInt16) :
    Twins v w 2 (read v space limit) (read w space limit) :=
  .cons (twin_address _ _) fun _ => .cons (twin_quantity _ _ _) fun _ => .trailer _

/-- A count that depends on the quantity before it, and what it counts. -/
theorem twins_impliedCount {expected expected' : Nat} (implied : expected = expected')
    (rest : EqUpTo (first + 1) v w → Twins v w (first + 1) ss ts) :
    Twins v w first (impliedCount v expected :: ss) (impliedCount w expected' :: ts) := by
  subst implied
  exact .cons (twin_ruledCount (.implied expected) rfl) rest

theorem twins_writeCoils : Twins v w 2 (writeCoils v) (writeCoils w) := by
  refine .cons (twin_address _ _) fun _ => .cons (twin_quantity _ _ _) fun same => ?_
  refine twins_impliedCount (by rw [same.word (by decide)]) fun same => ?_
  rw [same 6 (by decide)]
  exact twins_bits _ same fun _ => .trailer _

theorem twins_writeRegisters : Twins v w 2 (writeRegisters v) (writeRegisters w) := by
  refine .cons (twin_address _ _) fun _ => .cons (twin_quantity _ _ _) fun same => ?_
  refine twins_impliedCount (by rw [same.word (by decide)]) fun same => ?_
  rw [same 6 (by decide)]
  exact twins_registers same fun _ => .trailer _

theorem twins_exchange : Twins v w 2 (exchange v) (exchange w) := by
  refine .cons (twin_address _ _) fun _ => .cons (twin_quantity _ _ _) fun _ => ?_
  refine .cons (twin_address _ _) fun _ => .cons (twin_quantity _ _ _) fun same => ?_
  refine twins_impliedCount (by rw [same.word (by decide)]) fun same => ?_
  rw [same 10 (by decide)]
  exact twins_registers same fun _ => .trailer _

theorem twins_statesRead (unit : String) : Twins v w 2 (statesRead v unit) (statesRead w unit) := by
  refine .cons (twin_ruledCount .nonzero rfl) fun same => ?_
  rw [same 2 (by decide)]
  exact twins_bits _ same fun _ => .trailer _

theorem twins_registersRead : Twins v w 2 (registersRead v) (registersRead w) := by
  refine .cons (twin_ruledCount .even rfl) fun same => ?_
  rw [same 2 (by decide)]
  exact twins_registers same fun _ => .trailer _

theorem twins_eventLog : Twins v w 2 (eventLog v) (eventLog w) := by
  by_cases long : 6 ≤ (v.byte 2).toNat
  · simp only [eventLog, if_pos long]
    refine .cons (twin_ruledCount .eventLog rfl) fun same => ?_
    rw [← same 2 (by decide), if_pos long]
    refine .cons twin_commStatus fun _ => .cons (twin_counter _) fun _ => .cons (twin_counter _) fun same => ?_
    exact twins_events same fun _ => .trailer _
  · simp only [eventLog, if_neg long]
    have breaks : decide (6 ≤ v.byte 2) = false := decide_eq_false fun h => long (UInt8.le_iff_toNat_le.mp h)
    refine .refused (twin_ruledCount .eventLog rfl) breaks fun same => ?_
    rw [← same 2 (by decide), if_neg long]

theorem twins_written (space : AddressSpace) (limit : UInt16) (noun : String) :
    Twins v w 2 (written v space limit noun) (written w space limit noun) :=
  .cons (twin_address _ _) fun _ => .cons (twin_quantity _ _ _) fun _ => .trailer _

theorem twins_serverReport : Twins v w 2 (serverReport v) (serverReport w) := by
  refine .cons twin_byteCount fun _ => .cons twin_serverIdentity fun same => ?_
  rw [same 2 (by decide)]
  refine twins_block Note.legible_deviceData (fun _ => rfl) same fun _ => ?_
  exact .cons twin_runIndicator fun _ => .trailer _

theorem twins_exceptionReply : Twins v w 1 (exceptionReply v) (exceptionReply w) :=
  .cons twin_exceptionFunction fun _ => .cons twin_exception fun _ => .trailer _

theorem twins_requestBody (n : Nat) {layout : RequestLayout} (h : RequestLayout.ofCode? (v.byte 1) = some layout)
    (same : v.byte 1 = w.byte 1) :
    Twins v w 2 (requestBody v n (v.byte 1)) (requestBody w n (w.byte 1)) := by
  rw [← same]
  unfold RequestLayout.ofCode? at h
  split at h
  case h_16 => cases h
  all_goals
    rename_i code
    rw [code]
  · exact twins_read _ _
  · exact twins_read _ _
  · exact twins_read _ _
  · exact twins_read _ _
  · exact twins_writeCoil
  · exact twins_writeRegister
  · exact .trailer 2
  · exact twins_diagnostics n
  · exact .trailer 2
  · exact .trailer 2
  · exact twins_writeCoils
  · exact twins_writeRegisters
  · exact .trailer 2
  · exact twins_maskWrite
  · exact twins_exchange

theorem twins_responseBody (n : Nat) {layout : ResponseLayout}
    (h : ResponseLayout.ofCode? (v.byte 1) = some layout)
    (plain : FunctionCode.hasExceptionBit (v.byte 1) = false) (same : v.byte 1 = w.byte 1) :
    Twins v w 2 (responseBody v n (v.byte 1)) (responseBody w n (w.byte 1)) := by
  rw [← same]
  unfold ResponseLayout.ofCode? at h
  split at h
  case h_16 =>
    simp [FunctionCode.ofException?, plain] at h
  all_goals
    rename_i code
    rw [code]
  · exact twins_statesRead _
  · exact twins_statesRead _
  · exact twins_registersRead
  · exact twins_registersRead
  · exact twins_writeCoil
  · exact twins_writeRegister
  · exact .cons twin_exceptionStatus fun _ => .trailer _
  · exact twins_diagnostics n
  · exact .cons twin_commStatus fun _ => .cons (twin_counter _) fun _ => .trailer _
  · exact twins_eventLog
  · exact twins_written _ _ _
  · exact twins_written _ _ _
  · exact twins_serverReport
  · exact twins_maskWrite
  · exact twins_registersRead

end FieldTable

/-- The tables of two frames, of which one has a known function. A reply is an exception if the other is one. -/
theorem twins_fields (role : Role) (n : Nat) {v w : Bytes}
    (known : (role.grammar n).recognizes (v.byte 1) = true)
    (plain : role = .response →
      FunctionCode.hasExceptionBit (v.byte 1) = FunctionCode.hasExceptionBit (w.byte 1)) :
    Twins v w 0 (role.fields n v) (role.fields n w) := by
  cases role with
  | request =>
    obtain ⟨layout, hl⟩ := Option.isSome_iff_exists.mp known
    refine .cons (twin_serverId .request) fun _ => .cons twin_function fun same => ?_
    exact twins_requestBody n hl (same 1 (by decide))
  | response =>
    obtain ⟨layout, hl⟩ := Option.isSome_iff_exists.mp known
    refine .cons (twin_serverId .response) fun _ => ?_
    rw [← plain rfl]
    cases bit : FunctionCode.hasExceptionBit (v.byte 1) with
    | true => exact twins_exceptionReply
    | false =>
      refine .cons twin_function fun same => ?_
      exact twins_responseBody n hl bit (same 1 (by decide))

end ModbusRtu
