/-! Numbers as text. Decimal numbers are as short as they can be; hexadecimal and binary numbers have a
fixed width, except in addresses, which are hexadecimal without leading zeros. A fixed width loses
nothing of a number that fits into it. -/

namespace ModbusRtu.Numeral

def decimal (n : Nat) : String := String.ofList (Nat.toDigits 10 n)

def digits (base : Nat) : Nat → Nat → List Char
  | 0, _ => []
  | width + 1, n => digits base width (n / base) ++ [Nat.digitChar (n % base)]

def binary (width n : Nat) : String := String.ofList (digits 2 width n)

def lowerHex (width n : Nat) : String := String.ofList (digits 16 width n)

def upperHex (width n : Nat) : String := String.ofList ((digits 16 width n).map Char.toUpper)

def shortHex (n : Nat) : String := String.ofList ((Nat.toDigits 16 n).map Char.toUpper)

/-- One byte, as `0xA5`. -/
def hexByte (b : UInt8) : String := "0x" ++ upperHex 2 b.toNat

/-- One big-endian word, as `0x00A5`. -/
def hexWord (w : UInt16) : String := "0x" ++ upperHex 4 w.toNat

def binaryByte (b : UInt8) : String := "0b" ++ binary 8 b.toNat

def hexBytes (bs : List UInt8) : String := String.intercalate " " (bs.map hexByte)

theorem length_digits (base width n : Nat) : (digits base width n).length = width := by
  induction width generalizing n with
  | zero => rfl
  | succ width ih => simp [digits, ih]

theorem upperDigitChar_inj {a b : Nat} (ha : a < 16) (hb : b < 16)
    (h : a.digitChar.toUpper = b.digitChar.toUpper) : a = b := by
  have table : ∀ a b : Fin 16, a.val.digitChar.toUpper = b.val.digitChar.toUpper → a = b := by decide
  exact congrArg Fin.val (table ⟨a, ha⟩ ⟨b, hb⟩ h)

/-- Digits in any spelling that tells them apart. -/
theorem map_digits_inj {base width m n : Nat} {spell : Char → Char} (h2 : 2 ≤ base) (h16 : base ≤ 16)
    (apart : ∀ a < base, ∀ b < base, spell a.digitChar = spell b.digitChar → a = b)
    (hm : m < base.pow width) (hn : n < base.pow width)
    (h : (digits base width m).map spell = (digits base width n).map spell) : m = n := by
  induction width generalizing m n with
  | zero => exact (Nat.lt_one_iff.mp hm).trans (Nat.lt_one_iff.mp hn).symm
  | succ width ih =>
    have hm : m < base.pow width * base := hm
    have hn : n < base.pow width * base := hn
    rw [digits, digits, List.map_append, List.map_append] at h
    obtain ⟨hq, hr⟩ := List.append_inj' h rfl
    have below (k : Nat) : k % base < base := Nat.mod_lt k (by omega)
    have quotient := ih (Nat.div_lt_of_lt_mul (Nat.mul_comm _ base ▸ hm))
      (Nat.div_lt_of_lt_mul (Nat.mul_comm _ base ▸ hn)) hq
    have rest := apart _ (below m) _ (below n) (List.cons.inj hr).1
    rw [← Nat.div_add_mod m base, ← Nat.div_add_mod n base, quotient, rest]

theorem upperHex_inj (width : Nat) {m n : Nat} (hm : m < Nat.pow 16 width) (hn : n < Nat.pow 16 width)
    (h : upperHex width m = upperHex width n) : m = n :=
  map_digits_inj (by decide) (by decide) (fun _ ha _ hb => upperDigitChar_inj ha hb) hm hn
    (String.ofList_injective h)

theorem binary_inj (width : Nat) {m n : Nat} (hm : m < Nat.pow 2 width) (hn : n < Nat.pow 2 width)
    (h : binary width m = binary width n) : m = n := by
  have apart : ∀ a < 2, ∀ b < 2, id a.digitChar = id b.digitChar → a = b := by decide
  refine map_digits_inj (by decide) (by decide) apart hm hn ?_
  rw [List.map_id, List.map_id]
  exact String.ofList_injective h

theorem hexByte_inj {a b : UInt8} (h : hexByte a = hexByte b) : a = b :=
  UInt8.toNat_inj.mp (upperHex_inj 2 a.toNat_lt b.toNat_lt ((String.append_right_inj _).mp h))

theorem hexWord_inj {a b : UInt16} (h : hexWord a = hexWord b) : a = b :=
  UInt16.toNat_inj.mp (upperHex_inj 4 a.toNat_lt b.toNat_lt ((String.append_right_inj _).mp h))

theorem binaryByte_inj {a b : UInt8} (h : binaryByte a = binaryByte b) : a = b :=
  UInt8.toNat_inj.mp (binary_inj 8 a.toNat_lt b.toNat_lt ((String.append_right_inj _).mp h))

theorem length_hexByte (b : UInt8) : (hexByte b).toList.length = 4 := by
  simp [hexByte, upperHex, length_digits]

/-- A byte in front of more text. -/
theorem hexByte_append_inj {a b : UInt8} {s t : String} (h : hexByte a ++ s = hexByte b ++ t) :
    a = b ∧ s = t := by
  have chars := congrArg String.toList h
  rw [String.toList_append, String.toList_append] at chars
  obtain ⟨byte, rest⟩ := List.append_inj chars ((length_hexByte a).trans (length_hexByte b).symm)
  exact ⟨hexByte_inj (String.toList_injective byte), String.toList_injective rest⟩

theorem hexBytes_cons (a b : UInt8) (bs : List UInt8) :
    hexBytes (a :: b :: bs) = hexByte a ++ (" " ++ hexBytes (b :: bs)) := by
  simp only [hexBytes, List.map_cons, String.intercalate_cons_cons, String.append_assoc]

theorem length_hexBytes (bs : List UInt8) : (hexBytes bs).toList.length = 5 * bs.length - 1 := by
  induction bs with
  | nil => rfl
  | cons a bs ih =>
    cases bs with
    | nil => exact length_hexByte a
    | cons b bs =>
      rw [hexBytes_cons, String.toList_append, String.toList_append, List.length_append, List.length_append,
        length_hexByte, ih]
      simp only [List.length_cons, show " ".toList = [' '] from rfl, List.length_nil]
      omega

theorem hexBytes_inj {as bs : List UInt8} (h : hexBytes as = hexBytes bs) : as = bs := by
  have length : as.length = bs.length := by
    have chars := congrArg (fun text => text.toList.length) h
    simp only [length_hexBytes] at chars
    omega
  induction as generalizing bs with
  | nil => exact (List.length_eq_zero_iff.mp length.symm).symm
  | cons a as ih =>
    obtain ⟨b, bs, rfl⟩ := List.exists_cons_of_length_eq_add_one length.symm
    have rest : as.length = bs.length := Nat.succ.inj length
    cases as with
    | nil =>
      obtain rfl := List.length_eq_zero_iff.mp rest.symm
      rw [hexByte_inj h]
    | cons a' as =>
      obtain ⟨b', bs, rfl⟩ := List.exists_cons_of_length_eq_add_one rest.symm
      rw [hexBytes_cons, hexBytes_cons] at h
      obtain ⟨first, behind⟩ := hexByte_append_inj h
      rw [first, ih ((String.append_right_inj _).mp behind) rest]

theorem decimal_inj {m n : Nat} (h : decimal m = decimal n) : m = n := by
  have value (k : Nat) : Nat.ofDigitChars 10 (decimal k).toList 0 = k := by
    rw [decimal, String.toList_ofList]
    exact Nat.ofDigitChars_toDigits (by omega) (by omega)
  rw [← value m, ← value n, h]

theorem decimalByte_inj {a b : UInt8} (h : decimal a.toNat = decimal b.toNat) : a = b :=
  UInt8.toNat_inj.mp (decimal_inj h)

theorem decimalWord_inj {a b : UInt16} (h : decimal a.toNat = decimal b.toNat) : a = b :=
  UInt16.toNat_inj.mp (decimal_inj h)

theorem isDigit_of_mem_decimal {n : Nat} : ∀ c ∈ (decimal n).toList, c.isDigit = true := by
  intro c hc
  rw [decimal, String.toList_ofList] at hc
  exact Nat.isDigit_of_mem_toDigits (by decide) (by decide) hc

/-- A decimal number ends where a text without a digit in front goes on. -/
theorem decimal_append_inj {m n : Nat} {s t : String} (hs : s.toList.takeWhile Char.isDigit = [])
    (ht : t.toList.takeWhile Char.isDigit = []) (h : decimal m ++ s = decimal n ++ t) : m = n := by
  have chars := congrArg (fun text => text.toList.takeWhile Char.isDigit) h
  simp only [String.toList_append, List.takeWhile_append_of_pos isDigit_of_mem_decimal, hs, ht,
    List.append_nil] at chars
  exact decimal_inj (String.toList_injective chars)

/-- A decimal number behind a blank begins there. -/
theorem append_decimal_inj {m n : Nat} {s t : String} (h : s ++ " " ++ decimal m = t ++ " " ++ decimal n) :
    m = n := by
  have chars := congrArg (fun text => text.toList.reverse.takeWhile Char.isDigit) h
  have digits (k : Nat) : ∀ c ∈ (decimal k).toList.reverse, c.isDigit = true :=
    fun c hc => isDigit_of_mem_decimal c (List.mem_reverse.mp hc)
  have blank : " ".toList = [' '] := rfl
  simp only [String.toList_append, List.reverse_append, List.takeWhile_append_of_pos (digits m),
    List.takeWhile_append_of_pos (digits n), blank, List.reverse_singleton, List.singleton_append,
    List.takeWhile_cons, show ' '.isDigit = false from rfl, Bool.false_eq_true, if_false,
    List.append_nil] at chars
  exact decimal_inj (String.toList_injective (List.reverse_inj.mp chars))

end ModbusRtu.Numeral
