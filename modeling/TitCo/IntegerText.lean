import TitCo.ByteMemory
import TitCo.Decimal

/-! convert and convertHex of stream.cc: the digits come off the end of the number,
the sign behind them, and the text is reversed in place. -/
namespace TitCo.IntegerText
open ByteMemory Decimal Numeral

/-- The integer types that Stream takes, on a platform with a 64-bit long. -/
inductive IntType where
  | short | unsignedShort | int | unsignedInt | long | unsignedLong | longLong | unsignedLongLong
  deriving DecidableEq, Repr

def minimum : IntType → Int
  | .short => -2^15
  | .int => -2^31
  | .long | .longLong => -2^63
  | .unsignedShort | .unsignedInt | .unsignedLong | .unsignedLongLong => 0

def maximum : IntType → Int
  | .short => 2^15 - 1
  | .unsignedShort => 2^16 - 1
  | .int => 2^31 - 1
  | .unsignedInt => 2^32 - 1
  | .long | .longLong => 2^63 - 1
  | .unsignedLong | .unsignedLongLong => 2^64 - 1

/-- A value of one of the types. An operation whose result is a `Value` does not overflow. -/
abbrev Value (t : IntType) := {v : Int // minimum t ≤ v ∧ v ≤ maximum t}

abbrev uintptr : IntType := .unsignedLong

/-- operator<< of the two short types casts to int and to unsigned int. -/
def promoted : IntType → IntType
  | .short => .int
  | .unsignedShort => .unsignedInt
  | t => t

theorem zeroInRange (t : IntType) : minimum t ≤ 0 ∧ 0 ≤ maximum t := by cases t <;> decide

theorem promotedRange (t : IntType) : minimum (promoted t) ≤ minimum t ∧ maximum t ≤ maximum (promoted t) := by
  cases t <;> decide

def promote {t : IntType} (v : Value t) : Value (promoted t) :=
  ⟨v.1,(promotedRange t).1.trans v.2.1,v.2.2.trans (promotedRange t).2⟩

/- Division truncates towards zero, so a quotient lies between zero and the number. -/
theorem quotientFits {t : IntType} (v : Value t) (base : Nat) :
    minimum t ≤ v.1.tdiv base ∧ v.1.tdiv base ≤ maximum t := by
  have range := v.2
  have zero := zeroInRange t
  have size : (v.1.tdiv base).natAbs ≤ v.1.natAbs := Int.natAbs_tdiv_le_natAbs _ _
  by_cases negative : v.1 < 0
  · have mirrored : 0 ≤ (-v.1).tdiv base := Int.tdiv_nonneg (by omega) (Int.natCast_nonneg base)
    rw [Int.neg_tdiv] at mirrored
    omega
  · have above : 0 ≤ v.1.tdiv base := Int.tdiv_nonneg (by omega) (Int.natCast_nonneg base)
    omega

/-- digits, the table that `zero` points into the middle of. -/
def digits : List UInt8 := [57,56,55,54,53,52,51,50,49,48,49,50,51,52,53,54,55,56,57]

def digitsHex : List UInt8 := [48,49,50,51,52,53,54,55,56,57,65,66,67,68,69,70]

/-- zero[lsd] -/
def zero (lsd : Int) : UInt8 := digits.getD (9 + lsd).toNat 0

def hexDigit (lsd : Int) : UInt8 := digitsHex.getD lsd.toNat 0

/-- What convert and convertHex do differently in their loops. -/
structure Radix where
  base : Nat
  table : Int → UInt8
  large : 1 < base

def decimalRadix : Radix := ⟨10,zero,decimalAlphabet.large⟩
def hexRadix : Radix := ⟨16,hexDigit,by decide⟩

def quotient {t : IntType} (r : Radix) (i : Value t) : Value t := ⟨i.1.tdiv r.base,quotientFits i r.base⟩

theorem quotientAbs {t : IntType} (r : Radix) (i : Value t) : (quotient r i).1.natAbs = i.1.natAbs / r.base := by
  rw [quotient,Int.natAbs_tdiv,Int.natAbs_natCast]
  rfl

theorem quotientLess {t : IntType} (r : Radix) (i : Value t) (more : (quotient r i).1 ≠ 0) :
    (quotient r i).1.natAbs < i.1.natAbs := by
  have size := quotientAbs r i
  have positive : 0 < i.1.natAbs := by
    by_contra none
    have start : i.1.natAbs = 0 := by omega
    rw [start,Nat.zero_div] at size
    exact more (Int.natAbs_eq_zero.1 size)
  rw [size]
  exact Nat.div_lt_self positive r.large

/-- The do-while loop: the memory and `p` behind the last digit. -/
def digitLoop {t : IntType} (r : Radix) (m : Memory) (p : Nat) (i : Value t) : Memory × Nat :=
  let written := store m p [r.table (i.1.tmod r.base)]
  if (quotient r i).1 ≠ 0 then digitLoop r written (p+1) (quotient r i) else (written,p+1)
termination_by i.1.natAbs
decreasing_by exact quotientLess r i ‹_›

/-- *p = 0, std::reverse(buf, p), return p - buf. -/
def finish (m : Memory) (buf p : Nat) : Memory × Nat :=
  let ended := store m p [0]
  (store ended buf (load ended buf (p-buf)).reverse,p-buf)

def convert {t : IntType} (m : Memory) (buf : Nat) (value : Value t) : Memory × Nat :=
  let r := digitLoop decimalRadix m buf value
  if value.1 < 0 then finish (store r.1 r.2 [minusSign]) buf (r.2+1) else finish r.1 buf r.2

def convertHex (m : Memory) (buf : Nat) (value : Value uintptr) : Memory × Nat :=
  let r := digitLoop hexRadix m buf value
  finish r.1 buf r.2

def isHexLetter (b : UInt8) : Bool := 65 ≤ b.toNat && b.toNat ≤ 70

def hexAlphabet : Alphabet UInt8 where
  base := 16
  symbol d := if d < 10 then digit d else UInt8.ofNat (55+d)
  digitOf b :=
    if isDigit b then some (b.toNat - 48) else if isHexLetter b then some (b.toNat - 55) else none
  large := by decide
  reads := by decide

/-- The text of a number as it is written by hand: a sign only below zero. -/
def signedDecimal (v : Int) : List UInt8 :=
  if v < 0 then minusSign :: decimal v.natAbs else decimal v.natAbs

def hexadecimal (n : Nat) : List UInt8 := numeral hexAlphabet n

def CanonicalInt (text : List UInt8) (v : Int) : Prop :=
  if v < 0 then ∃ number, text = minusSign :: number ∧ Canonical decimalAlphabet number v.natAbs
  else Canonical decimalAlphabet text v.natAbs

def readInt : List UInt8 → Option Int
  | [] => none
  | b::rest =>
    if b = minusSign then (readFrom decimalAlphabet 0 rest).map (fun n : Nat => -(n : Int))
    else (readFrom decimalAlphabet 0 (b::rest)).map (fun n : Nat => (n : Int))

/- The loop index never leaves the table, and the digit is that of the absolute value. -/
theorem zeroDigit {lsd : Int} (range : lsd.natAbs < 10) : zero lsd = digit lsd.natAbs := by
  have table : ∀ d : Nat, d < 10 → zero d = digit d ∧ zero (-(d : Int)) = digit d := by decide
  rcases Int.natAbs_eq lsd with up | down
  · calc zero lsd = zero (lsd.natAbs : Int) := congrArg zero up
      _ = digit lsd.natAbs := (table _ range).1
  · calc zero lsd = zero (-(lsd.natAbs : Int)) := congrArg zero down
      _ = digit lsd.natAbs := (table _ range).2

theorem hexDigitSymbol {d : Nat} (range : d < 16) : hexDigit d = hexAlphabet.symbol d := by
  have table : ∀ d : Nat, d < 16 → hexDigit d = hexAlphabet.symbol d := by decide
  exact table d range

/- The loop writes the digits of the absolute value from the last one to the first. -/
theorem digitLoopText (a : Alphabet UInt8) {t : IntType} (r : Radix) (same : r.base = a.base)
    (table : ∀ j : Value t, r.table (j.1.tmod r.base) = a.symbol (j.1.natAbs % a.base))
    (m : Memory) (p : Nat) (i : Value t) :
    digitLoop r m p i =
      (store m p (numeral a i.1.natAbs).reverse,p + (numeral a i.1.natAbs).length) := by
  induction m, p, i using digitLoop.induct r with
  | case1 m p i written more ih =>
    have size := quotientAbs r i
    have left : (quotient r i).1.natAbs ≠ 0 := fun none => more (Int.natAbs_eq_zero.1 none)
    have several : a.base ≤ i.1.natAbs := by
      rw [size,same] at left
      by_contra small
      exact left (Nat.div_eq_of_lt (by omega))
    rw [digitLoop,if_pos more,ih,size,same,numeralStep a several]
    simp only [List.reverse_append,List.reverse_singleton,List.singleton_append,List.length_append,
      List.length_singleton]
    refine Prod.ext ?_ (by simp only; omega)
    simp only [written,table i]
    exact storeAppend m p [_] _
  | case2 m p i done =>
    have size := quotientAbs r i
    have last : (quotient r i).1 = 0 := by simpa using done
    have single : i.1.natAbs < a.base := by
      rw [last,same] at size
      have positive := a.large
      exact (Nat.div_eq_zero_iff_lt (by omega)).1 size.symm
    rw [digitLoop,if_neg done,numeralSmall a single,table i,Nat.mod_eq_of_lt single]
    rfl

/- Reversing [buf, p) in place, the NUL behind it left alone. -/
theorem finishText (m : Memory) (buf : Nat) (text : List UInt8) :
    finish (store m buf text) buf (buf + text.length) =
      (store m buf (text.reverse ++ [0]),text.length) := by
  have length : buf + text.length - buf = text.length := by omega
  have whole : load (store m buf (text ++ [0])) buf text.length = text := by
    rw [loadStorePrefix m buf (by simp),List.take_left]
  simp only [finish,length]
  rw [storeAppend,whole,storeFront m buf [0] List.length_reverse.symm]

theorem decimalTable {t : IntType} (j : Value t) :
    decimalRadix.table (j.1.tmod decimalRadix.base) = decimalAlphabet.symbol (j.1.natAbs % decimalAlphabet.base) := by
  have size : (j.1.tmod decimalRadix.base).natAbs = j.1.natAbs % 10 := Int.natAbs_tmod _ _
  have range : (j.1.tmod decimalRadix.base).natAbs < 10 := by omega
  calc decimalRadix.table (j.1.tmod decimalRadix.base) = digit (j.1.tmod decimalRadix.base).natAbs := zeroDigit range
    _ = decimalAlphabet.symbol (j.1.natAbs % decimalAlphabet.base) := congrArg digit size

theorem hexTable (j : Value uintptr) :
    hexRadix.table (j.1.tmod hexRadix.base) = hexAlphabet.symbol (j.1.natAbs % hexAlphabet.base) := by
  have nonneg : 0 ≤ j.1 := j.2.1
  have remainder : j.1.tmod hexRadix.base = (j.1.natAbs % 16 : Nat) := by
    have value : j.1 = (j.1.natAbs : Int) := (Int.natAbs_of_nonneg nonneg).symm
    rw [Int.tmod_eq_emod_of_nonneg nonneg]
    change j.1 % 16 = _
    omega
  rw [remainder]
  exact hexDigitSymbol (Nat.mod_lt _ (by decide))

/- What convert leaves in the buffer, and the length it returns. -/
theorem convertText {t : IntType} (m : Memory) (buf : Nat) (v : Value t) :
    convert m buf v = (store m buf (signedDecimal v.1 ++ [0]),(signedDecimal v.1).length) := by
  have loop := digitLoopText decimalAlphabet decimalRadix rfl decimalTable m buf v
  rw [← decimalNumeral] at loop
  unfold convert signedDecimal
  rw [loop]
  by_cases negative : v.1 < 0
  · have text := finishText m buf ((decimal v.1.natAbs).reverse ++ [minusSign])
    rw [← storeAppend,List.length_append,List.length_reverse,List.length_singleton] at text
    simp only [if_pos negative]
    rw [Nat.add_assoc,text]
    simp
  · have text := finishText m buf (decimal v.1.natAbs).reverse
    rw [List.length_reverse,List.reverse_reverse] at text
    simp only [if_neg negative]
    exact text

theorem convertHexText (m : Memory) (buf : Nat) (v : Value uintptr) :
    convertHex m buf v =
      (store m buf (hexadecimal v.1.toNat ++ [0]),(hexadecimal v.1.toNat).length) := by
  have loop := digitLoopText hexAlphabet hexRadix rfl hexTable m buf v
  have value : v.1.natAbs = v.1.toNat := by
    have nonneg : 0 ≤ v.1 := v.2.1
    omega
  have text := finishText m buf (hexadecimal v.1.toNat).reverse
  rw [List.length_reverse,List.reverse_reverse] at text
  unfold convertHex
  rw [loop,value]
  exact text

theorem signedDecimalCanonical (v : Int) : CanonicalInt (signedDecimal v) v := by
  have number := numeralCanonical decimalAlphabet v.natAbs
  unfold CanonicalInt signedDecimal
  by_cases negative : v < 0
  · rw [if_pos negative,if_pos negative]
    exact ⟨decimal v.natAbs,rfl,number⟩
  · rw [if_neg negative,if_neg negative]
    exact number

theorem minusNoDigit (n : Nat) (rest : List UInt8) : decimal n ≠ minusSign::rest := by
  intro shape
  have digit := decimalDigits n minusSign (by rw [shape]; exact List.mem_cons_self)
  exact absurd digit (by decide)

theorem readSignedDecimal (v : Int) : readInt (signedDecimal v) = some v := by
  have number := readFromNumeral decimalAlphabet v.natAbs
  rw [← decimalNumeral] at number
  unfold signedDecimal
  by_cases negative : v < 0
  · rw [if_pos negative,readInt,if_pos rfl,number,Option.map_some]
    congr 1
    omega
  · rw [if_neg negative]
    cases shape : decimal v.natAbs with
    | nil => exact absurd shape (decimalNonempty _)
    | cons b rest =>
      have unsigned : b ≠ minusSign := by
        rintro rfl
        exact minusNoDigit _ rest shape
      rw [readInt,if_neg unsigned,← shape,number,Option.map_some]
      congr 1
      omega

theorem signedDecimalInjective : Function.Injective signedDecimal := by
  intro v w same
  have left := readSignedDecimal v
  rw [same,readSignedDecimal w] at left
  exact (Option.some.inj left).symm

theorem hexadecimalInjective : Function.Injective (fun address : Value uintptr => hexadecimal address.1.toNat) := by
  intro v w same
  have equal : v.1.toNat = w.1.toNat := numeralInjective hexAlphabet same
  have left : 0 ≤ v.1 := v.2.1
  have right : 0 ≤ w.1 := w.2.1
  exact Subtype.ext (by omega)

/- The minimum of short. -/
example : signedDecimal (-32768) = [45,51,50,55,54,56] := by decide

/- At most twenty digits and a sign. -/
theorem signedDecimalLength {t : IntType} (v : Value t) : (signedDecimal v.1).length ≤ 21 := by
  have lower : -2^63 ≤ minimum t := by cases t <;> decide
  have upper : maximum t ≤ 2^64 - 1 := by cases t <;> decide
  have range := v.2
  have number : (decimal v.1.natAbs).length ≤ 20 := decimalLength (by decide) (by omega)
  unfold signedDecimal
  split
  · rw [List.length_cons]
    omega
  · omega

theorem hexadecimalLength (v : Value uintptr) : (hexadecimal v.1.toNat).length ≤ 16 := by
  have upper : v.1 ≤ 2^64 - 1 := v.2.2
  have fits : v.1.toNat < 16^16 := by omega
  exact numeralLength hexAlphabet (by decide) fits

/-- Every value of every type Stream takes, and every address, is written as its canonical
text with a NUL behind it; the text is the value's own. -/
theorem integerTextExact :
    (∀ (t : IntType) (v : Value t) (m : Memory) (buf : Nat),
      convert m buf (promote v) = (store m buf (signedDecimal v.1 ++ [0]),(signedDecimal v.1).length)) ∧
    (∀ v, CanonicalInt (signedDecimal v) v ∧ readInt (signedDecimal v) = some v) ∧
    Function.Injective signedDecimal ∧
    (∀ (address : Value uintptr) (m : Memory) (buf : Nat), convertHex m buf address =
      (store m buf (hexadecimal address.1.toNat ++ [0]),(hexadecimal address.1.toNat).length)) ∧
    (∀ n, Canonical hexAlphabet (hexadecimal n) n) ∧
    Function.Injective (fun address : Value uintptr => hexadecimal address.1.toNat) :=
  ⟨fun _ v m buf => convertText m buf (promote v),
    fun v => ⟨signedDecimalCanonical v,readSignedDecimal v⟩,signedDecimalInjective,
    fun address m buf => convertHexText m buf address,
    numeralCanonical hexAlphabet,hexadecimalInjective⟩

end TitCo.IntegerText
