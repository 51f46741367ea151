import TitCo.Numeral
import Mathlib.Data.List.TakeWhile

/-! Decimal text: what printf's zero padded %d writes and what atoi reads back. -/
namespace TitCo.Decimal
open Numeral

def digit (d : Nat) : UInt8 := UInt8.ofNat (48+d)
def isDigit (b : UInt8) : Bool := 48 ≤ b.toNat && b.toNat ≤ 57
def isSpace (b : UInt8) : Bool := b.toNat == 32 || (9 ≤ b.toNat && b.toNat ≤ 13)

def minusSign : UInt8 := 45
def plusSign : UInt8 := 43

def decimal (n : Nat) : List UInt8 := if n = 0 then [digit 0] else (Nat.digits 10 n).reverse.map digit

def decimalAlphabet : Alphabet UInt8 where
  base := 10
  symbol := digit
  digitOf b := if isDigit b then some (b.toNat - 48) else none
  large := by decide
  reads := by decide

/- decimal is written out for its readers, and is the numeral of this alphabet. -/
theorem decimalNumeral (n : Nat) : decimal n = numeral decimalAlphabet n := rfl

def zeroPadded (width n : Nat) : List UInt8 :=
  List.replicate (width - (decimal n).length) (digit 0) ++ decimal n

/-- %0Nd: the sign counts towards the width and stands before the zeros. -/
def paddedInt (width : Nat) (v : Int) : List UInt8 :=
  if v < 0 then minusSign :: zeroPadded (width-1) v.natAbs else zeroPadded width v.natAbs

def readDigits (acc : Nat) : List UInt8 → Nat
  | [] => acc
  | b::rest => if isDigit b then readDigits (10*acc + (b.toNat-48)) rest else acc

/-- Blanks, one sign, digits up to the first other byte; no digits read as zero. -/
def atoi (text : List UInt8) : Int :=
  match text.dropWhile isSpace with
  | [] => 0
  | b::rest =>
    if b = minusSign then -readDigits 0 rest
    else if b = plusSign then readDigits 0 rest
    else readDigits 0 (b::rest)

theorem digitToNat {d : Nat} (small : d < 10) : (digit d).toNat = 48+d := by
  unfold digit
  rw [UInt8.toNat_ofNat']
  omega

theorem isDigitDigit {d : Nat} (small : d < 10) : isDigit (digit d) = true := by
  simp only [isDigit,digitToNat small,Bool.and_eq_true,decide_eq_true_eq]
  omega

/- A text that is a numeral throughout is read to its end. -/
theorem readDigitsFrom {acc n : Nat} {text : List UInt8} (h : readFrom decimalAlphabet acc text = some n) :
    readDigits acc text = n := by
  induction text generalizing acc with
  | nil => exact Option.some.inj h
  | cons b text ih =>
    simp only [readFrom,decimalAlphabet] at h
    cases isD : isDigit b with
    | true =>
      simp only [isD,if_true] at h
      simp only [readDigits,isD,if_true]
      exact ih h
    | false => simp [isD] at h

theorem readDigitsDecimal (n : Nat) : readDigits 0 (decimal n) = n := readDigitsFrom (readFromNumeral decimalAlphabet n)

theorem readDigitsZeros (k : Nat) (text : List UInt8) :
    readDigits 0 (List.replicate k (digit 0) ++ text) = readDigits 0 text := by
  induction k with
  | zero => rfl
  | succ k ih =>
    rw [List.replicate_succ,List.cons_append,← ih]
    rfl

theorem decimalDigits (n : Nat) : ∀ b ∈ decimal n, isDigit b = true := by
  intro b hb
  unfold decimal at hb
  split at hb
  · cases List.mem_singleton.1 hb; exact isDigitDigit (by decide)
  · obtain ⟨d,hd,rfl⟩ := List.mem_map.1 hb
    exact isDigitDigit (Nat.digits_lt_base (by decide) (List.mem_reverse.1 hd))

theorem decimalNonempty (n : Nat) : decimal n ≠ [] := numeralNonempty decimalAlphabet n

theorem decimalLength {n width : Nat} (positive : 0 < width) (small : n < 10^width) :
    (decimal n).length ≤ width :=
  numeralLength decimalAlphabet positive small

theorem zeroPaddedLength (n width : Nat) (positive : 0 < width) (small : n < 10^width) :
    (zeroPadded width n).length = width := by
  have fits := decimalLength positive small
  simp only [zeroPadded,List.length_append,List.length_replicate]
  omega

theorem paddedIntFull (width : Nat) (v : Int) : width ≤ (paddedInt width v).length := by
  unfold paddedInt
  split <;> simp only [zeroPadded,List.length_cons,List.length_append,List.length_replicate] <;> omega

theorem atoiDigit {b : UInt8} {rest : List UInt8} (first : isDigit b = true) :
    atoi (b::rest) = readDigits 0 (b::rest) := by
  have range : 48 ≤ b.toNat ∧ b.toNat ≤ 57 := by simpa [isDigit] using first
  have blank : isSpace b = false := by
    simp only [isSpace,Bool.or_eq_false_iff,beq_eq_false_iff_ne,Bool.and_eq_false_iff,decide_eq_false_iff_not]
    omega
  have minus : b ≠ minusSign := by rintro rfl; exact absurd range.1 (by decide)
  have plus : b ≠ plusSign := by rintro rfl; exact absurd range.1 (by decide)
  simp [atoi,List.dropWhile,blank,minus,plus]

theorem atoiZeroPadded (width n : Nat) : atoi (zeroPadded width n) = n := by
  have value : readDigits 0 (zeroPadded width n) = n := by
    rw [zeroPadded,readDigitsZeros,readDigitsDecimal]
  have all : ∀ b ∈ zeroPadded width n, isDigit b = true := by
    intro b hb
    rcases List.mem_append.1 hb with zero | text
    · cases (List.mem_replicate.1 zero).2; exact isDigitDigit (by decide)
    · exact decimalDigits n b text
  cases text : zeroPadded width n with
  | nil => simp [zeroPadded,decimalNonempty] at text
  | cons b rest =>
    rw [text] at value all
    rw [atoiDigit (all b (by simp)),value]

theorem readDigitsBound (acc : Nat) (text : List UInt8) :
    readDigits acc text < (acc+1) * 10^text.length := by
  induction text generalizing acc with
  | nil => simp [readDigits]
  | cons b text ih =>
    simp only [readDigits]
    split
    · rename_i isD
      have range : b.toNat ≤ 57 := by simp only [isDigit,Bool.and_eq_true,decide_eq_true_eq] at isD; exact isD.2
      calc readDigits (10*acc + (b.toNat-48)) text < (10*acc + (b.toNat-48) + 1) * 10^text.length := ih _
        _ ≤ ((acc+1) * 10) * 10^text.length := Nat.mul_le_mul_right _ (by omega)
        _ = (acc+1) * 10^(b::text).length := by rw [List.length_cons,pow_succ]; ring
    · have one : 1 ≤ 10^(b::text).length := Nat.one_le_pow _ _ (by decide)
      calc acc < (acc+1) * 1 := by omega
        _ ≤ (acc+1) * 10^(b::text).length := Nat.mul_le_mul_left _ one

theorem atoiBound {text : List UInt8} {k : Nat} (fits : text.length ≤ k) : atoi text < 10^k := by
  have bound : ∀ t : List UInt8, t.length ≤ k → (readDigits 0 t : Int) < 10^k := by
    intro t short
    have less : readDigits 0 t < 10^k := by
      calc readDigits 0 t < (0+1) * 10^t.length := readDigitsBound 0 t
        _ = 10^t.length := by omega
        _ ≤ 10^k := Nat.pow_le_pow_right (by decide) short
    exact_mod_cast less
  have skipped : (text.dropWhile isSpace).length ≤ k := (List.dropWhile_sublist _).length_le.trans fits
  have positive : (0 : Int) < 10^k := by positivity
  unfold atoi
  split
  · exact positive
  · rename_i b rest shape
    rw [shape,List.length_cons] at skipped
    split
    · have nonneg : (0 : Int) ≤ (readDigits 0 rest : Int) := Int.natCast_nonneg _
      omega
    · split
      · exact bound rest (by omega)
      · exact bound (b::rest) (by simpa using skipped)

/- The value read so far is never lost. -/
theorem readDigitsLower (acc : Nat) (text : List UInt8) : acc ≤ readDigits acc text := by
  induction text generalizing acc with
  | nil => exact Nat.le_refl acc
  | cons b text ih =>
    simp only [readDigits]
    split
    · exact Nat.le_trans (by omega) (ih (10*acc + (b.toNat-48)))
    · exact Nat.le_refl acc

theorem digitPositive {d : UInt8} (isD : isDigit d = true) (nonzero : d ≠ digit 0) : 0 < d.toNat - 48 := by
  have range : 48 ≤ d.toNat := by
    simp only [isDigit,Bool.and_eq_true,decide_eq_true_eq] at isD
    exact isD.1
  have differ : d.toNat ≠ 48 := fun same => nonzero (UInt8.toNat_inj.1 same)
  omega

/-- Zeros and then another digit. -/
def Nonzero (text : List UInt8) : Prop :=
  ∃ k d tail, text = List.replicate k (digit 0) ++ d :: tail ∧ isDigit d = true ∧ d ≠ digit 0

theorem readDigitsNonzero (text : List UInt8) : 0 < readDigits 0 text ↔ Nonzero text := by
  constructor
  · intro positive
    induction text with
    | nil => simp [readDigits] at positive
    | cons b text ih =>
      simp only [readDigits] at positive
      split at positive
      · rename_i isD
        by_cases zero : b = digit 0
        · subst b
          obtain ⟨k,d,tail,rfl,rest⟩ := ih positive
          exact ⟨k+1,d,tail,rfl,rest⟩
        · exact ⟨0,b,text,rfl,isD,zero⟩
      · contradiction
  · rintro ⟨k,d,tail,rfl,isD,nonzero⟩
    have first := digitPositive isD nonzero
    rw [readDigitsZeros]
    simp only [readDigits,isD,if_true]
    exact Nat.lt_of_lt_of_le (by omega) (readDigitsLower _ _)

/-- Blanks, a minus sign, and a number other than zero. -/
def Negative (text : List UInt8) : Prop :=
  ∃ blanks rest, text = blanks ++ minusSign :: rest ∧ (∀ b ∈ blanks, isSpace b = true) ∧ Nonzero rest

theorem atoiNegative (text : List UInt8) : atoi text < 0 ↔ Negative text := by
  constructor
  · intro below
    unfold atoi at below
    split at below
    · omega
    · rename_i b rest skipped
      split at below
      · rename_i minus
        have positive : 0 < readDigits 0 rest := by omega
        refine ⟨text.takeWhile isSpace,rest,?_,?_,(readDigitsNonzero rest).1 positive⟩
        · rw [← minus,← skipped,List.takeWhile_append_dropWhile]
        · intro c inside
          exact List.mem_takeWhile_imp inside
      · split at below <;> omega
  · rintro ⟨blanks,rest,rfl,spaces,nonzero⟩
    have positive := (readDigitsNonzero rest).2 nonzero
    have skipped : (blanks ++ minusSign :: rest).dropWhile isSpace = minusSign :: rest := by
      rw [List.dropWhile_append_of_pos spaces]
      rfl
    simp only [atoi,skipped,if_true]
    omega

end TitCo.Decimal
