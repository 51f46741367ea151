import Mathlib.Data.Nat.Digits.Lemmas

/-! Positional notation over any alphabet of digits: the text of a number, reading
it back, and what makes a text canonical. -/
namespace TitCo.Numeral

structure Alphabet (α : Type) where
  base : Nat
  symbol : Nat → α
  digitOf : α → Option Nat
  large : 1 < base
  reads : ∀ d, d < base → digitOf (symbol d) = some d

section
variable {α : Type} (a : Alphabet α)

def numeral (n : Nat) : List α :=
  if n = 0 then [a.symbol 0] else (Nat.digits a.base n).reverse.map a.symbol

/-- The number a whole text stands for; none as soon as one symbol is no digit. -/
def readFrom (acc : Nat) : List α → Option Nat
  | [] => some acc
  | s::rest =>
    match a.digitOf s with
    | some d => readFrom (a.base*acc + d) rest
    | none => none

/-- A text that is not empty, reads as `n`, and begins with a zero only if that zero is all of it. -/
structure Canonical (text : List α) (n : Nat) : Prop where
  value : readFrom a 0 text = some n
  nonempty : text ≠ []
  leading : ∀ s rest, text = s::rest → a.digitOf s = some 0 → rest = []

theorem numeralSmall {n : Nat} (small : n < a.base) : numeral a n = [a.symbol n] := by
  unfold numeral
  by_cases zero : n = 0
  · rw [if_pos zero,zero]
  · rw [if_neg zero,Nat.digits_of_lt a.base n zero small]
    rfl

/- The last digit comes off the end. -/
theorem numeralStep {n : Nat} (more : a.base ≤ n) :
    numeral a n = numeral a (n / a.base) ++ [a.symbol (n % a.base)] := by
  have large := a.large
  have positive : n ≠ 0 := by omega
  have quotient : n / a.base ≠ 0 := by
    have := Nat.div_pos more (by omega)
    omega
  unfold numeral
  rw [if_neg positive,if_neg quotient,Nat.digits_def' large (by omega)]
  simp

theorem readFromAppend (acc : Nat) (xs ys : List α) :
    readFrom a acc (xs ++ ys) = (readFrom a acc xs).bind (fun n => readFrom a n ys) := by
  induction xs generalizing acc with
  | nil => rfl
  | cons s xs ih =>
    simp only [List.cons_append,readFrom]
    cases a.digitOf s with
    | none => rfl
    | some d => exact ih _

theorem readFromNumeral (n : Nat) : readFrom a 0 (numeral a n) = some n := by
  induction n using Nat.strongRecOn with
  | ind n ih =>
    have large := a.large
    by_cases small : n < a.base
    · rw [numeralSmall a small]
      simp [readFrom,a.reads n small]
    · have more : a.base ≤ n := by omega
      have less : n / a.base < n := Nat.div_lt_self (by omega) large
      have digit : n % a.base < a.base := Nat.mod_lt _ (by omega)
      rw [numeralStep a more,readFromAppend,ih _ less]
      simp only [Option.bind_some,readFrom,a.reads _ digit]
      rw [Nat.div_add_mod]

theorem numeralInjective {n k : Nat} (same : numeral a n = numeral a k) : n = k := by
  have left := readFromNumeral a n
  rw [same,readFromNumeral a k] at left
  exact (Option.some.inj left).symm

theorem numeralNonempty (n : Nat) : numeral a n ≠ [] := by
  have large := a.large
  by_cases small : n < a.base
  · rw [numeralSmall a small]
    exact List.cons_ne_nil _ _
  · rw [numeralStep a (by omega)]
    exact List.concat_ne_nil _ _

/- A number with more than one digit starts with the first digit of its quotient, which is not zero. -/
theorem numeralLeading (n : Nat) : ∀ s rest, numeral a n = s::rest → a.digitOf s = some 0 → n = 0 := by
  induction n using Nat.strongRecOn with
  | ind n ih =>
    intro s rest shape zero
    have large := a.large
    by_cases small : n < a.base
    · rw [numeralSmall a small] at shape
      cases shape
      rw [a.reads n small] at zero
      exact Option.some.inj zero
    · have more : a.base ≤ n := by omega
      have less : n / a.base < n := Nat.div_lt_self (by omega) large
      have quotient : 0 < n / a.base := Nat.div_pos more (by omega)
      rw [numeralStep a more] at shape
      cases front : numeral a (n / a.base) with
      | nil => exact absurd front (numeralNonempty a _)
      | cons s' rest' =>
        rw [front] at shape
        cases shape
        have := ih _ less s rest' front zero
        omega

theorem numeralCanonical (n : Nat) : Canonical a (numeral a n) n where
  value := readFromNumeral a n
  nonempty := numeralNonempty a n
  leading s rest shape zero := by
    have large := a.large
    have none := numeralLeading a n s rest shape zero
    rw [none,numeralSmall a (by omega)] at shape
    cases shape
    rfl

theorem numeralLength {n k : Nat} (positive : 0 < k) (fits : n < a.base^k) : (numeral a n).length ≤ k := by
  unfold numeral
  split
  · exact positive
  · simpa using (Nat.digits_length_le_iff a.large n).2 fits

end

end TitCo.Numeral
