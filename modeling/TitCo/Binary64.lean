import Mathlib.Data.Int.Log
import Mathlib.Data.Rat.Floor
import Mathlib.Tactic.Linarith
import Mathlib.Tactic.NormNum
import Mathlib.Tactic.Ring

/-! Rounding of numbers that are not negative to the nearest double, a tie to the even one, with
exponents of any size. Every operation of the floating-point unit is such a rounding of the exact
result, and so is printf's of the digits it writes. -/
namespace TitCo.Binary64

def nearest (q : ℚ) : ℤ :=
  if 2*(q - ⌊q⌋) < 1 then ⌊q⌋
  else if 1 < 2*(q - ⌊q⌋) then ⌊q⌋ + 1
  else if ⌊q⌋ % 2 = 0 then ⌊q⌋ else ⌊q⌋ + 1

/-- A unit in the last of 53 binary places. -/
def ulp (q : ℚ) : ℚ := (2:ℚ)^(Int.log 2 q - 52)

def double (q : ℚ) : ℚ := nearest (q / ulp q) * ulp q

section
variable {q r : ℚ}

theorem nearestBounds (q : ℚ) : ⌊q⌋ ≤ nearest q ∧ nearest q ≤ ⌊q⌋ + 1 := by
  unfold nearest
  split_ifs <;> omega

theorem nearestInt (n : ℤ) : nearest n = n := by simp [nearest]

theorem nearestMono (le : q ≤ r) : nearest q ≤ nearest r := by
  have floors := Int.floor_le_floor le
  rcases Int.lt_or_eq_of_le floors with less | same
  · have upper := (nearestBounds q).2
    have lower := (nearestBounds r).1
    omega
  · unfold nearest
    rw [same]
    split_ifs <;> first | omega | (exfalso; linarith)

theorem nearestNear (q : ℚ) : |nearest q - q| ≤ 1/2 := by
  have floor := Int.floor_le q
  have above := Int.lt_floor_add_one q
  unfold nearest
  split_ifs <;> rw [abs_le] <;> push_cast <;> constructor <;> linarith

theorem ulpPos (q : ℚ) : 0 < ulp q := zpow_pos (by norm_num) _

theorem ulpBinade (q : ℚ) : (2:ℚ)^52 * ulp q = 2^Int.log 2 q := by
  rw [ulp,← zpow_natCast,← zpow_add₀ (by norm_num)]
  congr 1
  omega

theorem binadeTwice (q : ℚ) : (2:ℚ)^(Int.log 2 q + 1) = 2^53 * ulp q := by
  rw [zpow_add₀ (by norm_num),zpow_one,← ulpBinade]
  ring

/- The places of a number span its binade. -/
theorem binade (pos : 0 < q) : (2:ℚ)^52 ≤ q / ulp q ∧ q / ulp q < 2^53 := by
  have lower := Int.zpow_log_le_self (b := 2) (by decide) pos
  have upper := Int.lt_zpow_succ_log_self (b := 2) (by decide) q
  push_cast at lower upper
  rw [← ulpBinade] at lower
  rw [binadeTwice] at upper
  exact ⟨(le_div_iff₀ (ulpPos q)).2 lower,(div_lt_iff₀ (ulpPos q)).2 upper⟩

/- Rounding stays in the binade, or comes to the next one's first number. -/
theorem doubleBinade (pos : 0 < q) : (2:ℚ)^Int.log 2 q ≤ double q ∧ double q ≤ 2^(Int.log 2 q + 1) := by
  obtain ⟨lower,upper⟩ := binade pos
  have bottom : (2^52 : ℤ) ≤ nearest (q / ulp q) := by
    rw [← nearestInt (2^52)]
    exact nearestMono (by push_cast; exact lower)
  have top : nearest (q / ulp q) ≤ (2^53 : ℤ) := by
    rw [← nearestInt (2^53)]
    exact nearestMono (by push_cast; exact upper.le)
  have bottomQ : (2:ℚ)^52 ≤ nearest (q / ulp q) := by exact_mod_cast bottom
  have topQ : (nearest (q / ulp q) : ℚ) ≤ 2^53 := by exact_mod_cast top
  rw [← ulpBinade,binadeTwice]
  exact ⟨mul_le_mul_of_nonneg_right bottomQ (ulpPos q).le,mul_le_mul_of_nonneg_right topQ (ulpPos q).le⟩

theorem doublePos (pos : 0 < q) : 0 < double q := lt_of_lt_of_le (zpow_pos (by norm_num) _) (doubleBinade pos).1

theorem doubleMono (pos : 0 < q) (le : q ≤ r) : double q ≤ double r := by
  have positive := lt_of_lt_of_le pos le
  rcases Int.lt_or_eq_of_le (Int.log_mono_right (b := 2) pos le) with less | same
  · calc double q ≤ 2^(Int.log 2 q + 1) := (doubleBinade pos).2
      _ ≤ 2^Int.log 2 r := zpow_le_zpow_right₀ (by norm_num) (by omega)
      _ ≤ double r := (doubleBinade positive).1
  · have ulps : ulp q = ulp r := by rw [ulp,ulp,same]
    have places : nearest (q / ulp q) ≤ nearest (r / ulp r) := by
      rw [ulps]
      exact nearestMono (div_le_div_of_nonneg_right le (ulpPos r).le)
    rw [double,double,← ulps]
    rw [← ulps] at places
    exact mul_le_mul_of_nonneg_right (by exact_mod_cast places) (ulpPos q).le

theorem doubleNear (pos : 0 < q) : |double q - q| ≤ q / 2^53 := by
  have near := nearestNear (q / ulp q)
  have unit := ulpPos q
  have lower := (le_div_iff₀ unit).1 (binade pos).1
  have split : double q - q = (nearest (q / ulp q) - q / ulp q) * ulp q := by
    rw [double,sub_mul,div_mul_cancel₀ q unit.ne']
  rw [split,abs_mul,abs_of_pos unit,le_div_iff₀ (by norm_num)]
  nlinarith

end

end TitCo.Binary64
