import Mathlib.Algebra.Group.Int.Defs
import Mathlib.Algebra.Group.Nat.Defs

/-! The C++ integer conversions that the modelled code relies on, for a platform
with a 32-bit int and a 64-bit size_t. -/
namespace TitCo.MachineInt

def toUint32 (n : Int) : Nat := (n % 2^32).toNat
def toInt32 (n : Int) : Int := (n + 2^31) % 2^32 - 2^31
def toSizeT (n : Int) : Nat := (n % 2^64).toNat

def uint32Max : Nat := 2^32 - 1

theorem toUint32Less (n : Int) : toUint32 n < 2^32 := by
  unfold toUint32; omega

theorem toUint32Small {n : Nat} (fits : n < 2^32) : toUint32 n = n := by
  unfold toUint32; omega

theorem toInt32Small {n : Int} (lower : 0 ≤ n) (upper : n < 2^31) : toInt32 n = n := by
  unfold toInt32; omega

theorem toSizeTSmall {n : Int} (lower : 0 ≤ n) (upper : n < 2^64) : toSizeT n = n.toNat := by
  unfold toSizeT; omega

end TitCo.MachineInt
