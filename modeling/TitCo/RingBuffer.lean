import TitCo.ByteMemory

/-! A ring of equal blocks in byte memory. `r` is the slot of the oldest block and
`vals` the blocks from there on, wrapping at `cap`. -/
namespace TitCo.RingBuffer
open ByteMemory

def slot (cap blk r i : Nat) : Nat := (r+i) % cap * blk

def Holds (m : Memory) (cap blk r : Nat) (vals : List (List UInt8)) : Prop :=
  ∀ i v, vals[i]? = some v → load m (slot cap blk r i) blk = v

theorem holdsNil (m : Memory) (cap blk r : Nat) : Holds m cap blk r [] := by
  intro i v h
  simp at h

theorem slotZero {cap blk r : Nat} (low : r < cap) : slot cap blk r 0 = r * blk := by
  rw [slot,Nat.add_zero,Nat.mod_eq_of_lt low]

theorem slotNext (cap blk r i : Nat) : slot cap blk ((r+1) % cap) i = slot cap blk r (i+1) := by
  rw [slot,slot,Nat.mod_add_mod,show r + 1 + i = r + (i+1) by omega]

theorem slotsDiffer (cap r : Nat) {i j : Nat} (order : i < j) (turn : j < i + cap) : (r+i) % cap ≠ (r+j) % cap := by
  intro same
  have divides : cap ∣ (r+j) - (r+i) :=
    Nat.dvd_of_mod_eq_zero (Nat.sub_mod_eq_zero_of_mod_eq same.symm)
  have small : (r+j) - (r+i) < cap := by omega
  have zero := Nat.eq_zero_of_dvd_of_lt divides small
  omega

theorem blocksApart {x y blk : Nat} (differ : x ≠ y) : x*blk + blk ≤ y*blk ∨ y*blk + blk ≤ x*blk := by
  rcases Nat.lt_or_gt_of_ne differ with less | more
  · exact Or.inl (by rw [← Nat.add_one_mul]; exact Nat.mul_le_mul_right blk less)
  · exact Or.inr (by rw [← Nat.add_one_mul]; exact Nat.mul_le_mul_right blk more)

theorem holdsPush {m : Memory} {cap blk r : Nat} {vals : List (List UInt8)} {v : List UInt8}
    (holds : Holds m cap blk r vals) (room : vals.length < cap) (size : v.length = blk) :
    Holds (store m (slot cap blk r vals.length) v) cap blk r (vals ++ [v]) := by
  intro i u h
  by_cases last : i = vals.length
  · subst i
    simp only [List.getElem?_concat_length,Option.some.injEq] at h
    subst u
    rw [← size]
    exact loadStoreSame _ _ _
  · have inside : i < vals.length := by
      have bound := (List.getElem?_eq_some_iff.1 h).1
      rw [List.length_append,List.length_singleton] at bound
      omega
    rw [List.getElem?_append_left inside] at h
    rw [loadStoreDisjoint,holds i u h]
    rw [size]
    exact blocksApart (slotsDiffer cap r inside (by omega))

theorem holdsPop {m : Memory} {cap blk r : Nat} {vals : List (List UInt8)} {v : List UInt8}
    (low : r < cap) (holds : Holds m cap blk r (v::vals)) :
    load m (r*blk) blk = v ∧ Holds m cap blk ((r+1) % cap) vals := by
  refine ⟨?_,?_⟩
  · rw [← slotZero low]
    exact holds 0 v rfl
  · intro i u h
    rw [slotNext]
    exact holds (i+1) u h

/-- The offset after a block, with the wrap made by comparison. -/
theorem slotAdvance {cap blk x : Nat} (apart : 0 < blk ∨ cap = 1) (low : x < cap) :
    (if x*blk + blk = cap*blk then 0 else x*blk + blk) = (x+1) % cap * blk := by
  rw [← Nat.add_one_mul]
  by_cases last : x+1 = cap
  · rw [if_pos (by rw [last]),last,Nat.mod_self,Nat.zero_mul]
  · have inner : 0 < blk := apart.resolve_right (by omega)
    rw [if_neg,Nat.mod_eq_of_lt (by omega)]
    intro same
    exact last (Nat.eq_of_mul_eq_mul_right inner same)

theorem slotsMeet {cap blk r n : Nat} (apart : 0 < blk ∨ cap = 1) (low : r < cap) (fits : n ≤ cap) :
    r*blk = (r+n) % cap * blk ↔ n = 0 ∨ n = cap := by
  constructor
  · intro same
    by_contra between
    rcases apart with inner | single
    · have equal := Nat.eq_of_mul_eq_mul_right inner same
      rw [← Nat.mod_eq_of_lt low] at equal
      have some : 0 < n := by omega
      exact slotsDiffer cap r some (by omega) (by simpa using equal)
    · omega
  · rintro (rfl | rfl)
    · rw [Nat.add_zero,Nat.mod_eq_of_lt low]
    · rw [Nat.add_mod_right,Nat.mod_eq_of_lt low]

end TitCo.RingBuffer
