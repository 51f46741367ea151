import Mathlib.Data.List.Basic

/-! Byte-addressed memory with block copies. Addresses are unbounded: what an
allocation covers is stated where it matters, so an access outside it is visible
and not cut off. -/
namespace TitCo.ByteMemory

abbrev Memory := Nat → UInt8

def load (m : Memory) (a : Nat) : Nat → List UInt8
  | 0 => []
  | n+1 => m a :: load m (a+1) n

def store (m : Memory) (a : Nat) (bs : List UInt8) : Memory :=
  fun x => if a ≤ x ∧ x < a + bs.length then bs.getD (x-a) 0 else m x

@[simp] theorem loadLength (m : Memory) (a n : Nat) : (load m a n).length = n := by
  induction n generalizing a with
  | zero => rfl
  | succ n ih => simp [load,ih]

theorem loadAt (m : Memory) (a n i : Nat) (inside : i < n) : (load m a n)[i]? = some (m (a+i)) := by
  induction n generalizing a i with
  | zero => omega
  | succ n ih =>
    cases i with
    | zero => rfl
    | succ i =>
      simp only [load,List.getElem?_cons_succ,ih (a+1) i (by omega)]
      congr 2
      omega

theorem loadCongr {m k : Memory} {a n : Nat} (same : ∀ x, a ≤ x → x < a+n → m x = k x) :
    load m a n = load k a n := by
  induction n generalizing a with
  | zero => rfl
  | succ n ih =>
    simp only [load]
    rw [same a (Nat.le_refl a) (by omega),ih (fun x lower upper => same x (by omega) (by omega))]

theorem loadTake (m : Memory) (a : Nat) {k n : Nat} (less : k ≤ n) :
    (load m a n).take k = load m a k := by
  induction k generalizing a n with
  | zero => rfl
  | succ k ih =>
    cases n with
    | zero => omega
    | succ n => simp only [load,List.take_succ_cons,ih (a+1) (Nat.le_of_succ_le_succ less)]

theorem loadAppend (m : Memory) (a i j : Nat) : load m a (i+j) = load m a i ++ load m (a+i) j := by
  induction i generalizing a with
  | zero => simp [load]
  | succ i ih =>
    rw [Nat.succ_add]
    simp only [load,List.cons_append,ih]
    congr 3
    omega

theorem storeOutside (m : Memory) {a x : Nat} {bs : List UInt8} (out : x < a ∨ a + bs.length ≤ x) :
    store m a bs x = m x := if_neg (by omega)

theorem loadStoreDisjoint (m : Memory) {a b n : Nat} {bs : List UInt8}
    (apart : a + n ≤ b ∨ b + bs.length ≤ a) : load (store m b bs) a n = load m a n :=
  loadCongr (fun x lower upper => storeOutside m (by omega))

theorem loadStoreSame (m : Memory) (a : Nat) (bs : List UInt8) :
    load (store m a bs) a bs.length = bs := by
  apply List.ext_getElem?
  intro i
  by_cases inside : i < bs.length
  · rw [loadAt _ _ _ _ inside]
    have range : a ≤ a+i ∧ a+i < a + bs.length := by omega
    simp only [store,if_pos range,Nat.add_sub_cancel_left,List.getElem?_eq_getElem inside,
      List.getD_eq_getElem?_getD,Option.getD_some]
  · rw [List.getElem?_eq_none (by simpa using inside),List.getElem?_eq_none (by simpa using inside)]

theorem loadStorePrefix (m : Memory) (a : Nat) {bs : List UInt8} {n : Nat} (less : n ≤ bs.length) :
    load (store m a bs) a n = bs.take n := by
  rw [← loadTake _ _ less,loadStoreSame]

/- A block stored right behind another one. -/
theorem loadStoreNext {m : Memory} {a : Nat} {xs : List UInt8} (ys : List UInt8) (held : load m a xs.length = xs) :
    load (store m (a + xs.length) ys) a (xs ++ ys).length = xs ++ ys := by
  rw [List.length_append,loadAppend,loadStoreSame,loadStoreDisjoint _ (Or.inl (Nat.le_refl _)),held]

/- Two blocks stored one behind the other are one block. -/
theorem storeAppend (m : Memory) (a : Nat) (xs ys : List UInt8) :
    store (store m a xs) (a + xs.length) ys = store m a (xs ++ ys) := by
  funext x
  have width : (xs ++ ys).length = xs.length + ys.length := List.length_append
  by_cases second : a + xs.length ≤ x ∧ x < a + xs.length + ys.length
  · have both : a ≤ x ∧ x < a + (xs ++ ys).length := by omega
    rw [store,if_pos second,store,if_pos both]
    have index : x - (a + xs.length) = x - a - xs.length := by omega
    rw [List.getD_eq_getElem?_getD,List.getD_eq_getElem?_getD,List.getElem?_append_right (by omega),index]
  · rw [store,if_neg second]
    by_cases first : a ≤ x ∧ x < a + xs.length
    · have both : a ≤ x ∧ x < a + (xs ++ ys).length := by omega
      rw [store,if_pos first,store,if_pos both]
      rw [List.getD_eq_getElem?_getD,List.getD_eq_getElem?_getD,List.getElem?_append_left (by omega)]
    · have neither : ¬(a ≤ x ∧ x < a + (xs ++ ys).length) := by omega
      rw [store,if_neg first,store,if_neg neither]

/- A block replaces the front of an earlier one. -/
theorem storeFront (m : Memory) (a : Nat) {xs ys : List UInt8} (zs : List UInt8) (same : xs.length = ys.length) :
    store (store m a (xs ++ zs)) a ys = store m a (ys ++ zs) := by
  rw [← storeAppend m a xs zs,← storeAppend m a ys zs,same]
  funext x
  by_cases front : a ≤ x ∧ x < a + ys.length
  · rw [storeOutside (store m a ys) (by omega),store,if_pos front,store,if_pos front]
  · rw [storeOutside (store (store m a xs) (a + ys.length) zs) (by omega)]
    unfold store
    rw [same,if_neg front,if_neg front]

end TitCo.ByteMemory
