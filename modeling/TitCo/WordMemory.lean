import Mathlib.Data.Nat.Digits.Defs
import TitCo.ByteMemory

/-! Words of 64 bits in a memory of bytes, the low byte first, and addresses as such words. -/
namespace TitCo.WordMemory
open ByteMemory

abbrev Word := BitVec 64

def wordBytes (v : Word) : List UInt8 := (List.range 8).map (fun i => UInt8.ofNat (v.toNat / 256^i))

def readWord (m : Memory) (a : Nat) : Word := BitVec.ofNat 64 (Nat.ofDigits 256 ((load m a 8).map UInt8.toNat))

def writeWord (m : Memory) (a : Nat) (v : Word) : Memory := store m a (wordBytes v)

/-- `n` words, the one at the lowest address first. -/
def words (m : Memory) (a : Nat) : Nat → List Word
  | 0 => []
  | n+1 => readWord m a :: words m (a+8) n

def writeWords (m : Memory) (a : Nat) : List Word → Memory
  | [] => m
  | v::vs => writeWords (writeWord m a v) (a+8) vs

section
variable {m k : Memory} {a n : Nat} {v : Word}

theorem wordBytesLength (v : Word) : (wordBytes v).length = 8 := by simp [wordBytes]

theorem readWrite (m : Memory) (a : Nat) (v : Word) : readWord (writeWord m a v) a = v := by
  have held : load (writeWord m a v) a 8 = wordBytes v := by
    have same := loadStoreSame m a (wordBytes v)
    rwa [wordBytesLength] at same
  have small := v.isLt
  apply BitVec.eq_of_toNat_eq
  simp only [readWord,held,wordBytes,List.range_succ,List.range_zero,List.map_cons,List.map_nil,
    List.nil_append,List.cons_append,Nat.ofDigits_cons,Nat.ofDigits_nil,UInt8.toNat_ofNat',BitVec.toNat_ofNat]
  omega

theorem readWordCongr (same : ∀ x, a ≤ x → x < a+8 → m x = k x) : readWord m a = readWord k a := by
  rw [readWord,readWord,loadCongr same]

theorem writeOutside {x : Nat} (out : x < a ∨ a + 8 ≤ x) : writeWord m a v x = m x :=
  storeOutside m (by rwa [wordBytesLength])

theorem readWriteOther {b : Nat} (apart : a + 8 ≤ b ∨ b + 8 ≤ a) : readWord (writeWord m b v) a = readWord m a :=
  readWordCongr (fun _ _ _ => writeOutside (by omega))

theorem wordsCongr (same : ∀ x, a ≤ x → x < a + 8*n → m x = k x) : words m a n = words k a n := by
  induction n generalizing a with
  | zero => rfl
  | succ n ih =>
    simp only [words]
    rw [readWordCongr (fun x lower upper => same x lower (by omega)),
      ih (fun x lower upper => same x (by omega) (by omega))]

theorem wordsAppend (m : Memory) (a i j : Nat) : words m a (i+j) = words m a i ++ words m (a + 8*i) j := by
  induction i generalizing a with
  | zero => simp [words]
  | succ i ih =>
    rw [Nat.succ_add]
    simp only [words,List.cons_append,ih]
    congr 3
    omega

theorem wordsLast (m : Memory) (a n : Nat) : words m a (n+1) = words m a n ++ [readWord m (a + 8*n)] :=
  wordsAppend m a n 1

theorem writeWordsOutside {vs : List Word} {x : Nat} (out : x < a ∨ a + 8*vs.length ≤ x) :
    writeWords m a vs x = m x := by
  induction vs generalizing m a with
  | nil => rfl
  | cons v vs ih =>
    rw [List.length_cons] at out
    rw [writeWords,ih (by omega),writeOutside (by omega)]

theorem wordsWrite (m : Memory) (a : Nat) (vs : List Word) : words (writeWords m a vs) a vs.length = vs := by
  induction vs generalizing m a with
  | nil => rfl
  | cons v vs ih =>
    rw [writeWords,List.length_cons,words,ih,readWordCongr (fun x _ upper => writeWordsOutside (.inl upper)),readWrite]

theorem writeWordsAppend (m : Memory) (a : Nat) (us vs : List Word) :
    writeWords m a (us ++ vs) = writeWords (writeWords m a us) (a + 8*us.length) vs := by
  induction us generalizing m a with
  | nil => rfl
  | cons u us ih =>
    rw [List.cons_append,writeWords,ih,writeWords,List.length_cons]
    congr 1
    omega

theorem subToNat {v : Word} {n : Nat} (below : n ≤ v.toNat) : (v - BitVec.ofNat 64 n).toNat = v.toNat - n := by
  have small := v.isLt
  rw [BitVec.toNat_sub,BitVec.toNat_ofNat]
  omega

theorem addToNat {v : Word} {n : Nat} (below : v.toNat + n < 2^64) : (v + BitVec.ofNat 64 n).toNat = v.toNat + n := by
  rw [BitVec.toNat_add,BitVec.toNat_ofNat]
  omega

theorem alignToNat (v : Word) : (v &&& -16#64).toNat = v.toNat - v.toNat % 16 := by
  have shifted : v &&& -16#64 = (v >>> 4) <<< 4 := by
    ext i hi
    have mask : (-16#64).getLsbD i = decide (4 ≤ i) := by
      have bits : ∀ j : Fin 64, (-16#64).getLsbD j = decide (4 ≤ j.val) := by decide
      exact bits ⟨i,hi⟩
    simp only [BitVec.getElem_and,BitVec.getElem_shiftLeft,BitVec.getElem_ushiftRight]
    rw [← BitVec.getLsbD_eq_getElem,← BitVec.getLsbD_eq_getElem,mask]
    by_cases low : i < 4
    · simp [low]
    · simp [low,show 4 ≤ i by omega,show 4 + (i - 4) = i by omega]
  have small := v.isLt
  rw [shifted,BitVec.toNat_shiftLeft,BitVec.toNat_ushiftRight,Nat.shiftLeft_eq,Nat.shiftRight_eq_div_pow]
  omega

end

end TitCo.WordMemory
