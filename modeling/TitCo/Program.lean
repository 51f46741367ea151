import TitCo.WordMemory

/-! Machine code as listings. Code is a map from an address to an instruction and the address behind it,
so encodings do not matter; a piece without jumps does what its instructions do one after another. -/
namespace TitCo.Program
open WordMemory

/-- `goto` sets the address that the next instruction is fetched from. `target` is where an instruction
goes on, when that is not the next one, and `straight` says that it never does. -/
class Isa (σ : Type) (ι : outParam Type) where
  pc : σ → Word
  goto : σ → Word → σ
  effect : ι → σ → σ
  target : ι → σ → Option Word
  halts : ι → Bool
  straight : ι → Bool
  pcGoto : ∀ s a, pc (goto s a) = a
  gotoGoto : ∀ s a b, goto (goto s a) b = goto s b
  gotoPc : ∀ s, goto s (pc s) = s
  straightEffect : ∀ i s a, straight i = true → effect i (goto s a) = goto (effect i s) a
  straightTarget : ∀ i s, straight i = true → target i s = none
  straightRuns : ∀ i, straight i = true → halts i = false

/-- What a caller of a function can count on when it returns: the registers
that the callee saves, the stack pointer, and the address to go on at. -/
structure Continuation where
  saved : List Word
  sp : Word
  ip : Word

abbrev Code (ι : Type) := Word → Option (ι × Word)

section
variable {ι σ : Type} [isa : Isa σ ι]

def step (code : Code ι) (s : σ) : Option σ := do
  let (i,next) ← code (isa.pc s)
  if isa.halts i then none
  else
    let t := isa.goto s next
    some (isa.goto (isa.effect i t) ((isa.target i t).getD next))

def steps (code : Code ι) : Nat → σ → Option σ
  | 0, s => some s
  | n+1, s => do
      let t ← step code s
      steps code n t

/-- `is` stands at `a` and ends before `b`. -/
def Listing (code : Code ι) : Word → List ι → Word → Prop
  | a,[],b => a = b
  | a,i::is,b => ∃ next, code a = some (i,next) ∧ Listing code next is b

/-- A program loaded from address 0, one address for each instruction. -/
def image (is : List ι) : Code ι := fun a => is[a.toNat]?.map (fun i => (i,a+1))

/-- A piece without jumps, run from its first instruction to behind its last one. -/
def line (is : List ι) (s : σ) : σ := is.foldl (fun t i => isa.effect i t) s

theorem lineAppend (is js : List ι) (s : σ) : line (is ++ js) s = line js (line is s) := List.foldl_append

theorem listingAppend {a b : Word} {code : Code ι} {is js : List ι} :
    Listing code a (is ++ js) b ↔ ∃ c, Listing code a is c ∧ Listing code c js b := by
  induction is generalizing a with
  | nil => simp [Listing]
  | cons i is ih =>
    simp only [List.cons_append,Listing,ih]
    constructor
    · rintro ⟨n,here,c,first,rest⟩
      exact ⟨c,⟨n,here,first⟩,rest⟩
    · rintro ⟨c,⟨n,here,first⟩,rest⟩
      exact ⟨n,here,c,first,rest⟩

theorem imageListing (before is after : List ι) (fits : (before ++ is).length < 2^64) :
    Listing (image (before ++ is ++ after)) (BitVec.ofNat 64 before.length) is
      (BitVec.ofNat 64 (before.length + is.length)) := by
  induction is generalizing before with
  | nil => rfl
  | cons i is ih =>
    rw [List.length_append,List.length_cons] at fits
    have here : (BitVec.ofNat 64 before.length).toNat = before.length := by
      rw [BitVec.toNat_ofNat]
      omega
    have next : BitVec.ofNat 64 before.length + 1 = BitVec.ofNat 64 (before ++ [i]).length := by
      apply BitVec.eq_of_toNat_eq
      rw [BitVec.toNat_add,List.length_append]
      simp
    have rest := ih (before ++ [i]) (by simp only [List.length_append,List.length_cons,List.length_nil]; omega)
    refine ⟨BitVec.ofNat 64 (before ++ [i]).length,?_,?_⟩
    · rw [image,here,next]
      simp
    · simpa [Nat.add_comm,Nat.add_left_comm] using rest

theorem stepsAdd (code : Code ι) (s : σ) (i j : Nat) : steps code (i+j) s = (steps code i s).bind (steps code j) := by
  induction i generalizing s with
  | zero => rw [Nat.zero_add]; rfl
  | succ i ih =>
    rw [Nat.succ_add]
    simp only [steps,bind]
    cases step code s with
    | none => rfl
    | some t => exact ih t

variable {code : Code ι} {s : σ}

theorem stepStraight {i : ι} {next : Word} (straight : isa.straight i = true) (here : code (isa.pc s) = some (i,next)) :
    step code s = some (isa.goto (isa.effect i s) next) := by
  simp only [step,here,bind,Option.bind_some,isa.straightRuns i straight,isa.straightTarget i _ straight,Option.getD_none,
    Bool.false_eq_true,if_false]
  rw [isa.straightEffect i s next straight,isa.gotoGoto]

theorem lineGoto {is : List ι} (all : ∀ i ∈ is, isa.straight i = true) (s : σ) (a : Word) :
    line is (isa.goto s a) = isa.goto (line is s) a := by
  induction is generalizing s with
  | nil => rfl
  | cons i is ih =>
    rw [line,List.foldl_cons,isa.straightEffect i s a (all i (by simp))]
    exact ih (fun j inside => all j (by simp [inside])) (isa.effect i s)

/-- Code without jumps does what its listing says and stops behind it. -/
theorem stepsLine {is : List ι} {b : Word} (listing : Listing code (isa.pc s) is b)
    (all : ∀ i ∈ is, isa.straight i = true) : steps code is.length s = some (isa.goto (line is s) b) := by
  induction is generalizing s with
  | nil =>
    cases listing
    exact congrArg some (isa.gotoPc s).symm
  | cons i is ih =>
    obtain ⟨next,here,rest⟩ := listing
    have after : ∀ j ∈ is, isa.straight j = true := fun j inside => all j (by simp [inside])
    have first := stepStraight (all i (by simp)) here
    have later := ih (s := isa.goto (isa.effect i s) next) (by rwa [isa.pcGoto]) after
    rw [lineGoto after,isa.gotoGoto] at later
    rw [List.length_cons,steps,first]
    exact later

/-- A straight piece and the instruction behind it, whatever that is. -/
theorem stepsInto {is : List ι} {i : ι} {b : Word} (listing : Listing code (isa.pc s) (is ++ [i]) b)
    (all : ∀ j ∈ is, isa.straight j = true) (runs : isa.halts i = false) : steps code (is.length + 1) s =
      some (isa.goto (isa.effect i (isa.goto (line is s) b)) ((isa.target i (isa.goto (line is s) b)).getD b)) := by
  obtain ⟨last,body,next,here,rfl⟩ := listingAppend.1 listing
  rw [stepsAdd,stepsLine body all,Option.bind_some,steps,step,isa.pcGoto,here]
  simp only [bind,Option.bind_some,runs,Bool.false_eq_true,if_false,steps,isa.gotoGoto]

end

end TitCo.Program
