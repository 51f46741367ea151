import TitCo.Program

/-! The part of AArch64 that a hand-written context switch uses: arithmetic on addresses, loads and stores
of one word or two, and returns through a register. sp is a multiple of 16 wherever it is a base, so the
check of that is left out. Nothing here touches a floating-point register. -/
namespace TitCo.Arm64
open ByteMemory Program WordMemory

inductive Reg where
  | x0 | x1 | x2 | x3 | x4 | x5 | x6 | x7 | x8 | x9 | x10 | x11 | x12 | x13 | x14 | x15
  | x16 | x17 | x18 | x19 | x20 | x21 | x22 | x23 | x24 | x25 | x26 | x27 | x28 | x29 | x30 | sp
  deriving DecidableEq, Repr

/-- `d` are the low halves of v0 to v31. -/
structure Machine where
  reg : Reg → Word
  d : Nat → Word
  mem : Memory
  pc : Word

/-- Operands stand in the order of the listings, destination first. -/
inductive Instr where
  | add (dst a b : Reg)
  | addImm (dst a : Reg) (imm : Word)
  | subImm (dst a : Reg) (imm : Word)
  | andImm (dst a : Reg) (imm : Word)
  | mov (dst src : Reg)
  | movImm (dst : Reg) (imm : Word)
  | adr (dst : Reg) (label : Word)
  | str (src base : Reg) (disp : Nat)
  | stp (first second base : Reg) (disp : Nat)
  | ldr (dst base : Reg) (disp : Nat)
  | ldp (first second base : Reg) (disp : Nat)
  | bl (target : Word)
  | ret (target : Reg)
  deriving DecidableEq, Repr

def Machine.set (s : Machine) (r : Reg) (v : Word) : Machine := {s with reg := Function.update s.reg r v}

def Machine.address (s : Machine) (base : Reg) (disp : Nat) : Nat := (s.reg base + BitVec.ofNat 64 disp).toNat

/-- pc is the address behind the instruction. -/
def effect : Instr → Machine → Machine
  | .add dst a b, s => s.set dst (s.reg a + s.reg b)
  | .addImm dst a imm, s => s.set dst (s.reg a + imm)
  | .subImm dst a imm, s => s.set dst (s.reg a - imm)
  | .andImm dst a imm, s => s.set dst (s.reg a &&& imm)
  | .mov dst src, s => s.set dst (s.reg src)
  | .movImm dst imm, s => s.set dst imm
  | .adr dst label, s => s.set dst label
  | .str src base disp, s => {s with mem := writeWord s.mem (s.address base disp) (s.reg src)}
  | .stp first second base disp, s =>
      {s with mem := writeWords s.mem (s.address base disp) [s.reg first,s.reg second]}
  | .ldr dst base disp, s => s.set dst (readWord s.mem (s.address base disp))
  | .ldp first second base disp, s =>
      (s.set first (readWord s.mem (s.address base disp))).set second (readWord s.mem (s.address base disp + 8))
  | .bl _, s => s.set .x30 s.pc
  | .ret _, s => s

def target : Instr → Machine → Option Word
  | .bl label, _ => some label
  | .ret r, s => some (s.reg r)
  | _, _ => none

def straight : Instr → Bool
  | .bl _ => false
  | .ret _ => false
  | _ => true

instance : Isa Machine Instr where
  pc := Machine.pc
  goto s a := {s with pc := a}
  effect := effect
  target := target
  halts _ := false
  straight := straight
  pcGoto _ _ := rfl
  gotoGoto _ _ _ := rfl
  gotoPc _ := rfl
  straightEffect i s a straight_ := by
    cases i <;> first | exact Bool.noConfusion straight_ | rfl
  straightTarget i s straight_ := by
    cases i <;> first | exact Bool.noConfusion straight_ | rfl
  straightRuns _ _ := rfl

section
variable {code : Code Instr} {s : Machine}

@[simp] theorem isaEffect (i : Instr) (s : Machine) : Isa.effect i s = effect i s := rfl

@[simp] theorem setReg (s : Machine) (r : Reg) (v : Word) : (s.set r v).reg = Function.update s.reg r v := rfl
@[simp] theorem setMem (s : Machine) (r : Reg) (v : Word) : (s.set r v).mem = s.mem := rfl
@[simp] theorem setD (s : Machine) (r : Reg) (v : Word) : (s.set r v).d = s.d := rfl
@[simp] theorem setPc (s : Machine) (r : Reg) (v : Word) : (s.set r v).pc = s.pc := rfl

theorem addressToNat {base : Reg} {disp : Nat} (below : (s.reg base).toNat + disp < 2^64) :
    s.address base disp = (s.reg base).toNat + disp := addToNat below

/-- A block that ends in a return. -/
theorem stepsReturn {is : List Instr} {r : Reg} {b : Word} (listing : Listing code s.pc (is ++ [.ret r]) b)
    (all : ∀ i ∈ is, straight i = true) :
    steps code (is.length + 1) s = some {line is s with pc := (line is s).reg r} :=
  @stepsInto Instr Machine _ code s is (.ret r) b listing all rfl

/-- A block that ends in a call. -/
theorem stepsCall {is : List Instr} {f b : Word} (listing : Listing code s.pc (is ++ [.bl f]) b)
    (all : ∀ i ∈ is, straight i = true) :
    steps code (is.length + 1) s = some {(line is s).set .x30 b with pc := f} :=
  @stepsInto Instr Machine _ code s is (.bl f) b listing all rfl

end

/- Pairs stored one behind the other from sp + 16*i on. -/
def storePairs (i : Nat) : List (Reg × Reg) → List Instr
  | [] => []
  | (a,b)::ps => .stp a b .sp (16*i) :: storePairs (i+1) ps

def loadPairs (i : Nat) : List (Reg × Reg) → List Instr
  | [] => []
  | (a,b)::ps => .ldp a b .sp (16*i) :: loadPairs (i+1) ps

def flat (ps : List (Reg × Reg)) : List Reg := ps.flatMap (fun p => [p.1,p.2])

/- What loads of `rs` from the words at `a` do. -/
structure Filled (s t : Machine) (rs : List Reg) (a : Nat) : Prop where
  mem : t.mem = s.mem
  d : t.d = s.d
  held : rs.map t.reg = words s.mem a rs.length
  kept : ∀ r, r ∉ rs → t.reg r = s.reg r

section
variable {s : Machine} {i : Nat} {ps : List (Reg × Reg)}

theorem lineStores (room : (s.reg .sp).toNat + 16*(i + ps.length) ≤ 2^64) : line (storePairs i ps) s =
    {s with mem := writeWords s.mem ((s.reg .sp).toNat + 16*i) ((flat ps).map s.reg)} := by
  induction ps generalizing s i with
  | nil => rfl
  | cons p ps ih =>
    rw [List.length_cons] at room
    have here : s.address .sp (16*i) = (s.reg .sp).toNat + 16*i := addressToNat (by omega)
    have rest := @ih {s with mem := writeWords s.mem (s.address .sp (16*i)) [s.reg p.1,s.reg p.2]} (i+1)
      (by dsimp only; omega)
    have next : (s.reg .sp).toNat + 16*(i+1) = (s.reg .sp).toNat + 16*i + 8*[s.reg p.1,s.reg p.2].length := by
      simp only [List.length_cons,List.length_nil]
      omega
    refine rest.trans ?_
    dsimp only
    rw [here,next,← writeWordsAppend]
    rfl

theorem lineLoads (room : (s.reg .sp).toNat + 16*(i + ps.length) ≤ 2^64) (other : .sp ∉ flat ps) (once : (flat ps).Nodup) :
    Filled s (line (loadPairs i ps) s) (flat ps) ((s.reg .sp).toNat + 16*i) := by
  induction ps generalizing s i with
  | nil => exact ⟨rfl,rfl,rfl,fun _ _ => rfl⟩
  | cons p ps ih =>
    obtain ⟨a,b⟩ := p
    rw [List.length_cons] at room
    have shape : flat ((a,b)::ps) = a::b::flat ps := rfl
    rw [shape] at other once ⊢
    simp only [List.mem_cons,not_or] at other
    obtain ⟨notA,notB,other⟩ := other
    simp only [List.nodup_cons,List.mem_cons,not_or] at once
    obtain ⟨⟨apart,outA⟩,outB,once⟩ := once
    have here : s.address .sp (16*i) = (s.reg .sp).toNat + 16*i := addressToNat (by omega)
    have sp : (effect (.ldp a b .sp (16*i)) s).reg .sp = s.reg .sp := by
      simp [effect,Function.update_of_ne notA,Function.update_of_ne notB]
    obtain ⟨mem,d,held,kept⟩ := @ih (effect (.ldp a b .sp (16*i)) s) (i+1) (by rw [sp]; omega) other once
    rw [sp] at held
    have left : line (loadPairs i ((a,b)::ps)) s = line (loadPairs (i+1) ps) (effect (.ldp a b .sp (16*i)) s) := rfl
    rw [left]
    refine ⟨mem,d,?_,?_⟩
    · have first : (line (loadPairs (i+1) ps) (effect (.ldp a b .sp (16*i)) s)).reg a =
          readWord s.mem ((s.reg .sp).toNat + 16*i) := by
        rw [kept a outA]
        simp [effect,Function.update_of_ne apart,here]
      have second : (line (loadPairs (i+1) ps) (effect (.ldp a b .sp (16*i)) s)).reg b =
          readWord s.mem ((s.reg .sp).toNat + 16*i + 8) := by
        rw [kept b outB]
        simp [effect,here]
      rw [List.map_cons,List.map_cons,held,first,second]
      rfl
    · intro r out
      simp only [List.mem_cons,not_or] at out
      rw [kept r out.2.2]
      simp [effect,Function.update_of_ne out.1,Function.update_of_ne out.2.1]

end

end TitCo.Arm64
