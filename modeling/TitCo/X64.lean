import TitCo.Program

/-! The part of x86-64 that a hand-written context switch uses: moves, pushes and pops of whole
registers, and jumps through a register. Flags are left out, nothing here branches on them. -/
namespace TitCo.X64
open ByteMemory Program WordMemory

inductive Reg where
  | rax | rbx | rcx | rdx | rsi | rdi | rbp | rsp | r8 | r9 | r10 | r11 | r12 | r13 | r14 | r15
  deriving DecidableEq, Repr

structure Machine where
  reg : Reg → Word
  mem : Memory
  rip : Word

/-- Operands stand in the order of the listings, source first. -/
inductive Instr where
  | addq (src dst : Reg)
  | andq (src dst : Reg)
  | xorq (src dst : Reg)
  | movq (src dst : Reg)
  | movabs (imm : Word) (dst : Reg)
  | leaq (disp : Word) (base dst : Reg)
  | leaLabel (label : Word) (dst : Reg)
  | store (src : Reg) (disp : Word) (base : Reg)
  | pushq (src : Reg)
  | popq (dst : Reg)
  | jmp (target : Reg)
  | call (target : Word)
  | ret
  | hlt
  deriving DecidableEq, Repr

def Machine.set (s : Machine) (r : Reg) (v : Word) : Machine := {s with reg := Function.update s.reg r v}

def Machine.top (s : Machine) : Word := readWord s.mem (s.reg .rsp).toNat

def Machine.push (s : Machine) (v : Word) : Machine :=
  {s.set .rsp (s.reg .rsp - 8) with mem := writeWord s.mem (s.reg .rsp - 8).toNat v}

/-- A call of `f` that is to return to `back`. -/
def Machine.invoke (s : Machine) (f back : Word) : Machine := {s.push back with rip := f}

def Machine.drop (s : Machine) : Machine := s.set .rsp (s.reg .rsp + 8)

/-- What an instruction does to the registers and the memory; rip is the address behind it. -/
def effect : Instr → Machine → Machine
  | .addq src dst, s => s.set dst (s.reg dst + s.reg src)
  | .andq src dst, s => s.set dst (s.reg dst &&& s.reg src)
  | .xorq src dst, s => s.set dst (s.reg dst ^^^ s.reg src)
  | .movq src dst, s => s.set dst (s.reg src)
  | .movabs imm dst, s => s.set dst imm
  | .leaq disp base dst, s => s.set dst (s.reg base + disp)
  | .leaLabel label dst, s => s.set dst label
  | .store src disp base, s => {s with mem := writeWord s.mem (s.reg base + disp).toNat (s.reg src)}
  | .pushq src, s => s.push (s.reg src)
  | .popq dst, s => s.drop.set dst s.top
  | .call _, s => s.push s.rip
  | .ret, s => s.drop
  | .jmp _, s => s
  | .hlt, s => s

/-- Where it goes on, when that is not the next instruction. -/
def target : Instr → Machine → Option Word
  | .jmp r, s => some (s.reg r)
  | .call label, _ => some label
  | .ret, s => some s.top
  | _, _ => none

def straight : Instr → Bool
  | .jmp _ => false
  | .call _ => false
  | .ret => false
  | .hlt => false
  | _ => true

def halts : Instr → Bool
  | .hlt => true
  | _ => false

instance : Isa Machine Instr where
  pc := Machine.rip
  goto s a := {s with rip := a}
  effect := effect
  target := target
  halts := halts
  straight := straight
  pcGoto _ _ := rfl
  gotoGoto _ _ _ := rfl
  gotoPc _ := rfl
  straightEffect i s a straight_ := by
    cases i <;> first | exact Bool.noConfusion straight_ | rfl
  straightTarget i s straight_ := by
    cases i <;> first | exact Bool.noConfusion straight_ | rfl
  straightRuns i straight_ := by
    cases i <;> first | exact Bool.noConfusion straight_ | rfl

section
variable {code : Code Instr} {s : Machine}

@[simp] theorem isaEffect (i : Instr) (s : Machine) : Isa.effect i s = effect i s := rfl

@[simp] theorem setReg (s : Machine) (r : Reg) (v : Word) : (s.set r v).reg = Function.update s.reg r v := rfl
@[simp] theorem setMem (s : Machine) (r : Reg) (v : Word) : (s.set r v).mem = s.mem := rfl
@[simp] theorem setRip (s : Machine) (r : Reg) (v : Word) : (s.set r v).rip = s.rip := rfl

@[simp] theorem pushReg (s : Machine) (v : Word) :
    (s.push v).reg = Function.update s.reg .rsp (s.reg .rsp - 8) := rfl
@[simp] theorem dropReg (s : Machine) : s.drop.reg = Function.update s.reg .rsp (s.reg .rsp + 8) := rfl
@[simp] theorem dropMem (s : Machine) : s.drop.mem = s.mem := rfl

/-- A block that ends in a jump through a register. -/
theorem stepsBlock {is : List Instr} {r : Reg} {b : Word} (listing : Listing code s.rip (is ++ [.jmp r]) b)
    (all : ∀ i ∈ is, straight i = true) :
    steps code (is.length + 1) s = some {line is s with rip := (line is s).reg r} :=
  @stepsInto Instr Machine _ code s is (.jmp r) b listing all rfl

theorem stepsReturn {is : List Instr} {b : Word} (listing : Listing code s.rip (is ++ [.ret]) b)
    (all : ∀ i ∈ is, straight i = true) :
    steps code (is.length + 1) s = some {(line is s).drop with rip := (line is s).top} :=
  @stepsInto Instr Machine _ code s is .ret b listing all rfl

end

/- What pushing `vs`, the first one first, leaves behind. -/
structure Pushed (s t : Machine) (vs : List Word) : Prop where
  reg : t.reg = Function.update s.reg .rsp (s.reg .rsp - BitVec.ofNat 64 (8 * vs.length))
  rip : t.rip = s.rip
  kept : ∀ x, x + 8 * vs.length < (s.reg .rsp).toNat ∨ (s.reg .rsp).toNat ≤ x → t.mem x = s.mem x
  held : words t.mem ((s.reg .rsp).toNat - 8 * vs.length) vs.length = vs.reverse

structure Popped (s t : Machine) (rs : List Reg) : Prop where
  mem : t.mem = s.mem
  rip : t.rip = s.rip
  sp : t.reg .rsp = s.reg .rsp + BitVec.ofNat 64 (8 * rs.length)
  held : rs.map t.reg = words s.mem (s.reg .rsp).toNat rs.length
  kept : ∀ r, r ∉ rs → r ≠ .rsp → t.reg r = s.reg r

section
variable {s : Machine}

theorem linePushes {rs : List Reg} (other : .rsp ∉ rs) (room : 8 * rs.length ≤ (s.reg .rsp).toNat) :
    Pushed s (line (rs.map .pushq) s) (rs.map s.reg) := by
  induction rs generalizing s with
  | nil => exact ⟨by simp [line],rfl,fun _ _ => rfl,rfl⟩
  | cons r rs ih =>
    simp only [List.mem_cons,not_or] at other
    simp only [List.length_cons] at room
    have eight : (s.reg .rsp - 8).toNat = (s.reg .rsp).toNat - 8 := @subToNat (s.reg .rsp) 8 (by omega)
    have others : rs.map (s.push (s.reg r)).reg = rs.map s.reg := by
      apply List.map_congr_left
      intro q inside
      have apart : q ≠ .rsp := by
        rintro rfl
        exact other.2 inside
      rw [pushReg,Function.update_of_ne apart]
    have sp : (s.push (s.reg r)).reg .rsp = s.reg .rsp - 8 := by simp
    have rest := @ih (s.push (s.reg r)) other.2 (by rw [sp,eight]; omega)
    rw [others] at rest
    obtain ⟨reg,rip,kept,held⟩ := rest
    rw [sp,List.length_map] at reg
    rw [sp,eight,List.length_map] at kept held
    refine ⟨?_,rip,?_,?_⟩
    · change (line (rs.map .pushq) (s.push (s.reg r))).reg = _
      rw [reg]
      simp only [Machine.push,setReg,Function.update_idem,List.length_map,List.length_cons]
      congr 1
      apply BitVec.eq_of_toNat_eq
      rw [subToNat (by rw [eight]; omega),eight,subToNat (by omega)]
      omega
    · intro x out
      simp only [List.length_map,List.length_cons] at out
      change (line (rs.map .pushq) (s.push (s.reg r))).mem x = _
      rw [kept x (by omega)]
      exact writeOutside (by rw [eight]; omega)
    · have place : (s.reg .rsp).toNat - 8 * (rs.length + 1) = (s.reg .rsp).toNat - 8 - 8 * rs.length := by omega
      have upper : (s.reg .rsp).toNat - 8 - 8 * rs.length + 8 * rs.length = (s.reg .rsp).toNat - 8 := by omega
      change words (line (rs.map .pushq) (s.push (s.reg r))).mem _ _ = _
      rw [List.length_map,List.length_cons,place,wordsLast,held,upper,
        readWordCongr (fun x lower _ => kept x (.inr lower))]
      have pushed : readWord (s.push (s.reg r)).mem ((s.reg .rsp).toNat - 8) = s.reg r := by
        rw [← eight]
        exact readWrite s.mem _ _
      simp only [pushed,List.map_cons,List.reverse_cons]

theorem linePops {rs : List Reg} (other : .rsp ∉ rs) (once : rs.Nodup)
    (room : (s.reg .rsp).toNat + 8 * rs.length < 2^64) : Popped s (line (rs.map .popq) s) rs := by
  induction rs generalizing s with
  | nil => exact ⟨rfl,rfl,by simp [line],rfl,fun _ _ _ => rfl⟩
  | cons r rs ih =>
    simp only [List.mem_cons,not_or] at other
    simp only [List.length_cons] at room
    obtain ⟨out,once⟩ := List.nodup_cons.1 once
    have eight : (s.reg .rsp + 8).toNat = (s.reg .rsp).toNat + 8 := @addToNat (s.reg .rsp) 8 (by omega)
    have sp : (s.drop.set r s.top).reg .rsp = s.reg .rsp + 8 := by
      rw [setReg,Function.update_of_ne other.1,dropReg,Function.update_self]
    obtain ⟨mem,rip,moved,held,kept⟩ := @ih (s.drop.set r s.top) other.2 once (by rw [sp,eight]; omega)
    rw [sp] at moved held
    rw [eight] at held
    have value : (line (rs.map .popq) (s.drop.set r s.top)).reg r = s.top := by
      rw [kept r out (Ne.symm other.1),setReg,Function.update_self]
    refine ⟨mem,rip,?_,?_,?_⟩
    · change (line (rs.map .popq) (s.drop.set r s.top)).reg .rsp = _
      rw [moved]
      simp only [List.length_cons]
      apply BitVec.eq_of_toNat_eq
      rw [addToNat (by rw [eight]; omega),eight,addToNat (by omega)]
      omega
    · change ((r::rs).map (line (rs.map .popq) (s.drop.set r s.top)).reg) = _
      rw [List.map_cons,value,held]
      rfl
    · intro q away apart
      simp only [List.mem_cons,not_or] at away
      change (line (rs.map .popq) (s.drop.set r s.top)).reg q = _
      rw [kept q away.2 apart,setReg,Function.update_of_ne away.1,dropReg,Function.update_of_ne apart]

end

end TitCo.X64
