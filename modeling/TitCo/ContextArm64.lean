import TitCo.Arm64

/-! tb_context_make and tb_context_jump of context_arm64.S, in the version for ELF. A context is the stack
pointer under which tb_context_jump has left x19 to x30 and the address to go on at; the callee-saved
halves of v8 to v15 are not in it. -/
namespace TitCo.ContextArm64
open ByteMemory Program WordMemory Arm64

def contextMake (end_ : Word) : List Instr :=
  [.add .x0 .x0 .x1,
   .andImm .x0 .x0 (-16#64),
   .subImm .x0 .x0 112,
   .str .x2 .x0 96,
   .adr .x1 end_,
   .str .x1 .x0 88,
   .ret .x30]

def contextEnd (exit : Word) : List Instr := [.movImm .x0 0,.bl exit]

def contextJump : List Instr :=
  [.subImm .sp .sp 112,
   .stp .x19 .x20 .sp 0,.stp .x21 .x22 .sp 16,.stp .x23 .x24 .sp 32,.stp .x25 .x26 .sp 48,.stp .x27 .x28 .sp 64,
   .stp .x29 .x30 .sp 80,.str .x30 .sp 96,
   .mov .x4 .sp,
   .mov .sp .x0,
   .ldp .x19 .x20 .sp 0,.ldp .x21 .x22 .sp 16,.ldp .x23 .x24 .sp 32,.ldp .x25 .x26 .sp 48,.ldp .x27 .x28 .sp 64,
   .ldp .x29 .x30 .sp 80,
   .mov .x0 .x4,
   .ldr .x4 .sp 96,
   .addImm .sp .sp 112,
   .ret .x4]

/-- Where the two functions and the label __end have been loaded. -/
structure Loaded (code : Code Instr) where
  make : Word
  end_ : Word
  exit : Word
  behind : Word
  jump : Word
  past : Word
  makeListing : Listing code make (contextMake end_) end_
  endListing : Listing code end_ (contextEnd exit) behind
  jumpListing : Listing code jump contextJump past

def savedPairs : List (Reg × Reg) := [(.x19,.x20),(.x21,.x22),(.x23,.x24),(.x25,.x26),(.x27,.x28),(.x29,.x30)]

def calleeSaved : List Reg := flat savedPairs

def current (s : Machine) : Continuation := ⟨calleeSaved.map s.reg,s.reg .sp,s.pc⟩

/-- The caller of the function that `s` is about to enter. -/
def caller (s : Machine) : Continuation := ⟨calleeSaved.map s.reg,s.reg .sp,s.reg .x30⟩

structure Suspended (m : Memory) (ctx : Word) (k : Continuation) : Prop where
  frame : words m ctx.toNat 13 = k.saved ++ [k.ip]
  sp : k.sp = ctx + 112

structure Switched (s t : Machine) (k : Continuation) : Prop where
  current : current t = k
  ctx : t.reg .x0 = s.reg .sp - 112
  priv : t.reg .x1 = s.reg .x1
  d : t.d = s.d
  suspended : Suspended t.mem (s.reg .sp - 112) (caller s)
  kept : ∀ x, x + 112 < (s.reg .sp).toNat ∨ (s.reg .sp).toNat ≤ x → t.mem x = s.mem x

section
variable {code : Code Instr} {s : Machine} {m n : Memory} {ctx : Word} {k : Continuation}

theorem suspendedCongr (suspended : Suspended m ctx k) (same : ∀ x, ctx.toNat ≤ x → x < ctx.toNat + 112 → n x = m x) :
    Suspended n ctx k :=
  ⟨(wordsCongr (fun x lower upper => same x lower (by omega))).trans suspended.frame,suspended.sp⟩

/- tb_context_jump up to its switch of stacks, and from there to its return. -/
def saving : List Instr := storePairs 0 savedPairs ++ [.str .x30 .sp 96,.mov .x4 .sp]
def restoring : List Instr := loadPairs 0 savedPairs ++ [.mov .x0 .x4,.ldr .x4 .sp 96,.addImm .sp .sp 112]

theorem jumpLine : contextJump = ([.subImm .sp .sp 112] ++ saving ++ ([.mov .sp .x0] ++ restoring)) ++ [.ret .x4] := rfl

structure Saved (s t : Machine) : Prop where
  suspended : Suspended t.mem (s.reg .sp - 112) (caller s)
  kept : ∀ x, x + 112 < (s.reg .sp).toNat ∨ (s.reg .sp).toNat ≤ x → t.mem x = s.mem x
  ctx : t.reg .x4 = s.reg .sp - 112
  same : ∀ r, r ≠ .sp → r ≠ .x4 → t.reg r = s.reg r
  d : t.d = s.d

theorem savingSaves (room : 112 ≤ (s.reg .sp).toNat) : Saved s (line ([.subImm .sp .sp 112] ++ saving) s) := by
  have low : (s.reg .sp - 112).toNat = (s.reg .sp).toNat - 112 := @subToNat (s.reg .sp) 112 room
  have small := (s.reg .sp).isLt
  obtain ⟨p,hp⟩ : ∃ p, s.set .sp (s.reg .sp - 112) = p := ⟨_,rfl⟩
  have sp : p.reg .sp = s.reg .sp - 112 := by simp [← hp]
  have others : ∀ r, r ≠ .sp → p.reg r = s.reg r := fun r other => by simp [← hp,Function.update_of_ne other]
  have registers : (flat savedPairs).map p.reg = calleeSaved.map s.reg :=
    List.map_congr_left (fun r inside => others r (by rintro rfl; simp [flat,savedPairs] at inside))
  have pushed := @lineStores p 0 savedPairs (by rw [sp,low]; simp only [savedPairs,List.length_cons,List.length_nil]; omega)
  rw [registers,sp,low,Nat.mul_zero,Nat.add_zero] at pushed
  have first : line ([.subImm .sp .sp 112] ++ saving) s = line [.str .x30 .sp 96,.mov .x4 .sp]
      {p with mem := writeWords p.mem ((s.reg .sp).toNat - 112) (calleeSaved.map s.reg)} := by
    rw [← pushed,← hp]
    rfl
  have last : p.address .sp 96 = (s.reg .sp).toNat - 112 + 8*(calleeSaved.map s.reg).length := by
    rw [addressToNat (by rw [sp,low]; omega),sp,low]
    rfl
  have mem : (line ([.subImm .sp .sp 112] ++ saving) s).mem =
      writeWords s.mem ((s.reg .sp).toNat - 112) (calleeSaved.map s.reg ++ [s.reg .x30]) := by
    rw [first,writeWordsAppend,← last,← others .x30 (by decide),← hp]
    rfl
  refine ⟨⟨?_,?_⟩,?_,?_,?_,?_⟩
  · rw [mem,low]
    exact wordsWrite s.mem _ (calleeSaved.map s.reg ++ [s.reg .x30])
  · change s.reg .sp = s.reg .sp - 112 + 112
    bv_omega
  · intro x out
    rw [mem]
    refine writeWordsOutside ?_
    change _ ∨ (s.reg .sp).toNat - 112 + 8*13 ≤ x
    omega
  · rw [first,← sp]
    simp [line,effect]
  · intro r notSp notX4
    rw [first,← others r notSp]
    simp [line,effect,Function.update_of_ne notX4]
  · rw [first,← hp]
    rfl

structure Restored (s t : Machine) (k : Continuation) : Prop where
  saved : calleeSaved.map t.reg = k.saved
  sp : t.reg .sp = k.sp
  ip : t.reg .x4 = k.ip
  ctx : t.reg .x0 = s.reg .x4
  priv : t.reg .x1 = s.reg .x1
  mem : t.mem = s.mem
  d : t.d = s.d

/- The last instructions before the return. -/
theorem returnLine (r : Machine) : line [.mov .x0 .x4,.ldr .x4 .sp 96,.addImm .sp .sp 112] r =
    ((r.set .x0 (r.reg .x4)).set .x4 (readWord r.mem (r.address .sp 96))).set .sp (r.reg .sp + 112) := by
  simp [line,effect,Machine.address]

theorem restoringRestores (above : (s.reg .x0).toNat + 112 ≤ 2^64) (suspended : Suspended s.mem (s.reg .x0) k) :
    Restored s (line ([.mov .sp .x0] ++ restoring) s) k := by
  obtain ⟨q,hq⟩ : ∃ q, s.set .sp (s.reg .x0) = q := ⟨_,rfl⟩
  have sp : q.reg .sp = s.reg .x0 := by simp [← hq]
  have others : ∀ r, r ≠ .sp → q.reg r = s.reg r := fun r other => by simp [← hq,Function.update_of_ne other]
  have qMem : q.mem = s.mem := by rw [← hq]; rfl
  have filled := @lineLoads q 0 savedPairs (by rw [sp]; simp only [savedPairs,List.length_cons,List.length_nil]; omega)
    (by decide) (by decide)
  rw [sp,Nat.mul_zero,Nat.add_zero] at filled
  obtain ⟨mem,d,held,kept⟩ := filled
  have first : line ([.mov .sp .x0] ++ restoring) s =
      line [.mov .x0 .x4,.ldr .x4 .sp 96,.addImm .sp .sp 112] (line (loadPairs 0 savedPairs) q) := by
    rw [restoring,lineAppend,lineAppend,← hq]
    rfl
  generalize line (loadPairs 0 savedPairs) q = r at first mem d held kept
  have stack : r.reg .sp = s.reg .x0 := (kept .sp (by decide)).trans sp
  have last : r.address .sp 96 = (s.reg .x0).toNat + 8*12 := by
    rw [addressToNat (by rw [stack]; omega),stack]
  have frame : words s.mem (s.reg .x0).toNat (12+1) = k.saved ++ [k.ip] := suspended.frame
  rw [wordsLast,← last] at frame
  obtain ⟨saved,ip⟩ := List.append_inj' frame (by simp)
  rw [first,returnLine]
  refine ⟨?_,?_,?_,?_,?_,?_,?_⟩
  · rw [← saved,← qMem]
    refine Eq.trans ?_ held
    apply List.map_congr_left
    intro x inside
    have notX0 : x ≠ .x0 := by rintro rfl; simp [calleeSaved,flat,savedPairs] at inside
    have notX4 : x ≠ .x4 := by rintro rfl; simp [calleeSaved,flat,savedPairs] at inside
    have notSp : x ≠ .sp := by rintro rfl; simp [calleeSaved,flat,savedPairs] at inside
    simp only [setReg,Function.update_of_ne notX0,Function.update_of_ne notX4,Function.update_of_ne notSp]
  · rw [suspended.sp,← stack]
    simp
  · rw [← (List.cons.inj ip).1,← qMem,← mem]
    simp
  · rw [← others .x4 (by decide),← kept .x4 (by decide)]
    simp
  · rw [← others .x1 (by decide),← kept .x1 (by decide)]
    simp
  · rw [← qMem,← mem]
    rfl
  · rw [show s.d = r.d by rw [d,← hq]; rfl]
    rfl

/-- tb_context_jump goes on where the context was left, and leaves its caller as a context. -/
theorem jumpSwitches (loaded : Loaded code) (at_ : s.pc = loaded.jump) (room : 112 ≤ (s.reg .sp).toNat)
    (above : (s.reg .x0).toNat + 112 ≤ 2^64) (suspended : Suspended s.mem (s.reg .x0) k)
    (apart : (s.reg .x0).toNat + 112 + 112 ≤ (s.reg .sp).toNat ∨ (s.reg .sp).toNat ≤ (s.reg .x0).toNat) :
    ∃ t, steps code 20 s = some t ∧ Switched s t k := by
  have listing := loaded.jumpListing
  rw [← at_,jumpLine] at listing
  have through := stepsReturn listing (by decide)
  obtain ⟨left,kept,ctx,same,d⟩ := savingSaves room
  rw [lineAppend] at through
  generalize line ([.subImm .sp .sp 112] ++ saving) s = p at through left kept ctx same d
  have target : p.reg .x0 = s.reg .x0 := same .x0 (by decide) (by decide)
  have there : Suspended p.mem (p.reg .x0) k := by
    rw [target]
    exact suspendedCongr suspended (fun x lower upper => kept x (by omega))
  have restored := restoringRestores (by rw [target]; exact above) there
  refine ⟨_,through,?_,?_,?_,?_,?_,?_⟩
  · obtain ⟨saved,sp,ip⟩ := k
    exact (Continuation.mk.injEq ..).symm ▸ ⟨restored.saved,restored.sp,restored.ip⟩
  · exact restored.ctx.trans ctx
  · exact restored.priv.trans (same .x1 (by decide) (by decide))
  · exact restored.d.trans d
  · change Suspended (line ([.mov .sp .x0] ++ restoring) p).mem _ _
    rw [restored.mem]
    exact left
  · intro x out
    change (line ([.mov .sp .x0] ++ restoring) p).mem x = _
    rw [restored.mem]
    exact kept x out

/-- The context that tb_context_make builds for a stack of `s.reg .x1` bytes at `s.reg .x0`. -/
def madeContext (s : Machine) : Word := ((s.reg .x0 + s.reg .x1) &&& -16#64) - 112

/-- x19 to x29 are whatever the stack held there. -/
def fresh (loaded : Loaded code) (s : Machine) : Continuation where
  saved := words s.mem (madeContext s).toNat 11 ++ [loaded.end_]
  sp := madeContext s + 112
  ip := s.reg .x2

structure Made (loaded : Loaded code) (s t : Machine) : Prop where
  returned : current t = caller s
  ctx : t.reg .x0 = madeContext s
  suspended : Suspended t.mem (madeContext s) (fresh loaded s)
  kept : ∀ x, x < (madeContext s).toNat ∨ (madeContext s).toNat + 112 ≤ x → t.mem x = s.mem x

/- The stack data of tb_context_make, with room for a context below the aligned top. -/
structure Room (s : Machine) : Prop where
  wide : 127 ≤ (s.reg .x1).toNat
  fits : (s.reg .x0).toNat + (s.reg .x1).toNat < 2^64

theorem madeInside (room : Room s) : (s.reg .x0).toNat ≤ (madeContext s).toNat ∧
    (madeContext s).toNat + 112 ≤ (s.reg .x0).toNat + (s.reg .x1).toNat ∧ (madeContext s).toNat % 16 = 0 := by
  obtain ⟨wide,fits⟩ := room
  have sum : (s.reg .x0 + s.reg .x1).toNat = (s.reg .x0).toNat + (s.reg .x1).toNat := by
    rw [BitVec.toNat_add]
    omega
  have aligned := alignToNat (s.reg .x0 + s.reg .x1)
  rw [sum] at aligned
  have low : (madeContext s).toNat = ((s.reg .x0 + s.reg .x1) &&& -16#64).toNat - 112 := @subToNat _ 112 (by omega)
  omega

def makeBody (end_ : Word) : List Instr :=
  [.add .x0 .x0 .x1,.andImm .x0 .x0 (-16#64),.subImm .x0 .x0 112,.str .x2 .x0 96,.adr .x1 end_,.str .x1 .x0 88]

theorem makeLine (end_ : Word) : contextMake end_ = makeBody end_ ++ [.ret .x30] := rfl

theorem makeBodyLine (end_ : Word) (s : Machine) : line (makeBody end_) s =
    {((s.set .x0 (madeContext s)).set .x1 end_) with
      mem := writeWord (writeWord s.mem (madeContext s + 96#64).toNat (s.reg .x2)) (madeContext s + 88#64).toNat end_} := by
  have address : ∀ u : Machine, line [.str .x2 .x0 96,.adr .x1 end_,.str .x1 .x0 88] u = {(u.set .x1 end_) with
      mem := writeWord (writeWord u.mem (u.address .x0 96) (u.reg .x2)) (u.address .x0 88) end_} := by
    intro u
    simp [line,effect,Machine.address,Machine.set]
  have sum : line [.add .x0 .x0 .x1,.andImm .x0 .x0 (-16#64),.subImm .x0 .x0 112] s = s.set .x0 (madeContext s) := by
    simp [line,effect,Machine.set,madeContext]
  have split : makeBody end_ = [.add .x0 .x0 .x1,.andImm .x0 .x0 (-16#64),.subImm .x0 .x0 112] ++
      [.str .x2 .x0 96,.adr .x1 end_,.str .x1 .x0 88] := rfl
  rw [split,lineAppend,sum,address]
  simp [Machine.address]

/-- tb_context_make returns a context in the stack it was given, with a 16-aligned stack pointer, from which
func is reached with __end in x30. -/
theorem contextMade (loaded : Loaded code) (at_ : s.pc = loaded.make) (room : Room s) :
    ∃ t, steps code 7 s = some t ∧ Made loaded s t := by
  obtain ⟨-,top,-⟩ := madeInside room
  have fits := room.fits
  have at96 : (madeContext s + 96#64).toNat = (madeContext s).toNat + 96 := @addToNat (madeContext s) 96 (by omega)
  have at88 : (madeContext s + 88#64).toNat = (madeContext s).toNat + 88 := @addToNat (madeContext s) 88 (by omega)
  have listing := loaded.makeListing
  rw [← at_,makeLine] at listing
  have through := stepsReturn listing (by simp [makeBody,straight])
  rw [makeBodyLine,at96,at88] at through
  refine ⟨_,through,?_,?_,⟨?_,rfl⟩,?_⟩
  · have saved : calleeSaved.map ((s.set .x0 (madeContext s)).set .x1 loaded.end_).reg = calleeSaved.map s.reg := by
      apply List.map_congr_left
      intro r inside
      have notX0 : r ≠ .x0 := by rintro rfl; simp [calleeSaved,flat,savedPairs] at inside
      have notX1 : r ≠ .x1 := by rintro rfl; simp [calleeSaved,flat,savedPairs] at inside
      simp only [setReg,Function.update_of_ne notX0,Function.update_of_ne notX1]
    simp only [current,caller,saved]
    simp
  · simp
  · have low : ∀ v w : Word, words (writeWord (writeWord s.mem ((madeContext s).toNat + 96) v) ((madeContext s).toNat + 88) w)
        (madeContext s).toNat 11 = words s.mem (madeContext s).toNat 11 := fun v w =>
      wordsCongr (fun x _ upper => by rw [writeOutside (by omega),writeOutside (by omega)])
    change words _ (madeContext s).toNat (11+2) = _
    rw [wordsAppend]
    dsimp only
    rw [low]
    simp only [words,fresh,List.cons_append,List.nil_append]
    rw [readWrite,readWriteOther (by omega),readWrite]
  · intro x out
    change writeWord _ _ _ x = _
    rw [writeOutside (by omega),writeOutside (by omega)]

theorem endExits (loaded : Loaded code) (at_ : s.pc = loaded.end_) :
    ∃ t : Machine, steps code 2 s = some t ∧ t.pc = loaded.exit ∧ t.reg .x0 = 0 := by
  have listing := loaded.endListing
  have split : contextEnd loaded.exit = [.movImm .x0 0] ++ [.bl loaded.exit] := rfl
  rw [← at_,split] at listing
  refine ⟨_,stepsCall listing (by simp [straight]),rfl,?_⟩
  simp [line,effect]

/-- What the function of a new context finds: its argument in two registers, an aligned stack of its own,
and __end to return to, behind which the process ends. -/
structure Entered (loaded : Loaded code) (s j t : Machine) : Prop where
  func : t.pc = s.reg .x2
  ctx : t.reg .x0 = j.reg .sp - 112
  priv : t.reg .x1 = j.reg .x1
  d : t.d = j.d
  aligned : (t.reg .sp).toNat % 16 = 0
  inside : (s.reg .x0).toNat + 112 ≤ (t.reg .sp).toNat ∧
    (t.reg .sp).toNat ≤ (s.reg .x0).toNat + (s.reg .x1).toNat
  exits : ∀ u : Machine, u.pc = t.reg .x30 → ∃ v, steps code 2 u = some v ∧ v.pc = loaded.exit ∧ v.reg .x0 = 0

end

/-- A stack handed to tb_context_make, and jumped to at any later time with the context still in place:
the function starts on it, and whenever it jumps to the context that it was given, the first jumper's
caller goes on with x19 to x30 and sp as its call had them, the function's own context in x0 and its priv
in x1. d8 to d15, which a call keeps as well, are those of whoever jumps. -/
theorem arm64RoundTrip {code : Code Instr} (loaded : Loaded code) {s m j : Machine} (at_ : s.pc = loaded.make)
    (room : Room s) (made : steps code 7 s = some m) (jump : j.pc = loaded.jump) (ctx : j.reg .x0 = m.reg .x0)
    (held : ∀ x, (j.reg .x0).toNat ≤ x → x < (j.reg .x0).toNat + 112 → j.mem x = m.mem x)
    (deep : 112 ≤ (j.reg .sp).toNat) (own : (j.reg .sp).toNat ≤ (s.reg .x0).toNat ∨
      (s.reg .x0).toNat + (s.reg .x1).toNat + 112 ≤ (j.reg .sp).toNat) :
    ∃ t, steps code 20 j = some t ∧ Entered loaded s j t ∧
    ∀ w : Machine, w.pc = loaded.jump → w.reg .x0 = t.reg .x0 →
      (∀ x, (w.reg .x0).toNat ≤ x → x < (w.reg .x0).toNat + 112 → w.mem x = t.mem x) →
      (s.reg .x0).toNat + 112 ≤ (w.reg .sp).toNat →
      (w.reg .sp).toNat ≤ (s.reg .x0).toNat + (s.reg .x1).toNat →
      ∃ v, steps code 20 w = some v ∧ Switched w v (caller j) := by
  obtain ⟨low,top,aligned⟩ := madeInside room
  have fits := room.fits
  obtain ⟨_,again,returned⟩ := contextMade loaded at_ room
  cases Option.some.inj (made.symm.trans again)
  have here : j.reg .x0 = madeContext s := ctx.trans returned.ctx
  have suspended : Suspended j.mem (j.reg .x0) (fresh loaded s) := by
    rw [here] at held ⊢
    exact suspendedCongr returned.suspended held
  obtain ⟨t,jumped,switched⟩ := jumpSwitches loaded jump deep (by rw [here]; omega) suspended (by rw [here]; omega)
  have saved : calleeSaved.map t.reg = words s.mem (madeContext s).toNat 11 ++ [loaded.end_] :=
    congrArg Continuation.saved switched.current
  have link : t.reg .x30 = loaded.end_ := by
    have split : calleeSaved.map t.reg = (calleeSaved.take 11).map t.reg ++ [t.reg .x30] := rfl
    rw [split] at saved
    exact (List.cons.inj (List.append_inj' saved rfl).2).1
  have sp : t.reg .sp = madeContext s + 112 := congrArg Continuation.sp switched.current
  have wide : (madeContext s + 112).toNat = (madeContext s).toNat + 112 := @addToNat (madeContext s) 112 (by omega)
  refine ⟨t,jumped,⟨congrArg Continuation.ip switched.current,switched.ctx,switched.priv,switched.d,?_,?_,?_⟩,?_⟩
  · rw [sp,wide]
    omega
  · rw [sp,wide]
    omega
  · intro u returns
    exact endExits loaded (returns.trans link)
  · intro w back same intact bottom upper
    have given : w.reg .x0 = j.reg .sp - 112 := same.trans switched.ctx
    have under : (w.reg .x0).toNat = (j.reg .sp).toNat - 112 := by
      rw [given]
      exact @subToNat (j.reg .sp) 112 deep
    have small := (j.reg .sp).isLt
    have waiting : Suspended w.mem (w.reg .x0) (caller j) := by
      have there := switched.suspended
      rw [← given] at there
      exact suspendedCongr there intact
    exact jumpSwitches loaded back (by omega) (by omega) waiting (by omega)

def program : List Instr := contextMake 7 ++ contextEnd 100 ++ contextJump

def programLoaded : Loaded (image program) where
  make := 0
  end_ := 7
  exit := 100
  behind := 9
  jump := 9
  past := 29
  makeListing := imageListing [] (contextMake 7) _ (by simp [contextMake])
  endListing := imageListing (contextMake 7) (contextEnd 100) _ (by simp [contextMake,contextEnd])
  jumpListing := imageListing (contextMake 7 ++ contextEnd 100) contextJump []
    (by simp [contextMake,contextEnd,contextJump])

/- tb_context_make called for 4096 bytes at 4096, with the function at 1000. -/
def stackCall : Machine where
  reg
    | .x0 => 4096
    | .x1 => 4096
    | .x2 => 1000
    | _ => 1000000
  d := fun _ => 0
  mem := fun _ => 0
  pc := 0

def jumpWith (s : Machine) (ctx sp : Word) : Machine := {(s.set .x0 ctx).set .sp sp with pc := 9}

theorem backToJumper : ∃ m t v, steps (image program) 7 stackCall = some m ∧
    steps (image program) 20 (jumpWith m (m.reg .x0) 1000000) = some t ∧ t.pc = 1000 ∧
    steps (image program) 20 (jumpWith t (t.reg .x0) 8000) = some v ∧
    current v = caller (jumpWith m (m.reg .x0) 1000000) := by
  have room : Room stackCall := ⟨by decide,by decide⟩
  obtain ⟨m,made,-⟩ := contextMade programLoaded (s := stackCall) rfl room
  obtain ⟨t,entered,arrived,back⟩ := arm64RoundTrip programLoaded (s := stackCall) (j := jumpWith m (m.reg .x0) 1000000)
    rfl room made rfl (by simp [jumpWith]) (fun _ _ _ => rfl) (by simp [jumpWith]) (.inr (by simp [jumpWith,stackCall]))
  obtain ⟨v,returned,switched⟩ := back (jumpWith t (t.reg .x0) 8000) rfl (by simp [jumpWith])
    (fun _ _ _ => rfl) (by simp [jumpWith,stackCall]) (by simp [jumpWith,stackCall])
  exact ⟨m,t,v,made,entered,arrived.func,returned,switched.current⟩

end TitCo.ContextArm64
