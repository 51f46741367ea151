import TitCo.X64

/-! tb_context_make and tb_context_jump of context_x64.S, in the version for the System V calling
convention. A context is the stack pointer under which tb_context_jump has left six registers
and the address to go on at. -/
namespace TitCo.Context
open ByteMemory Program WordMemory X64

def contextMake (entry end_ : Word) : List Instr :=
  [.addq .rsi .rdi,.movq .rdi .rax,
   .movabs (-16#64) .r8,.andq .r8 .rax,
   .leaq (-56#64) .rax .rax,
   .store .rdx 32 .rax,
   .leaLabel entry .rcx,.store .rcx 48 .rax,
   .leaLabel end_ .rcx,.store .rcx 40 .rax,
   .ret]

def contextEntry : List Instr := [.movq .rax .rdi,.pushq .rbp,.jmp .rbx]

def contextEnd (exit : Word) : List Instr := [.xorq .rdi .rdi,.call exit,.hlt]

def contextJump : List Instr :=
  [.pushq .rbp,.pushq .rbx,.pushq .r15,.pushq .r14,.pushq .r13,.pushq .r12,
   .movq .rsp .rax,
   .movq .rdi .rsp,
   .popq .r12,.popq .r13,.popq .r14,.popq .r15,.popq .rbx,.popq .rbp,
   .popq .r8,
   .movq .rsi .rdx,
   .jmp .r8]

/-- Where the two functions and the labels in them have been loaded. -/
structure Loaded (code : Code Instr) where
  make : Word
  entry : Word
  end_ : Word
  exit : Word
  behind : Word
  jump : Word
  past : Word
  makeListing : Listing code make (contextMake entry end_) entry
  entryListing : Listing code entry contextEntry end_
  endListing : Listing code end_ (contextEnd exit) behind
  jumpListing : Listing code jump contextJump past

def calleeSaved : List Reg := [.r12,.r13,.r14,.r15,.rbx,.rbp]

def pushedRegs : List Reg := [.rbp,.rbx,.r15,.r14,.r13,.r12]
def poppedRegs : List Reg := [.r12,.r13,.r14,.r15,.rbx,.rbp,.r8]

def current (s : Machine) : Continuation := ⟨calleeSaved.map s.reg,s.reg .rsp,s.rip⟩

/-- The caller of the function that `s` is about to enter. -/
def caller (s : Machine) : Continuation := ⟨calleeSaved.map s.reg,s.reg .rsp + 8,s.top⟩

structure Suspended (m : Memory) (ctx : Word) (k : Continuation) : Prop where
  frame : words m ctx.toNat 7 = k.saved ++ [k.ip]
  sp : k.sp = ctx + 56

structure Switched (s t : Machine) (k : Continuation) : Prop where
  current : current t = k
  ctx : t.reg .rax = s.reg .rsp - 48
  priv : t.reg .rdx = s.reg .rsi
  arg : t.reg .rsi = s.reg .rsi
  suspended : Suspended t.mem (s.reg .rsp - 48) (caller s)
  kept : ∀ x, x + 48 < (s.reg .rsp).toNat ∨ (s.reg .rsp).toNat ≤ x → t.mem x = s.mem x

section
variable {code : Code Instr} {s : Machine} {m n : Memory} {ctx : Word} {k : Continuation}

theorem suspendedCongr (suspended : Suspended m ctx k) (same : ∀ x, ctx.toNat ≤ x → x < ctx.toNat + 56 → n x = m x) :
    Suspended n ctx k :=
  ⟨(wordsCongr same).trans suspended.frame,suspended.sp⟩

/- The six registers, and behind them the address that the call has pushed. -/
theorem savedFrame {t : Machine} (room : 48 ≤ (s.reg .rsp).toNat)
    (pushed : Pushed s t (pushedRegs.map s.reg)) :
    Suspended t.mem (s.reg .rsp - 48) (caller s) := by
  have low : (s.reg .rsp - 48).toNat = (s.reg .rsp).toNat - 48 := @subToNat (s.reg .rsp) 48 room
  refine ⟨?_,?_⟩
  · have held : words t.mem ((s.reg .rsp).toNat - 48) 6 = calleeSaved.map s.reg := pushed.held
    have upper : (s.reg .rsp).toNat - 48 + 8*6 = (s.reg .rsp).toNat := by omega
    rw [low,wordsLast,held,upper,readWordCongr (fun x lower _ => pushed.kept x (.inr lower))]
    rfl
  · change s.reg .rsp + 8 = s.reg .rsp - 48 + 56
    bv_omega

/- tb_context_jump once the registers have been pushed: rax and rsp change. -/
def toStack (p : Machine) : Machine := (p.set .rax (p.reg .rsp)).set .rsp (p.reg .rdi)

theorem jumpLine : contextJump = pushedRegs.map .pushq ++ ([.movq .rsp .rax,.movq .rdi .rsp] ++
    (poppedRegs.map .popq ++ [.movq .rsi .rdx])) ++ [.jmp .r8] := rfl

/- The seventeen instructions, as what is pushed on one stack and popped from the other. -/
theorem jumpRuns (loaded : Loaded code) (at_ : s.rip = loaded.jump) (room : 48 ≤ (s.reg .rsp).toNat)
    (above : (s.reg .rdi).toNat + 56 < 2^64) :
    ∃ p v, Pushed s p (pushedRegs.map s.reg) ∧ Popped (toStack p) v poppedRegs ∧
      steps code 17 s = some {v.set .rdx (v.reg .rsi) with rip := v.reg .r8} := by
  have listing := loaded.jumpListing
  rw [← at_,jumpLine] at listing
  have through := stepsBlock listing (by decide)
  have pushed := @linePushes s pushedRegs (by decide) room
  have from_ : (line (pushedRegs.map .pushq) s).reg .rdi = s.reg .rdi := by simp [pushed.reg]
  have popped := @linePops (toStack (line (pushedRegs.map .pushq) s)) poppedRegs (by decide) (by decide)
    (by simpa [toStack,from_,poppedRegs] using above)
  refine ⟨_,_,pushed,popped,?_⟩
  have count : (pushedRegs.map Instr.pushq ++ ([Instr.movq .rsp .rax,.movq .rdi .rsp] ++
    (poppedRegs.map Instr.popq ++ [Instr.movq .rsi .rdx]))).length + 1 = 17 := rfl
  rw [count,lineAppend,lineAppend,lineAppend] at through
  rw [through]
  congr 2

/-- tb_context_jump goes on where the context was left, and leaves its caller as a context. -/
theorem jumpSwitches (loaded : Loaded code) (at_ : s.rip = loaded.jump) (room : 48 ≤ (s.reg .rsp).toNat)
    (above : (s.reg .rdi).toNat + 56 < 2^64) (suspended : Suspended s.mem (s.reg .rdi) k)
    (apart : (s.reg .rdi).toNat + 56 + 48 ≤ (s.reg .rsp).toNat ∨ (s.reg .rsp).toNat ≤ (s.reg .rdi).toNat) :
    ∃ t, steps code 17 s = some t ∧ Switched s t k := by
  obtain ⟨p,v,pushed,popped,runs⟩ := jumpRuns loaded at_ room above
  have ctx : (toStack p).reg .rsp = s.reg .rdi := by simp [toStack,pushed.reg]
  have same : words p.mem (s.reg .rdi).toNat 7 = words s.mem (s.reg .rdi).toNat 7 := by
    apply wordsCongr
    intro x lower upper
    apply pushed.kept
    simp only [pushedRegs,List.map_cons,List.map_nil,List.length_cons,List.length_nil]
    omega
  have frame : calleeSaved.map v.reg ++ [v.reg .r8] = k.saved ++ [k.ip] := by
    have held := popped.held
    rw [ctx] at held
    exact held.trans (same.trans suspended.frame)
  obtain ⟨saved,ip⟩ := List.append_inj' frame rfl
  have sp : v.reg .rsp = k.sp := by
    rw [popped.sp,ctx,suspended.sp]
    rfl
  have carried : v.reg .rsi = s.reg .rsi := by
    rw [popped.kept .rsi (by decide) (by decide)]
    simp [toStack,pushed.reg]
  refine ⟨_,runs,?_,?_,?_,?_,?_,?_⟩
  · obtain ⟨ks,kp,ki⟩ := k
    exact (Continuation.mk.injEq ..).symm ▸ ⟨saved,sp,(List.cons.inj ip).1⟩
  · change v.reg .rax = _
    rw [popped.kept .rax (by decide) (by decide)]
    simp [toStack,pushed.reg,pushedRegs]
  · change v.reg .rsi = _
    exact carried
  · exact carried
  · change Suspended v.mem _ _
    rw [popped.mem]
    exact @savedFrame s p room pushed
  · intro x out
    change v.mem x = _
    rw [popped.mem]
    exact pushed.kept x out

/-- The context that tb_context_make builds for a stack of `s.reg .rsi` bytes at `s.reg .rdi`. -/
def madeContext (s : Machine) : Word := ((s.reg .rdi + s.reg .rsi) &&& -16#64) + -56#64

/-- r12 to r15 are whatever the stack held there. -/
def fresh (loaded : Loaded code) (s : Machine) : Continuation where
  saved := words s.mem (madeContext s).toNat 4 ++ [s.reg .rdx,loaded.end_]
  sp := madeContext s + 56
  ip := loaded.entry

structure Made (loaded : Loaded code) (s t : Machine) : Prop where
  returned : current t = caller s
  ctx : t.reg .rax = madeContext s
  suspended : Suspended t.mem (madeContext s) (fresh loaded s)
  kept : ∀ x, x < (madeContext s).toNat ∨ (madeContext s).toNat + 56 ≤ x → t.mem x = s.mem x

/- The stack data of tb_context_make, with room for a context below the aligned top. -/
structure Room (s : Machine) : Prop where
  wide : 71 ≤ (s.reg .rsi).toNat
  fits : (s.reg .rdi).toNat + (s.reg .rsi).toNat < 2^64

theorem madeInside (room : Room s) : (s.reg .rdi).toNat ≤ (madeContext s).toNat ∧
    (madeContext s).toNat + 56 ≤ (s.reg .rdi).toNat + (s.reg .rsi).toNat ∧ ((madeContext s).toNat + 56) % 16 = 0 := by
  obtain ⟨wide,fits⟩ := room
  have sum : (s.reg .rdi + s.reg .rsi).toNat = (s.reg .rdi).toNat + (s.reg .rsi).toNat := by
    rw [BitVec.toNat_add]
    omega
  have aligned := alignToNat (s.reg .rdi + s.reg .rsi)
  rw [sum] at aligned
  have low : (madeContext s).toNat = ((s.reg .rdi + s.reg .rsi) &&& -16#64).toNat - 56 := by
    rw [madeContext,← BitVec.sub_eq_add_neg]
    exact subToNat (by omega)
  omega

/- tb_context_make up to its return. -/
def makeBody (entry end_ : Word) : List Instr :=
  [.addq .rsi .rdi,.movq .rdi .rax,.movabs (-16#64) .r8,.andq .r8 .rax,.leaq (-56#64) .rax .rax,
   .store .rdx 32 .rax,.leaLabel entry .rcx,.store .rcx 48 .rax,.leaLabel end_ .rcx,.store .rcx 40 .rax]

theorem makeLine (entry end_ : Word) : contextMake entry end_ = makeBody entry end_ ++ [.ret] := rfl

theorem makeStraight (entry end_ : Word) : ∀ i ∈ makeBody entry end_, straight i = true := List.all_eq_true.1 rfl

theorem makeBodyReg (entry end_ : Word) (s : Machine) : (line (makeBody entry end_) s).reg .rax = madeContext s := rfl

theorem makeBodyMem (entry end_ : Word) (s : Machine) : (line (makeBody entry end_) s).mem =
    writeWord (writeWord (writeWord s.mem (madeContext s + 32).toNat (s.reg .rdx)) (madeContext s + 48).toNat entry)
      (madeContext s + 40).toNat end_ := by
  have stores : ∀ u : Machine, (line [.store .rdx 32 .rax,.leaLabel entry .rcx,.store .rcx 48 .rax,
      .leaLabel end_ .rcx,.store .rcx 40 .rax] u).mem =
      writeWord (writeWord (writeWord u.mem (u.reg .rax + 32).toNat (u.reg .rdx)) (u.reg .rax + 48).toNat entry)
        (u.reg .rax + 40).toNat end_ := by
    intro u
    simp [line,effect]
  have split : makeBody entry end_ =
      [.addq .rsi .rdi,.movq .rdi .rax,.movabs (-16#64) .r8,.andq .r8 .rax,.leaq (-56#64) .rax .rax] ++
      [.store .rdx 32 .rax,.leaLabel entry .rcx,.store .rcx 48 .rax,.leaLabel end_ .rcx,.store .rcx 40 .rax] := rfl
  rw [split,lineAppend,stores]
  rfl

theorem makeBodyKept (entry end_ : Word) (s : Machine) {r : Reg} (kept : r ∈ .rsp :: calleeSaved) :
    (line (makeBody entry end_) s).reg r = s.reg r := by
  simp only [calleeSaved,List.mem_cons,List.not_mem_nil,or_false] at kept
  rcases kept with rfl | rfl | rfl | rfl | rfl | rfl | rfl <;> rfl

theorem makeRuns (loaded : Loaded code) (at_ : s.rip = loaded.make) : steps code 11 s =
    some {(line (makeBody loaded.entry loaded.end_) s).drop with
      rip := (line (makeBody loaded.entry loaded.end_) s).top} := by
  have listing := loaded.makeListing
  rw [← at_,makeLine] at listing
  exact stepsReturn listing (makeStraight loaded.entry loaded.end_)

/-- tb_context_make returns a context in the stack it was given, with a 16-aligned top, from which
__entry is reached with func in rbx and __end in rbp. -/
theorem contextMade (loaded : Loaded code) (at_ : s.rip = loaded.make) (room : Room s)
    (apart : (s.reg .rsp).toNat + 8 ≤ (madeContext s).toNat + 32 ∨ (madeContext s).toNat + 56 ≤ (s.reg .rsp).toNat) :
    ∃ t, steps code 11 s = some t ∧ Made loaded s t := by
  obtain ⟨-,top,-⟩ := madeInside room
  have fits := room.fits
  have at32 : (madeContext s + 32).toNat = (madeContext s).toNat + 32 := @addToNat (madeContext s) 32 (by omega)
  have at40 : (madeContext s + 40).toNat = (madeContext s).toNat + 40 := @addToNat (madeContext s) 40 (by omega)
  have at48 : (madeContext s + 48).toNat = (madeContext s).toNat + 48 := @addToNat (madeContext s) 48 (by omega)
  have mem := makeBodyMem loaded.entry loaded.end_ s
  rw [at32,at40,at48] at mem
  generalize hb : line (makeBody loaded.entry loaded.end_) s = u at mem
  have kept : ∀ x, x < (madeContext s).toNat + 32 ∨ (madeContext s).toNat + 56 ≤ x → u.mem x = s.mem x := by
    intro x out
    rw [mem,writeOutside (by omega),writeOutside (by omega),writeOutside (by omega)]
  have sp : u.reg .rsp = s.reg .rsp := by
    rw [← hb]
    exact makeBodyKept _ _ s (by decide)
  have saved : calleeSaved.map u.reg = calleeSaved.map s.reg := by
    apply List.map_congr_left
    intro r inside
    rw [← hb]
    exact makeBodyKept _ _ s (List.mem_cons_of_mem _ inside)
  have top_ : u.top = s.top := by
    rw [Machine.top,Machine.top,sp]
    exact readWordCongr (fun x _ _ => kept x (by omega))
  refine ⟨_,makeRuns loaded at_,?_,?_,⟨?_,rfl⟩,?_⟩
  · have others : calleeSaved.map u.drop.reg = calleeSaved.map u.reg := by simp [calleeSaved]
    have drop : u.drop.reg .rsp = s.reg .rsp + 8 := by simp [sp]
    rw [hb]
    simp only [current,caller,others,saved,drop,top_]
  · have rax : u.drop.reg .rax = u.reg .rax := by simp
    rw [hb]
    refine rax.trans ?_
    rw [← hb]
    exact makeBodyReg loaded.entry loaded.end_ s
  · have low : words u.mem (madeContext s).toNat 4 = words s.mem (madeContext s).toNat 4 :=
      wordsCongr (fun x _ upper => kept x (by omega))
    have func : readWord u.mem ((madeContext s).toNat + 32) = s.reg .rdx := by
      rw [mem,readWriteOther (by omega),readWriteOther (by omega),readWrite]
    have entry : readWord u.mem ((madeContext s).toNat + 48) = loaded.entry := by
      rw [mem,readWriteOther (by omega),readWrite]
    have end_ : readWord u.mem ((madeContext s).toNat + 40) = loaded.end_ := by
      rw [mem,readWrite]
    rw [hb]
    change words u.mem (madeContext s).toNat (4+3) = _
    rw [wordsAppend,low]
    simp only [words,fresh,List.cons_append,List.nil_append]
    rw [func,end_,entry]
  · intro x out
    rw [hb]
    exact kept x (by omega)

theorem entryEnters (loaded : Loaded code) (at_ : s.rip = loaded.entry) (room : 8 ≤ (s.reg .rsp).toNat) :
    ∃ t, steps code 3 s = some t ∧ t.rip = s.reg .rbx ∧ t.reg .rdi = s.reg .rax ∧ t.reg .rsi = s.reg .rsi ∧
      t.reg .rsp = s.reg .rsp - 8 ∧ t.top = s.reg .rbp ∧
      ∀ x, x + 8 < (s.reg .rsp).toNat ∨ (s.reg .rsp).toNat ≤ x → t.mem x = s.mem x := by
  have listing := loaded.entryListing
  have split : contextEntry = [.movq .rax .rdi,.pushq .rbp] ++ [.jmp .rbx] := rfl
  rw [← at_,split] at listing
  refine ⟨_,stepsBlock listing (List.all_eq_true.1 rfl),?_,?_,?_,?_,?_,?_⟩
  · simp [line,effect]
  · simp [line,effect]
  · simp [line,effect]
  · simp [line,effect]
  · have sp : (line [.movq .rax .rdi,.pushq .rbp] s).reg .rsp = s.reg .rsp - 8 := by simp [line,effect]
    change readWord _ ((line [.movq .rax .rdi,.pushq .rbp] s).reg .rsp).toNat = _
    rw [sp]
    exact readWrite s.mem _ _
  · intro x out
    have eight : (s.reg .rsp - 8).toNat = (s.reg .rsp).toNat - 8 := @subToNat (s.reg .rsp) 8 room
    exact writeOutside (show x < (s.reg .rsp - 8).toNat ∨ (s.reg .rsp - 8).toNat + 8 ≤ x by omega)

theorem endExits (loaded : Loaded code) (at_ : s.rip = loaded.end_) :
    ∃ t : Machine, steps code 2 s = some t ∧ t.rip = loaded.exit ∧ t.reg .rdi = 0 := by
  have listing := loaded.endListing
  have split : contextEnd loaded.exit = [.xorq .rdi .rdi] ++ [.call loaded.exit] ++ [.hlt] := rfl
  rw [← at_,split,listingAppend] at listing
  obtain ⟨last,listing,-⟩ := listing
  refine ⟨_,@stepsInto Instr Machine _ code s _ _ _ listing (List.all_eq_true.1 rfl) rfl,rfl,?_⟩
  simp [line,effect,Isa.goto]

/-- What the function of a new context finds: its argument, an aligned stack of its own, and __end to
return to, behind which the process ends. -/
structure Entered (loaded : Loaded code) (s j t : Machine) : Prop where
  func : t.rip = s.reg .rdx
  ctx : t.reg .rdi = j.reg .rsp - 48
  priv : t.reg .rsi = j.reg .rsi
  aligned : ((t.reg .rsp).toNat + 8) % 16 = 0
  inside : (s.reg .rdi).toNat ≤ (t.reg .rsp).toNat ∧
    (t.reg .rsp).toNat + 8 ≤ (s.reg .rdi).toNat + (s.reg .rsi).toNat
  exits : ∀ u : Machine, u.rip = t.top → ∃ v, steps code 2 u = some v ∧ v.rip = loaded.exit ∧ v.reg .rdi = 0
  suspended : Suspended t.mem (j.reg .rsp - 48) (caller j)
  kept : ∀ x, x + 48 < (j.reg .rsp).toNat ∨ (j.reg .rsp).toNat ≤ x →
    x < (s.reg .rdi).toNat ∨ (s.reg .rdi).toNat + (s.reg .rsi).toNat ≤ x → t.mem x = j.mem x

/-- A stack handed to tb_context_make, and jumped to at any later time with the context still in
place: func runs on it as if called with the jumper's context and priv, and cannot return to nowhere. -/
theorem contextEnters (loaded : Loaded code) {s m j : Machine} (at_ : s.rip = loaded.make) (room : Room s)
    (apart : (s.reg .rsp).toNat + 8 ≤ (s.reg .rdi).toNat ∨
      (s.reg .rdi).toNat + (s.reg .rsi).toNat ≤ (s.reg .rsp).toNat)
    (made : steps code 11 s = some m) (jump : j.rip = loaded.jump) (ctx : j.reg .rdi = m.reg .rax)
    (held : ∀ x, (j.reg .rdi).toNat ≤ x → x < (j.reg .rdi).toNat + 56 → j.mem x = m.mem x)
    (deep : 48 ≤ (j.reg .rsp).toNat) (own : (j.reg .rsp).toNat + 8 ≤ (s.reg .rdi).toNat ∨
      (s.reg .rdi).toNat + (s.reg .rsi).toNat + 48 ≤ (j.reg .rsp).toNat) :
    ∃ t, steps code 20 j = some t ∧ Entered loaded s j t := by
  obtain ⟨low,top,aligned⟩ := madeInside room
  have fits := room.fits
  obtain ⟨_,again,returned⟩ := contextMade loaded at_ room (by omega)
  cases Option.some.inj (made.symm.trans again)
  have here : j.reg .rdi = madeContext s := ctx.trans returned.ctx
  rw [here] at held
  have suspended : Suspended j.mem (j.reg .rdi) (fresh loaded s) := by
    rw [here]
    exact suspendedCongr returned.suspended held
  obtain ⟨u,jumped,switched⟩ := jumpSwitches loaded jump deep (by rw [here]; omega) suspended (by rw [here]; omega)
  have saved : calleeSaved.map u.reg = words s.mem (madeContext s).toNat 4 ++ [s.reg .rdx,loaded.end_] :=
    congrArg Continuation.saved switched.current
  simp only [calleeSaved,words,List.map_cons,List.map_nil,List.cons_append,List.nil_append,List.cons.injEq] at saved
  obtain ⟨-,-,-,-,rbx,rbp,-⟩ := saved
  have sp : u.reg .rsp = madeContext s + 56 := congrArg Continuation.sp switched.current
  have wide : (madeContext s + 56).toNat = (madeContext s).toNat + 56 := @addToNat (madeContext s) 56 (by omega)
  obtain ⟨t,entered,rip,rdi,rsi,rsp,back,kept⟩ := entryEnters loaded (congrArg Continuation.ip switched.current)
    (s := u) (by rw [sp,wide]; omega)
  rw [sp] at rsp
  have last : (t.reg .rsp).toNat = (madeContext s).toNat + 48 := by
    rw [rsp,show (madeContext s + 56 - 8).toNat = (madeContext s + 56).toNat - 8 from
      @subToNat (madeContext s + 56) 8 (by omega),wide]
    omega
  have lower : (j.reg .rsp - 48).toNat = (j.reg .rsp).toNat - 48 := @subToNat (j.reg .rsp) 48 deep
  refine ⟨t,?_,rip.trans rbx,rdi.trans switched.ctx,rsi.trans switched.arg,by omega,by omega,?_,?_,?_⟩
  · rw [stepsAdd code j 17 3,jumped]
    exact entered
  · intro u at_
    exact endExits loaded (at_.trans (back.trans rbp))
  · refine suspendedCongr switched.suspended (fun x lo hi => kept x ?_)
    rw [sp,wide]
    omega
  · intro x out off
    rw [kept x (by rw [sp,wide]; omega),switched.kept x out]

end

/-- A stack handed to tb_context_make, and jumped to at any later time with the context still in place:
the function starts on it, and whenever it jumps to the context that it was given, the first jumper's
caller goes on as if its call had returned, with the function's own context in rax. -/
theorem contextRoundTrip {code : Code Instr} (loaded : Loaded code) {s m j : Machine} (at_ : s.rip = loaded.make) (room : Room s)
    (apart : (s.reg .rsp).toNat + 8 ≤ (s.reg .rdi).toNat ∨
      (s.reg .rdi).toNat + (s.reg .rsi).toNat ≤ (s.reg .rsp).toNat)
    (made : steps code 11 s = some m) (jump : j.rip = loaded.jump) (ctx : j.reg .rdi = m.reg .rax)
    (held : ∀ x, (j.reg .rdi).toNat ≤ x → x < (j.reg .rdi).toNat + 56 → j.mem x = m.mem x)
    (deep : 48 ≤ (j.reg .rsp).toNat) (own : (j.reg .rsp).toNat + 8 ≤ (s.reg .rdi).toNat ∨
      (s.reg .rdi).toNat + (s.reg .rsi).toNat + 48 ≤ (j.reg .rsp).toNat) (under : (j.reg .rsp).toNat + 8 < 2^64) :
    ∃ t, steps code 20 j = some t ∧ Entered loaded s j t ∧
    ∀ w : Machine, w.rip = loaded.jump → w.reg .rdi = t.reg .rdi →
      (∀ x, (w.reg .rdi).toNat ≤ x → x < (w.reg .rdi).toNat + 56 → w.mem x = t.mem x) →
      (s.reg .rdi).toNat + 48 ≤ (w.reg .rsp).toNat →
      (w.reg .rsp).toNat + 8 ≤ (s.reg .rdi).toNat + (s.reg .rsi).toNat →
      ∃ v, steps code 17 w = some v ∧ Switched w v (caller j) := by
  obtain ⟨t,runs,entered⟩ := contextEnters loaded at_ room apart made jump ctx held deep own
  refine ⟨t,runs,entered,?_⟩
  intro w back same intact bottom top
  have given : w.reg .rdi = j.reg .rsp - 48 := same.trans entered.ctx
  have low : (w.reg .rdi).toNat = (j.reg .rsp).toNat - 48 := by
    rw [given]
    exact @subToNat (j.reg .rsp) 48 deep
  have suspended : Suspended w.mem (w.reg .rdi) (caller j) := by
    have there := entered.suspended
    rw [← given] at there
    exact suspendedCongr there intact
  exact jumpSwitches loaded back (by omega) (by omega) suspended (by omega)

def program : List Instr :=
  contextMake 11 14 ++ contextEntry ++ contextEnd 100 ++ contextJump

def programLoaded : Loaded (image program) where
  make := 0
  entry := 11
  end_ := 14
  exit := 100
  behind := 17
  jump := 17
  past := 34
  makeListing := imageListing [] (contextMake 11 14) _ (by simp [contextMake])
  entryListing := imageListing (contextMake 11 14) contextEntry _ (by simp [contextMake,contextEntry])
  endListing := imageListing (contextMake 11 14 ++ contextEntry) (contextEnd 100) _
    (by simp [contextMake,contextEntry,contextEnd])
  jumpListing := imageListing (contextMake 11 14 ++ contextEntry ++ contextEnd 100) contextJump []
    (by simp [contextMake,contextEntry,contextEnd,contextJump])

/- tb_context_make called for 4096 bytes at 4096, with the function at 1000. -/
def stackCall : Machine where
  reg
    | .rdi => 4096
    | .rsi => 4096
    | .rdx => 1000
    | _ => 1000000
  mem := fun _ => 0
  rip := 0

def jumpWith (s : Machine) (ctx sp : Word) : Machine := {(s.set .rdi ctx).set .rsp sp with rip := 17}

theorem thereAndBack : ∃ m t v, steps (image program) 11 stackCall = some m ∧
    steps (image program) 20 (jumpWith m (m.reg .rax) 1000000) = some t ∧ t.rip = 1000 ∧
    steps (image program) 17 (jumpWith t (t.reg .rdi) 8000) = some v ∧
    current v = caller (jumpWith m (m.reg .rax) 1000000) := by
  have room : Room stackCall := ⟨by decide,by decide⟩
  obtain ⟨m,made,-⟩ := contextMade programLoaded (s := stackCall) rfl room (.inr (by decide))
  obtain ⟨t,entered,arrived,back⟩ := contextRoundTrip programLoaded (s := stackCall) (j := jumpWith m (m.reg .rax) 1000000)
    rfl room (.inr (by decide)) made rfl (by simp [jumpWith,Machine.set]) (fun _ _ _ => rfl)
    (by simp [jumpWith,Machine.set]) (.inr (by simp [jumpWith,Machine.set,stackCall])) (by simp [jumpWith,Machine.set])
  obtain ⟨v,returned,switched⟩ := back (jumpWith t (t.reg .rdi) 8000) rfl (by simp [jumpWith,Machine.set])
    (fun _ _ _ => rfl) (by simp [jumpWith,Machine.set,stackCall]) (by simp [jumpWith,Machine.set,stackCall])
  exact ⟨m,t,v,made,entered,arrived.func,returned,switched.current⟩

end TitCo.Context
