import TitCo.Context
import TitCo.SharedStack

/-! Resume, Yield and MainFunc of scheduler.cc with the switches they make executed by the code of
tb_context_make and tb_context_jump. What a coroutine or Loop does between two switches is any change
of memory; `left` and `loop` remember from where each side last called tb_context_jump. -/
namespace TitCo.CoroutineSwitch
open Transition ByteMemory Program WordMemory X64 Context SharedStack

/-- `loopSp` is the stack pointer under which Resume calls tb_context_jump. -/
structure Process where
  code : Code Instr
  loaded : Loaded code
  layout : Layout
  mainFunc : Word
  mainCo : Word
  coroutine : Nat → Word
  loopSp : Word
  notNull : ∀ co, coroutine co ≠ 0
  wide : 71 ≤ layout.stackSize
  high : ∀ i, i < kShareStackSize → layout.top i < 2^64
  deep : 56 ≤ loopSp.toNat
  apart : ∀ i, i < kShareStackSize → loopSp.toNat ≤ layout.base i ∨ layout.top i + 56 ≤ loopSp.toNat

/-- `main` is main_co_->ctx_ and `entered` the from.ctx that each MainFunc keeps on its stack; `arrived`
is the machine as the last switch left it. -/
structure State where
  sched : SharedStack.State
  main : Word
  entered : Nat → Word
  arrived : Machine
  loop : Continuation
  left : Nat → Continuation

inductive Event where
  | newCoroutine (co : Nat)
  | work (memory : Memory)
  | resume (co : Nat) (reg : Reg → Word) (back : Word)
  | yield (reg : Reg → Word) (back : Word)
  | finish (reg : Reg → Word) (back : Word)

def initial (memory : Memory) (data : Nat → Memory) (cpu : Machine) : State :=
  ⟨SharedStack.initial memory data,0,fun _ => 0,cpu,current cpu,fun _ => current cpu⟩

/-- The registers of a caller once the arguments have been passed. -/
def args (reg : Reg → Word) (rdi rsi rdx : Word) : Reg → Word
  | .rdi => rdi
  | .rsi => rsi
  | .rdx => rdx
  | r => reg r

variable (p : Process)

def makeCall (reg : Reg → Word) (back : Word) (memory : Memory) (co : Nat) : Machine :=
  Machine.invoke ⟨args reg (BitVec.ofNat 64 (p.layout.base (stackId co))) (BitVec.ofNat 64 p.layout.stackSize)
    p.mainFunc,memory,0⟩ p.loaded.make back

def jumpCall (reg : Reg → Word) (back : Word) (memory : Memory) (ctx priv : Word) : Machine :=
  Machine.invoke ⟨args reg ctx priv (reg .rdx),memory,0⟩ p.loaded.jump back

/-- Resume; MainFunc of a new coroutine stores from.ctx before it calls the coroutine's function. -/
def resume (s : State) (co : Nat) (reg : Reg → Word) (back : Word) : Option State :=
  match s.sched.ctx co with
  | none => do
      let m ← steps p.code 11 (makeCall p reg back (takeStack p.layout s.sched co).memory co)
      let sched ← SharedStack.step p.layout s.sched (.resume co (m.reg .rax).toNat)
      let j := jumpCall p reg back m.mem (m.reg .rax) p.mainCo
      let t ← steps p.code 20 j
      some {s with
        sched := {sched with memory := t.mem}
        main := if t.reg .rsi = p.mainCo then t.reg .rdi else s.main
        entered := Function.update s.entered co (t.reg .rdi)
        arrived := t
        loop := caller j}
  | some ctx => do
      let sched ← SharedStack.step p.layout s.sched (.resume co ctx)
      let j := jumpCall p reg back sched.memory (BitVec.ofNat 64 ctx) p.mainCo
      let t ← steps p.code 17 j
      some {s with sched := {sched with memory := t.mem}, arrived := t, loop := caller j}

/-- Resume behind its jump: from.priv tells a coroutine that has yielded from one that is done. -/
def resumed (s : State) (t : Machine) : Option State := do
  let sched ← SharedStack.step p.layout {s.sched with memory := t.mem}
    (if t.reg .rdx ≠ 0 then .yield (t.reg .rax).toNat else .finish)
  some {s with sched := sched, arrived := t}

def step (s : State) : Event → Option State
  | .newCoroutine co => (SharedStack.step p.layout s.sched (.newCoroutine co)).map (fun sched => {s with sched := sched})
  | .work memory => some {s with sched := {s.sched with memory := memory}}
  | .resume co reg back => resume p s co reg back
  | .yield reg back => do
      let co ← s.sched.running
      let j := jumpCall p reg back s.sched.memory s.main (p.coroutine co)
      let t ← steps p.code 17 j
      resumed p {s with left := Function.update s.left co (caller j)} t
  | .finish reg back => do
      let co ← s.sched.running
      let j := jumpCall p reg back s.sched.memory (s.entered co) 0
      let t ← steps p.code 17 j
      resumed p s t

def Same (m n : Memory) (low high : Nat) : Prop := ∀ x, low ≤ x → x < high → n x = m x

/-- Loop calls Resume at one depth and leaves the shared stacks alone; a coroutine stays on its own
stack, and away from the frame that Loop's side has left. -/
def Clean (s : State) : Event → Prop
  | .newCoroutine _ => True
  | .work memory =>
      (∀ i, i < kShareStackSize → (∀ co, s.sched.running = some co → stackId co ≠ i) →
        Same s.sched.memory memory (p.layout.base i) (p.layout.top i)) ∧
      (s.sched.running ≠ none → Same s.sched.memory memory (p.loopSp.toNat - 56) p.loopSp.toNat)
  | .resume co reg _ => reg .rsp = p.loopSp ∧ SharedStack.Clean p.layout s.sched (.resume co 0)
  | .yield reg _ => ∀ co, s.sched.running = some co →
      p.layout.base (stackId co) + 56 ≤ (reg .rsp).toNat ∧ (reg .rsp).toNat ≤ p.layout.top (stackId co)
  | .finish reg _ => ∀ co, s.sched.running = some co →
      p.layout.base (stackId co) + 56 ≤ (reg .rsp).toNat ∧ (reg .rsp).toNat ≤ p.layout.top (stackId co)

def called (reg : Reg → Word) (back : Word) : Continuation := ⟨calleeSaved.map reg,reg .rsp,back⟩

/-- Each switch goes on where that side has called tb_context_jump last. -/
def Faithful (s t : State) : Event → Prop
  | .resume co reg back => t.sched.running = some co ∧ t.loop = called reg back ∧
      (s.sched.life co = .yielded → current t.arrived = s.left co ∧ t.arrived.reg .rdx = p.mainCo ∧
        ∃ ctx, s.sched.ctx co = some ctx ∧
          load t.sched.memory ctx (p.layout.top (stackId co) - ctx) = s.sched.frame co) ∧
      (s.sched.life co = .fresh → t.arrived.rip = p.mainFunc ∧ t.arrived.reg .rdi = p.loopSp - 56 ∧
        t.arrived.reg .rsi = p.mainCo ∧ ((t.arrived.reg .rsp).toNat + 8) % 16 = 0 ∧
        p.layout.base (stackId co) ≤ (t.arrived.reg .rsp).toNat ∧
        (t.arrived.reg .rsp).toNat + 8 ≤ p.layout.top (stackId co))
  | .yield reg back => ∃ co, s.sched.running = some co ∧ current t.arrived = s.loop ∧
      t.arrived.reg .rdx = p.coroutine co ∧ t.left co = called reg back ∧ t.sched.life co = .yielded ∧
      t.sched.ctx co = some (t.arrived.reg .rax).toNat
  | .finish _ _ => ∃ co, s.sched.running = some co ∧ current t.arrived = s.loop ∧ t.arrived.reg .rdx = 0 ∧
      t.sched.life co = .idle
  | _ => True

structure Inv (s : State) : Prop where
  sched : SharedStack.Inv p.layout s.sched
  loop : s.sched.running ≠ none → Suspended s.sched.memory (p.loopSp - 56) s.loop
  main : s.sched.running ≠ none → s.main = p.loopSp - 56
  entered : ∀ co, s.sched.life co = .running ∨ s.sched.life co = .yielded →
    s.main = p.loopSp - 56 ∧ s.entered co = p.loopSp - 56
  left : ∀ co, s.sched.life co = .yielded → ∃ ctx, s.sched.ctx co = some ctx ∧
    ctx + 56 ≤ p.layout.top (stackId co) ∧ ∀ m : Memory,
      load m ctx (p.layout.top (stackId co) - ctx) = s.sched.frame co → Suspended m (BitVec.ofNat 64 ctx) (s.left co)

section
variable {l : Layout} {s : SharedStack.State} {m n : Memory}

theorem loadEqual {a k : Nat} (same : load m a k = load n a k) {x : Nat} (low : a ≤ x) (high : x < a+k) : m x = n x := by
  have first := loadAt m a k (x-a) (by omega)
  rw [same,loadAt n a k (x-a) (by omega),show a + (x-a) = x by omega] at first
  exact (Option.some.inj first).symm

/- Nothing but the stack of the running coroutine, and what is no shared stack, may change. -/
theorem memoryKeeps (inv : SharedStack.Inv l s) (same : ∀ i, i < kShareStackSize →
    (∀ co, s.running = some co → stackId co ≠ i) → Same s.memory m (l.base i) (l.top i)) :
    SharedStack.Inv l {s with memory := m} := by
  refine {inv with kept := ?_}
  intro c yielded
  obtain ⟨ctx,kept⟩ := inv.kept c yielded
  refine ⟨ctx,kept.context,kept.inside,?_,kept.saved⟩
  intro own
  change load m _ _ = _
  rw [← kept.live own]
  apply loadCongr
  intro x lower upper
  have below := kept.inside.1
  refine same (stackId c) (stackIdLess c) ?_ x (by omega) (by omega)
  intro co run alike
  have mine := inv.owned co run
  rw [alike] at mine
  have me : co = c := Option.some.inj (mine.symm.trans own)
  rw [me] at run
  simp [(inv.active c).mpr run] at yielded

/- Resume has brought the frame back before it jumps. -/
theorem frameBack (inv : SharedStack.Inv l s) {co make : Nat} (yielded : s.life co = .yielded) :
    ∃ ctx, s.ctx co = some ctx ∧ inStack l co ctx ∧
      load (SharedStack.resume l s co make).memory ctx (l.top (stackId co) - ctx) = s.frame co := by
  obtain ⟨ctx,kept⟩ := inv.kept co yielded
  refine ⟨ctx,kept.context,kept.inside,?_⟩
  by_cases own : s.owner (stackId co) = some co
  · rw [← kept.live own]
    exact resumeMemory (fun _ _ displaced => absurd ((foundOwner inv yielded).trans own) displaced)
  · obtain ⟨room,copy⟩ := kept.saved own
    rw [resumeRestored kept.context (by rwa [foundOwner inv yielded]) room,copy]

end

section
variable {reg : Reg → Word} {mem : Memory} {back rdi rsi rdx : Word}

theorem invokeCaller (f : Word) (s : Machine) : caller (s.invoke f back) = ⟨calleeSaved.map s.reg,s.reg .rsp,back⟩ := by
  have saved : calleeSaved.map (s.invoke f back).reg = calleeSaved.map s.reg := by
    simp [calleeSaved,Machine.invoke]
  have sp : (s.invoke f back).reg .rsp = s.reg .rsp - 8 := by simp [Machine.invoke]
  have top : (s.invoke f back).top = back := by
    rw [Machine.top,sp]
    exact readWrite s.mem _ _
  rw [caller,saved,sp,top,BitVec.sub_add_cancel]

/- A call writes its return address and nothing else. -/
theorem invokeKept (f back : Word) (s : Machine) (room : 8 ≤ (s.reg .rsp).toNat) {x : Nat}
    (out : x + 8 < (s.reg .rsp).toNat ∨ (s.reg .rsp).toNat ≤ x) : (s.invoke f back).mem x = s.mem x := by
  have eight : (s.reg .rsp - 8).toNat = (s.reg .rsp).toNat - 8 := @subToNat (s.reg .rsp) 8 room
  exact writeOutside (show x < (s.reg .rsp - 8).toNat ∨ (s.reg .rsp - 8).toNat + 8 ≤ x by omega)

variable {p : Process} {k : Continuation}

/-- A call of tb_context_jump, from the pushed return address to what the target finds. -/
structure Jumped (reg : Reg → Word) (back : Word) (mem : Memory) (priv : Word) (k : Continuation) (t : Machine) : Prop where
  current : current t = k
  ctx : t.reg .rax = reg .rsp - 56
  priv : t.reg .rdx = priv
  suspended : Suspended t.mem (reg .rsp - 56) (called reg back)
  kept : ∀ x, x + 56 < (reg .rsp).toNat ∨ (reg .rsp).toNat ≤ x → t.mem x = mem x

theorem jumpCaller (p : Process) (reg : Reg → Word) (back : Word) (mem : Memory) (ctx priv : Word) :
    caller (jumpCall p reg back mem ctx priv) = called reg back := invokeCaller _ _

theorem jumps {ctx priv : Word} (deep : 56 ≤ (reg .rsp).toNat) (above : ctx.toNat + 56 < 2^64)
    (suspended : Suspended mem ctx k)
    (apart : ctx.toNat + 56 + 56 ≤ (reg .rsp).toNat ∨ (reg .rsp).toNat ≤ ctx.toNat) :
    ∃ t, steps p.code 17 (jumpCall p reg back mem ctx priv) = some t ∧ Jumped reg back mem priv k t := by
  have eight : (reg .rsp - 8).toNat = (reg .rsp).toNat - 8 := @subToNat (reg .rsp) 8 (by omega)
  have sp : (jumpCall p reg back mem ctx priv).reg .rsp = reg .rsp - 8 := by simp [jumpCall,Machine.invoke,args]
  have rdi : (jumpCall p reg back mem ctx priv).reg .rdi = ctx := by simp [jumpCall,Machine.invoke,args]
  have rsi : (jumpCall p reg back mem ctx priv).reg .rsi = priv := by simp [jumpCall,Machine.invoke,args]
  have kept : ∀ x, x + 8 < (reg .rsp).toNat ∨ (reg .rsp).toNat ≤ x → (jumpCall p reg back mem ctx priv).mem x = mem x :=
    fun x out => invokeKept _ back ⟨args reg ctx priv (reg .rdx),mem,0⟩ (show 8 ≤ (reg .rsp).toNat by omega) out
  have ready : Suspended (jumpCall p reg back mem ctx priv).mem ((jumpCall p reg back mem ctx priv).reg .rdi) k := by
    rw [rdi]
    exact suspendedCongr suspended (fun x low high => kept x (by omega))
  have place : reg .rsp - 8 - 48 = reg .rsp - 56 := by bv_omega
  obtain ⟨t,runs,switched⟩ := jumpSwitches p.loaded rfl (by rw [sp,eight]; omega) (by rw [rdi]; exact above) ready
    (by rw [sp,rdi,eight]; omega)
  refine ⟨t,runs,switched.current,?_,?_,?_,?_⟩
  · rw [switched.ctx,sp,place]
  · rw [switched.priv,rsi]
  · have saved := switched.suspended
    rwa [sp,place,jumpCaller] at saved
  · intro x out
    rw [switched.kept x (by rw [sp,eight]; omega)]
    exact kept x (by omega)

end

section
variable {p : Process} {s : State} {co : Nat} {reg : Reg → Word} {back : Word}

theorem loopFrame (p : Process) : (p.loopSp - 56).toNat = p.loopSp.toNat - 56 := @subToNat p.loopSp 56 p.deep

theorem contextNat {ctx : Nat} (inside : inStack p.layout co ctx) : (BitVec.ofNat 64 ctx).toNat = ctx := by
  have above := p.high (stackId co) (stackIdLess co)
  have below := inside.2
  rw [BitVec.toNat_ofNat]
  omega

/- The steps of the scheduler's model that a switch comes with. -/
theorem schedResume (idle : s.sched.running = none) (ready : s.sched.life co = .fresh ∨ s.sched.life co = .yielded)
    {make : Nat} (inside : inStack p.layout co make) :
    SharedStack.step p.layout s.sched (.resume co make) = some (SharedStack.resume p.layout s.sched co make) :=
  if_pos ⟨idle,ready,inside⟩

/- What Loop has pushed when it jumps is on no shared stack. -/
theorem loopPushes {m n : Memory} (kept : ∀ x, x + 56 < p.loopSp.toNat ∨ p.loopSp.toNat ≤ x → n x = m x)
    {i : Nat} (less : i < kShareStackSize) : Same m n (p.layout.base i) (p.layout.top i) := by
  intro x low high
  have apart := p.apart i less
  exact kept x (by omega)

theorem resumeYielded (inv : Inv p s) (idle : s.sched.running = none) (yielded : s.sched.life co = .yielded)
    (clean : Clean p s (.resume co reg back)) :
    ∃ t, step p s (.resume co reg back) = some t ∧ Faithful p s t (.resume co reg back) ∧ Inv p t := by
  obtain ⟨sp,clean⟩ := clean
  obtain ⟨ctx,context,fits,held⟩ := inv.left co yielded
  obtain ⟨_,again,inside,restored⟩ := @frameBack _ _ inv.sched co ctx yielded
  cases Option.some.inj (context.symm.trans again)
  have number := contextNat inside
  have above := p.high (stackId co) (stackIdLess co)
  have away := p.apart (stackId co) (stackIdLess co)
  have low := inside.1
  obtain ⟨t,runs,jumped⟩ := @jumps reg _ back p (s.left co) (BitVec.ofNat 64 ctx) p.mainCo (by rw [sp]; exact p.deep)
    (by rw [number]; omega) (held _ restored) (by rw [sp,number]; omega)
  have ctx_ := jumped.ctx
  have suspended := jumped.suspended
  have kept := jumped.kept
  rw [sp] at ctx_ suspended kept
  have sched := memoryKeeps (@resumeKeeps _ _ inv.sched co ctx idle clean) (fun i less _ => loopPushes kept less)
  refine ⟨{s with
      sched := {SharedStack.resume p.layout s.sched co ctx with memory := t.mem}
      arrived := t
      loop := caller (jumpCall p reg back (SharedStack.resume p.layout s.sched co ctx).memory (BitVec.ofNat 64 ctx)
        p.mainCo)},?_,⟨resumeRunning,jumpCaller p reg back _ _ _,?_,?_⟩,
    ⟨sched,fun _ => ?_,fun _ => (inv.entered co (.inr yielded)).1,?_,?_⟩⟩
  · simp only [step,resume,context,schedResume idle (.inr yielded) inside,runs,bind,Option.bind_some]
  · intro _
    refine ⟨jumped.current,jumped.priv,ctx,context,?_⟩
    rw [← restored]
    exact loadCongr (fun x lower upper => kept x (by omega))
  · intro fresh
    rw [yielded] at fresh
    cases fresh
  · simpa only [jumpCaller] using suspended
  · intro c active
    by_cases same : c = co
    · subst c
      exact inv.entered co (.inr yielded)
    · exact inv.entered c (by simpa [Function.update_of_ne same] using active)
  · intro c left
    have other : c ≠ co := by
      rintro rfl
      simp at left
    obtain ⟨from_,here,room,holds⟩ := inv.left c (by simpa [Function.update_of_ne other] using left)
    exact ⟨from_,(resumeCtx c (.inl other)).trans here,room,fun m same => holds m (by simpa using same)⟩

/- The stack that tb_context_make gets, as the layout has it. -/
structure Stacked (p : Process) (co : Nat) (mk : Machine) : Prop where
  at_ : mk.rip = p.loaded.make
  func : mk.reg .rdx = p.mainFunc
  room : Room mk
  low : (mk.reg .rdi).toNat = p.layout.base (stackId co)
  high : (mk.reg .rdi).toNat + (mk.reg .rsi).toNat = p.layout.top (stackId co)
  sp : (mk.reg .rsp).toNat = p.loopSp.toNat - 8

theorem makeStacked (sp : reg .rsp = p.loopSp) (back : Word) (m : Memory) (co : Nat) :
    Stacked p co (makeCall p reg back m co) := by
  have above := p.high (stackId co) (stackIdLess co)
  have wide := p.wide
  have deep := p.deep
  simp only [Layout.top] at above
  have low : (BitVec.ofNat 64 (p.layout.base (stackId co))).toNat = p.layout.base (stackId co) := by
    rw [BitVec.toNat_ofNat]
    omega
  have size : (BitVec.ofNat 64 p.layout.stackSize).toNat = p.layout.stackSize := by
    rw [BitVec.toNat_ofNat]
    omega
  have rdi : (makeCall p reg back m co).reg .rdi = BitVec.ofNat 64 (p.layout.base (stackId co)) := by
    simp [makeCall,Machine.invoke,args]
  have rsi : (makeCall p reg back m co).reg .rsi = BitVec.ofNat 64 p.layout.stackSize := by
    simp [makeCall,Machine.invoke,args]
  have rsp : (makeCall p reg back m co).reg .rsp = p.loopSp - 8 := by simp [makeCall,Machine.invoke,args,sp]
  have eight : (p.loopSp - 8).toNat = p.loopSp.toNat - 8 := @subToNat p.loopSp 8 (by omega)
  refine ⟨rfl,by simp [makeCall,Machine.invoke,args],⟨?_,?_⟩,?_,?_,?_⟩
  · rw [rsi,size]
    exact wide
  · rw [rdi,rsi,low,size]
    omega
  · rw [rdi,low]
  · rw [rdi,rsi,low,size]
    rfl
  · rw [rsp,eight]

theorem resumeFresh (inv : Inv p s) (idle : s.sched.running = none) (fresh : s.sched.life co = .fresh)
    (clean : Clean p s (.resume co reg back)) :
    ∃ t, step p s (.resume co reg back) = some t ∧ Faithful p s t (.resume co reg back) ∧ Inv p t := by
  obtain ⟨sp,clean⟩ := clean
  have context := inv.sched.fresh co fresh
  have deep := p.deep
  have away := p.apart (stackId co) (stackIdLess co)
  have stacked := makeStacked sp back (takeStack p.layout s.sched co).memory co
  generalize hmk : makeCall p reg back (takeStack p.layout s.sched co).memory co = mk at stacked
  obtain ⟨at_,func,room,low,high,deepMk⟩ := stacked
  have inside := madeInside room
  obtain ⟨m,makes,made⟩ := contextMade p.loaded at_ room (by omega)
  have here : inStack p.layout co (m.reg .rax).toNat := by
    rw [made.ctx,inStack]
    omega
  let j := jumpCall p reg back m.mem (m.reg .rax) p.mainCo
  have jsp : j.reg .rsp = p.loopSp - 8 := by simp [j,jumpCall,Machine.invoke,args,sp]
  have eight : (p.loopSp - 8).toNat = p.loopSp.toNat - 8 := @subToNat p.loopSp 8 (by omega)
  have jrdi : j.reg .rdi = m.reg .rax := by simp [j,jumpCall,Machine.invoke,args]
  have jrsi : j.reg .rsi = p.mainCo := by simp [j,jumpCall,Machine.invoke,args]
  have jmem : ∀ x, x + 8 < p.loopSp.toNat ∨ p.loopSp.toNat ≤ x → j.mem x = m.mem x := by
    intro x out
    rw [← sp] at out deep
    exact invokeKept _ back ⟨args reg (m.reg .rax) p.mainCo (reg .rdx),m.mem,0⟩ (show 8 ≤ (reg .rsp).toNat by omega) out
  obtain ⟨t,enters,entered⟩ := contextEnters p.loaded at_ room (by omega) makes (j := j) rfl jrdi
    (fun x lower upper => jmem x (by rw [jrdi,made.ctx] at lower upper; omega)) (by rw [jsp,eight]; omega)
    (by rw [jsp,eight]; omega)
  have place : p.loopSp - 8 - 48 = p.loopSp - 56 := by bv_omega
  have rdi := entered.ctx
  have suspended := entered.suspended
  rw [jsp,place] at rdi suspended
  have rsi := entered.priv.trans jrsi
  have start : (SharedStack.resume p.layout s.sched co (m.reg .rax).toNat).memory = s.sched.memory := by
    simp only [SharedStack.resume,context,takeStackMemory]
  have mkmem : ∀ x, x + 8 < p.loopSp.toNat ∨ p.loopSp.toNat ≤ x → mk.mem x = s.sched.memory x := by
    intro x out
    rw [← sp] at out deep
    rw [← hmk,← @takeStackMemory p.layout s.sched co]
    exact invokeKept _ back ⟨args reg _ _ p.mainFunc,_,0⟩ (show 8 ≤ (reg .rsp).toNat by omega) out
  have sched := memoryKeeps (m := t.mem) (@resumeKeeps _ _ inv.sched co (m.reg .rax).toNat idle clean) (by
    intro i less other x lower upper
    have apart := p.apart i less
    have differ : stackId co ≠ i := other co (by simp)
    have far := p.layout.apart _ _ (stackIdLess co) less differ
    simp only [Layout.top] at lower upper apart high
    rw [entered.kept x (by rw [jsp,eight]; omega) (by omega),jmem x (by omega),made.kept x (by omega),mkmem x (by omega),
      start])
  refine ⟨{s with
      sched := {SharedStack.resume p.layout s.sched co (m.reg .rax).toNat with memory := t.mem}
      main := if t.reg .rsi = p.mainCo then t.reg .rdi else s.main
      entered := Function.update s.entered co (t.reg .rdi)
      arrived := t
      loop := caller j},?_,⟨resumeRunning,jumpCaller p reg back _ _ _,?_,?_⟩,⟨sched,fun _ => ?_,fun _ => ?_,?_,?_⟩⟩
  · simp only [step,resume,context,hmk,makes,schedResume idle (.inl fresh) here,bind,Option.bind_some]
    rw [enters]
    rfl
  · intro yielded
    rw [fresh] at yielded
    cases yielded
  · intro _
    exact ⟨entered.func.trans func,rdi,rsi,entered.aligned,by rw [← low]; exact entered.inside.1,
      by rw [← high]; exact entered.inside.2⟩
  · simpa only [j,jumpCaller] using suspended
  · simp only [if_pos rsi,rdi]
  · intro c active
    refine ⟨by simp only [if_pos rsi,rdi],?_⟩
    by_cases same : c = co
    · subst c
      simp [rdi]
    · refine (Function.update_of_ne same _ _).trans ?_
      exact (inv.entered c (by simpa [Function.update_of_ne same] using active)).2
  · intro c left
    have other : c ≠ co := by
      rintro rfl
      simp at left
    obtain ⟨from_,where_,fits,holds⟩ := inv.left c (by simpa [Function.update_of_ne other] using left)
    exact ⟨from_,(resumeCtx c (.inl other)).trans where_,fits,fun m same => holds m (by simpa using same)⟩

/- The stack of the running coroutine is all that its own call of tb_context_jump writes to. -/
theorem jumpsBack (inv : Inv p s) (run : s.sched.running = some co)
    (own : p.layout.base (stackId co) + 56 ≤ (reg .rsp).toNat ∧ (reg .rsp).toNat ≤ p.layout.top (stackId co))
    (priv : Word) : ∃ t, steps p.code 17 (jumpCall p reg back s.sched.memory (p.loopSp - 56) priv) = some t ∧
      Jumped reg back s.sched.memory priv s.loop t ∧ SharedStack.Inv p.layout {s.sched with memory := t.mem} := by
  have away := p.apart (stackId co) (stackIdLess co)
  have frame := loopFrame p
  have deep := p.deep
  have top := p.loopSp.isLt
  obtain ⟨t,runs,jumped⟩ := @jumps reg s.sched.memory back p s.loop (p.loopSp - 56) priv (by omega) (by omega)
    (inv.loop (by rw [run]; simp)) (by omega)
  refine ⟨t,runs,jumped,memoryKeeps inv.sched ?_⟩
  intro i less other x lower upper
  have far := p.layout.apart _ _ (stackIdLess co) less (other co run)
  simp only [Layout.top] at lower upper own
  exact jumped.kept x (by omega)

theorem yieldKept (inv : Inv p s) (run : s.sched.running = some co) (clean : Clean p s (.yield reg back)) :
    ∃ t, step p s (.yield reg back) = some t ∧ Faithful p s t (.yield reg back) ∧ Inv p t := by
  have own := clean co run
  have main := inv.main (by rw [run]; simp)
  obtain ⟨t,runs,jumped,sched⟩ := @jumpsBack _ _ _ reg back inv run own (p.coroutine co)
  have ctx : (t.reg .rax).toNat = (reg .rsp).toNat - 56 := by
    rw [jumped.ctx]
    exact @subToNat (reg .rsp) 56 (by omega)
  have inside : inStack p.layout co (t.reg .rax).toNat := by
    rw [ctx,inStack]
    omega
  have named : t.reg .rdx ≠ 0 := by
    rw [jumped.priv]
    exact p.notNull co
  refine ⟨{s with
      sched := {s.sched with
        memory := t.mem
        ctx := Function.update s.sched.ctx co (some (t.reg .rax).toNat)
        life := Function.update s.sched.life co .yielded
        running := none
        frame := Function.update s.sched.frame co
          (load t.mem (t.reg .rax).toNat (p.layout.top (stackId co) - (t.reg .rax).toNat))}
      arrived := t
      left := Function.update s.left co (caller (jumpCall p reg back s.sched.memory s.main (p.coroutine co)))},
    ?_,⟨co,run,jumped.current,jumped.priv,?_,by simp,by simp⟩,
    ⟨yieldKeeps sched run inside,by simp,by simp,?_,?_⟩⟩
  · simp only [step,run,main,bind,Option.bind_some,runs,resumed,if_pos named,SharedStack.step,if_pos inside]
  · simp [jumpCaller]
  · intro c active
    by_cases same : c = co
    · subst c
      exact inv.entered co (.inl ((inv.sched.active co).mpr run))
    · exact inv.entered c (by simpa [Function.update_of_ne same] using active)
  · intro c left
    by_cases same : c = co
    · subst c
      refine ⟨_,Function.update_self _ _ _,by omega,?_⟩
      intro m held
      have whole := held.trans (Function.update_self co _ s.sched.frame)
      simp only [Function.update_self,BitVec.ofNat_toNat,BitVec.setWidth_eq,jumpCaller]
      rw [jumped.ctx] at ctx whole ⊢
      exact suspendedCongr jumped.suspended (fun x low high => loadEqual whole low (by omega))
    · obtain ⟨from_,here,fits,holds⟩ := inv.left c (by simpa [Function.update_of_ne same] using left)
      exact ⟨from_,(Function.update_of_ne same _ _).trans here,fits,fun m held => by
        simpa [Function.update_of_ne same] using holds m (by simpa [Function.update_of_ne same] using held)⟩

theorem finishKept (inv : Inv p s) (run : s.sched.running = some co) (clean : Clean p s (.finish reg back)) :
    ∃ t, step p s (.finish reg back) = some t ∧ Faithful p s t (.finish reg back) ∧ Inv p t := by
  have entered := (inv.entered co (.inl ((inv.sched.active co).mpr run))).2
  obtain ⟨t,runs,jumped,sched⟩ := @jumpsBack _ _ _ reg back inv run (clean co run) 0
  have done : ¬ t.reg .rdx ≠ 0 := by simp [jumped.priv]
  refine ⟨{s with
      sched := {s.sched with
        memory := t.mem
        owner := Function.update s.sched.owner (stackId co) none
        life := Function.update s.sched.life co .idle
        running := none}
      arrived := t},?_,⟨co,run,jumped.current,jumped.priv,by simp⟩,⟨finishKeeps sched run,by simp,by simp,?_,?_⟩⟩
  · simp only [step,run,entered,bind,Option.bind_some,runs,resumed,if_neg done,SharedStack.step]
  · intro c active
    have other : c ≠ co := by
      rintro rfl
      simp at active
    exact inv.entered c (by simpa [Function.update_of_ne other] using active)
  · intro c left
    have other : c ≠ co := by
      rintro rfl
      simp at left
    exact inv.left c (by simpa [Function.update_of_ne other] using left)

end

/-- When the code gets to the call that an event stands for. -/
def Enabled (s : State) : Event → Prop
  | .newCoroutine co => s.sched.life co = .idle
  | .work _ => True
  | .resume co _ _ => s.sched.running = none ∧ (s.sched.life co = .fresh ∨ s.sched.life co = .yielded)
  | .yield _ _ => s.sched.running ≠ none
  | .finish _ _ => s.sched.running ≠ none

section
variable {p : Process} {s t : State} {e : Event}

theorem newKept {co : Nat} (inv : Inv p s) (idle : s.sched.life co = .idle) :
    ∃ t, step p s (.newCoroutine co) = some t ∧ Inv p t := by
  refine ⟨{s with
      sched := {s.sched with
        ctx := Function.update s.sched.ctx co none
        stack := Function.update s.sched.stack co (StreamBuffer.reset (s.sched.stack co))
        life := Function.update s.sched.life co .fresh}},
    by simp only [step,SharedStack.step,if_pos idle,Option.map_some],
    ⟨newKeeps inv.sched idle,inv.loop,inv.main,?_,?_⟩⟩
  · intro c active
    have other : c ≠ co := by
      rintro rfl
      simp at active
    exact inv.entered c (by simpa [Function.update_of_ne other] using active)
  · intro c left
    have other : c ≠ co := by
      rintro rfl
      simp at left
    obtain ⟨ctx,here,fits,holds⟩ := inv.left c (by simpa [Function.update_of_ne other] using left)
    exact ⟨ctx,(Function.update_of_ne other _ _).trans here,fits,holds⟩

theorem workKept {memory : Memory} (inv : Inv p s) (clean : Clean p s (.work memory)) :
    Inv p {s with sched := {s.sched with memory := memory}} := by
  obtain ⟨others,frame⟩ := clean
  refine ⟨memoryKeeps inv.sched others,?_,inv.main,inv.entered,inv.left⟩
  intro active
  have deep := p.deep
  refine suspendedCongr (inv.loop active) (fun x low high => frame active x ?_ ?_)
  · rwa [loopFrame p] at low
  · rw [loopFrame p] at high
    omega

theorem stepKept (inv : Inv p s) (enabled : Enabled s e) (clean : Clean p s e) :
    ∃ t, step p s e = some t ∧ Faithful p s t e ∧ Inv p t := by
  cases e with
  | newCoroutine co =>
    obtain ⟨t,steps,kept⟩ := newKept inv enabled
    exact ⟨t,steps,trivial,kept⟩
  | work memory => exact ⟨_,rfl,trivial,workKept inv clean⟩
  | resume co reg back =>
    obtain ⟨idle,fresh | yielded⟩ := enabled
    · exact resumeFresh inv idle fresh clean
    · exact resumeYielded inv idle yielded clean
  | yield reg back =>
    obtain ⟨co,run⟩ := Option.ne_none_iff_exists'.1 enabled
    exact yieldKept inv run clean
  | finish reg back =>
    obtain ⟨co,run⟩ := Option.ne_none_iff_exists'.1 enabled
    exact finishKept inv run clean

theorem schedReady {co make : Nat} {sched : SharedStack.State}
    (h : SharedStack.step p.layout s.sched (.resume co make) = some sched) :
    s.sched.running = none ∧ (s.sched.life co = .fresh ∨ s.sched.life co = .yielded) := by
  simp only [SharedStack.step] at h
  split at h
  · rename_i guard
    exact ⟨guard.1,guard.2.1⟩
  · contradiction

theorem stepEnabled (h : step p s e = some t) : Enabled s e := by
  cases e with
  | newCoroutine co =>
    simp only [step,SharedStack.step] at h
    split at h
    · assumption
    · simp at h
  | work memory => trivial
  | resume co reg back =>
    simp only [step,resume] at h
    split at h
    · obtain ⟨m,-,h⟩ := Option.bind_eq_some_iff.1 h
      obtain ⟨sched,ready,-⟩ := Option.bind_eq_some_iff.1 h
      exact schedReady ready
    · obtain ⟨sched,ready,-⟩ := Option.bind_eq_some_iff.1 h
      exact schedReady ready
  | yield reg back =>
    obtain ⟨co,run,-⟩ := Option.bind_eq_some_iff.1 h
    simp [Enabled,run]
  | finish reg back =>
    obtain ⟨co,run,-⟩ := Option.bind_eq_some_iff.1 h
    simp [Enabled,run]

theorem initialInv (p : Process) (memory : Memory) (data : Nat → Memory) (cpu : Machine) :
    Inv p (initial memory data cpu) := by
  refine ⟨SharedStack.initialInv p.layout memory data,?_,?_,?_,?_⟩ <;> simp [initial,SharedStack.initial]

end

/-- Over whole runs of the scheduler on the machine code of its switches: Resume goes on in a coroutine
where and with the registers and the stack with which it called Yield, or enters MainFunc on the shared
stack; Yield and the end of MainFunc go on in Resume as its latest call left it, with the priv that
tells the two apart. -/
theorem switchesFaithful (p : Process) (memory : Memory) (data : Nat → Memory) (cpu : Machine) (es : List Event)
    (s : State) (e : Event) (clean : Guarded (step p) (Clean p) (initial memory data cpu) (es ++ [e]))
    (reached : run (step p) (initial memory data cpu) es = some s) (enabled : Enabled s e) :
    ∃ t, step p s e = some t ∧ Faithful p s t e := by
  obtain ⟨before,last⟩ := guardedAppend clean reached
  have kept : ∀ u f v, Inv p u → Clean p u f → step p u f = some v → Inv p v := by
    intro u f v inv ok h
    obtain ⟨w,again,-,kept⟩ := stepKept inv (stepEnabled h) ok
    cases Option.some.inj (h.symm.trans again)
    exact kept
  have inv := guardedInvariant kept before reached (initialInv p memory data cpu)
  obtain ⟨t,steps,faithful,-⟩ := stepKept inv enabled last.1
  exact ⟨t,steps,faithful⟩

theorem spacedHigh (i : Nat) (less : i < kShareStackSize) : spaced.top i < 2^64 := by
  simp only [Layout.top,spaced,kShareStackSize] at less ⊢
  omega

theorem spacedApart (i : Nat) (less : i < kShareStackSize) :
    (1000000 : Word).toNat ≤ spaced.base i ∨ spaced.top i + 56 ≤ (1000000 : Word).toNat := by
  simp only [Layout.top,spaced,kShareStackSize] at less ⊢
  have value : (1000000 : Word).toNat = 1000000 := by decide
  omega

def sample : Process where
  code := image program
  loaded := programLoaded
  layout := spaced
  mainFunc := 1000
  mainCo := 1
  coroutine := fun _ => 2
  loopSp := 1000000
  notNull := fun _ => by decide
  wide := by decide
  high := spacedHigh
  deep := by decide
  apart := spacedApart

theorem firstYield : ∃ s t, run (step sample) (initial (fun _ => 0) (fun _ _ => 0) ⟨fun _ => 0,fun _ => 0,0⟩)
      [.newCoroutine 0,.resume 0 (fun _ => 1000000) 200] = some s ∧
    step sample s (.yield (fun _ => 8000) 300) = some t ∧ Faithful sample s t (.yield (fun _ => 8000) 300) := by
  have inv := initialInv sample (fun _ => 0) (fun _ _ => 0) ⟨fun _ => 0,fun _ => 0,0⟩
  generalize hs : initial (fun _ => 0) (fun _ _ => 0) ⟨fun _ => 0,fun _ => 0,0⟩ = start at inv
  have idle : start.sched.life 0 = .idle := by rw [← hs]; rfl
  have still : start.sched.running = none := by rw [← hs]; rfl
  have unmade : start.sched.made (stackId 0) = false := by rw [← hs]; rfl
  obtain ⟨r,created,kept⟩ := newKept inv idle
  have shape : r.sched.running = none ∧ r.sched.life 0 = .fresh ∧ r.sched.ctx 0 = none ∧ found r.sched 0 = some 0 := by
    simp only [step,SharedStack.step,if_pos idle,Option.map_some,Option.some.injEq] at created
    subst r
    simp [found,still,unmade]
  obtain ⟨none_,fresh,context,mine⟩ := shape
  have clean : Clean sample r (.resume 0 (fun _ => 1000000) 200) :=
    ⟨rfl,fun o owner other => absurd (Option.some.inj (mine.symm.trans owner)).symm other,
      fun ctx some_ => by simp [context] at some_⟩
  obtain ⟨s,resumed,faithful,-⟩ := stepKept (e := .resume 0 (fun _ => 1000000) 200) kept ⟨none_,.inl fresh⟩ clean
  have running := faithful.1
  have reached : run (step sample) start [.newCoroutine 0,.resume 0 (fun _ => 1000000) 200] = some s := by
    simp only [run,created,bind,Option.bind_some,resumed]
  have yields : Clean sample s (.yield (fun _ => 8000) 300) := by
    intro co run
    cases Option.some.inj (running.symm.trans run)
    simp [sample,stackId,Layout.top,spaced]
  have guarded : Guarded (step sample) (Clean sample) start
      ([.newCoroutine 0,.resume 0 (fun _ => 1000000) 200] ++ [.yield (fun _ => 8000) 300]) :=
    guardedCons trivial created (guardedCons clean resumed ⟨yields,fun _ _ => trivial⟩)
  rw [← hs] at guarded reached
  obtain ⟨t,steps,ends⟩ := switchesFaithful sample (fun _ => 0) (fun _ _ => 0) ⟨fun _ => 0,fun _ => 0,0⟩ _ s _
    guarded reached (by simp [Enabled,running])
  exact ⟨s,t,by rwa [hs] at reached,steps,ends⟩

end TitCo.CoroutineSwitch
