import TitCo.Scheduler

/-! The suspend path of ChannelImpl::Read and Write, store by store: the section that
pushes the WaitCtx, then `wait_ctx_`, `scheduler_`, the timer and the Yield, against any
number of peers that claim the WaitCtx and call AddReadyTask. Each coroutine runs on the
thread of one scheduler. When Loop finds a timer due is left open. -/
namespace TitCo.Publication
open Channel MachineInt Transition
open Scheduler (Config)

/-- The steps of a suspending caller carry its WaitCtx; `handing` and `waking` are a
caller that has claimed one. `paused` is a Yield outside the channels. -/
inductive Pc where
  | idle
  | out
  | pushed (ch w : Nat)
  | noted (ch w : Nat)
  | stored (ch w : Nat)
  | armed (w : Nat)
  | asleep (w : Nat)
  | handing (w : Nat) (v : Value)
  | waking (w : Nat)
  | paused
  deriving DecidableEq, Repr

def Pc.call : Pc → Option Nat
  | .pushed _ w | .noted _ w | .stored _ w | .armed w | .asleep w => some w
  | _ => none

/-- Between UnLock and the store of `scheduler_`. -/
def Pc.gap : Pc → Option Nat
  | .pushed _ w | .noted _ w => some w
  | _ => none

def Pc.carries : Pc → Option Nat
  | .handing w _ | .waking w => some w
  | _ => none

structure Entry where
  co : Nat
  wait : Option Nat
  deriving DecidableEq, Repr

/-- `scheduler` is what `scheduler_` reads as: some scheduler, or the first word of the
closure that shares its storage. `suspended` marks a Yield since the closure was stored. -/
structure State where
  chan : Nat → ChannelImpl
  heap : Heap
  pc : Nat → Pc
  scheduler : Nat → Option Nat
  waitCtx : Nat → Option Nat
  coState : Nat → Nat
  timers : Nat → List Entry
  running : Nat → Option Nat
  ready : Nat → List Nat
  due : Nat → List Nat
  suspended : Nat → Bool

def initial (c : Config) : State where
  chan := fun ch => .create (c.raw ch) (c.cap ch) (c.blk ch) (c.ms ch)
  heap := .initial
  pc := fun _ => .idle
  scheduler := fun _ => none
  waitCtx := fun _ => none
  coState := fun _ => kInit
  timers := fun _ => []
  running := fun _ => none
  ready := fun _ => []
  due := fun _ => []
  suspended := fun _ => false

/-- `first` is how the closure's first word reads, `raw` what malloc left in state_. -/
inductive Event where
  | start (co : Nat) (first : Option Nat)
  | finish (co : Nat)
  | read (co ch raw : Nat) (onStack : Bool)
  | write (co ch raw : Nat) (onStack : Bool) (v : Value)
  | setWaitCtx (co : Nat)
  | setScheduler (co : Nat)
  | addTimer (co : Nat)
  | yield (co : Nat)
  | copy (co : Nat)
  | addReadyTask (co : Nat)
  | pause (co : Nat) (timed : Bool)
  | resumeIo (co : Nat)
  | resumeReady (sched : Nat)
  | examine (sched i : Nat)
  | resumeTimeout (sched : Nat)
  deriving DecidableEq, Repr

def State.at (s : State) (co : Nat) (p : Pc) : State := {s with pc := Function.update s.pc co p}

def State.afterRead (s : State) (co ch : Nat) : ChannelImpl × Heap × ReadOutcome → State
  | (c,h,.taken _) => {s with chan := Function.update s.chan ch c, heap := h}
  | (c,h,.woke _ w) => State.at {s with chan := Function.update s.chan ch c, heap := h} co (.waking w)
  | (c,h,.suspended w) => State.at {s with chan := Function.update s.chan ch c, heap := h} co (.pushed ch w)

def State.afterWrite (s : State) (co ch : Nat) (v : Value) : ChannelImpl × Heap × WriteOutcome → State
  | (c,h,.stored) => {s with chan := Function.update s.chan ch c, heap := h}
  | (c,h,.handOff w) => State.at {s with chan := Function.update s.chan ch c, heap := h} co (.handing w v)
  | (c,h,.suspended w) => State.at {s with chan := Function.update s.chan ch c, heap := h} co (.pushed ch w)

/-- Yield stores `scheduler_` itself if it is not there yet. -/
def State.yielded (home : Nat → Nat) (s : State) (co : Nat) (p : Pc) : State :=
  {s.at co p with
    scheduler := Function.update s.scheduler co (some (home co))
    suspended := Function.update s.suspended co true
    running := Function.update s.running (home co) none}

def State.addTimer (s : State) (sched : Nat) (e : Entry) : State :=
  {s with timers := Function.update s.timers sched (s.timers sched ++ [e])}

/-- AddReadyTask on whatever `scheduler_` reads as. -/
def State.readied (s : State) (co w : Nat) : State :=
  match s.scheduler (s.heap.ctx w).co with
  | some sched =>
      {s.at co .out with ready := Function.update s.ready sched (s.ready sched ++ [(s.heap.ctx w).co])}
  | none => s.at co .out

/-- Only a coroutine that has yielded can be jumped to, and only on its own scheduler. -/
def resume (home : Nat → Nat) (s : State) (sched co : Nat) : Option State :=
  if home co = sched ∧ s.running sched = none then
    match s.pc co with
    | .asleep _ | .paused => some {s.at co .out with running := Function.update s.running sched (some co)}
    | _ => none
  else none

/-- A turn of the loop in CollectTimeoutTasks. -/
def State.collect (s : State) (sched i : Nat) (e : Entry) : State :=
  let t := {s with timers := Function.update s.timers sched ((s.timers sched).eraseIdx i)}
  let tasks := {t with due := Function.update s.due sched (s.due sched ++ [e.co])}
  match s.waitCtx e.co with
  | none => t
  | some w =>
    if (s.heap.ctx w).state = kInit then {tasks with heap := s.heap.setState w kTimeout}
    else if s.coState e.co = kInit then tasks
    else {(if s.coState e.co = kWait then tasks else t) with coState := Function.update s.coState e.co kInit}

def step (home : Nat → Nat) (s : State) : Event → Option State
  | .start co first =>
      if s.pc co = .idle ∧ s.running (home co) = none then
        some {s.at co .out with
          scheduler := Function.update s.scheduler co first
          coState := Function.update s.coState co kInit
          suspended := Function.update s.suspended co false
          running := Function.update s.running (home co) (some co)}
      else none
  | .finish co =>
      if s.pc co = .out then some {s.at co .idle with running := Function.update s.running (home co) none} else none
  | .read co ch raw onStack =>
      if s.pc co = .out then some (s.afterRead co ch (readSection (s.chan ch) s.heap raw co onStack)) else none
  | .write co ch raw onStack v =>
      if s.pc co = .out ∧ v.length = (s.chan ch).blkSize then
        some (s.afterWrite co ch v (writeSection (s.chan ch) s.heap raw co onStack v))
      else none
  | .setWaitCtx co =>
      match s.pc co with
      | .pushed ch w => some {s.at co (.noted ch w) with waitCtx := Function.update s.waitCtx co (some w)}
      | _ => none
  | .setScheduler co =>
      match s.pc co with
      | .noted ch w =>
          some {s.at co (.stored ch w) with scheduler := Function.update s.scheduler co (some (home co))}
      | _ => none
  | .addTimer co =>
      match s.pc co with
      | .stored ch w =>
          some (if (s.chan ch).ms = uint32Max then s.at co (.armed w)
            else (s.at co (.armed w)).addTimer (home co) ⟨co,some w⟩)
      | _ => none
  | .yield co =>
      match s.pc co with
      | .armed w => some (s.yielded home co (.asleep w))
      | _ => none
  | .copy co =>
      match s.pc co with
      | .handing w v => some {s.at co (.waking w) with heap := s.heap.put (s.heap.ctx w).buf v}
      | _ => none
  | .addReadyTask co =>
      match s.pc co with
      | .waking w => some (s.readied co w)
      | _ => none
  | .pause co timed =>
      if s.pc co = .out then
        some ((if timed then s.addTimer (home co) ⟨co,none⟩ else s).yielded home co .paused)
      else none
  | .resumeIo co => if s.pc co = .paused then resume home s (home co) co else none
  | .resumeReady sched =>
      match s.ready sched with
      | co::rest => resume home {s with ready := Function.update s.ready sched rest} sched co
      | [] => none
  | .examine sched i =>
      if s.running sched = none then do
        let e ← (s.timers sched)[i]?
        some (s.collect sched i e)
      else none
  | .resumeTimeout sched =>
      match s.due sched with
      | co::rest => resume home {s with due := Function.update s.due sched rest} sched co
      | [] => none

/-- The WaitCtx that the section pops and wins the CAS on. -/
def claims (s : State) : Event → Option Nat
  | .read co ch raw onStack =>
      match (readSection (s.chan ch) s.heap raw co onStack).2.2 with
      | .woke _ w => some w
      | _ => none
  | .write co ch raw onStack v =>
      match (writeSection (s.chan ch) s.heap raw co onStack v).2.2 with
      | .handOff w => some w
      | _ => none
  | _ => none

def Home (home : Nat → Nat) (s : State) (w : Nat) : Prop :=
  s.scheduler (s.heap.ctx w).co = some (home (s.heap.ctx w).co)

/-- A claimed waiter has its scheduler, at the claim and at the AddReadyTask, and its
wait_ctx_ when its timer is examined; that of an earlier wait may find a later WaitCtx. -/
structure Published (home : Nat → Nat) (s : State) (e : Event) : Prop where
  claimed : ∀ w, claims s e = some w → Home home s w
  called : ∀ co w, e = .addReadyTask co → s.pc co = .waking w → Home home s w
  examined : ∀ sched i entry w, e = .examine sched i → (s.timers sched)[i]? = some entry → entry.wait = some w →
    ∃ x, s.waitCtx entry.co = some x ∧ w ≤ x ∧ ((s.pc entry.co).call = some w → x = w)

/-- Some peer may still claim the WaitCtx, or has claimed it and not called AddReadyTask. -/
def Owed (s : State) (w : Nat) : Prop :=
  ((s.heap.ctx w).state = kInit ∧ ∃ ch, w ∈ (s.chan ch).waitQueue) ∨ ∃ d, (s.pc d).carries = some w

/-- Nobody claims a WaitCtx in the gap before the store of scheduler_, unless its coroutine
has yielded before; and no closure is stored over the scheduler_ of a WaitCtx still owed. -/
def Late (s : State) : Event → Prop
  | .start co _ => ∀ w, Owed s w → (s.heap.ctx w).co ≠ co
  | e => ∀ w, claims s e = some w → (s.pc (s.heap.ctx w).co).gap = some w → s.suspended (s.heap.ctx w).co = true

structure Inv (home : Nat → Nat) (s : State) : Prop where
  made : ∀ ch, ∀ w ∈ (s.chan ch).waitQueue, w < s.heap.next
  carried : ∀ d w, (s.pc d).carries = some w → w < s.heap.next ∧ Home home s w
  claimable : ∀ ch, ∀ w ∈ (s.chan ch).waitQueue, (s.heap.ctx w).state = kInit →
    Home home s w ∨ (s.pc (s.heap.ctx w).co).gap = some w
  suspended : ∀ co, s.suspended co = true → s.scheduler co = some (home co)
  call : ∀ co w, (s.pc co).call = some w → w < s.heap.next ∧
    ((∃ ch, s.pc co = .pushed ch w) ∧ (∀ x, s.waitCtx co = some x → x < w) ∨ s.waitCtx co = some w)
  noted : ∀ co x, s.waitCtx co = some x → x < s.heap.next
  entry : ∀ sched, ∀ e ∈ s.timers sched, ∀ w, e.wait = some w → ∃ x, s.waitCtx e.co = some x ∧ w ≤ x

section
variable {home : Nat → Nat} {s t : State} {co w : Nat}

theorem initialInv (c : Config) : Inv home (initial c) := by
  constructor <;> simp [initial,ChannelImpl.create,Pc.carries,Pc.call]

theorem atKeeps {p : Pc} (inv : Inv home s) (carries : ∀ w, p.carries = some w → w < s.heap.next ∧ Home home s w)
    (gap : p.gap = (s.pc co).gap ∨ s.scheduler co = some (home co))
    (call : ∀ w, p.call = some w → (s.pc co).call = some w ∧ s.waitCtx co = some w) :
    Inv home (s.at co p) := by
  have other : ∀ d, d ≠ co → (s.at co p).pc d = s.pc d := fun d differ => Function.update_of_ne differ _ _
  have here : (s.at co p).pc co = p := Function.update_self _ _ _
  refine ⟨inv.made,?_,?_,inv.suspended,?_,inv.noted,inv.entry⟩
  · intro d w holds
    by_cases same : d = co
    · subst d
      rw [here] at holds
      exact carries w holds
    · rw [other d same] at holds
      exact inv.carried d w holds
  · intro ch w queued init
    rcases inv.claimable ch w queued init with ready | inside
    · exact Or.inl ready
    · by_cases same : (s.heap.ctx w).co = co
      · rcases gap with kept | ready
        · refine Or.inr ?_
          change ((s.at co p).pc (s.heap.ctx w).co).gap = some w
          rw [same,here,kept,← same]
          exact inside
        · refine Or.inl ?_
          change s.scheduler (s.heap.ctx w).co = some (home (s.heap.ctx w).co)
          rw [same]
          exact ready
      · refine Or.inr ?_
        change ((s.at co p).pc (s.heap.ctx w).co).gap = some w
        rw [other _ same]
        exact inside
  · intro d w inside
    by_cases same : d = co
    · subst d
      rw [here] at inside
      obtain ⟨before,noted⟩ := call w inside
      exact ⟨(inv.call co w before).1,Or.inr noted⟩
    · rw [other d same] at inside ⊢
      exact inv.call d w inside

theorem schedulerKeeps (inv : Inv home s) (co : Nat) :
    Inv home {s with scheduler := Function.update s.scheduler co (some (home co))} := by
  have stays : ∀ d, s.scheduler d = some (home d) →
      Function.update s.scheduler co (some (home co)) d = some (home d) := by
    intro d ready
    by_cases same : d = co
    · subst d
      exact Function.update_self _ _ _
    · rw [Function.update_of_ne same]
      exact ready
  refine ⟨inv.made,?_,?_,?_,inv.call,inv.noted,inv.entry⟩
  · intro d w holds
    exact ⟨(inv.carried d w holds).1,stays _ (inv.carried d w holds).2⟩
  · intro ch w queued init
    rcases inv.claimable ch w queued init with ready | inside
    · exact Or.inl (stays _ ready)
    · exact Or.inr inside
  · intro d marked
    exact stays d (inv.suspended d marked)

theorem addTimerKeeps (inv : Inv home s) (sched : Nat) {e : Entry}
    (noted : ∀ w, e.wait = some w → s.waitCtx e.co = some w) : Inv home (s.addTimer sched e) := by
  refine ⟨inv.made,inv.carried,inv.claimable,inv.suspended,inv.call,inv.noted,?_⟩
  intro sched' f member w wait
  simp only [State.addTimer] at member
  by_cases same : sched' = sched
  · subst sched'
    rw [Function.update_self,List.mem_append,List.mem_singleton] at member
    rcases member with old | rfl
    · exact inv.entry _ f old w wait
    · exact ⟨w,noted w wait,Nat.le_refl w⟩
  · rw [Function.update_of_ne same] at member
    exact inv.entry _ f member w wait

theorem yieldedKeeps {p : Pc} (inv : Inv home s) (carries : p.carries = none)
    (call : ∀ w, p.call = some w → (s.pc co).call = some w ∧ s.waitCtx co = some w) :
    Inv home (s.yielded home co p) := by
  have moved : Inv home (State.at {s with scheduler := Function.update s.scheduler co (some (home co))} co p) :=
    atKeeps (schedulerKeeps inv co) (by simp [carries]) (Or.inr (Function.update_self _ _ _)) call
  refine ⟨moved.made,moved.carried,moved.claimable,?_,moved.call,moved.noted,moved.entry⟩
  intro d marked
  simp only [State.yielded] at marked
  by_cases same : d = co
  · subst d
    exact Function.update_self _ _ _
  · rw [Function.update_of_ne same] at marked
    exact moved.suspended d marked

theorem heapKeeps (inv : Inv home s) {chan : Nat → ChannelImpl} {h : Heap} (next : h.next = s.heap.next)
    (owner : ∀ w, (h.ctx w).co = (s.heap.ctx w).co)
    (init : ∀ w, (h.ctx w).state = kInit → (s.heap.ctx w).state = kInit)
    (part : ∀ ch, ∀ w ∈ (chan ch).waitQueue, w ∈ (s.chan ch).waitQueue) :
    Inv home {s with chan := chan, heap := h} := by
  have same : ∀ w, Home home {s with chan := chan, heap := h} w ↔ Home home s w := by
    intro w
    simp only [Home,owner]
  refine ⟨?_,?_,?_,inv.suspended,?_,?_,inv.entry⟩
  · intro ch w queued
    simp only [next]
    exact inv.made ch w (part ch w queued)
  · intro d w holds
    rw [same]
    simp only [next]
    exact inv.carried d w holds
  · intro ch w queued claimable
    rw [same]
    simp only [owner]
    exact inv.claimable ch w (part ch w queued) (init w claimable)
  · intro d w inside
    simp only [next]
    exact inv.call d w inside
  · intro d x noted
    simp only [next]
    exact inv.noted d x noted

theorem queueParts {chan : Nat → ChannelImpl} {c : ChannelImpl} {ch : Nat}
    (part : ∀ x ∈ c.waitQueue, x ∈ (chan ch).waitQueue) (g : Nat) :
    ∀ x ∈ (Function.update chan ch c g).waitQueue, x ∈ (chan g).waitQueue := by
  intro x queued
  by_cases same : g = ch
  · subst g
    rw [Function.update_self] at queued
    exact part x queued
  · rw [Function.update_of_ne same] at queued
    exact queued

theorem claimKeeps {c : ChannelImpl} {ch : Nat} {p : Pc} (inv : Inv home s) (out : s.pc co = .out)
    (part : ∀ x ∈ c.waitQueue, x ∈ (s.chan ch).waitQueue) (inside : w ∈ (s.chan ch).waitQueue) (ready : Home home s w)
    (carries : ∀ x, p.carries = some x → x = w) (gap : p.gap = none) (call : p.call = none) :
    Inv home (State.at {s with chan := Function.update s.chan ch c, heap := s.heap.setState w kReady} co p) := by
  have taken : Inv home {s with chan := Function.update s.chan ch c, heap := s.heap.setState w kReady} :=
    heapKeeps inv rfl (setStateOwner _ _ _) (fun _ init => (setStateInit (by decide) init).2) (queueParts part)
  refine atKeeps taken ?_ (Or.inl (by simp only [out,gap]; rfl)) (by simp [call])
  intro x holds
  cases carries x holds
  refine ⟨inv.made ch w inside,?_⟩
  simp only [Home,setStateOwner]
  exact ready

theorem pushKeeps {c : ChannelImpl} {h : Heap} {ch : Nat} (inv : Inv home s) (out : s.pc co = .out)
    (queue : c.waitQueue = (s.chan ch).waitQueue ++ [s.heap.next]) (next : h.next = s.heap.next+1)
    (old : ∀ w, w < s.heap.next → h.ctx w = s.heap.ctx w) (owner : (h.ctx s.heap.next).co = co) :
    Inv home (State.at {s with chan := Function.update s.chan ch c, heap := h} co (.pushed ch s.heap.next)) := by
  have here : ∀ d, d = co → Function.update s.pc co (.pushed ch s.heap.next) d = .pushed ch s.heap.next := by
    rintro d rfl
    exact Function.update_self _ _ _
  have other : ∀ d, d ≠ co → Function.update s.pc co (.pushed ch s.heap.next) d = s.pc d :=
    fun d differ => Function.update_of_ne differ _ _
  have parts : ∀ g, ∀ w ∈ (Function.update s.chan ch c g).waitQueue, w ∈ (s.chan g).waitQueue ∨ w = s.heap.next := by
    intro g w queued
    by_cases same : g = ch
    · subst g
      rw [Function.update_self,queue,List.mem_append,List.mem_singleton] at queued
      exact queued
    · rw [Function.update_of_ne same] at queued
      exact Or.inl queued
  refine ⟨?_,?_,?_,inv.suspended,?_,?_,inv.entry⟩
  · intro g w queued
    simp only [State.at,next]
    rcases parts g w queued with before | rfl
    · exact Nat.lt_succ_of_lt (inv.made g w before)
    · exact Nat.lt_succ_self _
  · intro d w holds
    simp only [State.at,Home,next] at holds ⊢
    by_cases same : d = co
    · rw [here d same] at holds
      contradiction
    · rw [other d same] at holds
      obtain ⟨made,ready⟩ := inv.carried d w holds
      rw [old w made]
      exact ⟨Nat.lt_succ_of_lt made,ready⟩
  · intro g w queued init
    simp only [State.at,Home] at queued init ⊢
    rcases parts g w queued with before | rfl
    · have made := inv.made g w before
      rw [old w made] at init ⊢
      rcases inv.claimable g w before init with ready | gapped
      · exact Or.inl ready
      · have differ : (s.heap.ctx w).co ≠ co := by
          intro same
          rw [same,out] at gapped
          contradiction
        rw [other _ differ]
        exact Or.inr gapped
    · rw [here _ owner]
      exact Or.inr rfl
  · intro d w inside
    simp only [State.at,next] at inside ⊢
    by_cases same : d = co
    · rw [here d same] at inside ⊢
      cases Option.some.inj inside
      exact ⟨Nat.lt_succ_self _,Or.inl ⟨⟨ch,rfl⟩,fun x noted => inv.noted d x noted⟩⟩
    · rw [other d same] at inside ⊢
      obtain ⟨made,rest⟩ := inv.call d w inside
      exact ⟨Nat.lt_succ_of_lt made,rest⟩
  · intro d x noted
    simp only [State.at,next]
    exact Nat.lt_succ_of_lt (inv.noted d x noted)

theorem setWaitCtxKeeps {ch : Nat} (inv : Inv home s) (pushed : s.pc co = .pushed ch w) :
    Inv home {s.at co (.noted ch w) with waitCtx := Function.update s.waitCtx co (some w)} := by
  have inCall := inv.call co w (by rw [pushed]; rfl)
  have later : ∀ x, s.waitCtx co = some x → x ≤ w := by
    intro x before
    rcases inCall.2 with ⟨-,less⟩ | same
    · exact Nat.le_of_lt (less x before)
    · rw [same] at before
      exact Nat.le_of_eq (Option.some.inj before).symm
  refine ⟨inv.made,?_,?_,inv.suspended,?_,?_,?_⟩
  · intro d x holds
    simp only [State.at] at holds
    by_cases same : d = co
    · subst d
      rw [Function.update_self] at holds
      contradiction
    · rw [Function.update_of_ne same] at holds
      exact inv.carried d x holds
  · intro ch x queued init
    rcases inv.claimable ch x queued init with ready | gapped
    · exact Or.inl ready
    · refine Or.inr ?_
      simp only [State.at]
      by_cases same : (s.heap.ctx x).co = co
      · rw [same,Function.update_self]
        rw [same,pushed] at gapped
        exact gapped
      · rw [Function.update_of_ne same]
        exact gapped
  · intro d x inside
    simp only [State.at] at inside ⊢
    by_cases same : d = co
    · subst d
      rw [Function.update_self] at inside
      cases Option.some.inj inside
      exact ⟨inCall.1,Or.inr (Function.update_self _ _ _)⟩
    · rw [Function.update_of_ne same] at inside ⊢
      rw [Function.update_of_ne same]
      exact inv.call d x inside
  · intro d x noted
    simp only at noted
    by_cases same : d = co
    · subst d
      rw [Function.update_self] at noted
      cases Option.some.inj noted
      exact inCall.1
    · rw [Function.update_of_ne same] at noted
      exact inv.noted d x noted
  · intro sched e member x wait
    obtain ⟨y,before,order⟩ := inv.entry sched e member x wait
    by_cases same : e.co = co
    · refine ⟨w,?_,Nat.le_trans order (later y (same ▸ before))⟩
      simp only [same,Function.update_self]
    · refine ⟨y,?_,order⟩
      simp only [Function.update_of_ne same]
      exact before

theorem startKeeps (inv : Inv home s) (first : Option Nat) (free : ∀ w, Owed s w → (s.heap.ctx w).co ≠ co) :
    Inv home {s.at co .out with
      scheduler := Function.update s.scheduler co first
      suspended := Function.update s.suspended co false} := by
  have stays : ∀ w, Owed s w → Home home s w →
      Function.update s.scheduler co first (s.heap.ctx w).co = some (home (s.heap.ctx w).co) := by
    intro w owed ready
    rw [Function.update_of_ne (free w owed)]
    exact ready
  refine ⟨inv.made,?_,?_,?_,?_,inv.noted,inv.entry⟩
  · intro d w holds
    simp only [State.at] at holds
    by_cases same : d = co
    · subst d
      rw [Function.update_self] at holds
      contradiction
    · rw [Function.update_of_ne same] at holds
      obtain ⟨made,ready⟩ := inv.carried d w holds
      exact ⟨made,stays w (Or.inr ⟨d,holds⟩) ready⟩
  · intro ch w queued init
    have owed : Owed s w := Or.inl ⟨init,ch,queued⟩
    rcases inv.claimable ch w queued init with ready | gapped
    · exact Or.inl (stays w owed ready)
    · refine Or.inr ?_
      simp only [State.at,Function.update_of_ne (free w owed)]
      exact gapped
  · intro d marked
    simp only at marked ⊢
    by_cases same : d = co
    · subst d
      rw [Function.update_self] at marked
      contradiction
    · rw [Function.update_of_ne same] at marked ⊢
      exact inv.suspended d marked
  · intro d w inside
    simp only [State.at] at inside ⊢
    by_cases same : d = co
    · subst d
      rw [Function.update_self] at inside
      contradiction
    · rw [Function.update_of_ne same] at inside ⊢
      exact inv.call d w inside

theorem loopKeeps (inv : Inv home s) (coState : Nat → Nat) (running : Nat → Option Nat) (ready due : Nat → List Nat) :
    Inv home {s with coState := coState, running := running, ready := ready, due := due} :=
  ⟨inv.made,inv.carried,inv.claimable,inv.suspended,inv.call,inv.noted,inv.entry⟩

theorem callNoted (inv : Inv home s) (inside : (s.pc co).call = some w) (later : ∀ ch, s.pc co ≠ .pushed ch w) :
    s.waitCtx co = some w := by
  rcases (inv.call co w inside).2 with ⟨⟨ch,pushed⟩,-⟩ | noted
  · exact absurd pushed (later ch)
  · exact noted

theorem resumeKeeps {sched : Nat} (inv : Inv home s) (h : resume home s sched co = some t) : Inv home t := by
  simp only [resume] at h
  split at h <;> try contradiction
  have outKeeps : (s.pc co).gap = none →
      Inv home {s.at co .out with running := Function.update s.running sched (some co)} := by
    intro gap
    have moved : Inv home (s.at co .out) := atKeeps inv (by simp [Pc.carries]) (Or.inl gap.symm) (by simp [Pc.call])
    exact loopKeeps moved _ _ _ _
  split at h
  · rename_i asleep
    cases Option.some.inj h
    exact outKeeps (by rw [asleep]; rfl)
  · rename_i paused
    cases Option.some.inj h
    exact outKeeps (by rw [paused]; rfl)
  · contradiction

theorem readiedKeeps (inv : Inv home s) (waking : s.pc co = .waking w) : Inv home (s.readied co w) := by
  have moved : Inv home (s.at co .out) :=
    atKeeps inv (by simp [Pc.carries]) (Or.inl (by rw [waking]; rfl)) (by simp [Pc.call])
  simp only [State.readied]
  split
  · exact loopKeeps moved _ _ _ _
  · exact moved

theorem collectKeeps (inv : Inv home s) (sched i : Nat) (e : Entry) : Inv home (s.collect sched i e) := by
  have erased : Inv home {s with timers := Function.update s.timers sched ((s.timers sched).eraseIdx i)} := by
    refine ⟨inv.made,inv.carried,inv.claimable,inv.suspended,inv.call,inv.noted,?_⟩
    intro sched' f member
    simp only at member
    by_cases same : sched' = sched
    · subst sched'
      rw [Function.update_self] at member
      exact inv.entry sched f (List.mem_of_mem_eraseIdx member)
    · rw [Function.update_of_ne same] at member
      exact inv.entry sched' f member
  have timedOut : ∀ w, Inv home {s with
      timers := Function.update s.timers sched ((s.timers sched).eraseIdx i)
      heap := s.heap.setState w kTimeout} := by
    intro w
    exact heapKeeps erased rfl (setStateOwner _ _ _) (fun _ init => (setStateInit (by decide) init).2)
      (fun _ _ queued => queued)
  simp only [State.collect]
  split
  · exact erased
  · split
    · exact loopKeeps (timedOut _) _ _ _ _
    · split
      · exact loopKeeps erased _ _ _ _
      · split <;> exact loopKeeps erased _ _ _ _

theorem claimHome {ch : Nat} (inv : Inv home s) (inside : w ∈ (s.chan ch).waitQueue)
    (init : (s.heap.ctx w).state = kInit)
    (late : (s.pc (s.heap.ctx w).co).gap = some w → s.suspended (s.heap.ctx w).co = true) : Home home s w := by
  rcases inv.claimable ch w inside init with ready | gapped
  · exact ready
  · exact inv.suspended _ (late gapped)

theorem claimedSource {e : Event} (claimed : claims s e = some w) :
    ∃ ch, w ∈ (s.chan ch).waitQueue ∧ (s.heap.ctx w).state = kInit := by
  cases e <;> try contradiction
  case read co ch raw onStack =>
    simp only [claims] at claimed
    rcases readSource (s.chan ch) s.heap raw co onStack with ⟨d,v,eq,-⟩ | ⟨d,v,x,eq,inside,init,-⟩ | eq
    · rw [eq] at claimed
      contradiction
    · rw [eq] at claimed
      cases Option.some.inj claimed
      exact ⟨ch,inside,init⟩
    · rw [eq] at claimed
      contradiction
  case write co ch raw onStack v =>
    simp only [claims] at claimed
    rcases writeSource (s.chan ch) s.heap raw co onStack v with ⟨d,eq,-⟩ | ⟨d,x,eq,inside,init,-⟩ | eq
    · rw [eq] at claimed
      contradiction
    · rw [eq] at claimed
      cases Option.some.inj claimed
      exact ⟨ch,inside,init⟩
    · rw [eq] at claimed
      contradiction

theorem readKeeps {ch raw : Nat} {onStack : Bool} (inv : Inv home s) (late : Late s (.read co ch raw onStack))
    (out : s.pc co = .out) : Inv home (s.afterRead co ch (readSection (s.chan ch) s.heap raw co onStack)) := by
  simp only [Late,claims] at late
  rcases readSource (s.chan ch) s.heap raw co onStack with ⟨d,v,eq,part⟩ | ⟨d,v,w,eq,inside,init,part⟩ | eq
  · rw [eq]
    exact heapKeeps inv rfl (fun _ => rfl) (fun _ init => init) (queueParts part)
  · rw [eq] at late ⊢
    have ready := claimHome inv inside init (late w rfl)
    exact claimKeeps inv out part inside ready (by simp [Pc.carries]) rfl rfl
  · rw [eq]
    exact pushKeeps inv out rfl rfl (fun w made => createOther (Nat.ne_of_lt made) _ _ _) (by rw [createSelf])

theorem writeKeeps {ch raw : Nat} {onStack : Bool} {v : Value} (inv : Inv home s)
    (late : Late s (.write co ch raw onStack v)) (out : s.pc co = .out) :
    Inv home (s.afterWrite co ch v (writeSection (s.chan ch) s.heap raw co onStack v)) := by
  simp only [Late,claims] at late
  rcases writeSource (s.chan ch) s.heap raw co onStack v with ⟨d,eq,part⟩ | ⟨d,w,eq,inside,init,part⟩ | eq
  · rw [eq]
    exact heapKeeps inv rfl (fun _ => rfl) (fun _ init => init) (queueParts part)
  · rw [eq] at late ⊢
    have ready := claimHome inv inside init (late w rfl)
    exact claimKeeps inv out part inside ready (by simp [Pc.carries]) rfl rfl
  · rw [eq]
    exact pushKeeps inv out rfl rfl (fun w made => createOther (Nat.ne_of_lt made) _ _ _)
      (by simp [Heap.put,createWaitCtxInfo])

theorem stepKeeps {e : Event} (inv : Inv home s) (late : Late s e) (h : step home s e = some t) : Inv home t := by
  cases e <;> simp only [step] at h
  case start co first =>
    split at h <;> try contradiction
    cases Option.some.inj h
    exact loopKeeps (startKeeps inv first late) _ _ _ _
  case finish co =>
    split at h <;> try contradiction
    rename_i out
    cases Option.some.inj h
    have moved : Inv home (s.at co .idle) :=
      atKeeps inv (by simp [Pc.carries]) (Or.inl (by rw [out]; rfl)) (by simp [Pc.call])
    exact loopKeeps moved _ _ _ _
  case read co ch raw onStack =>
    split at h <;> try contradiction
    cases Option.some.inj h
    exact readKeeps inv late ‹_›
  case write co ch raw onStack v =>
    split at h <;> try contradiction
    rename_i guard
    cases Option.some.inj h
    exact writeKeeps inv late guard.1
  case setWaitCtx co =>
    split at h <;> try contradiction
    cases Option.some.inj h
    exact setWaitCtxKeeps inv ‹_›
  case setScheduler co =>
    split at h <;> try contradiction
    rename_i ch w noted
    cases Option.some.inj h
    have known : s.waitCtx co = some w := callNoted inv (by rw [noted]; rfl) (by simp [noted])
    refine atKeeps (schedulerKeeps inv co) (by simp [Pc.carries]) (Or.inr (Function.update_self _ _ _)) ?_
    rintro x ⟨⟩
    exact ⟨by simp only [noted]; rfl,known⟩
  case addTimer co =>
    split at h <;> try contradiction
    rename_i ch w stored
    cases Option.some.inj h
    have known : s.waitCtx co = some w := callNoted inv (by rw [stored]; rfl) (by simp [stored])
    have moved : Inv home (s.at co (.armed w)) := by
      refine atKeeps inv (by simp [Pc.carries]) (Or.inl (by rw [stored]; rfl)) ?_
      rintro x ⟨⟩
      exact ⟨by rw [stored]; rfl,known⟩
    split
    · exact moved
    · refine addTimerKeeps moved _ ?_
      rintro x ⟨⟩
      exact known
  case yield co =>
    split at h <;> try contradiction
    rename_i w armed
    cases Option.some.inj h
    refine yieldedKeeps inv rfl ?_
    rintro x ⟨⟩
    exact ⟨by rw [armed]; rfl,callNoted inv (by rw [armed]; rfl) (by simp [armed])⟩
  case copy co =>
    split at h <;> try contradiction
    rename_i w v handing
    cases Option.some.inj h
    have copied : Inv home {s with chan := s.chan, heap := s.heap.put (s.heap.ctx w).buf v} :=
      heapKeeps inv rfl (fun _ => rfl) (fun _ init => init) (fun _ _ queued => queued)
    refine atKeeps copied ?_ (Or.inl (by simp only [handing]; rfl)) (by simp [Pc.call])
    rintro x ⟨⟩
    exact inv.carried co w (by rw [handing]; rfl)
  case addReadyTask co =>
    split at h <;> try contradiction
    cases Option.some.inj h
    exact readiedKeeps inv ‹_›
  case pause co timed =>
    split at h <;> try contradiction
    cases Option.some.inj h
    split
    · exact yieldedKeeps (addTimerKeeps inv _ (by simp)) rfl (by simp [Pc.call])
    · exact yieldedKeeps inv rfl (by simp [Pc.call])
  case resumeIo co =>
    split at h <;> try contradiction
    exact resumeKeeps inv h
  case resumeReady sched =>
    split at h <;> try contradiction
    exact resumeKeeps (loopKeeps inv _ _ _ _) h
  case examine sched i =>
    split at h <;> try contradiction
    simp only [bind,Option.bind_eq_some_iff] at h
    obtain ⟨e,-,h⟩ := h
    cases Option.some.inj h
    exact collectKeeps inv sched i e
  case resumeTimeout sched =>
    split at h <;> try contradiction
    exact resumeKeeps (loopKeeps inv _ _ _ _) h

theorem stepPublished {e : Event} (inv : Inv home s) (late : Late s e) : Published home s e := by
  refine ⟨?_,?_,?_⟩
  · intro w claimed
    obtain ⟨ch,inside,init⟩ := claimedSource claimed
    refine claimHome inv inside init ?_
    intro gapped
    cases e <;> first | contradiction | exact late w claimed gapped
  · intro co w _ waking
    exact (inv.carried co w (by rw [waking]; rfl)).2
  · intro sched i entry w _ found wait
    obtain ⟨x,noted,order⟩ := inv.entry sched entry (List.mem_of_getElem? found) w wait
    refine ⟨x,noted,order,?_⟩
    intro inside
    rcases (inv.call entry.co w inside).2 with ⟨-,earlier⟩ | same
    · exact absurd (earlier x noted) (Nat.not_lt_of_ge order)
    · exact Option.some.inj (noted.symm.trans same)

end

/-- In every run whose claims come after the store of scheduler_, or of a coroutine that has
yielded before, and that reuses no coroutine whose WaitCtx is still owed, every step finds
its waiter published. -/
theorem publishedWhenLate (home : Nat → Nat) (c : Config) (es : List Event) (e : Event) (s : State)
    (late : Guarded (step home) Late (initial c) (es ++ [e])) (reached : run (step home) (initial c) es = some s) :
    Published home s e := by
  obtain ⟨before,last⟩ := guardedAppend late reached
  have inv : Inv home s := guardedInvariant (fun _ _ _ inv late h => stepKeeps inv late h) before reached (initialInv c)
  exact stepPublished inv last.1

section
variable {s : State} {e : Event}

theorem lateStart (queues : ∀ ch, (s.chan ch).waitQueue = []) (carries : ∀ d, (s.pc d).carries = none) (co : Nat)
    (first : Option Nat) : Late s (.start co first) := by
  rintro w (⟨-,ch,queued⟩ | ⟨d,holds⟩)
  · rw [queues] at queued
    contradiction
  · rw [carries] at holds
    contradiction

theorem atCarries (carries : ∀ d, (s.pc d).carries = none) (co d : Nat) : ((s.at co .out).pc d).carries = none := by
  by_cases same : d = co
  · subst d
    simp [State.at,Pc.carries]
  · simp only [State.at,Function.update_of_ne same]
    exact carries d

theorem lateNothing (running : ∀ co first, e ≠ .start co first) (nothing : claims s e = none) : Late s e := by
  cases e with
  | start co first => exact absurd rfl (running co first)
  | _ => exact fun w claimed => by rw [nothing] at claimed; contradiction

theorem lateStored {w : Nat} (running : ∀ co first, e ≠ .start co first) (claimed : claims s e = some w)
    (stored : (s.pc (s.heap.ctx w).co).gap = none) : Late s e := by
  have only : ∀ x, claims s e = some x → (s.pc (s.heap.ctx x).co).gap = some x → s.suspended (s.heap.ctx x).co = true := by
    intro x found gapped
    cases Option.some.inj (claimed.symm.trans found)
    rw [stored] at gapped
    contradiction
  cases e with
  | start co first => exact absurd rfl (running co first)
  | _ => exact only

end

def reader : List Event :=
  [.start 0 none,.start 1 none,.read 0 0 kInit true,.setWaitCtx 0,.setScheduler 0,.addTimer 0,.yield 0]

theorem publishedWhenLateWrite : ∃ s, run (step id) (initial Scheduler.tenMs) reader = some s ∧
    claims s (.write 1 0 kInit true [7]) = some 0 ∧ Published id s (.write 1 0 kInit true [7]) := by
  have first := lateStart (s := initial Scheduler.tenMs) (fun _ => rfl) (fun _ => rfl) 0 none
  have guarded : Guarded (step id) Late (initial Scheduler.tenMs) (reader ++ [.write 1 0 kInit true [7]]) := by
    refine guardedCons first rfl (guardedCons (lateStart ?_ ?_ 1 none) rfl
      (guardedCons (lateNothing (by simp) rfl) rfl (guardedCons (lateNothing (by simp) rfl) rfl
      (guardedCons (lateNothing (by simp) rfl) rfl (guardedCons (lateNothing (by simp) rfl) rfl
      (guardedCons (lateNothing (by simp) rfl) rfl (guardedCons (lateStored (by simp) rfl rfl) rfl trivial)))))))
    · exact fun _ => rfl
    · exact atCarries (s := initial Scheduler.tenMs) (fun _ => rfl) 0
  exact ⟨_,rfl,rfl,publishedWhenLate id Scheduler.tenMs reader _ _ guarded rfl⟩

/- The write comes between the UnLock of the reader and its store of scheduler_. -/
theorem publishedTooEarly : ¬ ∀ (home : Nat → Nat) (c : Config) (es : List Event) (e : Event) (s t : State),
    run (step home) (initial c) es = some s → step home s e = some t → Published home s e := by
  intro all
  have early := all id Scheduler.tenMs [.start 0 none,.start 1 none,.read 0 0 kInit true] (.write 1 0 kInit true [7])
    _ _ rfl rfl
  exact absurd (show none = some 0 from early.claimed 0 rfl) (by decide)

end TitCo.Publication
