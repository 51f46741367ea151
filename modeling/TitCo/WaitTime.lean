import TitCo.Scheduler

/-! The time that Loop hands to epoll_wait. CollectTimeoutTasks returns what is left until the
earliest deadline, through an int, as a uint32; AddTimer and Sleep lower it to their own ms;
Wait takes it as an int, of which every negative value means to block for ever. -/
namespace TitCo.WaitTime
open Channel MachineInt Timers Scheduler Transition

/-- `waitMs` is wait_ms_, `last` the last reading that CollectTimeoutTasks has made of the clock. -/
structure State where
  sched : Scheduler.State
  waitMs : Nat
  last : Nat

/-- CollectTimeoutTasks reads the clock once more for what it returns, `more` later. `waitError`
is an epoll_wait that returns -1, which Loop calls again. -/
inductive Event where
  | sched (e : Scheduler.Event)
  | collectDone (later more : Nat)
  | waitError
  deriving DecidableEq, Repr

def initial (c : Config) : State := ⟨Scheduler.initial c,uint32Max,0⟩

def arms (s : Scheduler.State) : Scheduler.Event → Option Nat
  | .sleep ms _ => some ms
  | .ioWait ms _ => if ms = uint32Max then none else some ms
  | .read ch onStack freed =>
      if suspends s (.read ch onStack freed) ∧ (s.chan ch).ms ≠ uint32Max then some (s.chan ch).ms else none
  | .write ch onStack v freed =>
      if suspends s (.write ch onStack v freed) ∧ (s.chan ch).ms ≠ uint32Max then some (s.chan ch).ms else none
  | _ => none

/-- `if (wait_ms_ > ms) wait_ms_ = ms` -/
def lower (waitMs : Nat) : Option Nat → Nat
  | some ms => if ms < waitMs then ms else waitMs
  | none => waitMs

def step (s : State) : Event → Option State
  | .sched (.collectDone _) => none
  | .sched e => do
      let t ← Scheduler.step s.sched e
      some ⟨t,lower s.waitMs (arms s.sched e),if e = .collect then s.sched.clock else s.last⟩
  | .collectDone later more => do
      let t ← Scheduler.step s.sched (.collectDone later)
      match t.timers.timer with
      | [] => some ⟨t,uint32Max,s.last⟩
      | e::_ => some ⟨{t with clock := t.clock + more},nextTimeout e.deadline (t.clock + more),t.clock + more⟩
  | .waitError => if s.sched.phase = .poll ∧ s.sched.running = none then some s else none

/-- epoll_->Wait is called with a time that ends by the earliest deadline, as far as the last
reading of the clock tells. -/
def Bounded (s : State) : Prop :=
  s.sched.phase = .poll → s.sched.running = none → ∀ e ∈ s.sched.timers.timer,
    0 ≤ toInt32 s.waitMs ∧ toInt32 s.waitMs ≤ max 0 ((e.deadline : Int) - s.last)

/-- The last reading finds the earliest deadline not yet passed and less than 2^31 ms ahead,
and while the collected coroutines run no timer of 2^31 ms or more is the first one. -/
def Near (s : State) : Event → Prop
  | .collectDone later more => ∀ e es, s.sched.timers.timer = e::es →
      s.sched.clock + later + more ≤ e.deadline ∧ e.deadline < s.sched.clock + later + more + 2^31
  | .sched e => ∀ tasks ms, s.sched.phase = .timeouts tasks → arms s.sched e = some ms →
      ms < 2^31 ∨ s.sched.timers.timer ≠ []
  | .waitError => True

def settled : Phase → Bool
  | .poll | .timeouts _ => true
  | _ => false

/-- What wait_ms_ is from one CollectTimeoutTasks to the next epoll_wait. -/
structure Fits (timer : List Entry) (waitMs last : Nat) : Prop where
  none : timer = [] → waitMs = uint32Max
  low : timer ≠ [] → waitMs < 2^31
  due : ∀ e ∈ timer, waitMs + last ≤ e.deadline

structure Inv (s : State) : Prop where
  sorted : Sorted s.sched.timers.timer
  clock : s.last ≤ s.sched.clock
  fits : settled s.sched.phase = true → Fits s.sched.timers.timer s.waitMs s.last
  rest : s.sched.phase = .poll → s.sched.running = none

section
variable {s t : Scheduler.State} {e : Scheduler.Event} {co : Nat}

theorem suspendTimers (s : Scheduler.State) (co : Nat) (wait : Wait) (ms freed : Nat) :
    (s.suspend co wait ms freed).timers =
      (if ms = uint32Max then s.timers else addTimer s.timers (s.clock + ms) co freed) ∧
    (s.suspend co wait ms freed).clock = s.clock := by
  unfold Scheduler.State.suspend
  split <;> exact ⟨rfl,rfl⟩

def added (s : Scheduler.State) (co freed : Nat) : Option Nat → TimerManager
  | some ms => addTimer s.timers (s.clock + ms) co freed
  | none => s.timers

/- A channel operation that suspends arms what its ms says, whatever it has done to the channel. -/
theorem callTimers (u : Scheduler.State) {w ms freed : Nat} {wait : Wait} {armed : Option Nat} (timers : u.timers = s.timers)
    (clock : u.clock = s.clock) (arms : armed = if ms = uint32Max then none else some ms) :
    (∃ place, ((u.setWaitCtx co w).suspend co wait ms freed).timers = added s co place armed) ∧
    s.clock ≤ ((u.setWaitCtx co w).suspend co wait ms freed).clock := by
  obtain ⟨after,later⟩ := suspendTimers (u.setWaitCtx co w) co wait ms freed
  refine ⟨⟨freed,after.trans ?_⟩,Nat.le_of_eq (later.trans clock).symm⟩
  rw [arms]
  simp only [Scheduler.State.setWaitCtx,timers,clock]
  split <;> rfl

theorem runningTimers (run : s.running = some co) (h : Scheduler.step s e = some t) :
    (∃ freed, t.timers = added s co freed (arms s e)) ∧ s.clock ≤ t.clock := by
  cases e with
  | go func | tick n =>
    cases Option.some.inj h
    simp [arms,added]
  | sleep ms freed =>
    simp only [Scheduler.step,run,runningStep] at h
    cases Option.some.inj h
    exact ⟨⟨freed,rfl⟩,Nat.le_refl _⟩
  | ioWait ms freed =>
    simp only [Scheduler.step,run,runningStep] at h
    cases Option.some.inj h
    obtain ⟨timers,clock⟩ := suspendTimers s co .io ms freed
    refine ⟨⟨freed,timers.trans ?_⟩,Nat.le_of_eq clock.symm⟩
    simp only [arms]
    split <;> rfl
  | read ch onStack freed =>
    simp only [Scheduler.step,run,runningStep] at h
    cases Option.some.inj h
    have rests := readSuspends (s.chan ch) s.heap kInit co onStack
    have ms := readMs (s.chan ch) s.heap kInit co onStack
    generalize readSection (s.chan ch) s.heap kInit co onStack = r at rests ms
    obtain ⟨c,k,out⟩ := r
    cases out with
    | taken v | woke v w =>
      have stays : ¬ ((s.chan ch).rx = (s.chan ch).wx ∧ (s.chan ch).full = false) := fun both => by simpa using rests.2 both
      have none : arms s (.read ch onStack freed) = none := by simp [arms,suspends,stays]
      rw [none]
      exact ⟨⟨freed,rfl⟩,Nat.le_refl _⟩
    | suspended w =>
      have gives := rests.1 ⟨w,rfl⟩
      have same : c.ms = (s.chan ch).ms := ms
      refine callTimers {s with chan := Function.update s.chan ch c, heap := k} rfl rfl ?_
      by_cases forever : (s.chan ch).ms = uint32Max <;> simp [arms,suspends,gives,forever,same]
  | write ch onStack v freed =>
    simp only [Scheduler.step,run,runningStep] at h
    split at h <;> try contradiction
    cases Option.some.inj h
    have rests := writeSuspends (s.chan ch) s.heap kInit co onStack v
    have ms := writeMs (s.chan ch) s.heap kInit co onStack v
    generalize writeSection (s.chan ch) s.heap kInit co onStack v = r at rests ms
    obtain ⟨c,k,out⟩ := r
    cases out with
    | stored | handOff w =>
      have stays : ¬ ((s.chan ch).wx = (s.chan ch).rx ∧ (s.chan ch).full = true) := fun both => by simpa using rests.2 both
      have none : arms s (.write ch onStack v freed) = none := by simp [arms,suspends,stays]
      rw [none]
      exact ⟨⟨freed,rfl⟩,Nat.le_refl _⟩
    | suspended w =>
      have gives := rests.1 ⟨w,rfl⟩
      have same : c.ms = (s.chan ch).ms := ms
      refine callTimers {s with chan := Function.update s.chan ch c, heap := k} rfl rfl ?_
      by_cases forever : (s.chan ch).ms = uint32Max <;> simp [arms,suspends,gives,forever,same]
  | lock m =>
    simp only [Scheduler.step,run,runningStep] at h
    split at h <;> (cases Option.some.inj h; exact ⟨⟨0,rfl⟩,Nat.le_refl _⟩)
  | unLock m =>
    simp only [Scheduler.step,run,runningStep] at h
    split at h <;> (cases Option.some.inj h; exact ⟨⟨0,rfl⟩,Nat.le_refl _⟩)
  | finish =>
    simp only [Scheduler.step,run,runningStep] at h
    cases Option.some.inj h
    exact ⟨⟨0,rfl⟩,Nat.le_refl _⟩
  | _ => simp [Scheduler.step,run,runningStep] at h

theorem pollRests (free : s.running = none) (h : Scheduler.step s e = some t) :
    t.phase = .poll → t.running = none := by
  cases stepSource h with
  | slept co deadline freed wait ev run | yielded co wait ev run | read co ch freed onStack run
  | write co ch freed onStack v run | locked co m run | queued co m run | passed co m next rest run
  | unlocked co m run | finished co run =>
    rw [free] at run
    contradiction
  | ioResumed | readyResumed | timeoutResumed | started => simp [State.resumed]
  | _ => exact fun _ => free

theorem loopTimers (free : s.running = none) (h : Scheduler.step s e = some t) (other : ∀ later, e ≠ .collectDone later) :
    arms s e = none ∧ t.timers.timer.Sublist s.timers.timer ∧ s.clock ≤ t.clock ∧
    (settled t.phase = true → settled s.phase = true ∧ t.timers = s.timers) := by
  have still : ∀ p : Phase, settled t.phase = true → settled p = false → t.phase = p → False := by
    intro p yes no same
    rw [same,no] at yes
    contradiction
  cases stepSource h with
  | slept co deadline freed wait ev run | yielded co wait ev run | read co ch freed onStack run
  | write co ch freed onStack v run | locked co m run | queued co m run | passed co m next rest run
  | unlocked co m run | finished co run =>
    rw [free] at run
    contradiction
  | polled => exact ⟨rfl,List.Sublist.refl _,Nat.le_refl _,fun yes => by simp [settled] at yes⟩
  | ioResumed => exact ⟨rfl,List.Sublist.refl _,Nat.le_refl _,fun yes => by simp [settled,State.resumed] at yes⟩
  | swapped => exact ⟨rfl,List.Sublist.refl _,Nat.le_refl _,fun yes => by simp [settled] at yes⟩
  | started => exact ⟨rfl,List.Sublist.refl _,Nat.le_refl _,fun yes => by simp [settled] at yes⟩
  | readyResumed => exact ⟨rfl,List.Sublist.refl _,Nat.le_refl _,fun yes => by simp [settled,State.resumed] at yes⟩
  | collecting => exact ⟨rfl,List.Sublist.refl _,Nat.le_refl _,fun yes => by simp [settled] at yes⟩
  | dropped e es tasks erases _ phase timer due none =>
    rw [timer]
    exact ⟨rfl,List.sublist_cons_self _ _,Nat.le_refl _,fun yes => by simp [settled] at yes⟩
  | timedOut e es tasks erases w _ phase timer due ctx won =>
    rw [timer]
    exact ⟨rfl,List.sublist_cons_self _ _,Nat.le_refl _,fun yes => by simp [settled] at yes⟩
  | fellBack e es tasks erases w pool more _ phase timer due ctx lost same pushed =>
    rw [timer]
    exact ⟨rfl,List.sublist_cons_self _ _,Nat.le_refl _,fun yes => by simp [settled] at yes⟩
  | collected tasks erases later clock hint => exact absurd rfl (other later)
  | timeoutResumed co id rest wait timer _ phase asleep =>
    exact ⟨rfl,List.Sublist.refl _,Nat.le_refl _,fun _ => ⟨by simp [phase,settled],rfl⟩⟩
  | finishedLoop _ phase => exact ⟨rfl,List.Sublist.refl _,Nat.le_refl _,fun _ => ⟨by simp [phase,settled],rfl⟩⟩
  | added func => exact ⟨rfl,List.Sublist.refl _,Nat.le_refl _,fun yes => ⟨yes,rfl⟩⟩
  | ticked n => exact ⟨rfl,List.Sublist.refl _,Nat.le_add_right _ _,fun yes => ⟨yes,rfl⟩⟩

end

section
variable {s t : State} {timer : List Entry} {waitMs last : Nat}

theorem fitsAdded {m : TimerManager} {ms clock co freed : Nat} (fits : Fits m.timer waitMs last) (past : last ≤ clock)
    (near : ms < 2^31 ∨ m.timer ≠ []) : Fits (addTimer m (clock + ms) co freed).timer (lower waitMs (some ms)) last := by
  have some : lower waitMs (some ms) ≤ ms ∧ lower waitMs (some ms) ≤ waitMs := by
    simp only [lower]
    split <;> omega
  have present : (⟨m.next,clock + ms,co⟩ : Entry) ∈ (addTimer m (clock + ms) co freed).timer := addTimerMem.2 (Or.inl rfl)
  refine ⟨?_,?_,?_⟩
  · intro none
    rw [none] at present
    contradiction
  · intro _
    by_cases empty : m.timer = []
    · have short := near.resolve_right (not_not.2 empty)
      omega
    · have low := fits.low empty
      omega
  · intro e inside
    rcases addTimerMem.1 inside with rfl | old
    · simp only
      omega
    · have due := fits.due e old
      omega

theorem runningKeeps {e : Scheduler.Event} {u : Scheduler.State} {co : Nat} (inv : Inv s) (near : Near s (.sched e))
    (run : s.sched.running = some co) (h : Scheduler.step s.sched e = some u) :
    Inv ⟨u,lower s.waitMs (arms s.sched e),s.last⟩ := by
  obtain ⟨⟨freed,timers⟩,clock⟩ := runningTimers run h
  obtain ⟨phase,-⟩ := runningFrame run (stepSource h)
  have past := inv.clock
  have busy : s.sched.phase ≠ .poll := by
    intro polls
    rw [inv.rest polls] at run
    contradiction
  refine ⟨?_,Nat.le_trans past clock,?_,fun polls => absurd (phase.symm.trans polls) busy⟩
  · rw [timers]
    cases arms s.sched e with
    | none => exact inv.sorted
    | some ms => exact addTimerSorted inv.sorted _ _ _
  · intro yes
    rw [timers]
    rw [phase] at yes
    have fits := inv.fits yes
    cases armed : arms s.sched e with
    | none => exact fits
    | some ms =>
      refine fitsAdded fits past ?_
      cases place : s.sched.phase with
      | timeouts tasks => exact near tasks ms place armed
      | poll => exact absurd place busy
      | _ => simp [place,settled] at yes

theorem loopKeeps {e : Scheduler.Event} {u : Scheduler.State} (inv : Inv s) (free : s.sched.running = none)
    (h : Scheduler.step s.sched e = some u) (other : ∀ later, e ≠ .collectDone later) :
    Inv ⟨u,lower s.waitMs (arms s.sched e),if e = .collect then s.sched.clock else s.last⟩ := by
  obtain ⟨none,sorted,clock,same⟩ := loopTimers free h other
  have past := inv.clock
  refine ⟨inv.sorted.sublist sorted,?_,?_,pollRests free h⟩
  · simp only
    split <;> omega
  · intro yes
    obtain ⟨was,timers⟩ := same yes
    have scans : e ≠ .collect := by
      rintro rfl
      simp only [Scheduler.step,free,loopStep] at h
      split at h <;> try contradiction
      rename_i phase _
      simp [phase,settled] at was
    rw [none,timers,if_neg scans]
    exact inv.fits was

theorem collectedKeeps {later more : Nat} (inv : Inv s) (near : Near s (.collectDone later more))
    (h : step s (.collectDone later more) = some t) : Inv t := by
  simp only [step,bind,Option.bind_eq_some_iff] at h
  obtain ⟨u,hu,h⟩ := h
  have facts : s.sched.running = none ∧ u.timers.timer = s.sched.timers.timer ∧ u.running = none ∧
      s.sched.clock ≤ u.clock ∧ (∃ tasks, u.phase = .timeouts tasks) ∧
      (s.sched.timers.timer ≠ [] → u.clock = s.sched.clock + later) := by
    cases run : s.sched.running with
    | some co => simp [Scheduler.step,run,runningStep] at hu
    | none =>
      simp only [Scheduler.step,run,loopStep] at hu
      split at hu <;> try contradiction
      · rename_i tasks _ phase timer
        cases Option.some.inj hu
        exact ⟨rfl,timer.symm ▸ timer,rfl,Nat.le_refl _,⟨tasks,rfl⟩,fun some => absurd timer some⟩
      · rename_i tasks erases e es phase timer
        split at hu <;> try contradiction
        cases Option.some.inj hu
        refine ⟨rfl,?_,rfl,Nat.le_add_right _ _,⟨tasks,rfl⟩,fun _ => rfl⟩
        simp only
        split
        · exact timer.symm
        · rfl
  obtain ⟨free,timers,rests,clock,⟨tasks,phase⟩,reading⟩ := facts
  have past := inv.clock
  have sorted := inv.sorted
  rw [timers] at h
  cases timer : s.sched.timers.timer with
  | nil =>
    rw [timer] at h timers
    cases Option.some.inj h
    refine ⟨by rw [timers]; exact List.Pairwise.nil,by simp only; omega,fun _ => ?_,fun _ => rests⟩
    rw [timers]
    exact ⟨fun _ => rfl,fun some => absurd rfl some,by simp⟩
  | cons e es =>
    have ahead := near e es timer
    have now := reading (by simp [timer])
    rw [timer] at h timers sorted
    cases Option.some.inj h
    have least := sortedHead sorted
    have left : nextTimeout e.deadline (u.clock + more) = e.deadline - (u.clock + more) :=
      nextTimeoutNear (by omega) (by omega)
    refine ⟨by simp only [timers]; exact sorted,Nat.le_refl _,fun _ => ?_,fun _ => rests⟩
    simp only [timers,left]
    refine ⟨by simp,fun _ => by omega,?_⟩
    intro x inside
    have later := least x inside
    omega

theorem stepKeeps (s : State) (e : Event) (t : State) (inv : Inv s) (near : Near s e) (h : step s e = some t) :
    Inv t := by
  cases e with
  | waitError =>
    simp only [step] at h
    split at h <;> try contradiction
    cases Option.some.inj h
    exact inv
  | collectDone later more => exact collectedKeeps inv near h
  | sched e =>
    by_cases ends : ∃ later, e = .collectDone later
    · obtain ⟨later,rfl⟩ := ends
      contradiction
    · have other : ∀ later, e ≠ .collectDone later := fun later same => ends ⟨later,same⟩
      have form : step s (.sched e) = (Scheduler.step s.sched e).bind fun u =>
          some ⟨u,lower s.waitMs (arms s.sched e),if e = .collect then s.sched.clock else s.last⟩ := by
        cases e <;> first | rfl | exact absurd rfl (other _)
      rw [form] at h
      obtain ⟨u,hu,h⟩ := Option.bind_eq_some_iff.1 h
      cases Option.some.inj h
      cases free : s.sched.running with
      | none => exact loopKeeps inv free hu other
      | some co =>
        have scans : e ≠ .collect := by
          rintro rfl
          simp [Scheduler.step,free,runningStep] at hu
        rw [if_neg scans]
        exact runningKeeps inv near free hu

theorem initialInv (c : Config) : Inv (initial c) :=
  ⟨List.Pairwise.nil,Nat.le_refl _,fun _ => ⟨fun _ => rfl,fun some => absurd rfl some,by simp [initial,Scheduler.initial,TimerManager.create]⟩,
    fun _ => rfl⟩

theorem invBounded (inv : Inv s) : Bounded s := by
  intro phase _ e inside
  have fits := inv.fits (by rw [phase]; rfl)
  have low := fits.low (List.ne_nil_of_mem inside)
  have due := fits.due e inside
  rw [toInt32Small (by omega) (by omega)]
  omega

end

/-- In every run whose last clock readings find the earliest deadline neither passed nor 2^31 ms
away, and that arms no first timer of 2^31 ms or more while the collected coroutines run, epoll_wait
is called with a time that is neither negative nor beyond the earliest deadline. -/
theorem waitBounded (c : Config) (es : List Event) (s : State) (ok : Guarded step Near (initial c) es)
    (reached : run step (initial c) es = some s) : Bounded s :=
  invBounded (guardedInvariant stepKeeps ok reached (initialInv c))

theorem sleeperBounded : ∃ s, run step (initial tenMs) [.sched (.go 0),.sched .wait,.sched .getAllTasks,.sched .newTask,
    .sched (.sleep 10 0),.sched .tasksDone,.sched (.tick 4),.collectDone 0 1,.sched .timeoutsDone] = some s ∧
    s.waitMs = 5 ∧ Bounded s := by
  refine ⟨_,rfl,by decide +kernel,waitBounded tenMs [.sched (.go 0),.sched .wait,.sched .getAllTasks,.sched .newTask,
    .sched (.sleep 10 0),.sched .tasksDone,.sched (.tick 4),.collectDone 0 1,.sched .timeoutsDone] _ ?_ rfl⟩
  have free : ∀ {s e}, arms s.sched e = none → Near s (.sched e) := by
    intro s e none tasks ms _ armed
    rw [none] at armed
    contradiction
  refine guardedCons (free rfl) rfl (guardedCons (free rfl) rfl (guardedCons (free rfl) rfl (guardedCons (free rfl) rfl
    (guardedCons ?_ rfl (guardedCons (free rfl) rfl (guardedCons (free rfl) rfl (guardedCons ?_ rfl
    (guardedCons (free rfl) rfl trivial))))))))
  · intro tasks ms phase
    cases phase
  · rintro e es ⟨⟩
    decide

/-- The clock passes the deadline between the scan and the subtraction: epoll_wait gets -1. -/
theorem sleeperBlocked : ¬ ∀ (c : Config) (es : List Event) (s : State),
    run step (initial c) es = some s → Bounded s := by
  intro claim
  have bounded := claim tenMs [.sched (.go 0),.sched .wait,.sched .getAllTasks,.sched .newTask,.sched (.sleep 10 0),
    .sched .tasksDone,.sched (.tick 9),.collectDone 0 2,.sched .timeoutsDone] _ rfl rfl rfl ⟨0,10,1⟩ (by decide)
  exact absurd bounded.1 (by decide +kernel)

end TitCo.WaitTime
