import TitCo.HandOff

/-! What co::timeout() shows when a channel operation or an IO call has just returned. It reads
timeout_ of the scheduler, which Loop holds up while it resumes all that it has collected. An
IO call such as recv may wait several times, or not at all, before it returns. -/
namespace TitCo.TimeoutFlag
open Channel MachineInt Scheduler Transition HandOff

/-- `call` is set while the running coroutine is inside an IO call that has waited: whether
its last wait ended by the entry it had armed. `ended` is set when a channel operation or an
IO call has just returned: whether it ended so. -/
structure State where
  sched : Scheduler.State
  call : Option Bool
  ended : Option Bool

inductive Event where
  | sched (e : Scheduler.Event)
  | ioReturn
  deriving DecidableEq, Repr

def initial (c : Config) : State := ⟨Scheduler.initial c,none,none⟩

def timeout (s : State) : Bool := s.sched.timeout

/-- The wait that a resumption ends, and whether it is resumed for the entry it had armed. -/
def resumption (s : Scheduler.State) : Scheduler.Event → Option (Wait × Bool)
  | .ioEvent co =>
      match (s.pool.co co).status with
      | .suspended wait _ => some (wait,false)
      | _ => none
  | .readyTask =>
      match s.phase with
      | .tasks [] (co::_) =>
          match (s.pool.co co).status with
          | .suspended wait _ => some (wait,false)
          | _ => none
      | _ => none
  | .timeoutTask =>
      match s.phase with
      | .timeouts ((co,id)::_) =>
          match (s.pool.co co).status with
          | .suspended wait timer => some (wait,timer == some id)
          | _ => none
      | _ => none
  | _ => none

def returned (s t : Scheduler.State) (e : Scheduler.Event) : Option Bool :=
  match e with
  | .read _ _ _ | .write _ _ _ _ => if t.running = none then none else some false
  | _ =>
    match resumption s e with
    | some (.read _,own) | some (.write _,own) => some own
    | _ => none

def inCall (s : State) (e : Scheduler.Event) : Option Bool :=
  match e with
  | .go _ | .tick _ => s.call
  | _ =>
    match resumption s.sched e with
    | some (.io,own) => some own
    | _ => none

/- What may happen while a coroutine is inside an IO call. -/
def allowed (s : State) : Scheduler.Event → Bool
  | .ioWait _ _ | .go _ | .tick _ => true
  | _ => s.call.isNone

def step (s : State) : Event → Option State
  | .sched e => do
      let t ← Scheduler.step s.sched e
      if allowed s e then some ⟨t,inCall s e,returned s.sched t e⟩ else none
  | .ioReturn =>
      match s.sched.running with
      | none => none
      | some _ => some {s with call := none, ended := some (s.call.getD false)}

def Truthful (s : State) : Prop := ∀ own, s.ended = some own → timeout s = own

/-- While timeout_ is set, no channel operation completes at once, none is resumed for an
entry that it has not armed, and no IO call returns but one whose last wait ended by the
entry it had armed. -/
def Answered (s : State) : Event → Prop
  | .sched (.read ch _ _) => s.sched.timeout = true → (s.sched.chan ch).rx = (s.sched.chan ch).wx ∧ (s.sched.chan ch).full = false
  | .sched (.write ch _ _ _) => s.sched.timeout = true → (s.sched.chan ch).wx = (s.sched.chan ch).rx ∧ (s.sched.chan ch).full = true
  | .sched .timeoutTask => ∀ co id rest w timer, s.sched.phase = .timeouts ((co,id)::rest) →
      (s.sched.pool.co co).status = .suspended (.read w) timer ∨ (s.sched.pool.co co).status = .suspended (.write w) timer →
      timer = some id
  | .ioReturn => s.sched.timeout = true → s.call = some true
  | _ => True

structure Inv (s : State) : Prop where
  flag : Flag s.sched.phase s.sched.timeout
  call : s.call = some true → s.sched.timeout = true
  inside : s.call ≠ none → s.sched.running ≠ none

section
variable {s t : Scheduler.State} {e : Scheduler.Event}

theorem stepFlag (flag : Flag s.phase s.timeout) (h : Steps s e t) : Flag t.phase t.timeout := by
  have frame := fun {co} (run : s.running = some co) => runningFrame run h
  cases h with
  | polled free phase | ioResumed _ _ free phase _ | swapped free phase | started _ _ _ free phase
  | readyResumed _ _ _ _ free phase _ | collecting free phase | dropped _ _ _ _ free phase _ _ _
  | timedOut _ _ _ _ _ free phase _ _ _ _ | fellBack _ _ _ _ _ _ _ free phase _ _ _ _ _ _ =>
    rw [phase] at flag
    exact flag
  | collected tasks erases later clock hint free phase =>
    intro some
    cases tasks with
    | nil => contradiction
    | cons => rfl
  | timeoutResumed co id rest wait timer free phase asleep =>
    rw [phase] at flag
    exact fun _ => flag (by simp)
  | finishedLoop => rfl
  | slept _ _ _ _ _ run | yielded _ _ _ run | read _ _ _ _ run | write _ _ _ _ _ run _ | locked _ _ run
  | queued _ _ run | passed _ _ _ _ run | unlocked _ _ run | finished _ run =>
    obtain ⟨phase,timeout⟩ := frame run
    rw [phase,timeout]
    exact flag
  | added | ticked => exact flag

theorem runnerResumesNone {co : Nat} (run : s.running = some co) (h : Scheduler.step s e = some t) :
    resumption s e = none := by
  cases e with
  | ioEvent | readyTask | timeoutTask => simp [Scheduler.step,run,runningStep] at h
  | _ => rfl

/- A resumption ends a wait while timeout_ is set exactly in the last phase. -/
theorem resumptionFlag {wait : Wait} {own : Bool} (flag : Flag s.phase s.timeout) (h : Scheduler.step s e = some t)
    (ends : resumption s e = some (wait,own)) : t.running ≠ none ∧ (own = true → t.timeout = true) ∧
    (t.timeout = true → ∃ co id rest timer, e = .timeoutTask ∧ s.phase = .timeouts ((co,id)::rest) ∧
      (s.pool.co co).status = .suspended wait timer ∧ own = (timer == some id)) := by
  have silent := fun {co} (run : s.running = some co) => runnerResumesNone run h
  cases stepSource h with
  | ioResumed co timer free phase asleep =>
    rw [phase] at flag
    simp only [resumption,asleep,Option.some.injEq,Prod.mk.injEq] at ends
    obtain ⟨-,rfl⟩ := ends
    have clear : s.timeout = false := flag
    exact ⟨by simp [State.resumed],by simp,fun set => by simp [State.resumed,clear] at set⟩
  | readyResumed co cs wait timer free phase asleep =>
    rw [phase] at flag
    simp only [resumption,phase,asleep,Option.some.injEq,Prod.mk.injEq] at ends
    obtain ⟨-,rfl⟩ := ends
    have clear : s.timeout = false := flag
    exact ⟨by simp [State.resumed],by simp,fun set => by simp [State.resumed,clear] at set⟩
  | timeoutResumed co id rest wait timer free phase asleep =>
    rw [phase] at flag
    simp only [resumption,phase,asleep,Option.some.injEq,Prod.mk.injEq] at ends
    obtain ⟨rfl,rfl⟩ := ends
    exact ⟨by simp [State.resumed],fun _ => flag (by simp),fun _ => ⟨co,id,rest,timer,rfl,phase,asleep,rfl⟩⟩
  | slept _ _ _ _ _ run | yielded _ _ _ run =>
    rw [silent run] at ends
    contradiction
  | _ => simp [resumption] at ends

theorem readStep {ch freed : Nat} {onStack : Bool} (h : Scheduler.step s (.read ch onStack freed) = some t) :
    t.timeout = s.timeout ∧ (t.running = none ↔ (s.chan ch).rx = (s.chan ch).wx ∧ (s.chan ch).full = false) := by
  cases run : s.running with
  | none => simp [Scheduler.step,run,loopStep] at h
  | some co => exact ⟨(runningFrame run (stepSource h)).2,by simpa [suspends] using stepRests run h⟩

theorem writeStep {ch freed : Nat} {onStack : Bool} {v : Value}
    (h : Scheduler.step s (.write ch onStack v freed) = some t) :
    t.timeout = s.timeout ∧ (t.running = none ↔ (s.chan ch).wx = (s.chan ch).rx ∧ (s.chan ch).full = true) := by
  cases run : s.running with
  | none => simp [Scheduler.step,run,loopStep] at h
  | some co => exact ⟨(runningFrame run (stepSource h)).2,by simpa [suspends] using stepRests run h⟩

end

section
variable {s t : State}

theorem schedSource {e : Scheduler.Event} (h : step s (.sched e) = some t) :
    ∃ u, Scheduler.step s.sched e = some u ∧ t = ⟨u,inCall s e,returned s.sched u e⟩ := by
  simp only [step,bind,Option.bind_eq_some_iff] at h
  obtain ⟨u,hu,h⟩ := h
  split at h <;> try contradiction
  exact ⟨u,hu,(Option.some.inj h).symm⟩

theorem returnSource (h : step s .ioReturn = some t) :
    s.sched.running ≠ none ∧ t = {s with call := none, ended := some (s.call.getD false)} := by
  simp only [step] at h
  split at h <;> try contradiction
  rename_i co run
  exact ⟨by simp [run],(Option.some.inj h).symm⟩

theorem callKept {u : Scheduler.State} {e : Scheduler.Event} (inv : Inv s) (h : Scheduler.step s.sched e = some u) :
    (inCall s e = some true → u.timeout = true) ∧ (inCall s e ≠ none → u.running ≠ none) := by
  unfold inCall
  split
  · cases Option.some.inj h
    exact ⟨inv.call,inv.inside⟩
  · cases Option.some.inj h
    exact ⟨inv.call,inv.inside⟩
  · cases ends : resumption s.sched e with
    | none => simp
    | some r =>
      obtain ⟨wait,own⟩ := r
      obtain ⟨runs,sets,-⟩ := resumptionFlag inv.flag h ends
      split
      · rename_i same
        simp only [Option.some.injEq,Prod.mk.injEq] at same
        refine ⟨?_,fun _ => runs⟩
        intro mine
        exact sets (same.2.trans (Option.some.inj mine))
      · simp

theorem stepInv (s : State) (e : Event) (t : State) (inv : Inv s) (h : step s e = some t) : Inv t := by
  cases e with
  | sched e =>
    obtain ⟨u,hu,rfl⟩ := schedSource h
    obtain ⟨call,inside⟩ := callKept inv hu
    exact ⟨stepFlag inv.flag (stepSource hu),call,inside⟩
  | ioReturn =>
    obtain ⟨_,rfl⟩ := returnSource h
    exact ⟨inv.flag,by simp,by simp⟩

theorem completed {a : Prop} [Decidable a] {flag : Bool} {u : Scheduler.State} (rests : u.running = none ↔ a)
    (same : u.timeout = flag) (call : Option Bool) :
    Truthful ⟨u,call,if u.running = none then none else some false⟩ ↔ (flag = true → a) := by
  subst flag
  by_cases off : u.running = none
  · simp [Truthful,off,rests.1 off]
  · have no : ¬ a := fun ha => off (rests.2 ha)
    simp [Truthful,timeout,off,no]

theorem resumedInTime {u : Scheduler.State} {e : Scheduler.Event} (inv : Inv s)
    (h : Scheduler.step s.sched e = some u) (other : e ≠ .timeoutTask) (call : Option Bool)
    (ends : returned s.sched u e = match resumption s.sched e with
      | some (.read _,own) | some (.write _,own) => some own
      | _ => none) : Truthful ⟨u,call,returned s.sched u e⟩ := by
  intro own told
  rw [ends] at told
  have own : ∀ wait b, resumption s.sched e = some (wait,b) → u.timeout = b := by
    intro wait b found
    obtain ⟨_,sets,late⟩ := resumptionFlag inv.flag h found
    cases b with
    | true => exact sets rfl
    | false =>
      by_contra set
      obtain ⟨_,_,_,_,same,_⟩ := late (by simpa using set)
      exact other same
  split at told
  · cases Option.some.inj told
    exact own _ _ ‹_›
  · cases Option.some.inj told
    exact own _ _ ‹_›
  · contradiction

theorem resumedLate {u : Scheduler.State} (inv : Inv s) (h : Scheduler.step s.sched .timeoutTask = some u)
    (call : Option Bool) : Truthful ⟨u,call,returned s.sched u .timeoutTask⟩ ↔ Answered s (.sched .timeoutTask) := by
  cases stepSource h with
  | slept _ _ _ _ _ run | yielded _ _ _ run => simp [Scheduler.step,run,runningStep] at h
  | timeoutResumed co id rest wait timer free phase asleep =>
    have set : s.sched.timeout = true := by
      have flag := inv.flag
      rw [phase] at flag
      exact flag (by simp)
    have ends : resumption s.sched .timeoutTask = some (wait,timer == some id) := by
      simp only [resumption,phase,asleep]
    simp only [Truthful,Answered,returned,ends,timeout,State.resumed,set,phase]
    constructor
    · rintro told _ _ _ w _ ⟨rfl,rfl⟩ waits
      simp only [asleep] at waits
      rcases waits with ⟨rfl,rfl⟩ | ⟨rfl,rfl⟩
      all_goals simpa using (told _ rfl).symm
    · intro armed own told
      split at told
      · rename_i w b same
        simp only [Option.some.injEq,Prod.mk.injEq] at same
        obtain ⟨rfl,rfl⟩ := same
        have mine := armed co id rest w timer rfl (Or.inl asleep)
        simpa [mine] using told
      · rename_i w b same
        simp only [Option.some.injEq,Prod.mk.injEq] at same
        obtain ⟨rfl,rfl⟩ := same
        have mine := armed co id rest w timer rfl (Or.inr asleep)
        simpa [mine] using told
      · contradiction

theorem stepTruthful (s : State) (e : Event) (t : State) (inv : Inv s) (_ : Truthful s) (h : step s e = some t) :
    Truthful t ↔ Answered s e := by
  cases e with
  | ioReturn =>
    obtain ⟨_,rfl⟩ := returnSource h
    have sets := inv.call
    simp only [Truthful,timeout,Answered,Option.some.injEq,forall_eq']
    cases call : s.call with
    | none => simp
    | some own => cases own <;> simp_all
  | sched e =>
    obtain ⟨u,hu,rfl⟩ := schedSource h
    cases e with
    | read ch onStack freed =>
      obtain ⟨same,rests⟩ := readStep hu
      exact completed rests same _
    | write ch onStack v freed =>
      obtain ⟨same,rests⟩ := writeStep hu
      exact completed rests same _
    | timeoutTask => exact resumedLate inv hu _
    | _ => exact iff_of_true (resumedInTime inv hu (by simp) _ rfl) trivial

theorem initialInv (c : Config) : Inv (initial c) := ⟨rfl,by simp [initial],by simp [initial]⟩

end

/-- In a run, timeout() tells in every state how the operation that has just returned ended
exactly when no operation completes at once or returns, while timeout_ is set, other than
through the entry it has armed. -/
theorem timeoutTruthful (c : Config) (es : List Event) (u : State) (whole : run step (initial c) es = some u) :
    (∀ before after t, es = before ++ after → run step (initial c) before = some t → Truthful t) ↔
      Guarded step Answered (initial c) es :=
  goodIffGuarded (fun s e t inv _ h => stepInv s e t inv h) stepTruthful whole (initialInv c) (by simp [Truthful,initial])

theorem emptyReadTruthful : (∀ before after t,
    [Event.sched (.go 0),.sched .wait,.sched .getAllTasks,.sched .newTask,.sched (.read 0 true 0)] = before ++ after →
    run step (initial tenMs) before = some t → Truthful t) ↔
      Guarded step Answered (initial tenMs)
        [.sched (.go 0),.sched .wait,.sched .getAllTasks,.sched .newTask,.sched (.read 0 true 0)] :=
  timeoutTruthful tenMs _ _ rfl

/-- A read that has timed out, then a write that finds room: timeout() is still true. -/
theorem writtenAtOnce : ¬ ∀ (c : Config) (es : List Event) (s : State),
    run step (initial c) es = some s → Truthful s := by
  intro claim
  have told := claim tenMs [.sched (.go 0),.sched .wait,.sched .getAllTasks,.sched .newTask,.sched (.read 0 true 0),
    .sched .tasksDone,.sched (.tick 10),.sched .collect,.sched (.collectDone 0),.sched .timeoutTask,
    .sched (.write 0 true [7] 0)] _ rfl false rfl
  exact absurd told (by decide)

end TitCo.TimeoutFlag
