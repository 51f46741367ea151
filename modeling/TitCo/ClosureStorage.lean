import TitCo.Scheduler

/-! The union of func_ and scheduler_ in struct Coroutine. NewCoroutine assigns func_ and MainFunc
calls it once; each call that is about to yield writes scheduler_, which shares its first word. -/
namespace TitCo.ClosureStorage
open MachineInt Scheduler Transition

structure Storage where
  word : Nat
  rest : List Nat
  deriving DecidableEq, Repr

/-- Where the scheduler object is, and the bytes of a std::function that holds the closure
of a task, or nullptr. -/
structure Layout where
  scheduler : Nat
  image : Option Nat → Storage

/-- `func` is the closure that was last stored into each slot. -/
structure State where
  sched : Scheduler.State
  storage : Nat → Storage
  func : Nat → Option Nat

/- The constructor of Coroutine stores nullptr. -/
def initial (l : Layout) (c : Config) : State := ⟨Scheduler.initial c,fun _ => l.image none,fun _ => none⟩

/-- `if (co->scheduler_ != this) co->scheduler_ = this` -/
def Storage.setScheduler (st : Storage) (scheduler : Nat) : Storage :=
  if st.word ≠ scheduler then {st with word := scheduler} else st

def State.newCoroutine (l : Layout) (s : State) (t : Scheduler.State) (co func : Nat) : State :=
  ⟨t,Function.update s.storage co (l.image (some func)),Function.update s.func co (some func)⟩

def State.yield (l : Layout) (s : State) (t : Scheduler.State) (co : Nat) : State :=
  {s with sched := t, storage := Function.update s.storage co ((s.storage co).setScheduler l.scheduler)}

def step (l : Layout) (s : State) (e : Event) : Option State := do
  let t ← Scheduler.step s.sched e
  match e with
  | .newTask =>
      match s.sched.phase with
      | .tasks (func::_) _ => some (s.newCoroutine l t s.sched.pool.pop.1 func)
      | _ => none
  | .finish => some {s with sched := t}
  | _ =>
      match s.sched.running,t.running with
      | some co,none => some (s.yield l t co)
      | _,_ => some {s with sched := t}

/-- A slot in use holds the closure of its task, any other slot holds some closure. -/
structure Intact (l : Layout) (s : State) : Prop where
  busy : ∀ co, (s.sched.pool.co co).status ≠ .idle → s.storage co = l.image (s.func co)
  spare : ∀ co, (s.sched.pool.co co).status = .idle → ∃ func, s.storage co = l.image func

/-- No coroutine gives up the thread before it finishes, unless its closure begins with the
address of the scheduler. -/
def Harmless (l : Layout) (s : State) (e : Event) : Prop :=
  suspends s.sched e = true → ∀ co, s.sched.running = some co → (s.storage co).word = l.scheduler

section
variable {l : Layout} {s t : State} {u : Scheduler.State} {e : Event} {co : Nat}

theorem setSchedulerSame (st : Storage) (scheduler : Nat) : st.setScheduler scheduler = st ↔ st.word = scheduler := by
  unfold Storage.setScheduler
  split
  · rename_i differ
    refine ⟨fun same => ?_,fun same => absurd same differ⟩
    exact (congrArg Storage.word same).symm
  · rename_i same
    exact iff_of_true rfl (not_not.1 same)

theorem newTaskSource (h : step l s .newTask = some t) : ∃ f fs rs, s.sched.running = none ∧
    s.sched.phase = .tasks (f::fs) rs ∧ t = s.newCoroutine l {s.sched with
      phase := .tasks fs rs
      running := some s.sched.pool.pop.1
      pool := s.sched.pool.pop.2.setStatus s.sched.pool.pop.1 .running} s.sched.pool.pop.1 f := by
  simp only [step,bind,Option.bind_eq_some_iff] at h
  obtain ⟨u,hu,h⟩ := h
  split at h <;> try contradiction
  rename_i f fs rs phase
  cases run : s.sched.running with
  | some co => simp [Scheduler.step,run,runningStep] at hu
  | none =>
    simp only [Scheduler.step,run,loopStep,phase] at hu
    cases Option.some.inj hu
    exact ⟨f,fs,rs,rfl,phase,(Option.some.inj h).symm⟩

theorem finishSource (h : step l s .finish = some t) :
    ∃ u, Scheduler.step s.sched .finish = some u ∧ t = {s with sched := u} := by
  simp only [step,bind,Option.bind_eq_some_iff] at h
  obtain ⟨u,hu,h⟩ := h
  exact ⟨u,hu,(Option.some.inj h).symm⟩

theorem otherSource (h : step l s e = some t) (started : e ≠ .newTask) (last : e ≠ .finish) :
    ∃ u, Scheduler.step s.sched e = some u ∧
      ((∃ co, s.sched.running = some co ∧ suspends s.sched e = true ∧ t = s.yield l u co) ∨
      ((s.sched.running = none ∨ suspends s.sched e = false) ∧ t = {s with sched := u})) := by
  have form : step l s e = (Scheduler.step s.sched e).bind fun u =>
      match s.sched.running,u.running with
      | some co,none => some (s.yield l u co)
      | _,_ => some {s with sched := u} := by
    cases e <;> first | rfl | contradiction
  rw [form] at h
  obtain ⟨u,hu,h⟩ := Option.bind_eq_some_iff.1 h
  refine ⟨u,hu,?_⟩
  cases run : s.sched.running with
  | none =>
    rw [run] at h
    exact Or.inr ⟨Or.inl rfl,(Option.some.inj h).symm⟩
  | some co =>
    have rests := stepRests run hu
    rw [run] at h
    cases off : u.running with
    | none =>
      rw [off] at h
      exact Or.inl ⟨co,rfl,(rests.1 off).resolve_right last,(Option.some.inj h).symm⟩
    | some d =>
      rw [off] at h
      refine Or.inr ⟨Or.inr ?_,(Option.some.inj h).symm⟩
      by_contra gives
      have none := rests.2 (Or.inl (by simpa using gives))
      rw [off] at none
      contradiction

theorem newTaskIntact (slots : Slots s.sched.pool s.sched.running) (intact : Intact l s)
    (h : step l s .newTask = some t) : Intact l t := by
  obtain ⟨f,fs,rs,_,_,rfl⟩ := newTaskSource h
  obtain ⟨spare,status,_⟩ := popSpare slots
  refine ⟨?_,?_⟩
  · intro d busy
    by_cases same : d = s.sched.pool.pop.1
    · subst d
      simp [State.newCoroutine]
    · simp only [State.newCoroutine,setStatusOther _ _ same,status] at busy
      simp only [State.newCoroutine,Function.update_of_ne same]
      exact intact.busy d busy
  · intro d idle
    have differ : d ≠ s.sched.pool.pop.1 := by
      rintro rfl
      rw [State.newCoroutine,setStatusSelf] at idle
      contradiction
    simp only [State.newCoroutine,setStatusOther _ _ differ,status] at idle
    simp only [State.newCoroutine,Function.update_of_ne differ]
    exact intact.spare d idle

theorem finishIntact (slots : Slots s.sched.pool s.sched.running) (intact : Intact l s)
    (h : step l s .finish = some t) : Intact l t := by
  obtain ⟨u,hu,rfl⟩ := finishSource h
  cases run : s.sched.running with
  | none => simp [Scheduler.step,run,loopStep] at hu
  | some co =>
    simp only [Scheduler.step,run,runningStep] at hu
    cases Option.some.inj hu
    refine ⟨?_,?_⟩
    · intro d busy
      have differ : d ≠ co := by
        rintro rfl
        exact busy (setStatusSelf _ _ _)
      refine intact.busy d ?_
      rw [← setStatusOther s.sched.pool .idle differ]
      exact busy
    · intro d idle
      by_cases same : d = co
      · subst d
        refine ⟨s.func co,intact.busy co ?_⟩
        rw [slots.runner co run]
        simp
      · refine intact.spare d ?_
        rw [← setStatusOther s.sched.pool .idle same]
        exact idle

theorem stepIntact (s : State) (e : Event) (t : State) (slots : Slots s.sched.pool s.sched.running)
    (intact : Intact l s) (h : step l s e = some t) : Intact l t ↔ Harmless l s e := by
  by_cases started : e = .newTask
  · subst e
    exact iff_of_true (newTaskIntact slots intact h) (by simp [Harmless,suspends])
  by_cases last : e = .finish
  · subst e
    exact iff_of_true (finishIntact slots intact h) (by simp [Harmless,suspends])
  obtain ⟨u,hu,⟨co,run,gives,rfl⟩ | ⟨keeps,rfl⟩⟩ := otherSource h started last
  · have idle := idleKept slots (stepSource hu) started last
    have used : (s.sched.pool.co co).status ≠ .idle := by
      rw [slots.runner co run]
      simp
    have word : Harmless l s e ↔ (s.storage co).setScheduler l.scheduler = s.storage co := by
      rw [setSchedulerSame]
      refine ⟨fun harmless => harmless gives co run,?_⟩
      intro begins _ d again
      cases Option.some.inj (run.symm.trans again)
      exact begins
    rw [word]
    constructor
    · intro after
      have here := after.busy co (fun none => used ((idle co).1 none))
      simp only [State.yield,Function.update_self,← intact.busy co used] at here
      exact here
    · intro same
      have still : (s.yield l u co).storage = s.storage := by
        rw [State.yield,same,Function.update_eq_self]
      refine ⟨?_,?_⟩
      · intro d busy
        rw [still]
        exact intact.busy d (fun none => busy ((idle d).2 none))
      · intro d none
        rw [still]
        exact intact.spare d ((idle d).1 none)
  · have idle := idleKept slots (stepSource hu) started last
    refine iff_of_true ⟨?_,?_⟩ ?_
    · intro d busy
      exact intact.busy d (fun none => busy ((idle d).2 none))
    · intro d none
      exact intact.spare d ((idle d).1 none)
    · intro gives co run
      rcases keeps with off | no
      · rw [off] at run
        contradiction
      · rw [no] at gives
        contradiction

theorem stepUsed (s : State) (e : Event) (t : State) (slots : Slots s.sched.pool s.sched.running)
    (h : step l s e = some t) : Slots t.sched.pool t.sched.running := by
  have inner : Scheduler.step s.sched e = some t.sched := by
    by_cases started : e = .newTask
    · subst e
      obtain ⟨f,fs,rs,off,phase,rfl⟩ := newTaskSource h
      simp only [Scheduler.step,off,loopStep,phase,State.newCoroutine]
    by_cases last : e = .finish
    · subst e
      obtain ⟨u,hu,rfl⟩ := finishSource h
      exact hu
    obtain ⟨u,hu,⟨co,_,_,rfl⟩ | ⟨_,rfl⟩⟩ := otherSource h started last <;> exact hu
  exact stepSlots slots (stepSource inner)

end

/-- In a run, the union of every slot holds the closure that was last stored there, in every
state, exactly when no task gives up the thread before it finishes. -/
theorem closureIntact (l : Layout) (c : Config) (es : List Event) (u : State)
    (whole : run (step l) (initial l c) es = some u) :
    (∀ before after t, es = before ++ after → run (step l) (initial l c) before = some t → Intact l t) ↔
      Guarded (step l) (Harmless l) (initial l c) es :=
  goodIffGuarded (fun s e t slots _ h => stepUsed s e t slots h) stepIntact whole (initialSlots c)
    ⟨fun _ _ => rfl,fun _ _ => ⟨none,rfl⟩⟩

/- A libstdc++ closure with one captured word, at its first place. -/
def captured : Layout := ⟨4096,fun f => ⟨f.getD 0,[0,1,1]⟩⟩

theorem quickTaskIntact : (∀ before after t, [Event.go 7,.wait,.getAllTasks,.newTask,.finish] = before ++ after →
    run (step captured) (initial captured tenMs) before = some t → Intact captured t) ↔
      Guarded (step captured) (Harmless captured) (initial captured tenMs) [.go 7,.wait,.getAllTasks,.newTask,.finish] :=
  closureIntact captured tenMs _ _ rfl

/-- A task that sleeps loses the first word of its closure to the address of the scheduler. -/
theorem sleeperOverwritten : ¬ ∀ (l : Layout) (c : Config) (es : List Event) (s : State),
    run (step l) (initial l c) es = some s → Intact l s := by
  intro claim
  have intact := claim captured tenMs [.go 7,.wait,.getAllTasks,.newTask,.sleep 10 0] _ rfl
  have held := intact.busy 1 (by decide)
  exact absurd held (by decide)

end TitCo.ClosureStorage
