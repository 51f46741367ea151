import TitCo.CoPool
import TitCo.Interest
import TitCo.Scheduler

/-! The indices into pool_: Pop uses the last idle id or id_, and Loop uses the coroutine ids that
SockCtx has recorded for an fd with an event. The scheduler's own pool is unbounded here, so
that a run goes on where the vector would have ended. -/
namespace TitCo.PoolRange
open Epoll MachineInt Scheduler Transition
open CoPool (kPoolSize)
open Interest (Call Method call)

/-- One scheduler and the SockCtx map and epoll tables that all schedulers share. -/
structure State where
  sched : Scheduler.State
  tables : Tables

/-- `call` is one of the five Epoll methods, of this scheduler by the running coroutine or of another
one; `ioEvent` is Loop handling one direction of an epoll event for fd. -/
inductive Event where
  | sched (e : Scheduler.Event)
  | call (c : Call) (refuse : Bool)
  | ioEvent (fd : Int) (e : IoEvent)
  deriving DecidableEq, Repr

/- The constructor of SchedulerImpl has popped main_co_, at index 0. -/
def initial (id : Nat) (wakeUpFd : Int) (c : Config) : State := ⟨Scheduler.initial c,.start id wakeUpFd⟩

/-- AddIoEvent passes running_co_->id_. -/
def callable (id : Nat) (s : State) (c : Call) : Bool :=
  c.sched ≠ id ||
    match s.sched.running,c.method with
    | none,_ => false
    | some co,.addEv _ d => d == co
    | some _,_ => true

/-- The coroutine that Loop looks up, or -1. -/
def found (id : Nat) (s : State) (fd : Int) (e : IoEvent) : Nat := (s.tables.sock fd).getCoId e id

def step (id : Nat) (s : State) : Event → Option State
  | .sched (.ioEvent _) => none
  | .sched e => (Scheduler.step s.sched e).map fun t => {s with sched := t}
  | .call c refuse => if callable id s c then some {s with tables := call s.tables c refuse} else none
  | .ioEvent fd e =>
      if s.sched.phase = .io ∧ s.sched.running = none then
        if found id s fd e = uint32Max then some s
        else (resume s.sched .io (found id s fd e)).map fun t => {s with sched := t}
      else none

def indices (id : Nat) (s : State) : Event → List Nat
  | .sched .newTask =>
      match s.sched.running,s.sched.phase with
      | none,.tasks (_::_) _ => [s.sched.pool.pop.1]
      | _,_ => []
  | .ioEvent fd e =>
      if s.sched.phase = .io ∧ s.sched.running = none ∧ found id s fd e ≠ uint32Max then [found id s fd e] else []
  | _ => []

def InRange (id : Nat) (s : State) (e : Event) : Prop := ∀ i ∈ indices id s e, i < kPoolSize

/-- Coroutines popped and not pushed back, main_co_ included. -/
def alive (p : Pool) : Nat := p.id - p.idle.length

/-- NewCoroutine finds fewer than kPoolSize coroutines alive. -/
def Roomy (s : State) : Event → Prop
  | .sched .newTask => ∀ f fs rs, s.sched.running = none → s.sched.phase = .tasks (f::fs) rs → alive s.sched.pool < kPoolSize
  | _ => True

structure Inv (id : Nat) (s : State) : Prop where
  slots : Slots s.sched.pool s.sched.running
  bound : s.sched.pool.id ≤ kPoolSize
  recorded : ∀ fd e, ((s.tables.sock fd).get e).schedId = id → ((s.tables.sock fd).get e).coId ≠ uint32Max →
    ((s.tables.sock fd).get e).coId < s.sched.pool.id

section
variable {id : Nat} {s t : State} {p : Pool} {running : Option Nat} {co : Nat}

theorem idleFits (slots : Slots p running) : p.idle.length ≤ p.id := by
  have inside : p.idle ⊆ List.range p.id := fun i hi => List.mem_range.2 (slots.spare i hi).2
  have short := slots.nodup.length_le_of_subset inside
  rwa [List.length_range] at short

/- Within the vector, Pop stays in range exactly when a record is left. -/
theorem popInRange (slots : Slots p running) (bound : p.id ≤ kPoolSize) : p.pop.1 < kPoolSize ↔ alive p < kPoolSize := by
  have fits := idleFits slots
  unfold Pool.pop alive
  cases last : p.idle.getLast? with
  | none =>
    have empty : p.idle = [] := List.getLast?_eq_none_iff.1 last
    simp only [empty,List.length_nil,Nat.sub_zero]
  | some x =>
    have inside : x ∈ p.idle := List.mem_of_getLast? last
    have low := (slots.spare x inside).2
    have some : 0 < p.idle.length := List.length_pos_of_mem inside
    refine iff_of_true ?_ ?_
    · simp only
      omega
    · omega

theorem popBound (bound : p.id ≤ kPoolSize) (inRange : p.pop.1 < kPoolSize) :
    p.pop.2.id ≤ kPoolSize ∧ p.id ≤ p.pop.2.id := by
  revert inRange
  unfold Pool.pop
  cases p.idle.getLast? with
  | none => exact fun low => ⟨low,Nat.le_succ _⟩
  | some x => exact fun _ => ⟨bound,Nat.le_refl _⟩

/- A call leaves a record as it was, clears it, or puts its own in. -/
theorem callRecords (t : Tables) (c : Call) (refuse : Bool) (fd : Int) (e : IoEvent) :
    ((call t c refuse).sock fd).get e = (t.sock fd).get e ∨ ((call t c refuse).sock fd).get e = unregistered ∨
    ∃ d, c.method = .addEv e d ∧ ((call t c refuse).sock fd).get e = ⟨d,c.sched⟩ := by
  obtain ⟨sched,g,method⟩ := c
  cases method with
  | addEv f d =>
    simp only [call]
    have whole : addEv f sched t g d refuse = ((addEv f sched t g d refuse).1,(addEv f sched t g d refuse).2) := rfl
    rcases addEvSource whole with
      ⟨same,_⟩ | ⟨same,_⟩ | ⟨_,_,_,stored⟩
    · exact Or.inl (by rw [same])
    · exact Or.inl (by rw [same])
    · rw [stored,SockCtx.getStored]
      split
      · rename_i here
        exact Or.inr (Or.inr ⟨d,by rw [here.2],rfl⟩)
      · exact Or.inl rfl
  | delEv f =>
    simp only [call,delEvSock]
    split
    · rw [SockCtx.getStored]
      split
      · exact Or.inr (Or.inl rfl)
      · exact Or.inl rfl
    · exact Or.inl rfl
  | delEvent =>
    have cleared : ∀ ctx : SockCtx, ctx.delEvent.get e = unregistered := by
      intro ctx
      cases e <;> rfl
    have sock : (delEvent sched t g refuse).sock = t.sock ∨
        (delEvent sched t g refuse).sock = Function.update t.sock g (t.sock g).delEvent := by
      simp only [delEvent]
      split
      · exact Or.inl rfl
      · split
        · cases taken : epollCtl _ _ _ _ _ with
          | none => exact Or.inr rfl
          | some u => exact Or.inr (ctlSock taken)
        · exact Or.inl rfl
    simp only [call]
    rcases sock with same | stored
    · exact Or.inl (by rw [same])
    · rw [stored]
      by_cases here : fd = g
      · subst g
        rw [Function.update_self]
        exact Or.inr (Or.inl (cleared _))
      · rw [Function.update_of_ne here]
        exact Or.inl rfl

theorem callKeeps (inv : Inv id s) {c : Call} {refuse : Bool} (may : callable id s c = true) :
    Inv id {s with tables := call s.tables c refuse} := by
  refine ⟨inv.slots,inv.bound,?_⟩
  intro fd e mine set
  simp only at mine set ⊢
  rcases callRecords s.tables c refuse fd e with same | none | ⟨d,adds,stored⟩
  · rw [same] at mine set ⊢
    exact inv.recorded fd e mine set
  · rw [none] at set
    exact absurd rfl set
  · rw [stored] at mine ⊢
    simp only at mine
    cases run : s.sched.running with
    | none => simp [callable,mine,run] at may
    | some co =>
      have runner : d = co := by simpa [callable,mine,run,adds] using may
      subst d
      exact runnerLow inv.slots run

theorem schedKeeps (inv : Inv id s) {e : Scheduler.Event} {u : Scheduler.State} (h : Scheduler.step s.sched e = some u)
    (inRange : InRange id s (.sched e)) : Inv id {s with sched := u} := by
  have source := stepSource h
  have slots := stepSlots inv.slots source
  by_cases started : e = .newTask
  · subst e
    cases run : s.sched.running with
    | some co => simp [Scheduler.step,run,runningStep] at h
    | none =>
      simp only [Scheduler.step,run,loopStep] at h
      split at h <;> try contradiction
      rename_i f fs rs phase
      cases Option.some.inj h
      have low : s.sched.pool.pop.1 < kPoolSize := inRange _ (by simp [indices,run,phase])
      obtain ⟨bound,grows⟩ := popBound inv.bound low
      refine ⟨slots,bound,?_⟩
      intro fd e mine set
      exact Nat.lt_of_lt_of_le (inv.recorded fd e mine set) grows
  · obtain ⟨same,-⟩ := idKept source started
    refine ⟨slots,by simp only [same]; exact inv.bound,?_⟩
    simp only [same]
    exact inv.recorded

theorem stepKeeps (s : State) (e : Event) (t : State) (inv : Inv id s) (inRange : InRange id s e)
    (h : step id s e = some t) : Inv id t := by
  cases e with
  | call c refuse =>
    simp only [step] at h
    split at h <;> try contradiction
    cases Option.some.inj h
    exact callKeeps inv ‹_›
  | ioEvent fd e =>
    simp only [step] at h
    split at h <;> try contradiction
    split at h
    · cases Option.some.inj h
      exact inv
    · obtain ⟨u,hu,rfl⟩ := Option.map_eq_some_iff.1 h
      obtain ⟨wait,timer,asleep,rfl⟩ := @resumeSource s.sched _ _ _ s.sched.phase hu
      exact ⟨slotsResumed inv.slots .io _ asleep,inv.bound,inv.recorded⟩
  | sched e =>
    have form : step id s (.sched e) = none ∨
        step id s (.sched e) = (Scheduler.step s.sched e).map fun t => {s with sched := t} := by
      cases e <;> first | exact Or.inr rfl | exact Or.inl rfl
    rcases form with none | form
    · rw [none] at h
      contradiction
    · rw [form] at h
      obtain ⟨u,hu,rfl⟩ := Option.map_eq_some_iff.1 h
      exact schedKeeps inv hu inRange

theorem inRangeIffRoomy (s : State) (e : Event) (inv : Inv id s) : InRange id s e ↔ Roomy s e := by
  cases e with
  | call c refuse => simp [InRange,Roomy,indices]
  | ioEvent fd e =>
    refine iff_of_true ?_ trivial
    intro i inside
    simp only [indices] at inside
    split at inside
    · rename_i looks
      cases List.mem_singleton.1 inside
      have set := looks.2.2
      simp only [found,SockCtx.getCoId] at set ⊢
      split at set
      · rename_i mine
        rw [if_pos mine]
        exact Nat.lt_of_lt_of_le (inv.recorded fd e mine.symm set) inv.bound
      · exact absurd rfl set
    · contradiction
  | sched e =>
    cases e with
    | newTask =>
      have exact := popInRange inv.slots inv.bound
      simp only [InRange,Roomy,indices]
      constructor
      · intro low f fs rs run phase
        exact exact.1 (low _ (by simp [run,phase]))
      · intro room i inside
        split at inside
        · rename_i run phase
          cases List.mem_singleton.1 inside
          exact exact.2 (room _ _ _ run phase)
        · contradiction
    | _ => simp [InRange,Roomy,indices]

theorem initialInv (id : Nat) (wakeUpFd : Int) (c : Config) : Inv id (initial id wakeUpFd c) := by
  refine ⟨initialSlots c,Nat.succ_le_of_lt (by decide : 0 < kPoolSize),?_⟩
  intro fd e mine set
  have start : Tables.start id wakeUpFd = call .create ⟨id,wakeUpFd,.addEv .evRead 0⟩ false := rfl
  simp only [initial] at mine set ⊢
  rw [start] at mine set ⊢
  have create : (Tables.create.sock fd).get e = unregistered := by cases e <;> rfl
  rcases callRecords .create ⟨id,wakeUpFd,.addEv .evRead 0⟩ false fd e with same | none | ⟨d,adds,stored⟩
  · rw [same,create] at set
    exact absurd rfl set
  · rw [none] at set
    exact absurd rfl set
  · cases adds
    rw [stored]
    exact Nat.one_pos

end

/-- In a run, every index used on pool_ is below its size exactly when each NewCoroutine finds fewer
than kPoolSize coroutines alive. -/
theorem indicesInRange (id : Nat) (wakeUpFd : Int) (c : Config) (es : List Event) :
    Guarded (step id) (InRange id) (initial id wakeUpFd c) es ↔ Guarded (step id) Roomy (initial id wakeUpFd c) es :=
  guardedIff inRangeIffRoomy stepKeeps es (initialInv id wakeUpFd c)

section
variable {s : State}

def sleeper : List Event := [.sched .newTask,.sched (.sleep 10 0)]

/- Each task sleeps at once, and the next one takes a new slot. -/
theorem sleepersRun (id n k : Nat) (free : s.sched.running = none) (phase : s.sched.phase = .tasks (List.replicate (n+k) 0) [])
    (idle : s.sched.pool.idle = []) : ∃ t, run (step id) s (List.replicate n sleeper).flatten = some t ∧
      t.sched.running = none ∧ t.sched.phase = .tasks (List.replicate k 0) [] ∧ t.sched.pool.idle = [] ∧
      t.sched.pool.id = s.sched.pool.id + n := by
  induction n generalizing s with
  | zero =>
    rw [Nat.zero_add] at phase
    exact ⟨s,rfl,free,phase,idle,rfl⟩
  | succ n ih =>
    rw [Nat.add_right_comm,List.replicate_succ] at phase
    have pops : s.sched.pool.pop = (s.sched.pool.id,{s.sched.pool with id := s.sched.pool.id+1}) := by
      simp [Pool.pop,idle]
    let next : Scheduler.State := {s.sched with
      phase := .tasks (List.replicate (n+k) 0) []
      running := some s.sched.pool.id
      pool := Pool.setStatus {s.sched.pool with id := s.sched.pool.id+1} s.sched.pool.id .running}
    obtain ⟨t,rest,free',phase',idle',id'⟩ := ih
      (s := ⟨next.armed s.sched.pool.id .sleep (s.sched.clock + 10) 0,s.tables⟩) rfl rfl idle
    refine ⟨t,?_,free',phase',idle',by rw [id']; change s.sched.pool.id + 1 + n = _; omega⟩
    rw [List.replicate_succ,List.flatten_cons]
    simp only [sleeper,List.cons_append,List.nil_append,run,step,Scheduler.step,free,loopStep,phase,pops,runningStep,
      Option.map_some,bind,Option.bind]
    exact rest

theorem goesRun (id n : Nat) : ∃ t, run (step id) s (List.replicate n (.sched (.go 0))) = some t ∧
    t.sched.running = s.sched.running ∧ t.sched.phase = s.sched.phase ∧ t.sched.pool = s.sched.pool ∧
    t.sched.taskMgr = ⟨s.sched.taskMgr.newTasks ++ List.replicate n 0,s.sched.taskMgr.readyTasks⟩ := by
  induction n generalizing s with
  | zero => exact ⟨s,rfl,rfl,rfl,rfl,by simp⟩
  | succ n ih =>
    obtain ⟨t,rest,free,phase,pool,tasks⟩ := ih (s := {s with sched := {s.sched with
      taskMgr := Tasks.addNewTasks s.sched.taskMgr 0}})
    refine ⟨t,?_,free,phase,pool,?_⟩
    · simp only [List.replicate_succ,run,step,Scheduler.step,Option.map_some,bind,Option.bind]
      exact rest
    · rw [tasks]
      simp [Tasks.addNewTasks,List.replicate_succ]

end

/-- With 255 tasks asleep and main_co_, the next task is given the record at index 256. -/
theorem crowdedPool : ¬ ∀ (id : Nat) (wakeUpFd : Int) (c : Config) (es : List Event),
    Guarded (step id) (InRange id) (initial id wakeUpFd c) es := by
  intro claim
  have guarded := claim 3 9 tenMs (List.replicate 256 (.sched (.go 0)) ++ ([.sched .wait,.sched .getAllTasks] ++
    ((List.replicate 255 sleeper).flatten ++ [.sched .newTask])))
  obtain ⟨added,adds,free,phase,pool,tasks⟩ := goesRun (s := initial 3 9 tenMs) 3 256
  obtain ⟨-,guarded⟩ := guardedAppend guarded adds
  have taken : run (step 3) added [.sched .wait,.sched .getAllTasks] = some ⟨{added.sched with
      phase := .tasks (List.replicate (255+1) 0) [], taskMgr := .empty},added.tables⟩ := by
    have off : added.sched.running = none := free
    have polls : added.sched.phase = .poll := phase
    have new : added.sched.taskMgr = ⟨List.replicate (255+1) 0,[]⟩ := by rw [tasks]; rfl
    simp only [run,step,Scheduler.step,off,loopStep,polls,if_true,Option.map_some,bind,Option.bind,Tasks.getAllTasksEmpty,new]
  obtain ⟨-,guarded⟩ := guardedAppend guarded taken
  obtain ⟨t,sleeps,off,phase,idle,count⟩ := sleepersRun 3 255 1 (s := ⟨{added.sched with
      phase := .tasks (List.replicate (255+1) 0) [], taskMgr := .empty},added.tables⟩) free rfl (by simp only [pool]; rfl)
  obtain ⟨-,inRange,-⟩ := guardedAppend guarded sleeps
  have last : t.sched.pool.pop.1 = 256 := by
    have made : t.sched.pool.id = 256 := by
      rw [count]
      simp only [pool]
      rfl
    simp [Pool.pop,idle,made]
  have low := inRange 256 (by simp [indices,off,phase,last])
  exact absurd low (by decide)

end TitCo.PoolRange
