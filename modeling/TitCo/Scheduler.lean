import TitCo.Channel
import TitCo.CoMutex
import TitCo.Queue
import TitCo.Tasks
import TitCo.Timers
import TitCo.Transition

/-! One scheduler: the phases of SchedulerImpl::Loop, the pool slots it runs coroutines on,
their waits, and the timers. A coroutine runs alone between two steps of Loop, so what
Read, Write, Lock or UnLock does up to its end or its Yield is one step. An IO event
resumes a coroutine that sleeps in IOEvent::wait. The number of slots is not bounded. -/
namespace TitCo.Scheduler
open Channel CoMutex MachineInt Queue Tasks Timers Transition

inductive Wait where
  | sleep
  | io
  | read (w : Nat)
  | write (w : Nat)
  | mutex (m : Nat)
  deriving DecidableEq, Repr

/-- `timer` is the entry that the call has armed. -/
inductive Status where
  | idle
  | running
  | suspended (wait : Wait) (timer : Option Nat)
  deriving DecidableEq, Repr

/-- The fields of struct Coroutine that Loop and the waits look at. -/
structure Coroutine where
  status : Status
  state : Nat
  waitCtx : Option Nat
  deriving DecidableEq, Repr

/-- Copoll: slots are named by id; main_co_ has taken slot 0. -/
structure Pool where
  co : Nat → Coroutine
  idle : List Nat
  id : Nat

inductive Via where
  | io
  | ready
  | timeout
  deriving DecidableEq, Repr

/-- A resumption from a channel wait: what is_timeout() shows there, and the value in the
wait context. -/
structure Resumption where
  ctx : Nat
  via : Via
  isTimeout : Bool
  value : Value
  deriving DecidableEq, Repr

/-- Where Loop is. Collected coroutines are kept with the entry they were collected for. -/
inductive Phase where
  | poll
  | io
  | tasks (new ready : List Nat)
  | collect (tasks : List (Nat × Nat)) (erases : Bool)
  | timeouts (tasks : List (Nat × Nat))
  deriving DecidableEq, Repr

structure State where
  phase : Phase
  running : Option Nat
  timeout : Bool
  clock : Nat
  taskMgr : TaskManager Nat Nat
  timers : TimerManager
  pool : Pool
  heap : Heap
  chan : Nat → ChannelImpl
  mutex : Nat → Mutex
  handed : Nat → Option Value
  log : List Resumption

/-- The channels that the coroutines share, each with its own capacity, size and ms. -/
structure Config where
  raw : Nat → ByteMemory.Memory
  cap : Nat → Nat
  blk : Nat → Nat
  ms : Nat → Nat

def tenMs : Config := ⟨fun _ _ => 0,fun _ => 1,fun _ => 1,fun _ => 10⟩

def initial (c : Config) : State where
  phase := .poll
  running := none
  timeout := false
  clock := 0
  taskMgr := .empty
  timers := .create
  pool := ⟨fun _ => ⟨.idle,kInit,none⟩,[],1⟩
  heap := .initial
  chan := fun ch => .create (c.raw ch) (c.cap ch) (c.blk ch) (c.ms ch)
  mutex := fun _ => .create
  handed := fun _ => none
  log := []

/-- Loop's own steps, what the running coroutine does, and the world outside. `freed` is
for the insertion of a timer. -/
inductive Event where
  | wait
  | ioEvent (co : Nat)
  | getAllTasks
  | newTask
  | readyTask
  | tasksDone
  | collect
  | collectDone (later : Nat)
  | timeoutTask
  | timeoutsDone
  | sleep (ms freed : Nat)
  | ioWait (ms freed : Nat)
  | read (ch : Nat) (onStack : Bool) (freed : Nat)
  | write (ch : Nat) (onStack : Bool) (v : Value) (freed : Nat)
  | lock (m : Nat)
  | unLock (m : Nat)
  | finish
  | go (func : Nat)
  | tick (n : Nat)
  deriving DecidableEq, Repr

def Pool.set (p : Pool) (co : Nat) (c : Coroutine) : Pool := {p with co := Function.update p.co co c}

def Pool.setStatus (p : Pool) (co : Nat) (st : Status) : Pool := p.set co {p.co co with status := st}

/-- Copoll::Pop. A reused slot goes through Init, which leaves wait_ctx_ alone. -/
def Pool.pop (p : Pool) : Nat × Pool :=
  match p.idle.getLast? with
  | none => (p.id,{p with id := p.id+1})
  | some last => (last,{p.set last {p.co last with state := kInit} with idle := p.idle.dropLast})

def Pool.push (p : Pool) (co : Nat) : Pool := {p with idle := p.idle ++ [co]}

def record (s : State) (via : Via) : Wait → List Resumption
  | .read w | .write w => [⟨w,via,s.timeout,s.heap.block (s.heap.ctx w).buf⟩]
  | _ => []

/-- Resume of a coroutine that had yielded. Any other coroutine has no context to jump to. -/
def resume (s : State) (via : Via) (co : Nat) : Option State :=
  match (s.pool.co co).status with
  | .suspended wait _ =>
      some {s with
        running := some co
        pool := s.pool.setStatus co .running
        log := s.log ++ record s via wait}
  | _ => none

/-- AddTimer unless ms is -1, then Yield. -/
def State.suspend (s : State) (co : Nat) (wait : Wait) (ms freed : Nat) : State :=
  if ms = uint32Max then
    {s with running := none, pool := s.pool.setStatus co (.suspended wait none)}
  else
    {s with
      running := none
      timers := addTimer s.timers (s.clock + ms) co freed
      pool := s.pool.setStatus co (.suspended wait (some s.timers.next))}

/-- AddReadyTask for the coroutine of a claimed wait context. -/
def State.ready (s : State) (w : Nat) : State :=
  {s with taskMgr := addReadyTasks s.taskMgr (s.heap.ctx w).co}

def State.setWaitCtx (s : State) (co w : Nat) : State :=
  {s with pool := s.pool.set co {s.pool.co co with waitCtx := some w}}

def State.afterRead (s : State) (co ch freed : Nat) : ChannelImpl × Heap × ReadOutcome → State
  | (c,h,.taken _) => {s with chan := Function.update s.chan ch c, heap := h}
  | (c,h,.woke _ w) =>
      State.ready {s with
        chan := Function.update s.chan ch c, heap := h
        handed := Function.update s.handed w (some (h.block (h.ctx w).buf))} w
  | (c,h,.suspended w) =>
      (State.setWaitCtx {s with chan := Function.update s.chan ch c, heap := h} co w).suspend co (.read w) c.ms freed

def State.afterWrite (s : State) (co ch freed : Nat) (v : Value) : ChannelImpl × Heap × WriteOutcome → State
  | (c,h,.stored) => {s with chan := Function.update s.chan ch c, heap := h}
  | (c,h,.handOff w) =>
      State.ready {s with
        chan := Function.update s.chan ch c, heap := h.put (h.ctx w).buf v
        handed := Function.update s.handed w (some v)} w
  | (c,h,.suspended w) =>
      (State.setWaitCtx {s with chan := Function.update s.chan ch c, heap := h} co w).suspend co (.write w) c.ms freed

/-- One turn of the loop in CollectTimeoutTasks, for a due entry. The last branch is the
test of co->state_, which the swap resets. -/
def collectEntry (s : State) (e : Entry) (tasks : List (Nat × Nat)) : State × List (Nat × Nat) :=
  let co := s.pool.co e.co
  match co.waitCtx with
  | none => (s,tasks)
  | some w =>
    if (s.heap.ctx w).state = kInit then ({s with heap := s.heap.setState w kTimeout},tasks ++ [(e.co,e.id)])
    else if co.state = kInit then (s,tasks ++ [(e.co,e.id)])
    else
      ({s with pool := s.pool.set e.co {co with state := kInit}},
        if co.state = kWait then tasks ++ [(e.co,e.id)] else tasks)

def loopStep (s : State) : Event → Option State
  | .wait => if s.phase = .poll then some {s with phase := .io} else none
  | .ioEvent co =>
      match s.phase, (s.pool.co co).status with
      | .io, .suspended .io _ => resume s .io co
      | _, _ => none
  | .getAllTasks =>
      if s.phase = .io then
        let r := Tasks.getAllTasks s.taskMgr [] []
        some {s with taskMgr := r.1, phase := .tasks r.2.1 r.2.2}
      else none
  | .newTask =>
      match s.phase with
      | .tasks (_::fs) rs =>
          let r := s.pool.pop
          some {s with phase := .tasks fs rs, running := some r.1, pool := r.2.setStatus r.1 .running}
      | _ => none
  | .readyTask =>
      match s.phase with
      | .tasks [] (co::cs) => resume {s with phase := .tasks [] cs} .ready co
      | _ => none
  | .tasksDone => if s.phase = .tasks [] [] then some {s with phase := .collect [] false} else none
  | .collect =>
      match s.phase, s.timers.timer with
      | .collect tasks _, e::es =>
          if e.deadline ≤ s.clock then
            let r := collectEntry s e tasks
            some {r.1 with timers := {s.timers with timer := es}, phase := .collect r.2 true}
          else none
      | _, _ => none
  | .collectDone later =>
      match s.phase, s.timers.timer with
      | .collect tasks _, [] => some {s with phase := .timeouts tasks, timeout := !tasks.isEmpty}
      | .collect tasks erases, e::es =>
          -- The second reading of the clock may find the next entry due after all.
          if s.clock < e.deadline then
            some {s with
              phase := .timeouts tasks, timeout := !tasks.isEmpty, clock := s.clock + later
              timers := if erases ∧ e.deadline ≤ s.clock + later then ⟨e::es,some e.id,s.timers.next⟩ else s.timers}
          else none
      | _, _ => none
  | .timeoutTask =>
      match s.phase with
      | .timeouts ((co,_)::rest) => resume {s with phase := .timeouts rest} .timeout co
      | _ => none
  | .timeoutsDone => if s.phase = .timeouts [] then some {s with phase := .poll, timeout := false} else none
  | _ => none

def runningStep (s : State) (co : Nat) : Event → Option State
  | .sleep ms freed =>
      some {s with
        running := none
        timers := addTimer s.timers (s.clock + ms) co freed
        pool := s.pool.setStatus co (.suspended .sleep (some s.timers.next))}
  | .ioWait ms freed => some (s.suspend co .io ms freed)
  | .read ch onStack freed => some (s.afterRead co ch freed (readSection (s.chan ch) s.heap kInit co onStack))
  | .write ch onStack v freed =>
      if v.length = (s.chan ch).blkSize then
        some (s.afterWrite co ch freed v (writeSection (s.chan ch) s.heap kInit co onStack v))
      else none
  | .lock m =>
      match (s.mutex m).lockSection co with
      | (x,true) => some {s with mutex := Function.update s.mutex m x}
      | (x,false) =>
          some {s with
            mutex := Function.update s.mutex m x
            running := none
            pool := s.pool.setStatus co (.suspended (.mutex m) none)}
  | .unLock m =>
      match (s.mutex m).unLockSection with
      | (x,some next) =>
          some {s with mutex := Function.update s.mutex m x, taskMgr := addReadyTasks s.taskMgr next}
      | (x,none) => some {s with mutex := Function.update s.mutex m x}
  | .finish => some {s with running := none, pool := (s.pool.setStatus co .idle).push co}
  | _ => none

def step (s : State) : Event → Option State
  | .go func => some {s with taskMgr := addNewTasks s.taskMgr func}
  | .tick n => some {s with clock := s.clock + n}
  | e => match s.running with
    | none => loopStep s e
    | some co => runningStep s co e

def State.resumed (s : State) (via : Via) (co : Nat) (wait : Wait) (phase : Phase) : State :=
  {s with
    phase := phase
    running := some co
    pool := s.pool.setStatus co .running
    log := s.log ++ record s via wait}

def State.armed (s : State) (co : Nat) (wait : Wait) (deadline freed : Nat) : State :=
  {s with
    running := none
    timers := addTimer s.timers deadline co freed
    pool := s.pool.setStatus co (.suspended wait (some s.timers.next))}

def State.yielded (s : State) (co : Nat) (wait : Wait) : State :=
  {s with running := none, pool := s.pool.setStatus co (.suspended wait none)}

/- Everything one step can do, with its guards. -/
inductive Steps (s : State) : Event → State → Prop where
  | polled (free : s.running = none) (phase : s.phase = .poll) : Steps s .wait {s with phase := .io}
  | ioResumed (co timer) (free : s.running = none) (phase : s.phase = .io)
      (asleep : (s.pool.co co).status = .suspended .io timer) : Steps s (.ioEvent co) (s.resumed .io co .io .io)
  | swapped (free : s.running = none) (phase : s.phase = .io) :
      Steps s .getAllTasks {s with taskMgr := .empty, phase := .tasks s.taskMgr.newTasks s.taskMgr.readyTasks}
  | started (f fs rs) (free : s.running = none) (phase : s.phase = .tasks (f::fs) rs) :
      Steps s .newTask {s with
        phase := .tasks fs rs
        running := some s.pool.pop.1
        pool := s.pool.pop.2.setStatus s.pool.pop.1 .running}
  | readyResumed (co cs wait timer) (free : s.running = none) (phase : s.phase = .tasks [] (co::cs))
      (asleep : (s.pool.co co).status = .suspended wait timer) : Steps s .readyTask (s.resumed .ready co wait (.tasks [] cs))
  | collecting (free : s.running = none) (phase : s.phase = .tasks [] []) :
      Steps s .tasksDone {s with phase := .collect [] false}
  | dropped (e es tasks erases) (free : s.running = none) (phase : s.phase = .collect tasks erases)
      (timer : s.timers.timer = e::es) (due : e.deadline ≤ s.clock) (none : (s.pool.co e.co).waitCtx = none) :
      Steps s .collect {s with timers := {s.timers with timer := es}, phase := .collect tasks true}
  | timedOut (e es tasks erases w) (free : s.running = none) (phase : s.phase = .collect tasks erases)
      (timer : s.timers.timer = e::es) (due : e.deadline ≤ s.clock) (ctx : (s.pool.co e.co).waitCtx = some w)
      (won : (s.heap.ctx w).state = kInit) :
      Steps s .collect {s with
        heap := s.heap.setState w kTimeout
        timers := {s.timers with timer := es}
        phase := .collect (tasks ++ [(e.co,e.id)]) true}
  | fellBack (e es tasks erases w pool more) (free : s.running = none) (phase : s.phase = .collect tasks erases)
      (timer : s.timers.timer = e::es) (due : e.deadline ≤ s.clock) (ctx : (s.pool.co e.co).waitCtx = some w)
      (lost : (s.heap.ctx w).state ≠ kInit)
      (same : pool.idle = s.pool.idle ∧ pool.id = s.pool.id ∧ ∀ d, (pool.co d).status = (s.pool.co d).status ∧
        (pool.co d).waitCtx = (s.pool.co d).waitCtx)
      (pushed : more = tasks ∨ more = tasks ++ [(e.co,e.id)]) :
      Steps s .collect {s with pool := pool, timers := {s.timers with timer := es}, phase := .collect more true}
  | collected (tasks erases later clock hint) (free : s.running = none) (phase : s.phase = .collect tasks erases) :
      Steps s (.collectDone later) {s with
        phase := .timeouts tasks
        timeout := !tasks.isEmpty
        clock := clock
        timers := {s.timers with hint := hint}}
  | timeoutResumed (co id rest wait timer) (free : s.running = none) (phase : s.phase = .timeouts ((co,id)::rest))
      (asleep : (s.pool.co co).status = .suspended wait timer) : Steps s .timeoutTask (s.resumed .timeout co wait (.timeouts rest))
  | finishedLoop (free : s.running = none) (phase : s.phase = .timeouts []) :
      Steps s .timeoutsDone {s with phase := .poll, timeout := false}
  | slept (co deadline freed wait ev) (run : s.running = some co) (kind : wait = .sleep ∨ wait = .io) :
      Steps s ev (s.armed co wait deadline freed)
  | yielded (co wait ev) (run : s.running = some co) (kind : wait = .io) : Steps s ev (s.yielded co wait)
  | read (co ch freed onStack) (run : s.running = some co) :
      Steps s (.read ch onStack freed) (s.afterRead co ch freed (readSection (s.chan ch) s.heap kInit co onStack))
  | write (co ch freed onStack v) (run : s.running = some co) (size : v.length = (s.chan ch).blkSize) :
      Steps s (.write ch onStack v freed) (s.afterWrite co ch freed v (writeSection (s.chan ch) s.heap kInit co onStack v))
  | locked (co m) (run : s.running = some co) (free : (s.mutex m).lock = false) :
      Steps s (.lock m) {s with mutex := Function.update s.mutex m ⟨true,(s.mutex m).waitQueue⟩}
  | queued (co m) (run : s.running = some co) (busy : (s.mutex m).lock = true) :
      Steps s (.lock m) (State.yielded
        {s with mutex := Function.update s.mutex m ⟨true,(s.mutex m).waitQueue ++ [co]⟩} co (.mutex m))
  | passed (co m next rest) (run : s.running = some co) (queue : (s.mutex m).waitQueue = next::rest) :
      Steps s (.unLock m) {s with
        mutex := Function.update s.mutex m ⟨(s.mutex m).lock,rest⟩
        taskMgr := addReadyTasks s.taskMgr next}
  | unlocked (co m) (run : s.running = some co) (queue : (s.mutex m).waitQueue = []) :
      Steps s (.unLock m) {s with mutex := Function.update s.mutex m ⟨false,[]⟩}
  | finished (co) (run : s.running = some co) :
      Steps s .finish {s with running := none, pool := (s.pool.setStatus co .idle).push co}
  | added (func) : Steps s (.go func) {s with taskMgr := addNewTasks s.taskMgr func}
  | ticked (n) : Steps s (.tick n) {s with clock := s.clock + n}

theorem resumeSource {s t : State} {via : Via} {co : Nat} {phase : Phase}
    (h : resume {s with phase := phase} via co = some t) :
    ∃ wait timer, (s.pool.co co).status = .suspended wait timer ∧ t = s.resumed via co wait phase := by
  simp only [resume] at h
  split at h <;> try contradiction
  rename_i wait timer asleep
  exact ⟨wait,timer,asleep,(Option.some.inj h).symm⟩

theorem collectSource {s : State} {e : Entry} {es : List Entry} {tasks : List (Nat × Nat)} {erases : Bool}
    (free : s.running = none) (phase : s.phase = .collect tasks erases) (timer : s.timers.timer = e::es)
    (due : e.deadline ≤ s.clock) :
    Steps s .collect {(collectEntry s e tasks).1 with
      timers := {s.timers with timer := es}
      phase := .collect (collectEntry s e tasks).2 true} := by
  generalize result : collectEntry s e tasks = r
  simp only [collectEntry] at result
  split at result
  · subst r
    exact .dropped e es tasks erases free phase timer due ‹_›
  · rename_i w ctx
    split at result
    · subst r
      exact .timedOut e es tasks erases w free phase timer due ctx ‹_›
    · rename_i lost
      split at result
      · subst r
        exact .fellBack e es tasks erases w s.pool _ free phase timer due ctx lost
          ⟨rfl,rfl,fun _ => ⟨rfl,rfl⟩⟩ (Or.inr rfl)
      · subst r
        refine .fellBack e es tasks erases w (s.pool.set e.co {s.pool.co e.co with state := kInit}) _ free phase
          timer due ctx lost ⟨rfl,rfl,?_⟩ ?_
        · intro d
          by_cases same : d = e.co
          · subst d
            simp [Pool.set]
          · simp [Pool.set,Function.update_of_ne same]
        · simp only
          split
          · exact Or.inr rfl
          · exact Or.inl rfl

theorem loopSource {s t : State} {e : Event} (free : s.running = none) (h : loopStep s e = some t) : Steps s e t := by
  cases e with
  | wait =>
    simp only [loopStep] at h
    split at h <;> try contradiction
    cases Option.some.inj h
    exact .polled free ‹_›
  | ioEvent co =>
    simp only [loopStep] at h
    split at h <;> try contradiction
    rename_i timer phase asleep
    have whole : ({s with phase := .io} : State) = s := by rw [← phase]
    rw [← whole] at h
    obtain ⟨wait,again,status,rfl⟩ := resumeSource h
    cases asleep.symm.trans status
    exact .ioResumed co timer free phase asleep
  | getAllTasks =>
    simp only [loopStep,getAllTasksEmpty] at h
    split at h <;> try contradiction
    cases Option.some.inj h
    exact .swapped free ‹_›
  | newTask =>
    simp only [loopStep] at h
    split at h <;> try contradiction
    cases Option.some.inj h
    exact .started _ _ _ free ‹_›
  | readyTask =>
    simp only [loopStep] at h
    split at h <;> try contradiction
    obtain ⟨wait,timer,asleep,rfl⟩ := resumeSource h
    exact .readyResumed _ _ wait timer free ‹_› asleep
  | tasksDone =>
    simp only [loopStep] at h
    split at h <;> try contradiction
    cases Option.some.inj h
    exact .collecting free ‹_›
  | collect =>
    simp only [loopStep] at h
    split at h <;> try contradiction
    rename_i phase timer
    split at h <;> try contradiction
    cases Option.some.inj h
    exact collectSource free phase timer ‹_›
  | collectDone later =>
    simp only [loopStep] at h
    split at h <;> try contradiction
    · rename_i phase _
      cases Option.some.inj h
      exact .collected _ _ later s.clock s.timers.hint free phase
    · rename_i tasks erases e es phase timer
      split at h <;> try contradiction
      cases Option.some.inj h
      by_cases again : erases ∧ e.deadline ≤ s.clock + later
      · rw [if_pos again,← timer]
        exact .collected tasks erases later (s.clock + later) (some e.id) free phase
      · rw [if_neg again]
        exact .collected tasks erases later (s.clock + later) s.timers.hint free phase
  | timeoutTask =>
    simp only [loopStep] at h
    split at h <;> try contradiction
    obtain ⟨wait,timer,asleep,rfl⟩ := resumeSource h
    exact .timeoutResumed _ _ _ wait timer free ‹_› asleep
  | timeoutsDone =>
    simp only [loopStep] at h
    split at h <;> try contradiction
    cases Option.some.inj h
    exact .finishedLoop free ‹_›
  | _ => simp [loopStep] at h

theorem runningSource {s t : State} {co : Nat} {e : Event} (run : s.running = some co)
    (h : runningStep s co e = some t) : Steps s e t := by
  cases e with
  | sleep ms freed =>
    cases Option.some.inj h
    exact .slept co _ freed .sleep _ run (Or.inl rfl)
  | ioWait ms freed =>
    cases Option.some.inj h
    unfold State.suspend
    split
    · exact .yielded co .io _ run rfl
    · exact .slept co _ freed .io _ run (Or.inr rfl)
  | read ch onStack freed =>
    cases Option.some.inj h
    exact .read co ch freed onStack run
  | write ch onStack v freed =>
    simp only [runningStep] at h
    split at h <;> try contradiction
    cases Option.some.inj h
    exact .write co ch freed onStack v run ‹_›
  | lock m =>
    simp only [runningStep,Mutex.lockSection] at h
    cases lock : (s.mutex m).lock with
    | false =>
      simp only [lock,Bool.false_eq_true,if_false] at h
      cases Option.some.inj h
      exact .locked co m run lock
    | true =>
      simp only [lock,if_true] at h
      cases Option.some.inj h
      exact .queued co m run lock
  | unLock m =>
    simp only [runningStep,Mutex.unLockSection] at h
    cases queue : (s.mutex m).waitQueue with
    | nil =>
      simp only [queue] at h
      cases Option.some.inj h
      exact .unlocked co m run queue
    | cons next rest =>
      simp only [queue] at h
      cases Option.some.inj h
      exact .passed co m next rest run queue
  | finish =>
    cases Option.some.inj h
    exact .finished co run
  | _ => simp [runningStep] at h

theorem stepSource {s t : State} {e : Event} (h : step s e = some t) : Steps s e t := by
  have inner : ∀ x, (match s.running with | none => loopStep s x | some co => runningStep s co x) = some t →
      Steps s x t := by
    intro x hx
    cases run : s.running with
    | none => exact loopSource run (by simpa [run] using hx)
    | some co => exact runningSource run (by simpa [run] using hx)
  cases e with
  | go func =>
    cases Option.some.inj h
    exact .added func
  | tick n =>
    cases Option.some.inj h
    exact .ticked n
  | _ => exact inner _ h

/-- Slots of the pool are not in use, and only the running coroutine is marked so. -/
structure Slots (p : Pool) (running : Option Nat) : Prop where
  runner : ∀ co, running = some co → (p.co co).status = .running
  spare : ∀ co ∈ p.idle, (p.co co).status = .idle ∧ co < p.id
  fresh : ∀ co, p.id ≤ co → (p.co co).status = .idle
  nodup : p.idle.Nodup

section Slots
variable {p q : Pool} {running : Option Nat} {co : Nat}

theorem setStatusSelf (p : Pool) (co : Nat) (st : Status) : ((p.setStatus co st).co co).status = st := by
  simp [Pool.setStatus,Pool.set]

theorem setStatusOther (p : Pool) (st : Status) {co d : Nat} (differ : d ≠ co) :
    (p.setStatus co st).co d = p.co d := by
  simp [Pool.setStatus,Pool.set,Function.update_of_ne differ]

theorem setStatusCtx (p : Pool) (co d : Nat) (st : Status) :
    ((p.setStatus co st).co d).waitCtx = (p.co d).waitCtx := by
  by_cases same : d = co
  · subst d
    simp [Pool.setStatus,Pool.set]
  · rw [setStatusOther p st same]

theorem runnerLow (slots : Slots p running) (run : running = some co) : co < p.id := by
  by_contra high
  have busy := slots.runner co run
  rw [slots.fresh co (by omega)] at busy
  contradiction

theorem slotsSame (slots : Slots p running) (status : ∀ d, (q.co d).status = (p.co d).status)
    (idle : q.idle = p.idle) (id : q.id = p.id) : Slots q running := by
  refine ⟨?_,?_,?_,by rw [idle]; exact slots.nodup⟩
  · intro d
    rw [status]
    exact slots.runner d
  · intro d
    rw [idle,status,id]
    exact slots.spare d
  · intro d
    rw [id,status]
    exact slots.fresh d

theorem slotsMove (slots : Slots p running) {st : Status} {next : Option Nat}
    (busy : (p.co co).status ≠ .idle) (runs : ∀ d, next = some d → d = co ∧ st = .running) :
    Slots (p.setStatus co st) next := by
  refine ⟨?_,?_,?_,slots.nodup⟩
  · intro d hd
    obtain ⟨rfl,rfl⟩ := runs d hd
    exact setStatusSelf p d _
  · intro d hd
    have differ : d ≠ co := by
      rintro rfl
      exact busy (slots.spare d hd).1
    rw [setStatusOther p st differ]
    exact slots.spare d hd
  · intro d hd
    have differ : d ≠ co := by
      rintro rfl
      exact busy (slots.fresh d hd)
    rw [setStatusOther p st differ]
    exact slots.fresh d hd

theorem popSpare (slots : Slots p running) :
    (p.co p.pop.1).status = .idle ∧ (∀ d, (p.pop.2.co d).status = (p.co d).status) ∧
    (∀ d, (p.pop.2.co d).waitCtx = (p.co d).waitCtx) ∧
    p.pop.1 < p.pop.2.id ∧ p.id ≤ p.pop.2.id ∧ p.pop.1 ∉ p.pop.2.idle ∧ p.pop.2.idle.Sublist p.idle := by
  unfold Pool.pop
  cases last : p.idle.getLast? with
  | none =>
    have empty : p.idle = [] := List.getLast?_eq_none_iff.1 last
    refine ⟨slots.fresh p.id (Nat.le_refl _),fun _ => rfl,fun _ => rfl,Nat.lt_succ_self _,Nat.le_succ _,?_,
      List.Sublist.refl _⟩
    simp [empty]
  | some x =>
    have shape := List.dropLast_append_getLast? x last
    have inside : x ∈ p.idle := by rw [← shape]; simp
    obtain ⟨status,less⟩ := slots.spare x inside
    have nodup := slots.nodup
    rw [← shape,List.nodup_append] at nodup
    refine ⟨status,?_,?_,less,Nat.le_refl _,?_,List.dropLast_sublist _⟩
    · intro d
      by_cases same : d = x
      · subst d
        simp [Pool.set]
      · simp [Pool.set,Function.update_of_ne same]
    · intro d
      by_cases same : d = x
      · subst d
        simp [Pool.set]
      · simp [Pool.set,Function.update_of_ne same]
    · intro again
      exact nodup.2.2 x again x (by simp) rfl

theorem slotsPop (slots : Slots p running) : Slots (p.pop.2.setStatus p.pop.1 .running) (some p.pop.1) := by
  obtain ⟨_,status,_,less,grows,gone,part⟩ := popSpare slots
  refine ⟨?_,?_,?_,slots.nodup.sublist part⟩
  · rintro d hd
    cases Option.some.inj hd
    exact setStatusSelf _ _ _
  · intro d hd
    have differ : d ≠ p.pop.1 := by
      rintro rfl
      exact gone hd
    obtain ⟨spare,small⟩ := slots.spare d (part.subset hd)
    rw [setStatusOther _ _ differ,status]
    exact ⟨spare,Nat.lt_of_lt_of_le small grows⟩
  · intro d hd
    have high : p.pop.2.id ≤ d := hd
    have differ : d ≠ p.pop.1 := by omega
    rw [setStatusOther _ _ differ,status]
    exact slots.fresh d (by omega)

theorem slotsFinish (slots : Slots p (some co)) : Slots ((p.setStatus co .idle).push co) none := by
  have busy := slots.runner co rfl
  have low := runnerLow slots rfl
  have out : co ∉ p.idle := by
    intro inside
    rw [(slots.spare co inside).1] at busy
    contradiction
  refine ⟨by simp,?_,?_,?_⟩
  · intro d hd
    by_cases same : d = co
    · subst d
      exact ⟨setStatusSelf p co _,low⟩
    · have inside : d ∈ p.idle := by
        rcases List.mem_append.1 hd with old | last
        · exact old
        · exact absurd (List.mem_singleton.1 last) same
      change ((p.setStatus co .idle).co d).status = .idle ∧ d < p.id
      rw [setStatusOther p _ same]
      exact slots.spare d inside
  · intro d hd
    have high : p.id ≤ d := hd
    change ((p.setStatus co .idle).co d).status = .idle
    rw [setStatusOther p _ (by omega)]
    exact slots.fresh d high
  · change (p.idle ++ [co]).Nodup
    refine nodupPush slots.nodup ?_
    intro hd
    exact out hd

end Slots

section
variable {s t : State} {co : Nat}

theorem slotsArmed (slots : Slots s.pool s.running) (run : s.running = some co) (wait : Wait) (deadline freed : Nat) :
    Slots (s.armed co wait deadline freed).pool (s.armed co wait deadline freed).running :=
  slotsMove slots (by rw [slots.runner co run]; simp) (by simp [State.armed])

theorem slotsYielded (slots : Slots s.pool s.running) (run : s.running = some co) (wait : Wait) :
    Slots (s.yielded co wait).pool (s.yielded co wait).running :=
  slotsMove slots (by rw [slots.runner co run]; simp) (by simp [State.yielded])

theorem slotsResumed (slots : Slots s.pool s.running) {wait : Wait} {timer : Option Nat} (via : Via) (phase : Phase)
    (asleep : (s.pool.co co).status = .suspended wait timer) :
    Slots (s.resumed via co wait phase).pool (s.resumed via co wait phase).running := by
  refine slotsMove slots (by rw [asleep]; simp) ?_
  intro d hd
  exact ⟨(Option.some.inj hd).symm,rfl⟩

theorem suspendCases (s : State) (co : Nat) (wait : Wait) (ms freed : Nat) :
    s.suspend co wait ms freed = s.yielded co wait ∨
    s.suspend co wait ms freed = s.armed co wait (s.clock + ms) freed := by
  unfold State.suspend
  split
  · exact Or.inl rfl
  · exact Or.inr rfl

/- What a Read or a Write leaves behind is the state with other channels, wait contexts, ready tasks
and handed values, on top of which the coroutine may be parked. -/
theorem afterReadRule {P : State → Prop} {s : State} {co freed : Nat}
    (rests : ∀ chan heap taskMgr handed, P {s with chan := chan, heap := heap, taskMgr := taskMgr, handed := handed})
    (parks : ∀ chan heap w wait ms, P ((State.setWaitCtx {s with chan := chan, heap := heap} co w).suspend co wait ms freed))
    (ch : Nat) (r : ChannelImpl × Heap × ReadOutcome) : P (s.afterRead co ch freed r) := by
  obtain ⟨c,h,out⟩ := r
  cases out with
  | taken v => exact rests (Function.update s.chan ch c) h s.taskMgr s.handed
  | woke v w => exact rests (Function.update s.chan ch c) h _ _
  | suspended w => exact parks (Function.update s.chan ch c) h w (.read w) c.ms

theorem afterWriteRule {P : State → Prop} {s : State} {co freed : Nat}
    (rests : ∀ chan heap taskMgr handed, P {s with chan := chan, heap := heap, taskMgr := taskMgr, handed := handed})
    (parks : ∀ chan heap w wait ms, P ((State.setWaitCtx {s with chan := chan, heap := heap} co w).suspend co wait ms freed))
    (ch : Nat) (v : Value) (r : ChannelImpl × Heap × WriteOutcome) : P (s.afterWrite co ch freed v r) := by
  obtain ⟨c,h,out⟩ := r
  cases out with
  | stored => exact rests (Function.update s.chan ch c) h s.taskMgr s.handed
  | handOff w => exact rests (Function.update s.chan ch c) (h.put (h.ctx w).buf v) _ _
  | suspended w => exact parks (Function.update s.chan ch c) h w (.write w) c.ms

theorem setWaitCtxStatus (s : State) (co w d : Nat) :
    ((s.setWaitCtx co w).pool.co d).status = (s.pool.co d).status := by
  by_cases same : d = co
  · subst d
    simp [State.setWaitCtx,Pool.set]
  · simp [State.setWaitCtx,Pool.set,Function.update_of_ne same]

theorem slotsSuspend (slots : Slots s.pool s.running) (run : s.running = some co) (wait : Wait) (w ms freed : Nat) :
    Slots ((s.setWaitCtx co w).suspend co wait ms freed).pool
      ((s.setWaitCtx co w).suspend co wait ms freed).running := by
  have kept : Slots (s.setWaitCtx co w).pool (s.setWaitCtx co w).running :=
    slotsSame slots (setWaitCtxStatus s co w) rfl rfl
  rcases suspendCases (s.setWaitCtx co w) co wait ms freed with yields | arms
  · rw [yields]
    exact slotsYielded kept run wait
  · rw [arms]
    exact slotsArmed kept run wait _ freed

theorem stepSlots {e : Event} (slots : Slots s.pool s.running) (h : Steps s e t) : Slots t.pool t.running := by
  cases h with
  | ioResumed co timer _ _ asleep => exact slotsResumed slots .io .io asleep
  | readyResumed co cs wait timer _ _ asleep => exact slotsResumed slots .ready _ asleep
  | timeoutResumed co id rest wait timer _ _ asleep => exact slotsResumed slots .timeout _ asleep
  | started f fs rs _ _ => exact slotsPop slots
  | fellBack e es tasks erases w pool more _ _ _ _ _ _ same _ =>
    exact slotsSame slots (fun d => (same.2.2 d).1) same.1 same.2.1
  | slept co deadline freed wait ev run _ => exact slotsArmed slots run wait deadline freed
  | yielded co wait ev run _ => exact slotsYielded slots run wait
  | read co ch freed onStack run =>
    refine afterReadRule (P := fun t => Slots t.pool t.running) (fun _ _ _ _ => slots) ?_ ch _
    intro chan heap w wait ms
    exact slotsSuspend (s := {s with chan := chan, heap := heap}) slots run wait w ms freed
  | write co ch freed onStack v run _ =>
    refine afterWriteRule (P := fun t => Slots t.pool t.running) (fun _ _ _ _ => slots) ?_ ch v _
    intro chan heap w wait ms
    exact slotsSuspend (s := {s with chan := chan, heap := heap}) slots run wait w ms freed
  | queued co m run _ =>
    exact slotsYielded (s := {s with mutex := Function.update s.mutex m ⟨true,(s.mutex m).waitQueue ++ [co]⟩})
      slots run (.mutex m)
  | finished co run => rw [run] at slots; exact slotsFinish slots
  | _ => exact slots

theorem suspendFrame (s : State) (co : Nat) (wait : Wait) (ms freed : Nat) :
    (s.suspend co wait ms freed).phase = s.phase ∧ (s.suspend co wait ms freed).timeout = s.timeout ∧
    (s.suspend co wait ms freed).running = none := by
  unfold State.suspend
  split <;> exact ⟨rfl,rfl,rfl⟩

theorem afterReadFrame (s : State) (co ch freed : Nat) (r : ChannelImpl × Heap × ReadOutcome) :
    (s.afterRead co ch freed r).phase = s.phase ∧ (s.afterRead co ch freed r).timeout = s.timeout ∧
    ((s.afterRead co ch freed r).running = none ↔ s.running = none ∨ ∃ w, r.2.2 = .suspended w) := by
  obtain ⟨c,h,out⟩ := r
  cases out with
  | taken v => exact ⟨rfl,rfl,by simp [State.afterRead]⟩
  | woke v w => exact ⟨rfl,rfl,by simp [State.afterRead,State.ready]⟩
  | suspended w =>
    obtain ⟨phase,timeout,rests⟩ := suspendFrame
      (State.setWaitCtx {s with chan := Function.update s.chan ch c, heap := h} co w) co (.read w) c.ms freed
    exact ⟨phase,timeout,iff_of_true rests (Or.inr ⟨w,rfl⟩)⟩

theorem afterWriteFrame (s : State) (co ch freed : Nat) (v : Value) (r : ChannelImpl × Heap × WriteOutcome) :
    (s.afterWrite co ch freed v r).phase = s.phase ∧ (s.afterWrite co ch freed v r).timeout = s.timeout ∧
    ((s.afterWrite co ch freed v r).running = none ↔ s.running = none ∨ ∃ w, r.2.2 = .suspended w) := by
  obtain ⟨c,h,out⟩ := r
  cases out with
  | stored => exact ⟨rfl,rfl,by simp [State.afterWrite]⟩
  | handOff w => exact ⟨rfl,rfl,by simp [State.afterWrite,State.ready]⟩
  | suspended w =>
    obtain ⟨phase,timeout,rests⟩ := suspendFrame
      (State.setWaitCtx {s with chan := Function.update s.chan ch c, heap := h} co w) co (.write w) c.ms freed
    exact ⟨phase,timeout,iff_of_true rests (Or.inr ⟨w,rfl⟩)⟩

/- Nothing that a coroutine does moves Loop on. -/
theorem runningFrame {e : Event} (run : s.running = some co) (h : Steps s e t) :
    t.phase = s.phase ∧ t.timeout = s.timeout := by
  cases h with
  | read d ch freed onStack _ =>
    obtain ⟨phase,timeout,-⟩ := afterReadFrame s d ch freed (readSection (s.chan ch) s.heap kInit d onStack)
    exact ⟨phase,timeout⟩
  | write d ch freed onStack v _ _ =>
    obtain ⟨phase,timeout,-⟩ := afterWriteFrame s d ch freed v (writeSection (s.chan ch) s.heap kInit d onStack v)
    exact ⟨phase,timeout⟩
  | slept | yielded | locked | queued | passed | unlocked | finished | added | ticked => exact ⟨rfl,rfl⟩
  | polled free | ioResumed _ _ free | swapped free | started _ _ _ free | readyResumed _ _ _ _ free
  | collecting free | dropped _ _ _ _ free | timedOut _ _ _ _ _ free | fellBack _ _ _ _ _ _ _ free
  | collected _ _ _ _ _ free | timeoutResumed _ _ _ _ _ free | finishedLoop free =>
    rw [run] at free
    contradiction

/- The calls that give up the thread, judged where they are made. -/
def suspends (s : State) : Event → Bool
  | .sleep _ _ | .ioWait _ _ => true
  | .read ch _ _ => (s.chan ch).rx = (s.chan ch).wx ∧ (s.chan ch).full = false
  | .write ch _ _ _ => (s.chan ch).wx = (s.chan ch).rx ∧ (s.chan ch).full = true
  | .lock m => (s.mutex m).lock
  | _ => false

theorem stepRests {e : Event} (run : s.running = some co) (h : step s e = some t) :
    t.running = none ↔ suspends s e = true ∨ e = .finish := by
  cases e with
  | go func | tick n =>
    cases Option.some.inj h
    simp [run,suspends]
  | sleep ms freed =>
    simp only [step,run,runningStep] at h
    cases Option.some.inj h
    simp [suspends]
  | ioWait ms freed =>
    simp only [step,run,runningStep] at h
    cases Option.some.inj h
    simp [suspends,suspendFrame]
  | read ch onStack freed =>
    simp only [step,run,runningStep] at h
    cases Option.some.inj h
    obtain ⟨-,-,rests⟩ := afterReadFrame s co ch freed (readSection (s.chan ch) s.heap kInit co onStack)
    refine rests.trans ?_
    rw [run,readSuspends]
    simp [suspends]
  | write ch onStack v freed =>
    simp only [step,run,runningStep] at h
    split at h <;> try contradiction
    cases Option.some.inj h
    obtain ⟨-,-,rests⟩ := afterWriteFrame s co ch freed v (writeSection (s.chan ch) s.heap kInit co onStack v)
    refine rests.trans ?_
    rw [run,writeSuspends]
    simp [suspends]
  | lock m =>
    simp only [step,run,runningStep,Mutex.lockSection] at h
    cases lock : (s.mutex m).lock with
    | false =>
      simp only [lock,Bool.false_eq_true,if_false] at h
      cases Option.some.inj h
      simp [suspends,lock]
    | true =>
      simp only [lock,if_true] at h
      cases Option.some.inj h
      simp [suspends,lock]
  | unLock m =>
    simp only [step,run,runningStep] at h
    split at h <;> (cases Option.some.inj h; simp [suspends])
  | finish =>
    simp only [step,run,runningStep] at h
    cases Option.some.inj h
    simp
  | _ => simp [step,run,runningStep] at h

/- Pop alone makes new slots. -/
theorem idKept {e : Event} (h : Steps s e t) (started : e ≠ .newTask) : t.pool.id = s.pool.id ∧
    (e ≠ .finish → t.pool.idle = s.pool.idle) := by
  have suspended : ∀ (u : State) (co w ms freed : Nat) (wait : Wait),
      ((u.setWaitCtx co w).suspend co wait ms freed).pool.id = u.pool.id ∧
      ((u.setWaitCtx co w).suspend co wait ms freed).pool.idle = u.pool.idle := by
    intro u co w ms freed wait
    rcases suspendCases (u.setWaitCtx co w) co wait ms freed with yields | arms
    · rw [yields]
      exact ⟨rfl,rfl⟩
    · rw [arms]
      exact ⟨rfl,rfl⟩
  cases h with
  | started => contradiction
  | finished => exact ⟨rfl,fun last => absurd rfl last⟩
  | fellBack e es tasks erases w pool more _ _ _ _ _ _ same _ => exact ⟨same.2.1,fun _ => same.1⟩
  | read co ch freed onStack run =>
    refine (afterReadRule (P := fun t => t.pool.id = s.pool.id ∧ t.pool.idle = s.pool.idle) (fun _ _ _ _ => ⟨rfl,rfl⟩)
      ?_ ch _).imp_right (fun idle _ => idle)
    intro chan heap w wait ms
    exact suspended {s with chan := chan, heap := heap} co w ms freed wait
  | write co ch freed onStack v run _ =>
    refine (afterWriteRule (P := fun t => t.pool.id = s.pool.id ∧ t.pool.idle = s.pool.idle) (fun _ _ _ _ => ⟨rfl,rfl⟩)
      ?_ ch v _).imp_right (fun idle _ => idle)
    intro chan heap w wait ms
    exact suspended {s with chan := chan, heap := heap} co w ms freed wait
  | _ => exact ⟨rfl,fun _ => rfl⟩

/- Slots are taken by newTask and given back by finish only. -/
theorem idleKept {e : Event} (slots : Slots s.pool s.running) (h : Steps s e t) (started : e ≠ .newTask)
    (last : e ≠ .finish) (d : Nat) : (t.pool.co d).status = .idle ↔ (s.pool.co d).status = .idle := by
  have moved : ∀ {p : Pool} {co : Nat} {st : Status}, (p.co co).status ≠ .idle → st ≠ .idle →
      (((p.setStatus co st).co d).status = .idle ↔ (p.co d).status = .idle) := by
    intro p co st busy stays
    by_cases same : d = co
    · subst d
      rw [setStatusSelf]
      exact iff_of_false stays busy
    · rw [setStatusOther p st same]
  have busy : ∀ {co : Nat}, s.running = some co → (s.pool.co co).status ≠ .idle := by
    intro co run
    rw [slots.runner co run]
    simp
  have suspended : ∀ {u : State} {co w ms freed : Nat} {wait : Wait}, u.pool = s.pool → s.running = some co →
      ((((u.setWaitCtx co w).suspend co wait ms freed).pool.co d).status = .idle ↔ (s.pool.co d).status = .idle) := by
    intro u co w ms freed wait same run
    have kept : ((u.setWaitCtx co w).pool.co co).status ≠ .idle := by
      rw [setWaitCtxStatus,same]
      exact busy run
    have before : (((u.setWaitCtx co w).pool.co d).status = .idle ↔ (s.pool.co d).status = .idle) := by
      rw [setWaitCtxStatus,same]
    rcases suspendCases (u.setWaitCtx co w) co wait ms freed with yields | arms
    · rw [yields]
      exact (moved kept (by simp)).trans before
    · rw [arms]
      exact (moved kept (by simp)).trans before
  cases h with
  | started => contradiction
  | finished => contradiction
  | ioResumed co timer _ _ asleep => exact moved (by rw [asleep]; simp) (by simp)
  | readyResumed co cs wait timer _ _ asleep => exact moved (by rw [asleep]; simp) (by simp)
  | timeoutResumed co id rest wait timer _ _ asleep => exact moved (by rw [asleep]; simp) (by simp)
  | fellBack e es tasks erases w pool more _ _ _ _ _ _ same _ => rw [(same.2.2 d).1]
  | slept co deadline freed wait ev run _ => exact moved (busy run) (by simp)
  | yielded co wait ev run _ => exact moved (busy run) (by simp)
  | queued co m run _ => exact moved (busy run) (by simp)
  | read co ch freed onStack run =>
    exact afterReadRule (P := fun t => (t.pool.co d).status = .idle ↔ (s.pool.co d).status = .idle)
      (fun _ _ _ _ => Iff.rfl) (fun _ _ _ _ _ => suspended rfl run) ch _
  | write co ch freed onStack v run _ =>
    exact afterWriteRule (P := fun t => (t.pool.co d).status = .idle ↔ (s.pool.co d).status = .idle)
      (fun _ _ _ _ => Iff.rfl) (fun _ _ _ _ _ => suspended rfl run) ch v _
  | _ => exact Iff.rfl

theorem initialSlots (c : Config) : Slots (initial c).pool (initial c).running := by
  refine ⟨by simp [initial],by simp [initial],fun _ _ => rfl,by simp [initial]⟩

end

end TitCo.Scheduler
