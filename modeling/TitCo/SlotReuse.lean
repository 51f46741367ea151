import TitCo.Scheduler

/-! What a task can see of the slot it runs on. Copoll::Pop gives a new task the slot of one
that has finished, and Init leaves part of the record as it was; next to this scheduler runs one
whose Pop never finds an idle slot. Events name tasks, so that both runs get the same ones. -/
namespace TitCo.SlotReuse
open Channel MachineInt Queue Scheduler Tasks Timers Transition
open CoMutex (Mutex)

/-- Tasks are counted from 1, as slots are, and main_co_ is task 0: which task runs or last
ran on a slot, the slot it got, and the tasks that armed a timer entry and made a wait context. -/
structure Ledger where
  count : Nat
  task : Nat → Nat
  slot : Nat → Nat
  armed : Nat → Nat
  made : Nat → Nat

def Ledger.start : Ledger := ⟨1,fun _ => 0,fun _ => 0,fun _ => 0,fun _ => 0⟩

/-- What a task sees: where it is resumed and from which wait, what timeout() says there, the
value in its wait context, the clock, and what a call that does not suspend gives it. -/
inductive Observation where
  | started (task func : Nat)
  | resumed (task : Nat) (wait : Wait) (via : Via) (isTimeout : Bool) (value : Option Value) (clock : Nat)
  | returned (task : Nat) (value : Option Value) (isTimeout : Bool)
  deriving DecidableEq, Repr

structure Traced where
  sched : State
  ledger : Ledger
  trace : List Observation

def start (c : Config) : Traced := ⟨initial c,.start,[]⟩

def Ledger.started (l : Ledger) (co : Nat) : Ledger :=
  {l with
    count := l.count+1
    task := Function.update l.task co l.count
    slot := Function.update l.slot l.count co}

def Ledger.marked (l : Ledger) (s : State) (co : Nat) : Ledger :=
  {l with
    armed := Function.update l.armed s.timers.next (l.task co)
    made := Function.update l.made s.heap.next (l.task co)}

def Ledger.after (l : Ledger) (s : State) (e : Event) : Ledger :=
  match s.running with
  | some co => l.marked s co
  | none => if e = .newTask then l.started s.pool.pop.1 else l

def valueOf (h : Heap) : Wait → Option Value
  | .read w => some (h.block (h.ctx w).buf)
  | _ => none

def Ledger.resumed (l : Ledger) (s : State) (via : Via) (co : Nat) : List Observation :=
  match (s.pool.co co).status with
  | .suspended wait _ => [.resumed (l.task co) wait via s.timeout (valueOf s.heap wait) s.clock]
  | _ => []

def observeLoop (l : Ledger) (s : State) : Event → List Observation
  | .ioEvent co => l.resumed s .io co
  | .newTask =>
      match s.phase with
      | .tasks (f::_) _ => [.started l.count f]
      | _ => []
  | .readyTask =>
      match s.phase with
      | .tasks [] (co::_) => l.resumed s .ready co
      | _ => []
  | .timeoutTask =>
      match s.phase with
      | .timeouts ((co,_)::_) => l.resumed s .timeout co
      | _ => []
  | _ => []

def observeRunning (l : Ledger) (s : State) (co : Nat) : Event → List Observation
  | .read ch onStack _ =>
      match (readSection (s.chan ch) s.heap kInit co onStack).2.2 with
      | .taken v | .woke v _ => [.returned (l.task co) (some v) s.timeout]
      | .suspended _ => []
  | .write ch onStack v _ =>
      match (writeSection (s.chan ch) s.heap kInit co onStack v).2.2 with
      | .stored | .handOff _ => [.returned (l.task co) none s.timeout]
      | .suspended _ => []
  | _ => []

def observe (l : Ledger) (s : State) (e : Event) : List Observation :=
  match s.running with
  | some co => observeRunning l s co e
  | none => observeLoop l s e

/-- An IO event names the task that waits for it; its slot is what Loop looks up. -/
def Ledger.event (l : Ledger) : Event → Option Event
  | .ioEvent k => if k < l.count ∧ l.task (l.slot k) = k then some (.ioEvent (l.slot k)) else none
  | e => some e

/-- The variables that a task has off the shared stack are new with the task. -/
def renew (s t : State) (e : Event) : State :=
  match s.running, e with
  | none, .newTask => {t with heap := t.heap.put (.own s.pool.pop.1) []}
  | _, _ => t

def stepFrom (before : State) (l : Ledger) (trace : List Observation) (e : Event) : Option Traced :=
  (Scheduler.step before e).map fun after => ⟨renew before after e,l.after before e,trace ++ observe l before e⟩

def forget (s : State) : State := {s with pool := {s.pool with idle := []}}

/-- With `fresh`, what Push has pushed is forgotten before every step. -/
def step (fresh : Bool) (s : Traced) (e : Event) : Option Traced := do
  let e ← s.ledger.event e
  stepFrom (if fresh then forget s.sched else s.sched) s.ledger s.trace e

/-- Both runs get stuck at the same event, or both end with the same observations. -/
def Unobserved (c : Config) (es : List Event) : Prop :=
  (run (step false) (start c) es).map Traced.trace = (run (step true) (start c) es).map Traced.trace

def namesOf : Phase → List Nat
  | .tasks _ ready => ready
  | .collect tasks _ | .timeouts tasks => tasks.map Prod.fst
  | _ => []

/-- What an earlier task of a slot has left is not used for the one that runs there now: no slot
is given out that a ready list or a mutex queue still names, a timer entry that comes due
where wait_ctx_ is set was armed by the task of the slot, as its wait_ctx_ was, and a channel
operation wakes the task that made the wait context. -/
def Own (s : Traced) : Event → Prop
  | .newTask => ∀ r, s.sched.pool.idle.getLast? = some r → r ∉ namesOf s.sched.phase ∧
      r ∉ s.sched.taskMgr.readyTasks ∧ ∀ m, r ∉ (s.sched.mutex m).waitQueue
  | .collect => ∀ e es w, s.sched.timers.timer = e::es → e.deadline ≤ s.sched.clock → (s.sched.pool.co e.co).waitCtx = some w →
      s.ledger.armed e.id = s.ledger.task e.co ∧ s.ledger.made w = s.ledger.task e.co
  | .read ch onStack _ => ∀ co v w, s.sched.running = some co →
      (readSection (s.sched.chan ch) s.sched.heap kInit co onStack).2.2 = .woke v w →
      s.ledger.made w = s.ledger.task (s.sched.heap.ctx w).co
  | .write ch onStack v _ => ∀ co w, s.sched.running = some co →
      (writeSection (s.sched.chan ch) s.sched.heap kInit co onStack v).2.2 = .handOff w →
      s.ledger.made w = s.ledger.task (s.sched.heap.ctx w).co
  | _ => True

def relocate (k : Nat) : Loc → Loc
  | .priv v => .priv v
  | .own _ => .own k

def renamePhase (f : Nat → Nat) : Phase → Phase
  | .tasks new ready => .tasks new (ready.map f)
  | .collect tasks erases => .collect (tasks.map (fun t => (f t.1,t.2))) erases
  | .timeouts tasks => .timeouts (tasks.map (fun t => (f t.1,t.2)))
  | phase => phase

/- The record of a task in the fresh run is that of its slot, but for a wait_ctx_ that the task
has not set; tasks whose slot has gone to another one have finished. -/
structure PoolTwin (l : Ledger) (next : Nat) (p q : Pool) : Prop where
  id : q.id = l.count
  home : ∀ r, r < p.id → l.task r < l.count ∧ l.slot (l.task r) = r
  lodged : ∀ k, k < l.count → l.slot k < p.id
  retired : ∀ k, k < l.count → l.task (l.slot k) ≠ k → (q.co k).status = .idle
  blank : ∀ k, l.count ≤ k → q.co k = ⟨.idle,kInit,none⟩
  status : ∀ r, r < p.id → (q.co (l.task r)).status = (p.co r).status
  waitCtx : ∀ r, r < p.id → (q.co (l.task r)).waitCtx = (p.co r).waitCtx.filter (fun w => l.made w = l.task r)
  init : (∀ r, (p.co r).state = kInit) ∧ ∀ k, (q.co k).state = kInit
  made : ∀ r w, (p.co r).waitCtx = some w → w < next ∧ l.made w < l.count
  waits : ∀ r w timer, (p.co r).status = .suspended (.read w) timer → w < next ∧ l.made w = l.task r

/- So is what a wait context holds, under the name of the task that made it. -/
structure HeapTwin (l : Ledger) (id : Nat) (h k : Heap) : Prop where
  next : k.next = h.next
  ctx : ∀ w, w < h.next → k.ctx w = ⟨l.made w,(h.ctx w).state,relocate (l.made w) (h.ctx w).buf⟩
  made : ∀ w, w < h.next → l.made w < l.count ∧ l.slot (l.made w) = (h.ctx w).co ∧ (h.ctx w).co < id
  buf : ∀ w co, w < h.next → (h.ctx w).buf = .own co → co = (h.ctx w).co
  priv : ∀ v, k.block (.priv v) = h.block (.priv v)
  own : ∀ r, r < id → k.block (.own (l.task r)) = h.block (.own r)

structure TimerTwin (l : Ledger) (p q : Pool) (m n : TimerManager) : Prop where
  same : n = m.rename l.armed
  armed : ∀ e ∈ m.timer, e.id < m.next ∧ l.armed e.id < l.count ∧ l.slot (l.armed e.id) = e.co ∧ e.co < p.id
  dropped : ∀ e ∈ m.timer, (p.co e.co).waitCtx = none → (q.co (l.armed e.id)).waitCtx = none

structure Twin (l : Ledger) (s t : State) : Prop where
  slots : Slots s.pool s.running
  pool : PoolTwin l s.heap.next s.pool t.pool
  heap : HeapTwin l s.pool.id s.heap t.heap
  timers : TimerTwin l s.pool t.pool s.timers t.timers
  phase : t.phase = renamePhase l.task s.phase
  names : ∀ co ∈ namesOf s.phase, co < s.pool.id
  running : t.running = s.running.map l.task
  timeout : t.timeout = s.timeout
  clock : t.clock = s.clock
  taskMgr : t.taskMgr = ⟨s.taskMgr.newTasks,s.taskMgr.readyTasks.map l.task⟩
  ready : ∀ co ∈ s.taskMgr.readyTasks, co < s.pool.id
  chan : t.chan = s.chan
  queue : ∀ ch, ∀ w ∈ (s.chan ch).waitQueue, w < s.heap.next
  mutex : ∀ m, t.mutex m = ⟨(s.mutex m).lock,(s.mutex m).waitQueue.map l.task⟩
  waiters : ∀ m, ∀ co ∈ (s.mutex m).waitQueue, co < s.pool.id

section
variable {l : Ledger} {next id : Nat} {p q : Pool} {h k : Heap} {m n : TimerManager} {r co : Nat}

theorem taskDiffers (pool : PoolTwin l next p q) {d : Nat} (low : r < p.id) (small : d < p.id) (differ : d ≠ r) :
    l.task d ≠ l.task r := by
  intro same
  have first := (pool.home r low).2
  rw [← same,(pool.home d small).2] at first
  exact differ first

/- One slot and its task change alike. -/
theorem poolSet (pool : PoolTwin l next p q) (low : r < p.id) {c d : Coroutine} (status : d.status = c.status)
    (waitCtx : d.waitCtx = c.waitCtx.filter (fun w => l.made w = l.task r)) (init : c.state = kInit ∧ d.state = kInit)
    (made : ∀ w, c.waitCtx = some w → w < next ∧ l.made w < l.count)
    (waits : ∀ w timer, c.status = .suspended (.read w) timer → w < next ∧ l.made w = l.task r) :
    PoolTwin l next (p.set r c) (q.set (l.task r) d) := by
  have other : ∀ x, x ≠ l.task r → (q.set (l.task r) d).co x = q.co x := fun x differ => Function.update_of_ne differ _ _
  have kept : ∀ x, x ≠ r → (p.set r c).co x = p.co x := fun x differ => Function.update_of_ne differ _ _
  have self : (q.set (l.task r) d).co (l.task r) = d := Function.update_self _ _ _
  have here : (p.set r c).co r = c := Function.update_self _ _ _
  refine ⟨pool.id,pool.home,pool.lodged,?_,?_,?_,?_,⟨?_,?_⟩,?_,?_⟩
  · intro x small left
    rw [other]
    · exact pool.retired x small left
    · rintro rfl
      rw [(pool.home r low).2] at left
      exact left rfl
  · intro x large
    rw [other]
    · exact pool.blank x large
    · have small := (pool.home r low).1
      omega
  · intro x small
    by_cases same : x = r
    · subst x
      rw [self,here,status]
    · rw [other _ (taskDiffers pool low small same),kept x same]
      exact pool.status x small
  · intro x small
    by_cases same : x = r
    · subst x
      rw [self,here,waitCtx]
    · rw [other _ (taskDiffers pool low small same),kept x same]
      exact pool.waitCtx x small
  · intro x
    by_cases same : x = r
    · subst x
      rw [here,init.1]
    · rw [kept x same]
      exact pool.init.1 x
  · intro x
    by_cases same : x = l.task r
    · subst x
      rw [self,init.2]
    · rw [other x same]
      exact pool.init.2 x
  · intro x
    by_cases same : x = r
    · subst x
      rw [here]
      exact made
    · rw [kept x same]
      exact pool.made x
  · intro x
    by_cases same : x = r
    · subst x
      rw [here]
      exact waits
    · rw [kept x same]
      exact pool.waits x

theorem poolSetStatus (pool : PoolTwin l next p q) (low : r < p.id) {st : Status}
    (waits : ∀ w timer, st = .suspended (.read w) timer → w < next ∧ l.made w = l.task r) :
    PoolTwin l next (p.setStatus r st) (q.setStatus (l.task r) st) :=
  poolSet pool low rfl (pool.waitCtx r low) ⟨pool.init.1 r,pool.init.2 _⟩ (pool.made r) waits

theorem timerNext (timers : TimerTwin l p q m n) : n.next = m.next := by
  rw [timers.same]
  rfl

theorem timerList (timers : TimerTwin l p q m n) : n.timer = m.timer.map (Entry.rename l.armed) := by
  rw [timers.same]
  rfl

theorem timerPool {p' q' : Pool} (timers : TimerTwin l p q m n) (id : p'.id = p.id)
    (kept : ∀ d, (p'.co d).waitCtx = (p.co d).waitCtx) (same : ∀ d, (q'.co d).waitCtx = (q.co d).waitCtx) :
    TimerTwin l p' q' m n := by
  refine ⟨timers.same,?_,?_⟩
  · rw [id]
    exact timers.armed
  · intro e inside
    rw [kept,same]
    exact timers.dropped e inside

theorem timerStatus (timers : TimerTwin l p q m n) (r x : Nat) (st st' : Status) :
    TimerTwin l (p.setStatus r st) (q.setStatus x st') m n :=
  timerPool timers rfl (fun d => setStatusCtx p r d st) (fun d => setStatusCtx q x d st')

/- Another name for what has not been made yet. -/
theorem poolMade (pool : PoolTwin l next p q) (made : Nat → Nat) (same : ∀ w, w < next → made w = l.made w) (armed : Nat → Nat) :
    PoolTwin {l with made := made, armed := armed} next p q := by
  refine ⟨pool.id,pool.home,pool.lodged,pool.retired,pool.blank,pool.status,?_,pool.init,?_,?_⟩
  · intro r low
    rw [pool.waitCtx r low]
    cases ctx : (p.co r).waitCtx with
    | none => rfl
    | some w => simp only [Option.filter,same w (pool.made r w ctx).1]
  · intro r w ctx
    have old := pool.made r w ctx
    simp only [same w old.1]
    exact old
  · intro r w timer status
    have old := pool.waits r w timer status
    simp only [same w old.1]
    exact old

theorem heapMade (heap : HeapTwin l id h k) (made : Nat → Nat) (same : ∀ w, w < h.next → made w = l.made w) (armed : Nat → Nat) :
    HeapTwin {l with made := made, armed := armed} id h k := by
  refine ⟨heap.next,?_,?_,heap.buf,heap.priv,heap.own⟩
  · intro w low
    simp only [same w low]
    exact heap.ctx w low
  · intro w low
    simp only [same w low]
    exact heap.made w low

theorem timerArmed (timers : TimerTwin l p q m n) (armed : Nat → Nat) (same : ∀ x, x < m.next → armed x = l.armed x)
    (made : Nat → Nat) : TimerTwin {l with made := made, armed := armed} p q m n := by
  refine ⟨?_,?_,?_⟩
  · rw [timers.same]
    simp only [TimerManager.rename]
    congr 1
    refine List.map_congr_left fun e inside => ?_
    simp only [Entry.rename,same e.id (timers.armed e inside).1]
  · intro e inside
    simp only [same e.id (timers.armed e inside).1]
    exact timers.armed e inside
  · intro e inside
    simp only [same e.id (timers.armed e inside).1]
    exact timers.dropped e inside

theorem markedTwin {s t : State} (twin : Twin l s t) (co : Nat) : Twin (l.marked s co) s t := by
  have made : ∀ w, w < s.heap.next → Function.update l.made s.heap.next (l.task co) w = l.made w :=
    fun w low => Function.update_of_ne (by omega) _ _
  have armed : ∀ x, x < s.timers.next → Function.update l.armed s.timers.next (l.task co) x = l.armed x :=
    fun x low => Function.update_of_ne (by omega) _ _
  exact {twin with
    pool := poolMade twin.pool _ made _
    heap := heapMade twin.heap _ made _
    timers := timerArmed twin.timers _ armed _}

theorem heapState (heap : HeapTwin l id h k) {w : Nat} (low : w < h.next) : (k.ctx w).state = (h.ctx w).state := by
  rw [heap.ctx w low]

theorem heapSetState (heap : HeapTwin l id h k) {w : Nat} (low : w < h.next) (st : Nat) :
    HeapTwin l id (h.setState w st) (k.setState w st) := by
  refine ⟨heap.next,?_,?_,?_,heap.priv,heap.own⟩
  · intro x small
    by_cases same : x = w
    · subst x
      simp only [Heap.setState,Function.update_self,heap.ctx w low]
    · rw [setStateOther same,setStateOther same]
      exact heap.ctx x small
  · intro x small
    rw [setStateOwner]
    exact heap.made x small
  · intro x co small
    rw [setStateBuf,setStateOwner]
    exact heap.buf x co small

/- What a wait context of the task that is on its slot holds. -/
theorem heapValue (heap : HeapTwin l id h k) {w : Nat} (low : w < h.next)
    (own : l.made w = l.task (h.ctx w).co) : k.block (k.ctx w).buf = h.block (h.ctx w).buf := by
  rw [heap.ctx w low]
  cases buf : (h.ctx w).buf with
  | priv v => exact heap.priv v
  | own co =>
    cases heap.buf w co low buf
    simp only [relocate,own]
    exact heap.own _ (heap.made w low).2.2

/- A block and its name in the fresh run are written alike. -/
theorem heapPut (pool : PoolTwin l next p q) (heap : HeapTwin l p.id h k) (loc : Loc)
    (inside : ∀ co, loc = .own co → co = r) (low : r < p.id) (v : Value) :
    HeapTwin l p.id (h.put loc v) (k.put (relocate (l.task r) loc) v) := by
  refine ⟨heap.next,heap.ctx,heap.made,heap.buf,?_,?_⟩
  · intro x
    cases loc with
    | priv y =>
      by_cases same : x = y
      · subst x
        simp [Heap.put,relocate]
      · simp [Heap.put,relocate,Function.update_of_ne,same,heap.priv x]
    | own co => simp [Heap.put,relocate,heap.priv x]
  · intro x small
    cases loc with
    | priv y => simp [Heap.put,relocate,heap.own x small]
    | own co =>
      cases inside co rfl
      by_cases same : x = r
      · subst x
        simp [Heap.put,relocate]
      · simp [Heap.put,relocate,same,taskDiffers pool low small same,heap.own x small]

theorem heapHand (pool : PoolTwin l next p q) (heap : HeapTwin l p.id h k) {w : Nat} (low : w < h.next)
    (own : l.made w = l.task (h.ctx w).co) (v : Value) :
    HeapTwin l p.id (h.put (h.ctx w).buf v) (k.put (k.ctx w).buf v) := by
  rw [heap.ctx w low,own]
  exact heapPut pool heap _ (fun d same => heap.buf w d low same) (heap.made w low).2.2 v

theorem heapCreate (heap : HeapTwin l id h k) (low : co < id) (task : l.task co < l.count ∧ l.slot (l.task co) = co)
    (made : l.made h.next = l.task co) (raw : Nat) (onStack : Bool) :
    HeapTwin l id (createWaitCtxInfo h raw co onStack) (createWaitCtxInfo k raw (l.task co) onStack) := by
  have old : ∀ w, w < h.next+1 → w ≠ h.next → w < h.next := fun w small differ => by omega
  refine ⟨congrArg Nat.succ heap.next,?_,?_,?_,heap.priv,heap.own⟩
  · intro w small
    by_cases same : w = h.next
    · subst w
      have self := createSelf k raw (l.task co) onStack
      rw [heap.next] at self
      rw [self,createSelf,made]
      cases onStack <;> rfl
    · have other : w ≠ k.next := by rw [heap.next]; exact same
      rw [createOther same,createOther other]
      exact heap.ctx w (old w small same)
  · intro w small
    by_cases same : w = h.next
    · subst w
      rw [createSelf,made]
      exact ⟨task.1,task.2,low⟩
    · rw [createOther same]
      exact heap.made w (old w small same)
  · intro w d small
    by_cases same : w = h.next
    · subst w
      rw [createSelf]
      cases onStack with
      | true => simp
      | false =>
        intro buf
        cases buf
        rfl
    · rw [createOther same]
      exact heap.buf w d (old w small same)

theorem claimTwin (heap : HeapTwin l id h k) {queue : List Nat} (low : ∀ w ∈ queue, w < h.next) :
    claim k queue = claim h queue := by
  induction queue with
  | nil => rfl
  | cons w ws ih =>
    simp only [claim,heapState heap (low w (by simp)),ih (fun x hx => low x (by simp [hx]))]

theorem timerAdd (timers : TimerTwin l p q m n) (pool : PoolTwin l next p q) (low : co < p.id)
    (mark : l.armed m.next = l.task co) (deadline freed : Nat) :
    TimerTwin l p q (addTimer m deadline co freed) (addTimer n deadline (l.task co) freed) := by
  refine ⟨?_,?_,?_⟩
  · rw [timers.same,← mark,addTimerRename]
  · intro e inside
    rcases addTimerMem.1 inside with rfl | old
    · simp only [mark]
      exact ⟨Nat.lt_succ_self _,(pool.home co low).1,(pool.home co low).2,low⟩
    · obtain ⟨small,rest⟩ := timers.armed e old
      exact ⟨Nat.lt_succ_of_lt small,rest⟩
  · intro e inside
    rcases addTimerMem.1 inside with rfl | old
    · intro none
      simp only [mark]
      rw [pool.waitCtx co low,none]
      rfl
    · exact timers.dropped e old

end

section
variable {l : Ledger} {s t : State} {co : Nat} {wait : Wait}

theorem armedTwin (twin : Twin l s t) (run : s.running = some co) (mark : l.armed s.timers.next = l.task co)
    (waits : ∀ w, wait = .read w → w < s.heap.next ∧ l.made w = l.task co) (deadline freed : Nat) :
    Twin l (s.armed co wait deadline freed) (t.armed (l.task co) wait deadline freed) := by
  have low := runnerLow twin.slots run
  have next := timerNext twin.timers
  have pool : PoolTwin l s.heap.next (s.armed co wait deadline freed).pool (t.armed (l.task co) wait deadline freed).pool := by
    simp only [State.armed,next]
    refine poolSetStatus twin.pool low ?_
    intro w timer status
    cases status
    exact waits w rfl
  exact {twin with
    slots := slotsArmed twin.slots run wait deadline freed
    pool := pool
    timers := timerStatus (timerAdd twin.timers twin.pool low mark deadline freed) _ _ _ _
    running := rfl}

theorem yieldedTwin (twin : Twin l s t) (run : s.running = some co) (wait : Wait)
    (waits : ∀ w, wait = .read w → w < s.heap.next ∧ l.made w = l.task co) :
    Twin l (s.yielded co wait) (t.yielded (l.task co) wait) := by
  have low := runnerLow twin.slots run
  have pool : PoolTwin l s.heap.next (s.yielded co wait).pool (t.yielded (l.task co) wait).pool := by
    refine poolSetStatus twin.pool low ?_
    intro w timer status
    cases status
    exact waits w rfl
  exact {twin with
    slots := slotsYielded twin.slots run wait
    pool := pool
    timers := timerStatus twin.timers _ _ _ _
    running := rfl}

theorem suspendTwin (twin : Twin l s t) (run : s.running = some co) (mark : l.armed s.timers.next = l.task co)
    (waits : ∀ w, wait = .read w → w < s.heap.next ∧ l.made w = l.task co) (ms freed : Nat) :
    Twin l (s.suspend co wait ms freed) (t.suspend (l.task co) wait ms freed) := by
  by_cases infinite : ms = uint32Max
  · have yields : ∀ u d, State.suspend u d wait ms freed = u.yielded d wait := fun u d => if_pos infinite
    rw [yields,yields]
    exact yieldedTwin twin run wait waits
  · have arms : ∀ u d, State.suspend u d wait ms freed = u.armed d wait (u.clock + ms) freed := fun u d => if_neg infinite
    rw [arms,arms,twin.clock]
    exact armedTwin twin run mark waits _ freed

theorem resumedTwin (twin : Twin l s t) {r : Nat} {timer : Option Nat} (low : r < s.pool.id)
    (asleep : (s.pool.co r).status = .suspended wait timer) (via : Via) {phase : Phase}
    (names : ∀ co ∈ namesOf phase, co < s.pool.id) :
    Twin l (s.resumed via r wait phase) (t.resumed via (l.task r) wait (renamePhase l.task phase)) :=
  {twin with
    slots := slotsResumed twin.slots via phase asleep
    pool := poolSetStatus twin.pool low (by simp)
    timers := timerStatus twin.timers _ _ _ _
    phase := rfl
    names := names
    running := rfl}

theorem resumeTwin (twin : Twin l s t) {r : Nat} (low : r < s.pool.id) (via : Via) {phase : Phase}
    (names : ∀ co ∈ namesOf phase, co < s.pool.id) :
    Option.Rel (Twin l) (resume {s with phase := phase} via r)
      (resume {t with phase := renamePhase l.task phase} via (l.task r)) := by
  have status := twin.pool.status r low
  simp only [resume,status]
  cases asleep : (s.pool.co r).status with
  | suspended wait timer => exact .some (resumedTwin twin low asleep via names)
  | _ => exact .none

theorem hintTwin (twin : Twin l s t) (hint : Option Nat) :
    TimerTwin l s.pool t.pool {s.timers with hint := hint} {t.timers with hint := hint} := by
  refine ⟨?_,twin.timers.armed,twin.timers.dropped⟩
  rw [twin.timers.same]
  rfl

theorem headTwin (twin : Twin l s t) {e : Entry} {es : List Entry} (timer : s.timers.timer = e::es) :
    TimerTwin l s.pool t.pool {s.timers with timer := es} {t.timers with timer := es.map (Entry.rename l.armed)} := by
  have old : ∀ x ∈ es, x ∈ s.timers.timer := fun x inside => by rw [timer]; exact List.mem_cons_of_mem e inside
  refine ⟨?_,fun x inside => twin.timers.armed x (old x inside),fun x inside => twin.timers.dropped x (old x inside)⟩
  rw [twin.timers.same]
  rfl

theorem collectEntryInit {s : State} {e : Entry} {w : Nat} (ctx : (s.pool.co e.co).waitCtx = some w)
    (init : (s.pool.co e.co).state = kInit) (tasks : List (Nat × Nat)) : collectEntry s e tasks =
      (if (s.heap.ctx w).state = kInit then {s with heap := s.heap.setState w kTimeout} else s,tasks ++ [(e.co,e.id)]) := by
  simp only [collectEntry,ctx,init,if_true]
  split <;> rfl

/- A due entry is dropped in both runs, or collected in both. -/
theorem collectTwin (twin : Twin l s t) {e : Entry} {es : List Entry} {tasks : List (Nat × Nat)} {erases : Bool}
    (phase : s.phase = .collect tasks erases) (timer : s.timers.timer = e::es)
    (own : ∀ w, (s.pool.co e.co).waitCtx = some w → l.armed e.id = l.task e.co ∧ l.made w = l.task e.co) :
    Twin l
      {(collectEntry s e tasks).1 with
        timers := {s.timers with timer := es}
        phase := .collect (collectEntry s e tasks).2 true}
      {(collectEntry t (e.rename l.armed) (tasks.map (fun x => (l.task x.1,x.2)))).1 with
        timers := {t.timers with timer := es.map (Entry.rename l.armed)}
        phase := .collect (collectEntry t (e.rename l.armed) (tasks.map (fun x => (l.task x.1,x.2)))).2 true} := by
  have inside : e ∈ s.timers.timer := by rw [timer]; exact List.mem_cons_self
  obtain ⟨-,-,-,low⟩ := twin.timers.armed e inside
  have names : ∀ co ∈ tasks.map Prod.fst, co < s.pool.id := by
    have all := twin.names
    rw [phase] at all
    exact all
  have more : ∀ co ∈ (tasks ++ [(e.co,e.id)]).map Prod.fst, co < s.pool.id := by
    rw [List.map_append]
    exact allPush names low
  cases ctx : (s.pool.co e.co).waitCtx with
  | none =>
    have none : (t.pool.co (e.rename l.armed).co).waitCtx = none := twin.timers.dropped e inside ctx
    simp only [collectEntry,ctx,none]
    exact {twin with timers := headTwin twin timer, phase := rfl, names := names}
  | some w =>
    obtain ⟨mine,made⟩ := own w ctx
    have name : e.rename l.armed = ⟨e.id,e.deadline,l.task e.co⟩ := by rw [← mine]; rfl
    have small := (twin.pool.made e.co w ctx).1
    have same : (t.pool.co (l.task e.co)).waitCtx = some w := by
      rw [twin.pool.waitCtx e.co low,ctx]
      simp [Option.filter,made]
    have pushed : (tasks.map (fun x => (l.task x.1,x.2))) ++ [(l.task e.co,e.id)] =
        (tasks ++ [(e.co,e.id)]).map (fun x => (l.task x.1,x.2)) := by simp
    rw [collectEntryInit ctx (twin.pool.init.1 _),name,collectEntryInit same (twin.pool.init.2 _),pushed,
      heapState twin.heap small]
    split
    · exact {twin with
        heap := heapSetState twin.heap small kTimeout
        timers := headTwin twin timer
        phase := rfl
        names := more}
    · exact {twin with timers := headTwin twin timer, phase := rfl, names := more}

theorem doneTwin (twin : Twin l s t) {tasks : List (Nat × Nat)} {erases : Bool} (phase : s.phase = .collect tasks erases)
    (later : Nat) : Option.Rel (Twin l) (loopStep s (.collectDone later)) (loopStep t (.collectDone later)) := by
  have names : ∀ co ∈ tasks.map Prod.fst, co < s.pool.id := by
    have all := twin.names
    rw [phase] at all
    exact all
  have other : t.phase = .collect (tasks.map (fun x => (l.task x.1,x.2))) erases := by rw [twin.phase,phase]; rfl
  have timers := timerList twin.timers
  have next := timerNext twin.timers
  have flag : (!(tasks.map (fun x => (l.task x.1,x.2))).isEmpty) = !tasks.isEmpty := by rw [List.isEmpty_map]
  simp only [loopStep,phase,other,timers,twin.clock,next]
  cases timer : s.timers.timer with
  | nil => exact .some {twin with phase := rfl, names := names, timeout := flag, clock := rfl}
  | cons e es =>
    have hinted := hintTwin twin (some e.id)
    simp only [timer,timers,next,List.map_cons] at hinted
    simp only [List.map_cons,Entry.rename]
    split
    · refine .some {twin with phase := rfl, names := names, timeout := flag, clock := rfl, timers := ?_}
      split
      · exact hinted
      · exact twin.timers
    · exact .none

theorem loopTwin (twin : Twin l s t) {e : Event} (named : ∀ co, e ≠ .ioEvent co) (old : e ≠ .newTask)
    (own : e = .collect → ∀ x es w, s.timers.timer = x::es → x.deadline ≤ s.clock →
      (s.pool.co x.co).waitCtx = some w → l.armed x.id = l.task x.co ∧ l.made w = l.task x.co) :
    Option.Rel (Twin l) (loopStep s e) (loopStep t e) := by
  have other := twin.phase
  have all := twin.names
  have whole : ∀ u : State, ({u with phase := u.phase} : State) = u := fun _ => rfl
  cases e with
  | ioEvent co => exact absurd rfl (named co)
  | newTask => contradiction
  | wait =>
    simp only [loopStep,other]
    cases phase : s.phase with
    | poll => exact .some {twin with phase := rfl, names := by simp [namesOf]}
    | _ => simp [renamePhase]
  | getAllTasks =>
    simp only [loopStep,other,getAllTasksEmpty]
    cases phase : s.phase with
    | io =>
      simp only [renamePhase,if_true,twin.taskMgr]
      exact .some {twin with phase := rfl, names := twin.ready, taskMgr := rfl, ready := by simp [TaskManager.empty]}
    | _ => simp [renamePhase]
  | readyTask =>
    simp only [loopStep,other]
    cases phase : s.phase with
    | tasks new ready =>
      rw [phase] at all
      cases new with
      | cons f fs => exact .none
      | nil =>
        cases ready with
        | nil => exact .none
        | cons co cs =>
          exact resumeTwin twin (all co (by simp [namesOf])) .ready (fun d hd => all d (by simp [namesOf] at hd ⊢; exact Or.inr hd))
    | _ => exact .none
  | tasksDone =>
    simp only [loopStep,other]
    cases phase : s.phase with
    | tasks new ready =>
      cases new with
      | cons f fs => simp [renamePhase]
      | nil =>
        cases ready with
        | cons co cs => simp [renamePhase]
        | nil => exact .some {twin with phase := rfl, names := by simp [namesOf]}
    | _ => simp [renamePhase]
  | collect =>
    have timers := timerList twin.timers
    simp only [loopStep,other,timers,twin.clock]
    cases phase : s.phase with
    | collect tasks erases =>
      cases timer : s.timers.timer with
      | nil => exact .none
      | cons e es =>
        simp only [renamePhase,List.map_cons,Entry.rename]
        split
        · rename_i due
          exact .some (collectTwin twin phase timer (fun w => own rfl e es w timer due))
        · exact .none
    | _ => exact .none
  | collectDone later =>
    cases phase : s.phase with
    | collect tasks erases => exact doneTwin twin phase later
    | _ => simp only [loopStep,other,phase,renamePhase]; exact .none
  | timeoutTask =>
    simp only [loopStep,other]
    cases phase : s.phase with
    | timeouts tasks =>
      rw [phase] at all
      cases tasks with
      | nil => exact .none
      | cons x rest =>
        obtain ⟨co,id⟩ := x
        exact resumeTwin twin (all co (by simp [namesOf])) .timeout (fun d hd => all d (by simp [namesOf] at hd ⊢; exact Or.inr hd))
    | _ => exact .none
  | timeoutsDone =>
    simp only [loopStep,other]
    cases phase : s.phase with
    | timeouts tasks =>
      cases tasks with
      | nil => exact .some {twin with phase := rfl, names := by simp [namesOf], timeout := rfl}
      | cons x rest => simp [renamePhase]
    | _ => simp [renamePhase]
  | _ => exact .none

theorem poolGrow {next more : Nat} {p q : Pool} (pool : PoolTwin l next p q) (grows : next ≤ more) : PoolTwin l more p q := by
  refine {pool with made := ?_, waits := ?_}
  · intro r w ctx
    obtain ⟨low,task⟩ := pool.made r w ctx
    exact ⟨Nat.lt_of_lt_of_le low grows,task⟩
  · intro r w timer status
    obtain ⟨low,task⟩ := pool.waits r w timer status
    exact ⟨Nat.lt_of_lt_of_le low grows,task⟩

theorem queueUpdate {chan : Nat → ChannelImpl} {next more : Nat} (old : ∀ ch, ∀ w ∈ (chan ch).waitQueue, w < next)
    (grows : next ≤ more) {c : ChannelImpl} (queue : ∀ w ∈ c.waitQueue, w < more) (ch x : Nat) :
    ∀ w ∈ (Function.update chan ch c x).waitQueue, w < more := by
  by_cases same : x = ch
  · subst x
    rw [Function.update_self]
    exact queue
  · rw [Function.update_of_ne same]
    exact fun w inside => Nat.lt_of_lt_of_le (old x w inside) grows

theorem chanTwin (twin : Twin l s t) (ch : Nat) {c : ChannelImpl} (queue : ∀ w ∈ c.waitQueue, w < s.heap.next) :
    Twin l {s with chan := Function.update s.chan ch c} {t with chan := Function.update t.chan ch c} := by
  refine {twin with chan := ?_, queue := queueUpdate twin.queue (Nat.le_refl _) queue ch}
  rw [twin.chan]

theorem readyTwin (twin : Twin l s t) {w : Nat} (low : w < s.heap.next) (own : l.made w = l.task (s.heap.ctx w).co) :
    Twin l (s.ready w) (t.ready w) := by
  have name : (t.heap.ctx w).co = l.task (s.heap.ctx w).co := by rw [twin.heap.ctx w low,own]
  refine {twin with taskMgr := ?_, ready := ?_}
  · simp only [State.ready,addReadyTasks,twin.taskMgr,name,List.map_append,List.map_cons,List.map_nil]
  · exact allPush twin.ready (twin.heap.made w low).2.2

/- A running coroutine that has just made a wait context stores it in its record. -/
theorem waitTwin (twin : Twin l s t) (run : s.running = some co) (made : l.made s.heap.next = l.task co) (ch : Nat)
    {c : ChannelImpl} {h k : Heap} (queue : ∀ w ∈ c.waitQueue, w < h.next) (heap : HeapTwin l s.pool.id h k)
    (grown : h.next = s.heap.next+1) :
    Twin l (State.setWaitCtx {s with chan := Function.update s.chan ch c, heap := h} co s.heap.next)
      (State.setWaitCtx {t with chan := Function.update t.chan ch c, heap := k} (l.task co) s.heap.next) := by
  have low := runnerLow twin.slots run
  have home := twin.pool.home co low
  have pool := poolGrow twin.pool (Nat.le_succ s.heap.next)
  rw [← Nat.succ_eq_add_one] at grown
  refine {twin with
    slots := slotsSame twin.slots (setWaitCtxStatus s co s.heap.next) rfl rfl
    pool := ?_, heap := heap, timers := ⟨twin.timers.same,twin.timers.armed,?_⟩, chan := ?_
    queue := queueUpdate twin.queue (by rw [grown]; exact Nat.le_succ _) queue ch}
  · change PoolTwin l h.next (s.pool.set co _) (t.pool.set (l.task co) _)
    rw [grown]
    refine poolSet pool low (pool.status co low) ?_ ⟨pool.init.1 co,pool.init.2 _⟩ ?_ (pool.waits co)
    · simp [Option.filter,made]
    · intro w stored
      cases stored
      exact ⟨Nat.lt_succ_self _,made ▸ home.1⟩
  · intro e inside none
    obtain ⟨-,-,slot,-⟩ := twin.timers.armed e inside
    by_cases same : e.co = co
    · simp [State.setWaitCtx,Pool.set,same] at none
    · have differ : l.armed e.id ≠ l.task co := by
        intro equal
        rw [equal,home.2] at slot
        exact same slot.symm
      simp only [State.setWaitCtx,Pool.set,Function.update_of_ne same] at none
      simp only [State.setWaitCtx,Pool.set,Function.update_of_ne differ]
      exact twin.timers.dropped e inside none
  · simp only [State.setWaitCtx,twin.chan]

theorem mutexTwin (twin : Twin l s t) (m : Nat) (lock : Bool) (queue : List Nat) (low : ∀ d ∈ queue, d < s.pool.id) :
    Twin l {s with mutex := Function.update s.mutex m ⟨lock,queue⟩}
      {t with mutex := Function.update t.mutex m ⟨lock,queue.map l.task⟩} := by
  refine {twin with mutex := ?_, waiters := ?_}
  · intro x
    by_cases same : x = m
    · subst x
      simp
    · simp only [Function.update_of_ne same]
      exact twin.mutex x
  · intro x d inside
    by_cases same : x = m
    · subst x
      simp only [Function.update_self] at inside
      exact low d inside
    · simp only [Function.update_of_ne same] at inside
      exact twin.waiters x d inside

theorem readTwin (twin : Twin l s t) (run : s.running = some co) (armed : l.armed s.timers.next = l.task co)
    (made : l.made s.heap.next = l.task co) (ch freed : Nat) (onStack : Bool)
    (own : ∀ v w, (readSection (s.chan ch) s.heap kInit co onStack).2.2 = .woke v w → l.made w = l.task (s.heap.ctx w).co) :
    Twin l (s.afterRead co ch freed (readSection (s.chan ch) s.heap kInit co onStack))
      (t.afterRead (l.task co) ch freed (readSection (t.chan ch) t.heap kInit (l.task co) onStack)) := by
  have low := runnerLow twin.slots run
  have home := twin.pool.home co low
  have old := twin.queue ch
  have next : t.heap.next = s.heap.next := twin.heap.next
  rw [twin.chan]
  unfold readSection at own ⊢
  split
  · exact chanTwin twin ch old
  · rename_i meet
    split
    · have queue : ∀ w ∈ (s.chan ch).waitQueue ++ [s.heap.next], w < s.heap.next+1 :=
        allPush (fun w before => Nat.lt_succ_of_lt (old w before)) (Nat.lt_succ_self _)
      have waiting := waitTwin (c := {s.chan ch with waitQueue := (s.chan ch).waitQueue ++ [s.heap.next]}) twin run made ch
        queue (heapCreate twin.heap low home made kInit onStack) rfl
      rw [next]
      exact suspendTwin waiting run armed (fun w same => by cases same; exact ⟨Nat.lt_succ_self _,made⟩) _ freed
    · rename_i full
      have claims := claimTwin twin.heap old
      simp only [if_neg meet,if_neg full] at own
      rw [claims]
      cases found : claim s.heap (s.chan ch).waitQueue with
      | mk front rest =>
        cases front with
        | none =>
          cases claimNone found
          exact chanTwin twin ch (by simp)
        | some w =>
          rw [found] at own
          obtain ⟨inside,-,part⟩ := claimSome found
          have small := old w inside
          have mine := own _ w rfl
          simp only
          rw [heapValue twin.heap small mine]
          have woken : Twin l {s with
              chan := Function.update s.chan ch
                {(s.chan ch).take.put (s.heap.block (s.heap.ctx w).buf) with waitQueue := rest}
              heap := s.heap.setState w kReady} {t with
              chan := Function.update t.chan ch
                {(s.chan ch).take.put (s.heap.block (s.heap.ctx w).buf) with waitQueue := rest}
              heap := t.heap.setState w kReady} :=
            {chanTwin twin ch (fun x hx => old x (part x hx)) with heap := heapSetState twin.heap small kReady}
          have ready := readyTwin woken (w := w) small (by rw [setStateOwner]; exact mine)
          exact {ready with}

theorem writeTwin (twin : Twin l s t) (run : s.running = some co) (armed : l.armed s.timers.next = l.task co)
    (made : l.made s.heap.next = l.task co) (ch freed : Nat) (onStack : Bool) (v : Value)
    (own : ∀ w, (writeSection (s.chan ch) s.heap kInit co onStack v).2.2 = .handOff w →
      l.made w = l.task (s.heap.ctx w).co) :
    Twin l (s.afterWrite co ch freed v (writeSection (s.chan ch) s.heap kInit co onStack v))
      (t.afterWrite (l.task co) ch freed v (writeSection (t.chan ch) t.heap kInit (l.task co) onStack v)) := by
  have low := runnerLow twin.slots run
  have home := twin.pool.home co low
  have old := twin.queue ch
  have next : t.heap.next = s.heap.next := twin.heap.next
  have marked : ∀ d : ChannelImpl, d.markFull.waitQueue = d.waitQueue := fun d => (markFullQueue d).1
  rw [twin.chan]
  unfold writeSection at own ⊢
  split
  · exact chanTwin twin ch (by rw [marked]; exact old)
  · rename_i meet
    split
    · rename_i unfilled
      have claims := claimTwin twin.heap old
      simp only [if_neg meet,if_pos unfilled] at own
      rw [claims]
      cases found : claim s.heap (s.chan ch).waitQueue with
      | mk front rest =>
        cases front with
        | none =>
          cases claimNone found
          exact chanTwin twin ch (by simp)
        | some w =>
          rw [found] at own
          obtain ⟨inside,-,part⟩ := claimSome found
          have small := old w inside
          have mine := own w rfl
          have woken : Twin l {s with
              chan := Function.update s.chan ch {s.chan ch with waitQueue := rest}
              heap := (s.heap.setState w kReady).put ((s.heap.setState w kReady).ctx w).buf v} {t with
              chan := Function.update t.chan ch {s.chan ch with waitQueue := rest}
              heap := (t.heap.setState w kReady).put ((t.heap.setState w kReady).ctx w).buf v} :=
            {chanTwin twin ch (fun x hx => old x (part x hx)) with
              heap := heapHand twin.pool (heapSetState twin.heap small kReady) small (by rw [setStateOwner]; exact mine) v}
          have ready := readyTwin woken (w := w) small
            (by change l.made w = l.task ((s.heap.setState w kReady).ctx w).co; rw [setStateOwner]; exact mine)
          exact {ready with}
    · have queue : ∀ w ∈ (s.chan ch).waitQueue ++ [s.heap.next], w < s.heap.next+1 :=
        allPush (fun w before => Nat.lt_succ_of_lt (old w before)) (Nat.lt_succ_self _)
      have created := heapCreate twin.heap low home made kInit onStack
      have written := heapHand twin.pool created (w := s.heap.next) (Nat.lt_succ_self _) (by rw [createSelf]; exact made) v
      have waiting := waitTwin (c := {s.chan ch with waitQueue := (s.chan ch).waitQueue ++ [s.heap.next]}) twin run made ch
        queue written rfl
      rw [next]
      exact suspendTwin waiting run armed (by simp) _ freed

theorem runningTwin (twin : Twin l s t) (run : s.running = some co) (armed : l.armed s.timers.next = l.task co)
    (made : l.made s.heap.next = l.task co) {e : Event}
    (reads : ∀ ch onStack freed, e = .read ch onStack freed → ∀ v w,
      (readSection (s.chan ch) s.heap kInit co onStack).2.2 = .woke v w → l.made w = l.task (s.heap.ctx w).co)
    (writes : ∀ ch onStack x freed, e = .write ch onStack x freed → ∀ w,
      (writeSection (s.chan ch) s.heap kInit co onStack x).2.2 = .handOff w → l.made w = l.task (s.heap.ctx w).co) :
    Option.Rel (Twin l) (runningStep s co e) (runningStep t (l.task co) e) := by
  have low := runnerLow twin.slots run
  cases e with
  | sleep ms freed =>
    change Option.Rel (Twin l) (some (s.armed co .sleep (s.clock + ms) freed))
      (some (t.armed (l.task co) .sleep (t.clock + ms) freed))
    rw [twin.clock]
    exact .some (armedTwin twin run armed (by simp) _ freed)
  | ioWait ms freed => exact .some (suspendTwin twin run armed (by simp) ms freed)
  | read ch onStack freed => exact .some (readTwin twin run armed made ch freed onStack (reads ch onStack freed rfl))
  | write ch onStack v freed =>
    simp only [runningStep,twin.chan]
    split
    · have wrote := writeTwin twin run armed made ch freed onStack v (writes ch onStack v freed rfl)
      rw [twin.chan] at wrote
      exact .some wrote
    · exact .none
  | lock m =>
    simp only [runningStep,Mutex.lockSection,twin.mutex]
    cases (s.mutex m).lock with
    | false => exact .some (mutexTwin twin m true _ (twin.waiters m))
    | true =>
      have all : ∀ d ∈ (s.mutex m).waitQueue ++ [co], d < s.pool.id := allPush (twin.waiters m) low
      have queued := mutexTwin twin m true _ all
      rw [List.map_append] at queued
      exact .some (yieldedTwin queued run (.mutex m) (by simp))
  | unLock m =>
    have all := twin.waiters m
    simp only [runningStep,Mutex.unLockSection,twin.mutex]
    cases queue : (s.mutex m).waitQueue with
    | nil => exact .some (mutexTwin twin m false [] (by simp))
    | cons next rest =>
      rw [queue] at all
      have popped := mutexTwin twin m (s.mutex m).lock rest (fun d inside => all d (List.mem_cons_of_mem next inside))
      refine .some {popped with taskMgr := ?_, ready := ?_}
      · simp only [addReadyTasks,twin.taskMgr,List.map_append,List.map_cons,List.map_nil]
      · exact allPush twin.ready (all next List.mem_cons_self)
  | finish =>
    have ended : PoolTwin l s.heap.next (s.pool.setStatus co .idle) (t.pool.setStatus (l.task co) .idle) :=
      poolSetStatus twin.pool low (by simp)
    have slots := twin.slots
    rw [run] at slots
    exact .some {twin with
      slots := slotsFinish slots
      pool := {ended with}
      timers := timerPool twin.timers rfl (setStatusCtx s.pool co · .idle) (setStatusCtx t.pool (l.task co) · .idle)
      running := rfl}
  | _ => exact .none

end

section
variable {l : Ledger} {p q : Pool} {next : Nat}

/- The slot that Pop gives is the one past the last, or the last idle one. -/
theorem popPlace (p : Pool) : (∀ d, d < p.pop.2.id → d ≠ p.pop.1 → d < p.id) ∧
    (p.pop.1 = p.id ∨ p.idle.getLast? = some p.pop.1) ∧
    ∀ d, (p.co d).state = kInit → (p.pop.2.co d).state = kInit := by
  unfold Pool.pop
  cases last : p.idle.getLast? with
  | none =>
    refine ⟨?_,Or.inl rfl,fun _ init => init⟩
    intro d small differ
    simp only at small differ
    omega
  | some x =>
    refine ⟨fun _ small _ => small,Or.inr rfl,?_⟩
    intro d init
    by_cases same : d = x
    · subst d
      simp [Pool.set]
    · simpa [Pool.set,Function.update_of_ne same] using init

theorem poolStarted (pool : PoolTwin l next p q) {running : Option Nat} (slots : Slots p running) (idle : q.idle = []) :
    PoolTwin (l.started p.pop.1) next (p.pop.2.setStatus p.pop.1 .running) (q.pop.2.setStatus q.pop.1 .running) := by
  obtain ⟨spare,status,ctx,low,grows,-,-⟩ := popSpare slots
  obtain ⟨old,place,init⟩ := popPlace p
  have fresh : q.pop = (l.count,{q with id := l.count+1}) := by simp [Pool.pop,idle,pool.id]
  have blank := pool.blank l.count (Nat.le_refl _)
  have other : ∀ d, d ≠ p.pop.1 → ((p.pop.2.setStatus p.pop.1 .running).co d) = p.pop.2.co d :=
    fun d differ => setStatusOther _ _ differ
  have kept : ∀ d, d ≠ l.count → ((Pool.setStatus {q with id := l.count+1} l.count .running).co d) = q.co d :=
    fun d differ => setStatusOther _ _ differ
  have task : ∀ d, d ≠ p.pop.1 → (l.started p.pop.1).task d = l.task d := fun d differ => Function.update_of_ne differ _ _
  have slot : ∀ k, k < l.count → (l.started p.pop.1).slot k = l.slot k := fun k small => Function.update_of_ne (by omega) _ _
  have busy : ∀ d, d < p.id → l.task d ≠ l.count := fun d less => Nat.ne_of_lt (pool.home d less).1
  have task' : (l.started p.pop.1).task p.pop.1 = l.count := Function.update_self _ _ _
  have slot' : (l.started p.pop.1).slot l.count = p.pop.1 := Function.update_self _ _ _
  rw [fresh]
  refine ⟨rfl,?_,?_,?_,?_,?_,?_,⟨?_,?_⟩,?_,?_⟩
  · intro d small
    by_cases same : d = p.pop.1
    · subst d
      rw [task',slot']
      exact ⟨Nat.lt_succ_self _,rfl⟩
    · obtain ⟨less,back⟩ := pool.home d (old d small same)
      rw [task d same,slot _ less]
      exact ⟨Nat.lt_succ_of_lt less,back⟩
  · intro k small
    by_cases same : k = l.count
    · subst k
      rw [slot']
      exact low
    · have less : k < l.count := by simp only [Ledger.started] at small; omega
      rw [slot k less]
      exact Nat.lt_of_lt_of_le (pool.lodged k less) grows
  · intro k small left
    by_cases same : k = l.count
    · subst k
      rw [slot',task'] at left
      exact absurd rfl left
    · have less : k < l.count := by simp only [Ledger.started] at small; omega
      rw [slot k less] at left
      rw [kept k same]
      by_cases here : l.task (l.slot k) = k
      · -- Its slot is the one that is given out now: it had finished.
        have taken : l.slot k = p.pop.1 := by
          by_contra differ
          rw [task _ differ] at left
          exact left here
        rw [← here,pool.status _ (pool.lodged k less),taken]
        exact spare
      · exact pool.retired k less here
  · intro k large
    have more : l.count+1 ≤ k := large
    rw [kept k (by omega)]
    exact pool.blank k (by omega)
  · intro d small
    by_cases same : d = p.pop.1
    · subst d
      rw [task',setStatusSelf,setStatusSelf]
    · have less := old d small same
      rw [task d same,other d same,kept _ (busy d less),status]
      exact pool.status d less
  · intro d small
    by_cases same : d = p.pop.1
    · subst d
      rw [task',setStatusCtx,setStatusCtx,ctx]
      cases stored : (p.co p.pop.1).waitCtx with
      | none => simp [blank]
      | some w =>
        have made := (pool.made _ w stored).2
        have differ : l.made w ≠ l.count := by omega
        simp [blank,Option.filter,Ledger.started,differ]
    · have less := old d small same
      rw [task d same,other d same,ctx,kept _ (busy d less)]
      exact pool.waitCtx d less
  · intro d
    by_cases same : d = p.pop.1
    · subst d
      simpa [Pool.setStatus,Pool.set] using init _ (pool.init.1 _)
    · rw [other d same]
      exact init d (pool.init.1 d)
  · intro k
    by_cases same : k = l.count
    · subst k
      simpa [Pool.setStatus,Pool.set] using pool.init.2 _
    · rw [kept k same]
      exact pool.init.2 k
  · intro d w stored
    rw [setStatusCtx,ctx] at stored
    obtain ⟨small,less⟩ := pool.made d w stored
    exact ⟨small,Nat.lt_succ_of_lt less⟩
  · intro d w timer asleep
    by_cases same : d = p.pop.1
    · subst d
      rw [setStatusSelf] at asleep
      contradiction
    · rw [other d same,status] at asleep
      rw [task d same]
      exact pool.waits d w timer asleep

variable {s t : State}

theorem mapStarted {l : Ledger} {r : Nat} {names : List Nat} (out : r ∉ names) :
    names.map (l.started r).task = names.map l.task := by
  refine List.map_congr_left fun d inside => Function.update_of_ne ?_ _ _
  rintro rfl
  exact out inside

/- A slot that no list names can be given to a new task, which gets the next one in the fresh run. -/
theorem startedTwin (twin : Twin l s t) (idle : t.pool.idle = []) {f : Nat} {fs rs : List Nat} (phase : s.phase = .tasks (f::fs) rs)
    (unnamed : ∀ r, s.pool.idle.getLast? = some r → r ∉ namesOf s.phase ∧ r ∉ s.taskMgr.readyTasks ∧
      ∀ m, r ∉ (s.mutex m).waitQueue) :
    Twin (l.started s.pool.pop.1)
      {s with
        phase := .tasks fs rs
        running := some s.pool.pop.1
        pool := s.pool.pop.2.setStatus s.pool.pop.1 .running
        heap := s.heap.put (.own s.pool.pop.1) []}
      {t with
        phase := .tasks fs (rs.map l.task)
        running := some t.pool.pop.1
        pool := t.pool.pop.2.setStatus t.pool.pop.1 .running
        heap := t.heap.put (.own t.pool.pop.1) []} := by
  obtain ⟨-,-,ctx,low,grows,-,-⟩ := popSpare twin.slots
  obtain ⟨old,place,-⟩ := popPlace s.pool
  have fresh : t.pool.pop = (l.count,{t.pool with id := l.count+1}) := by simp [Pool.pop,idle,twin.pool.id]
  have names := twin.names
  have out : s.pool.pop.1 ∉ rs ∧ s.pool.pop.1 ∉ s.taskMgr.readyTasks ∧ ∀ m, s.pool.pop.1 ∉ (s.mutex m).waitQueue := by
    rw [phase] at names unnamed
    rcases place with first | last
    · rw [first]
      exact ⟨fun inside => absurd (names _ inside) (Nat.lt_irrefl _),
        fun inside => absurd (twin.ready _ inside) (Nat.lt_irrefl _),
        fun m inside => absurd (twin.waiters m _ inside) (Nat.lt_irrefl _)⟩
    · exact unnamed _ last
  have above : ∀ {d}, d < s.pool.id → d < s.pool.pop.2.id := fun less => Nat.lt_of_lt_of_le less grows
  have slot : ∀ {k}, k < l.count → (l.started s.pool.pop.1).slot k = l.slot k :=
    fun small => Function.update_of_ne (by omega) _ _
  have pool := poolStarted twin.pool twin.slots idle
  rw [phase] at names
  refine {twin with
    slots := slotsPop twin.slots, pool := pool, heap := ?_, timers := ⟨twin.timers.same,?_,?_⟩
    phase := ?_, names := fun d inside => above (names d inside), running := ?_, taskMgr := ?_
    ready := fun d inside => above (twin.ready d inside), mutex := ?_
    waiters := fun m d inside => above (twin.waiters m d inside)}
  · rw [fresh]
    refine ⟨twin.heap.next,twin.heap.ctx,?_,twin.heap.buf,?_,?_⟩
    · intro w small
      obtain ⟨made,home,less⟩ := twin.heap.made w small
      exact ⟨Nat.lt_succ_of_lt made,(slot made).trans home,above less⟩
    · intro v
      simpa [Heap.put] using twin.heap.priv v
    · intro d small
      by_cases same : d = s.pool.pop.1
      · subst d
        simp [Heap.put,Ledger.started]
      · have less := old d small same
        have task := (twin.pool.home d less).1
        have differ : l.task d ≠ l.count := by omega
        simpa [Heap.put,Ledger.started,same,differ] using twin.heap.own d less
  · intro e inside
    obtain ⟨small,armed,home,less⟩ := twin.timers.armed e inside
    exact ⟨small,Nat.lt_succ_of_lt armed,(slot armed).trans home,above less⟩
  · intro e inside none
    obtain ⟨-,armed,-,-⟩ := twin.timers.armed e inside
    have differ : l.armed e.id ≠ l.count := by omega
    rw [setStatusCtx,ctx] at none
    rw [fresh,setStatusCtx]
    exact twin.timers.dropped e inside none
  · simp only [renamePhase,mapStarted out.1]
  · rw [fresh]
    simp [Ledger.started]
  · rw [mapStarted out.2.1]
    exact twin.taskMgr
  · intro m
    rw [mapStarted (out.2.2 m)]
    exact twin.mutex m

end

/- The ledger of the fresh run, where a slot has the number of its task. -/
structure Counted (l m : Ledger) : Prop where
  count : m.count = l.count
  self : ∀ k, k < l.count → m.task k = k ∧ m.slot k = k
  armed : m.armed = l.armed
  made : m.made = l.made

structure Related (s t : Traced) : Prop where
  ledger : Counted s.ledger t.ledger
  trace : t.trace = s.trace
  sched : Twin s.ledger s.sched t.sched

section
variable {l m : Ledger} {s t : State} {co : Nat}

theorem countedMarked (counted : Counted l m) (twin : Twin l s t) (low : co < s.pool.id) :
    Counted (l.marked s co) (m.marked t (l.task co)) := by
  have self := (counted.self _ (twin.pool.home co low).1).1
  have next := timerNext twin.timers
  refine ⟨counted.count,counted.self,?_,?_⟩
  · simp only [Ledger.marked,self,next,counted.armed]
  · simp only [Ledger.marked,self,twin.heap.next,counted.made]

theorem countedStarted (counted : Counted l m) (r : Nat) : Counted (l.started r) (m.started l.count) := by
  refine ⟨congrArg Nat.succ counted.count,?_,counted.armed,counted.made⟩
  intro k small
  by_cases same : k = l.count
  · subst k
    simp [Ledger.started,counted.count]
  · have less : k < l.count := by simp only [Ledger.started] at small; omega
    simpa [Ledger.started,counted.count,same] using counted.self k less

theorem readOutcome (twin : Twin l s t) (ch : Nat) (onStack : Bool) :
    (readSection (t.chan ch) t.heap kInit (l.task co) onStack).2.2 = (readSection (s.chan ch) s.heap kInit co onStack).2.2 := by
  rw [twin.chan]
  unfold readSection
  rw [claimTwin twin.heap (twin.queue ch),twin.heap.next]
  split
  · rfl
  · split
    · rfl
    · cases found : claim s.heap (s.chan ch).waitQueue with
      | mk front rest => cases front <;> rfl

theorem writeOutcome (twin : Twin l s t) (ch : Nat) (onStack : Bool) (v : Value) :
    (writeSection (t.chan ch) t.heap kInit (l.task co) onStack v).2.2 =
      (writeSection (s.chan ch) s.heap kInit co onStack v).2.2 := by
  rw [twin.chan]
  unfold writeSection
  rw [claimTwin twin.heap (twin.queue ch),twin.heap.next]
  split
  · rfl
  · split
    · cases found : claim s.heap (s.chan ch).waitQueue with
      | mk front rest => cases front <;> rfl
    · rfl

theorem observeRunningTwin (counted : Counted l m) (twin : Twin l s t) (low : co < s.pool.id) (e : Event) :
    observeRunning m t (l.task co) e = observeRunning l s co e := by
  have self := (counted.self _ (twin.pool.home co low).1).1
  cases e with
  | read ch onStack freed => simp only [observeRunning,readOutcome twin,self,twin.timeout]
  | write ch onStack v freed => simp only [observeRunning,writeOutcome twin,self,twin.timeout]
  | _ => rfl

theorem resumedSame (counted : Counted l m) (twin : Twin l s t) (low : co < s.pool.id) (via : Via) :
    m.resumed t via (l.task co) = l.resumed s via co := by
  have self := (counted.self _ (twin.pool.home co low).1).1
  simp only [Ledger.resumed,twin.pool.status co low,self,twin.timeout,twin.clock]
  cases asleep : (s.pool.co co).status with
  | suspended wait timer =>
    cases wait with
    | read w =>
      obtain ⟨small,made⟩ := twin.pool.waits co w timer asleep
      obtain ⟨-,home,-⟩ := twin.heap.made w small
      rw [made,(twin.pool.home co low).2] at home
      have value := heapValue twin.heap small (by rw [made,home])
      simp only [valueOf,value]
    | _ => rfl
  | _ => rfl

theorem observeLoopTwin (counted : Counted l m) (twin : Twin l s t) {e : Event} (named : ∀ d, e ≠ .ioEvent d) :
    observeLoop m t e = observeLoop l s e := by
  have other := twin.phase
  have all := twin.names
  cases e with
  | ioEvent d => exact absurd rfl (named d)
  | newTask =>
    simp only [observeLoop,other,counted.count]
    cases phase : s.phase with
    | tasks new ready => cases new <;> rfl
    | _ => rfl
  | readyTask =>
    simp only [observeLoop,other]
    cases phase : s.phase with
    | tasks new ready =>
      rw [phase] at all
      cases new with
      | cons f fs => rfl
      | nil =>
        cases ready with
        | nil => rfl
        | cons d ds => exact resumedSame counted twin (all d (by simp [namesOf])) .ready
    | _ => rfl
  | timeoutTask =>
    simp only [observeLoop,other]
    cases phase : s.phase with
    | timeouts tasks =>
      rw [phase] at all
      cases tasks with
      | nil => rfl
      | cons x rest => exact resumedSame counted twin (all x.1 (by simp [namesOf])) .timeout
    | _ => rfl
  | _ => rfl

theorem relMap {α β γ δ : Type} {rel : α → β → Prop} {more : γ → δ → Prop} {f : α → γ} {g : β → δ} {a : Option α}
    {b : Option β} (related : Option.Rel rel a b) (keep : ∀ x y, rel x y → more (f x) (g y)) :
    Option.Rel more (a.map f) (b.map g) := by
  cases related with
  | none => exact .none
  | some here => exact .some (keep _ _ here)

theorem forgetTwin (twin : Twin l s t) : Twin l s (forget t) :=
  {twin with pool := {twin.pool with}, timers := timerPool twin.timers rfl (fun _ => rfl) (fun _ => rfl)}

theorem stepRunning {trace : List Observation} (counted : Counted l m) (twin : Twin l s t) (run : s.running = some co)
    {e : Event} (own : Own ⟨s,l,trace⟩ e) (named : ∀ d, e ≠ .ioEvent d) :
    Option.Rel Related (stepFrom s l trace e) (stepFrom t m trace e) := by
  have low := runnerLow twin.slots run
  have run' : t.running = some (l.task co) := by rw [twin.running,run]; rfl
  have marked := markedTwin twin co
  have past : ∀ w, w < s.heap.next → (l.marked s co).made w = l.made w := fun w small => Function.update_of_ne (by omega) _ _
  have same : ∀ u v : State, renew s u e = u ∧ renew t v e = v := by
    intro u v
    simp only [renew,run,run']
    exact ⟨trivial,trivial⟩
  have keep : ∀ u v, Twin (l.marked s co) u v → Related ⟨renew s u e,l.after s e,trace ++ observe l s e⟩
      ⟨renew t v e,m.after t e,trace ++ observe m t e⟩ := by
    intro u v later
    rw [(same u v).1,(same u v).2]
    simp only [Ledger.after,observe,run,run']
    exact ⟨countedMarked counted twin low,by rw [observeRunningTwin counted twin low],later⟩
  have reads : ∀ ch onStack freed, e = .read ch onStack freed → ∀ v w,
      (readSection (s.chan ch) s.heap kInit co onStack).2.2 = .woke v w →
      (l.marked s co).made w = (l.marked s co).task (s.heap.ctx w).co := by
    rintro ch onStack freed rfl v w woke
    rw [past w (twin.queue ch w (wokeQueued woke))]
    exact own co v w run woke
  have writes : ∀ ch onStack x freed, e = .write ch onStack x freed → ∀ w,
      (writeSection (s.chan ch) s.heap kInit co onStack x).2.2 = .handOff w →
      (l.marked s co).made w = (l.marked s co).task (s.heap.ctx w).co := by
    rintro ch onStack x freed rfl w handed
    rw [past w (twin.queue ch w (handedQueued handed))]
    exact own co w run handed
  have calls : Option.Rel (Twin (l.marked s co)) (runningStep s co e) (runningStep t (l.task co) e) :=
    runningTwin marked run (Function.update_self _ _ _) (Function.update_self _ _ _) reads writes
  have steps : Option.Rel (Twin (l.marked s co)) (Scheduler.step s e) (Scheduler.step t e) := by
    cases e with
    | go func =>
      simp only [Scheduler.step,addNewTasks,twin.taskMgr]
      exact .some {marked with taskMgr := rfl}
    | tick n =>
      simp only [Scheduler.step,twin.clock]
      exact .some {marked with clock := rfl}
    | ioEvent d => exact absurd rfl (named d)
    | _ => simpa only [Scheduler.step,run,run'] using calls
  exact relMap steps keep

theorem stepIo (trace : List Observation) (counted : Counted l m) (twin : Twin l s t) (free : s.running = none) {r : Nat}
    (low : r < s.pool.id) : Option.Rel Related (stepFrom s l trace (.ioEvent r)) (stepFrom t m trace (.ioEvent (l.task r))) := by
  have free' : t.running = none := by rw [twin.running,free]; rfl
  have whole : ({t with phase := renamePhase l.task s.phase} : State) = t := by rw [← twin.phase]
  have woken := resumeTwin twin low .io twin.names
  rw [whole] at woken
  have steps : Option.Rel (Twin l) (Scheduler.step s (.ioEvent r)) (Scheduler.step t (.ioEvent (l.task r))) := by
    simp only [Scheduler.step,free,free',loopStep,twin.pool.status r low,twin.phase]
    cases phase : s.phase with
    | io =>
      cases asleep : (s.pool.co r).status with
      | suspended wait timer =>
        cases wait with
        | io => exact woken
        | _ => exact .none
      | _ => exact .none
    | _ => exact .none
  refine relMap steps ?_
  intro u v later
  simp only [renew,free,free',Ledger.after,observe,observeLoop,reduceCtorEq,if_false]
  exact ⟨counted,by rw [resumedSame counted twin low],later⟩

theorem stepNew {trace : List Observation} (counted : Counted l m) (twin : Twin l s t) (idle : t.pool.idle = [])
    (free : s.running = none) (own : Own ⟨s,l,trace⟩ .newTask) :
    Option.Rel Related (stepFrom s l trace .newTask) (stepFrom t m trace .newTask) := by
  have free' : t.running = none := by rw [twin.running,free]; rfl
  have next : t.pool.pop.1 = l.count := by simp [Pool.pop,idle,twin.pool.id]
  have other := twin.phase
  unfold stepFrom
  simp only [Scheduler.step,free,free',loopStep,other]
  cases phase : s.phase with
  | tasks new ready =>
    cases new with
    | nil => exact .none
    | cons f fs =>
      refine .some ?_
      simp only [renew,free,free',Ledger.after,observe,observeLoop,other,phase,renamePhase,if_true,counted.count,next]
      have later := startedTwin twin idle phase own
      rw [next] at later
      exact ⟨countedStarted counted _,rfl,later⟩
  | _ => exact .none

theorem stepResting {trace : List Observation} (counted : Counted l m) (twin : Twin l s t) (idle : t.pool.idle = [])
    (free : s.running = none) {e : Event} (own : Own ⟨s,l,trace⟩ e) (named : ∀ d, e ≠ .ioEvent d) :
    Option.Rel Related (stepFrom s l trace e) (stepFrom t m trace e) := by
  have free' : t.running = none := by rw [twin.running,free]; rfl
  by_cases new : e = .newTask
  · subst e
    exact stepNew counted twin idle free own
  have keep : ∀ u v, Twin l u v → Related ⟨renew s u e,l.after s e,trace ++ observe l s e⟩
      ⟨renew t v e,m.after t e,trace ++ observe m t e⟩ := by
    intro u v later
    have same : renew s u e = u ∧ renew t v e = v := by
      simp only [renew,free,free']
      cases e <;> first | exact ⟨rfl,rfl⟩ | contradiction
    rw [same.1,same.2]
    simp only [Ledger.after,observe,free,free',if_neg new]
    exact ⟨counted,by rw [observeLoopTwin counted twin named],later⟩
  have loops : Option.Rel (Twin l) (loopStep s e) (loopStep t e) := by
    refine loopTwin twin named new ?_
    rintro rfl x es w timer due
    exact own x es w timer due
  have steps : Option.Rel (Twin l) (Scheduler.step s e) (Scheduler.step t e) := by
    cases e with
    | go func =>
      simp only [Scheduler.step,addNewTasks,twin.taskMgr]
      exact .some {twin with taskMgr := rfl}
    | tick n =>
      simp only [Scheduler.step,twin.clock]
      exact .some {twin with clock := rfl}
    | _ => simpa only [Scheduler.step,free,free'] using loops
  exact relMap steps keep

theorem idleDeaf {k : Nat} (idle : (t.pool.co k).status = .idle) (trace : List Observation) :
    stepFrom t m trace (.ioEvent k) = none := by
  cases run : t.running with
  | none =>
    simp only [stepFrom,Scheduler.step,run,loopStep,idle]
    split <;> first | rfl | contradiction
  | some co => simp [stepFrom,Scheduler.step,run,runningStep]

theorem stepTwin {s t : Traced} (related : Related s t) {e : Event} (own : Own s e) :
    Option.Rel Related (step false s e) (step true t e) := by
  obtain ⟨sched,l,trace⟩ := s
  obtain ⟨other,m,trace'⟩ := t
  obtain ⟨counted,same,twin⟩ := related
  cases same
  have counted : Counted l m := counted
  have forgot : Twin l sched (forget other) := forgetTwin twin
  have plain : ∀ e, Own ⟨sched,l,trace⟩ e → (∀ d, e ≠ .ioEvent d) →
      Option.Rel Related (stepFrom sched l trace e) (stepFrom (forget other) m trace e) := by
    intro e own named
    cases run : sched.running with
    | none => exact stepResting counted forgot rfl run own named
    | some co => exact stepRunning counted forgot run own named
  cases e with
  | ioEvent k =>
    simp only [step,Ledger.event,counted.count,if_true,bind,Bool.false_eq_true,if_false]
    by_cases small : k < l.count
    · obtain ⟨task,slot⟩ := counted.self k small
      have low := twin.pool.lodged k small
      by_cases here : l.task (l.slot k) = k
      · rw [if_pos ⟨small,here⟩,if_pos ⟨small,by rw [slot,task]⟩,slot]
        cases run : sched.running with
        | none =>
          have woken := stepIo trace counted forgot run low
          rw [here] at woken
          exact woken
        | some co =>
          have run' : (forget other).running = some (l.task co) := by rw [forgot.running,run]; rfl
          simp only [Option.bind,stepFrom,Scheduler.step,run,run',runningStep]
          exact .none
      · rw [if_neg (fun both => here both.2),if_pos ⟨small,by rw [slot,task]⟩,slot]
        have deaf := idleDeaf (m := m) (forgot.pool.retired k small here) trace
        simp only [Option.bind,deaf]
        exact .none
    · rw [if_neg (fun both => small both.1),if_neg (fun both => small both.1)]
      exact .none
  | _ => exact plain _ own (by simp)

theorem startRelated (c : Config) : Related (start c) (start c) := by
  refine ⟨⟨rfl,?_,rfl,rfl⟩,rfl,?_⟩
  · intro k small
    have zero : k = 0 := by simp only [start,Ledger.start] at small; omega
    subst k
    exact ⟨rfl,rfl⟩
  · refine ⟨initialSlots c,?_,?_,?_,rfl,by simp [start,initial,namesOf],rfl,rfl,rfl,rfl,?_,rfl,?_,fun _ => rfl,?_⟩
    · refine ⟨rfl,?_,?_,?_,fun _ _ => rfl,fun _ _ => rfl,fun _ _ => rfl,⟨fun _ => rfl,fun _ => rfl⟩,?_,?_⟩
      all_goals simp [start,initial,Ledger.start]
    · exact ⟨rfl,by simp [start,initial,Heap.initial],by simp [start,initial,Heap.initial],
        by simp [start,initial,Heap.initial],fun _ => rfl,fun _ _ => rfl⟩
    · exact ⟨rfl,by simp [start,initial,TimerManager.create],by simp [start,initial,TimerManager.create]⟩
    all_goals simp [start,initial,TaskManager.empty,ChannelImpl.create,Mutex.create]

/-- In every run that uses what earlier tasks have left behind for nobody, no task can tell its
slot from a fresh one. -/
theorem reuseUnobserved (c : Config) (es : List Event) (guarded : Guarded (step false) Own (start c) es) :
    Unobserved c es := by
  have keep : ∀ s t e, Related s t → Own s e → Option.Rel Related (step false s e) (step true t e) :=
    fun s t e related own => stepTwin related own
  have both := runLockstep keep guarded (startRelated c)
  unfold Unobserved
  generalize run (step false) (start c) es = a at both
  generalize run (step true) (start c) es = b at both
  cases both with
  | none => rfl
  | some related => exact congrArg some related.trace.symm

end

/-- A task that ends at once, and one on the same slot whose Read times out. -/
def cleanReuse : List Event :=
  [.go 0,.wait,.getAllTasks,.newTask,.finish,.go 1,.tasksDone,.collectDone 0,.timeoutsDone,.wait,.getAllTasks,.newTask,
    .read 0 true 0,.tasksDone,.tick 10,.collect,.collectDone 0,.timeoutTask]

theorem cleanReuseUnobserved : Unobserved tenMs cleanReuse := by
  refine reuseUnobserved tenMs cleanReuse ?_
  refine guardedCons trivial rfl (guardedCons trivial rfl (guardedCons trivial rfl (guardedCons ?_ rfl ?_)))
  · intro r last
    cases last
  refine guardedCons trivial rfl (guardedCons trivial rfl (guardedCons trivial rfl (guardedCons trivial rfl ?_)))
  refine guardedCons trivial rfl (guardedCons trivial rfl (guardedCons trivial rfl (guardedCons ?_ rfl ?_)))
  · intro r last
    cases last
    exact ⟨by decide,by decide,fun m => List.not_mem_nil⟩
  refine guardedCons ?_ rfl (guardedCons trivial rfl (guardedCons trivial rfl (guardedCons ?_ rfl ?_)))
  · intro co v w run woke
    cases run
    cases woke
  · intro e es w timer due ctx
    cases timer
    cases ctx
    exact ⟨rfl,rfl⟩
  exact guardedCons trivial rfl (guardedCons trivial rfl trivial)

/-- A task that has waited on a channel leaves its wait_ctx_ to the next one on its slot, whose
Sleep ends there and never would on a fresh one. -/
def staleReuse : List Event :=
  [.go 0,.go 1,.wait,.getAllTasks,.newTask,.read 0 true 0,.newTask,.write 0 true [7] 0,.finish,.tasksDone,.collectDone 0,
    .timeoutsDone,.wait,.getAllTasks,.readyTask,.finish,.go 2,.tasksDone,.collectDone 0,.timeoutsDone,.wait,.getAllTasks,
    .newTask,.sleep 5 0,.tasksDone,.tick 20,.collect,.collect,.collectDone 0,.timeoutTask]

theorem staleReuseObserved : ¬ ∀ (c : Config) (es : List Event), Unobserved c es := by
  intro claim
  have ends : (run (step false) (start tenMs) staleReuse).isSome = true := by decide +kernel
  have stuck : (run (step true) (start tenMs) staleReuse).isSome = false := by decide +kernel
  have same := congrArg Option.isSome (claim tenMs staleReuse)
  rw [Option.isSome_map,Option.isSome_map,ends,stuck] at same
  contradiction

end TitCo.SlotReuse
