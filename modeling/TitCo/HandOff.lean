import TitCo.Scheduler

/-! Who ends a channel wait: the peer that wins the CAS on its wait context, or
CollectTimeoutTasks. The fallback branch of the latter collects a coroutine whose wait
context somebody else has claimed already. -/
namespace TitCo.HandOff
open Channel MachineInt Queue Scheduler Tasks Timers Transition

def ctxOf : Status → Option Nat
  | .suspended (.read w) _ => some w
  | .suspended (.write w) _ => some w
  | _ => none

def mutexOf : Status → Option Nat
  | .suspended (.mutex m) _ => some m
  | _ => none

def plain : Status → Bool
  | .suspended .sleep _ => true
  | .suspended .io _ => true
  | _ => false

def timerOf : Status → Option Nat
  | .suspended _ timer => timer
  | _ => none

def asleep : Status → Bool
  | .suspended _ _ => true
  | _ => false

def readyOf : Phase → List Nat
  | .tasks _ ready => ready
  | _ => []

def collectedOf : Phase → List Nat
  | .collect tasks _ => tasks.map Prod.fst
  | .timeouts tasks => tasks.map Prod.fst
  | _ => []

def readyList (s : State) : List Nat := readyOf s.phase ++ s.taskMgr.readyTasks

/-- Each channel wait ends at most once and by its winner: through the ready list with the
value that the peer passed, or through the timeout list with nothing passed. A claimed
waiter that has not come back sleeps in that wait and is on its list. -/
structure Exclusive (s : State) : Prop where
  once : (s.log.map Resumption.ctx).Nodup
  winner : ∀ r ∈ s.log,
    (r.via = .ready ∧ (s.heap.ctx r.ctx).state = kReady ∧ r.isTimeout = false ∧ s.handed r.ctx = some r.value) ∨
    (r.via = .timeout ∧ (s.heap.ctx r.ctx).state = kTimeout ∧ r.isTimeout = true ∧ s.handed r.ctx = none)
  waiting : ∀ w, w < s.heap.next → (s.heap.ctx w).state = kInit →
    ctxOf (s.pool.co (s.heap.ctx w).co).status = some w ∧ s.handed w = none
  passed : ∀ w, w < s.heap.next → (s.heap.ctx w).state = kReady → (∃ r ∈ s.log, r.ctx = w) ∨
    (ctxOf (s.pool.co (s.heap.ctx w).co).status = some w ∧ (s.heap.ctx w).co ∈ readyList s ∧
      s.handed w = some (s.heap.block (s.heap.ctx w).buf))
  expired : ∀ w, w < s.heap.next → (s.heap.ctx w).state = kTimeout → s.handed w = none ∧
    ((∃ r ∈ s.log, r.ctx = w) ∨
      (ctxOf (s.pool.co (s.heap.ctx w).co).status = some w ∧ (s.heap.ctx w).co ∈ collectedOf s.phase))
  alive : ∀ co, co ∈ readyList s ∨ co ∈ collectedOf s.phase → asleep (s.pool.co co).status = true

/-- A due entry whose coroutine has a wait context that is already claimed belongs to a
coroutine in Sleep or IOEvent::wait, not collected in this round. -/
def Unclaimed (s : State) : Event → Prop
  | .collect => ∀ tasks erases e es w, s.phase = .collect tasks erases → s.timers.timer = e::es →
      e.deadline ≤ s.clock → (s.pool.co e.co).waitCtx = some w → (s.heap.ctx w).state ≠ kInit →
      plain (s.pool.co e.co).status = true ∧ e.co ∉ tasks.map Prod.fst
  | _ => True

structure Contexts (h : Heap) (status : Nat → Status) (waitCtx : Nat → Option Nat) : Prop where
  own : ∀ co w, waitCtx co = some w → w < h.next ∧ (h.ctx w).co = co
  sleeps : ∀ co w, ctxOf (status co) = some w → w < h.next ∧ (h.ctx w).co = co
  init : ∀ w, w < h.next → (h.ctx w).state = kInit → ctxOf (status (h.ctx w).co) = some w
  buf : ∀ w, w < h.next → (h.ctx w).buf = .priv w ∨ (h.ctx w).buf = .own (h.ctx w).co

/- The two lists that Loop resumes from, and the mutex queues that feed one of them. -/
structure Lists (h : Heap) (status : Nat → Status) (ready collected : List Nat) (queue : Nat → List Nat) : Prop where
  readyNodup : ready.Nodup
  ready : ∀ co ∈ ready, (∃ w, ctxOf (status co) = some w ∧ (h.ctx w).state = kReady) ∨
    ∃ m, mutexOf (status co) = some m ∧ co ∉ queue m
  collectedNodup : collected.Nodup
  collected : ∀ co ∈ collected, (∃ w, ctxOf (status co) = some w ∧ (h.ctx w).state = kTimeout) ∨
    plain (status co) = true
  queueNodup : ∀ m, (queue m).Nodup
  queued : ∀ m, ∀ co ∈ queue m, mutexOf (status co) = some m

structure Log (h : Heap) (status : Nat → Status) (handed : Nat → Option Value) (log : List Resumption)
    (ready collected : List Nat) : Prop where
  once : (log.map Resumption.ctx).Nodup
  winner : ∀ r ∈ log, r.ctx < h.next ∧ (∀ co, ctxOf (status co) ≠ some r.ctx) ∧
    ((r.via = .ready ∧ (h.ctx r.ctx).state = kReady ∧ r.isTimeout = false ∧ handed r.ctx = some r.value) ∨
    (r.via = .timeout ∧ (h.ctx r.ctx).state = kTimeout ∧ r.isTimeout = true ∧ handed r.ctx = none))
  none : ∀ w, h.next ≤ w ∨ (h.ctx w).state = kInit ∨ (h.ctx w).state = kTimeout → handed w = none
  passed : ∀ w, w < h.next → (h.ctx w).state = kReady → (∃ r ∈ log, r.ctx = w) ∨
    (ctxOf (status (h.ctx w).co) = some w ∧ (h.ctx w).co ∈ ready ∧ handed w = some (h.block (h.ctx w).buf))
  expired : ∀ w, w < h.next → (h.ctx w).state = kTimeout → (∃ r ∈ log, r.ctx = w) ∨
    (ctxOf (status (h.ctx w).co) = some w ∧ (h.ctx w).co ∈ collected)

def Flag (phase : Phase) (timeout : Bool) : Prop :=
  match phase with
  | .timeouts tasks => tasks ≠ [] → timeout = true
  | _ => timeout = false

structure Inv (s : State) : Prop where
  slots : Slots s.pool s.running
  contexts : Contexts s.heap (fun co => (s.pool.co co).status) (fun co => (s.pool.co co).waitCtx)
  lists : Lists s.heap (fun co => (s.pool.co co).status) (readyList s) (collectedOf s.phase)
    (fun m => (s.mutex m).waitQueue)
  log : Log s.heap (fun co => (s.pool.co co).status) s.handed s.log (readyList s) (collectedOf s.phase)
  flag : Flag s.phase s.timeout
  queues : ∀ ch, ∀ w ∈ (s.chan ch).waitQueue, w < s.heap.next

section Parts
variable {h k : Heap} {status after : Nat → Status} {waitCtx waits : Nat → Option Nat} {co : Nat}
  {ready collected ready' collected' : List Nat} {queue queue' : Nat → List Nat}
  {handed handed' : Nat → Option Value} {log : List Resumption}

theorem readings (st : Status) :
    (ctxOf st ≠ none → mutexOf st = none ∧ plain st = false) ∧ (mutexOf st ≠ none → plain st = false) := by
  cases st with
  | suspended wait timer => cases wait <;> simp [ctxOf,mutexOf,plain]
  | _ => simp [ctxOf,mutexOf,plain]

theorem awakeOut (lists : Lists h status ready collected queue) (ctx : ctxOf (status co) = none)
    (mutex : mutexOf (status co) = none) (timed : plain (status co) = false) :
    co ∉ ready ∧ co ∉ collected ∧ ∀ m, co ∉ queue m := by
  refine ⟨?_,?_,?_⟩
  · intro inside
    rcases lists.ready co inside with ⟨w,hw,_⟩ | ⟨m,hm,_⟩
    · simp [ctx] at hw
    · simp [mutex] at hm
  · intro inside
    rcases lists.collected co inside with ⟨w,hw,_⟩ | again
    · simp [ctx] at hw
    · simp [timed] at again
  · intro m inside
    simpa [mutex] using lists.queued m co inside

theorem contextsOther (contexts : Contexts h status waitCtx) (same : ∀ d, d ≠ co → after d = status d)
    (awake : ctxOf (after co) = none) (claimed : ∀ w, ctxOf (status co) = some w → (h.ctx w).state ≠ kInit) :
    Contexts h after waitCtx := by
  refine ⟨contexts.own,?_,?_,contexts.buf⟩
  · intro d w hw
    have differ : d ≠ co := by
      rintro rfl
      simp [awake] at hw
    rw [same d differ] at hw
    exact contexts.sleeps d w hw
  · intro w less init
    have inside := contexts.init w less init
    have differ : (h.ctx w).co ≠ co := by
      intro here
      rw [here] at inside
      exact claimed w inside init
    rw [same _ differ]
    exact inside

theorem listsOther (lists : Lists h status ready collected queue) (same : ∀ d, d ≠ co → after d = status d)
    (readyPart : ready'.Sublist ready) (collectedPart : collected'.Sublist collected)
    (outReady : co ∉ ready') (outCollected : co ∉ collected') (outQueue : ∀ m, co ∉ queue m) :
    Lists h after ready' collected' queue := by
  refine ⟨lists.readyNodup.sublist readyPart,?_,lists.collectedNodup.sublist collectedPart,?_,lists.queueNodup,?_⟩
  · intro d hd
    have differ : d ≠ co := by
      rintro rfl
      exact outReady hd
    rw [same d differ]
    exact lists.ready d (readyPart.subset hd)
  · intro d hd
    have differ : d ≠ co := by
      rintro rfl
      exact outCollected hd
    rw [same d differ]
    exact lists.collected d (collectedPart.subset hd)
  · intro m d hd
    have differ : d ≠ co := by
      rintro rfl
      exact outQueue m hd
    rw [same d differ]
    exact lists.queued m d hd

theorem logOther (l : Log h status handed log ready collected) (same : ∀ d, d ≠ co → after d = status d)
    (before : ctxOf (status co) = none) (awake : ctxOf (after co) = none)
    (readyKept : ∀ d, d ≠ co → d ∈ ready → d ∈ ready')
    (collectedKept : ∀ d, d ≠ co → d ∈ collected → d ∈ collected') :
    Log h after handed log ready' collected' := by
  have differ : ∀ d w, ctxOf (status d) = some w → d ≠ co := by
    rintro d w hw rfl
    simp [before] at hw
  refine ⟨l.once,?_,l.none,?_,?_⟩
  · intro r hr
    obtain ⟨less,gone,won⟩ := l.winner r hr
    refine ⟨less,?_,won⟩
    intro d hd
    by_cases here : d = co
    · subst d
      simp [awake] at hd
    · rw [same d here] at hd
      exact gone d hd
  · intro w less state
    rcases l.passed w less state with done | ⟨sleeps,listed,value⟩
    · exact Or.inl done
    · have other := differ _ w sleeps
      exact Or.inr ⟨by rw [same _ other]; exact sleeps,readyKept _ other listed,value⟩
  · intro w less state
    rcases l.expired w less state with done | ⟨sleeps,listed⟩
    · exact Or.inl done
    · have other := differ _ w sleeps
      exact Or.inr ⟨by rw [same _ other]; exact sleeps,collectedKept _ other listed⟩

theorem logWake (l : Log h status handed log ready collected) (contexts : Contexts h status waitCtx)
    (same : ∀ d, d ≠ co → after d = status d) {r : Resumption} (before : ctxOf (status co) = some r.ctx)
    (awake : ctxOf (after co) = none)
    (won : (r.via = .ready ∧ (h.ctx r.ctx).state = kReady ∧ r.isTimeout = false ∧ handed r.ctx = some r.value) ∨
      (r.via = .timeout ∧ (h.ctx r.ctx).state = kTimeout ∧ r.isTimeout = true ∧ handed r.ctx = none))
    (readyKept : ∀ d, d ≠ co → d ∈ ready → d ∈ ready')
    (collectedKept : ∀ d, d ≠ co → d ∈ collected → d ∈ collected') :
    Log h after handed (log ++ [r]) ready' collected' := by
  obtain ⟨small,owner⟩ := contexts.sleeps co r.ctx before
  have fresh : ∀ x ∈ log, x.ctx ≠ r.ctx := by
    intro x hx again
    exact (l.winner x hx).2.1 co (by rw [again]; exact before)
  have back : ∀ d w, ctxOf (after d) = some w → d ≠ co ∧ ctxOf (status d) = some w := by
    intro d w hw
    have differ : d ≠ co := by
      rintro rfl
      simp [awake] at hw
    rw [same d differ] at hw
    exact ⟨differ,hw⟩
  have others : ∀ w, w ≠ r.ctx → ctxOf (status (h.ctx w).co) = some w → (h.ctx w).co ≠ co := by
    intro w apart sleeps here
    rw [here,before] at sleeps
    exact apart (Option.some.inj sleeps).symm
  refine ⟨?_,?_,l.none,?_,?_⟩
  · rw [List.map_append]
    refine nodupPush l.once ?_
    intro hx
    obtain ⟨y,inside,again⟩ := List.mem_map.1 hx
    exact fresh y inside again
  · refine allPush (fun x old => ?_) ?_
    · obtain ⟨less,gone,winner⟩ := l.winner x old
      exact ⟨less,fun d hd => gone d (back d _ hd).2,winner⟩
    · refine ⟨small,?_,won⟩
      intro d hd
      obtain ⟨differ,sleeps⟩ := back d _ hd
      exact differ ((contexts.sleeps d _ sleeps).2.symm.trans owner)
  · intro w less state
    by_cases mine : w = r.ctx
    · exact Or.inl ⟨r,by simp,mine.symm⟩
    · rcases l.passed w less state with ⟨x,hx,at_⟩ | ⟨sleeps,listed,value⟩
      · exact Or.inl ⟨x,by simp [hx],at_⟩
      · have other := others w mine sleeps
        exact Or.inr ⟨by rw [same _ other]; exact sleeps,readyKept _ other listed,value⟩
  · intro w less state
    by_cases mine : w = r.ctx
    · exact Or.inl ⟨r,by simp,mine.symm⟩
    · rcases l.expired w less state with ⟨x,hx,at_⟩ | ⟨sleeps,listed⟩
      · exact Or.inl ⟨x,by simp [hx],at_⟩
      · have other := others w mine sleeps
        exact Or.inr ⟨by rw [same _ other]; exact sleeps,collectedKept _ other listed⟩

theorem contextsPush (contexts : Contexts h status waitCtx) (same : ∀ d, d ≠ co → after d = status d)
    (before : ctxOf (status co) = none) (mine : ctxOf (after co) = some h.next)
    (kept : ∀ d, d ≠ co → waits d = waitCtx d) (ctx : waits co = some h.next) (next : k.next = h.next+1)
    (old : ∀ w, w < h.next → k.ctx w = h.ctx w) (owner : (k.ctx h.next).co = co)
    (buf : (k.ctx h.next).buf = .priv h.next ∨ (k.ctx h.next).buf = .own co) : Contexts k after waits := by
  refine ⟨?_,?_,?_,?_⟩
  · intro d w hw
    by_cases here : d = co
    · subst d
      cases Option.some.inj (ctx.symm.trans hw)
      exact ⟨by omega,owner⟩
    · rw [kept d here] at hw
      obtain ⟨less,theirs⟩ := contexts.own d w hw
      rw [old w less]
      exact ⟨by omega,theirs⟩
  · intro d w hw
    by_cases here : d = co
    · subst d
      cases Option.some.inj (mine.symm.trans hw)
      exact ⟨by omega,owner⟩
    · rw [same d here] at hw
      obtain ⟨less,theirs⟩ := contexts.sleeps d w hw
      rw [old w less]
      exact ⟨by omega,theirs⟩
  · intro w less init
    by_cases last : w = h.next
    · subst w
      rw [owner]
      exact mine
    · have earlier : w < h.next := by omega
      rw [old w earlier] at init ⊢
      have inside := contexts.init w earlier init
      have differ : (h.ctx w).co ≠ co := by
        intro here
        rw [here,before] at inside
        contradiction
      rw [same _ differ]
      exact inside
  · intro w less
    by_cases last : w = h.next
    · subst w
      rw [owner]
      exact buf
    · have earlier : w < h.next := by omega
      rw [old w earlier]
      exact contexts.buf w earlier

theorem listsHeap (lists : Lists h status ready collected queue)
    (same : ∀ d w, d ∈ ready ∨ d ∈ collected → ctxOf (status d) = some w → (k.ctx w).state = (h.ctx w).state) :
    Lists k status ready collected queue := by
  refine ⟨lists.readyNodup,?_,lists.collectedNodup,?_,lists.queueNodup,lists.queued⟩
  · intro d hd
    rcases lists.ready d hd with ⟨w,hw,state⟩ | mutex
    · exact Or.inl ⟨w,hw,by rw [same d w (Or.inl hd) hw]; exact state⟩
    · exact Or.inr mutex
  · intro d hd
    rcases lists.collected d hd with ⟨w,hw,state⟩ | timed
    · exact Or.inl ⟨w,hw,by rw [same d w (Or.inr hd) hw]; exact state⟩
    · exact Or.inr timed

theorem logPush (l : Log h status handed log ready collected)
    (same : ∀ d, d ≠ co → after d = status d) (before : ctxOf (status co) = none)
    (mine : ctxOf (after co) = some h.next) (next : k.next = h.next+1)
    (old : ∀ w, w < h.next → k.ctx w = h.ctx w) (state : (k.ctx h.next).state = kInit)
    (block : ∀ w, w < h.next → (h.ctx w).co ≠ co → k.block (h.ctx w).buf = h.block (h.ctx w).buf) :
    Log k after handed log ready collected := by
  have differ : ∀ w, ctxOf (status (h.ctx w).co) = some w → (h.ctx w).co ≠ co := by
    intro w sleeps here
    rw [here,before] at sleeps
    contradiction
  have earlier : ∀ w, w < k.next → (k.ctx w).state ≠ kInit → w < h.next := by
    intro w less claimed
    by_contra high
    have last : w = h.next := by omega
    subst w
    exact claimed state
  refine ⟨l.once,?_,?_,?_,?_⟩
  · intro r hr
    obtain ⟨less,gone,won⟩ := l.winner r hr
    rw [old _ less]
    refine ⟨by omega,?_,won⟩
    intro d hd
    by_cases here : d = co
    · subst d
      have last := Option.some.inj (mine.symm.trans hd)
      omega
    · rw [same d here] at hd
      exact gone d hd
  · intro w cases_
    by_cases less : w < h.next
    · rw [old w less] at cases_
      apply l.none
      rcases cases_ with high | init | expired
      · omega
      · exact Or.inr (Or.inl init)
      · exact Or.inr (Or.inr expired)
    · exact l.none w (Or.inl (by omega))
  · intro w less won
    have small := earlier w less (by rw [won]; decide)
    rw [old w small] at won ⊢
    rcases l.passed w small won with done | ⟨sleeps,listed,value⟩
    · exact Or.inl done
    · have other := differ w sleeps
      exact Or.inr ⟨by rw [same _ other]; exact sleeps,listed,by rw [block w small other]; exact value⟩
  · intro w less lost
    have small := earlier w less (by rw [lost]; decide)
    rw [old w small] at lost ⊢
    rcases l.expired w small lost with done | ⟨sleeps,listed⟩
    · exact Or.inl done
    · exact Or.inr ⟨by rw [same _ (differ w sleeps)]; exact sleeps,listed⟩

structure Cas (h k : Heap) (w st : Nat) : Prop where
  less : w < h.next
  init : (h.ctx w).state = kInit
  next : k.next = h.next
  same : ∀ x, (k.ctx x).co = (h.ctx x).co ∧ (k.ctx x).buf = (h.ctx x).buf
  other : ∀ x, x ≠ w → (k.ctx x).state = (h.ctx x).state
  state : (k.ctx w).state = st

theorem contextsCas {w st : Nat} (contexts : Contexts h status waitCtx) (cas : Cas h k w st) (claimed : st ≠ kInit) :
    Contexts k status waitCtx := by
  refine ⟨?_,?_,?_,?_⟩
  · intro d x hx
    rw [cas.next,(cas.same x).1]
    exact contexts.own d x hx
  · intro d x hx
    rw [cas.next,(cas.same x).1]
    exact contexts.sleeps d x hx
  · intro x less init
    have apart : x ≠ w := by
      rintro rfl
      exact claimed (cas.state.symm.trans init)
    rw [cas.other x apart] at init
    rw [(cas.same x).1]
    exact contexts.init x (by rw [← cas.next]; exact less) init
  · intro x less
    rw [(cas.same x).1,(cas.same x).2]
    exact contexts.buf x (by rw [← cas.next]; exact less)

theorem casOut {w st : Nat} (lists : Lists h status ready collected queue) (contexts : Contexts h status waitCtx)
    (cas : Cas h k w st) :
    ctxOf (status (h.ctx w).co) = some w ∧ (h.ctx w).co ∉ ready ∧ (h.ctx w).co ∉ collected ∧
    Lists k status ready collected queue := by
  have sleeps := contexts.init w cas.less cas.init
  obtain ⟨mutex,timed⟩ := (readings (status (h.ctx w).co)).1 (by simp [sleeps])
  have apart : ∀ d x, d ∈ ready ∨ d ∈ collected → ctxOf (status d) = some x → x ≠ w := by
    rintro d x (inside | inside) hx rfl
    · rcases lists.ready d inside with ⟨y,hy,state⟩ | ⟨m,hm,_⟩
      · cases Option.some.inj (hx.symm.trans hy)
        rw [cas.init] at state
        contradiction
      · rw [((readings (status d)).1 (by simp [hx])).1] at hm
        contradiction
    · rcases lists.collected d inside with ⟨y,hy,state⟩ | again
      · cases Option.some.inj (hx.symm.trans hy)
        rw [cas.init] at state
        contradiction
      · rw [((readings (status d)).1 (by simp [hx])).2] at again
        contradiction
  refine ⟨sleeps,?_,?_,listsHeap lists (fun d x inside hx => cas.other x (apart d x inside hx))⟩
  · intro inside
    exact apart _ w (Or.inl inside) sleeps rfl
  · intro inside
    exact apart _ w (Or.inr inside) sleeps rfl

theorem listsReady {w : Nat} (lists : Lists h status ready collected queue) (contexts : Contexts h status waitCtx)
    (cas : Cas h k w kReady) : Lists k status (ready ++ [(h.ctx w).co]) collected queue := by
  obtain ⟨sleeps,out,_,kept⟩ := casOut lists contexts cas
  refine ⟨?_,?_,kept.collectedNodup,kept.collected,kept.queueNodup,kept.queued⟩
  · refine nodupPush lists.readyNodup ?_
    intro hd
    exact out hd
  · refine allPush (fun d old => ?_) ?_
    · exact kept.ready d old
    · exact Or.inl ⟨w,sleeps,cas.state⟩

theorem listsCollected {w : Nat} (lists : Lists h status ready collected queue)
    (contexts : Contexts h status waitCtx) (cas : Cas h k w kTimeout) :
    Lists k status ready (collected ++ [(h.ctx w).co]) queue := by
  obtain ⟨sleeps,_,out,kept⟩ := casOut lists contexts cas
  refine ⟨kept.readyNodup,kept.ready,?_,?_,kept.queueNodup,kept.queued⟩
  · refine nodupPush lists.collectedNodup ?_
    intro hd
    exact out hd
  · refine allPush (fun d old => ?_) ?_
    · exact kept.collected d old
    · exact Or.inl ⟨w,sleeps,cas.state⟩

theorem casWinner {w st : Nat} (l : Log h status handed log ready collected) (contexts : Contexts h status waitCtx)
    (cas : Cas h k w st) (same : ∀ x, x ≠ w → handed' x = handed x) :
    ∀ r ∈ log, r.ctx < k.next ∧ (∀ co, ctxOf (status co) ≠ some r.ctx) ∧
    ((r.via = .ready ∧ (k.ctx r.ctx).state = kReady ∧ r.isTimeout = false ∧ handed' r.ctx = some r.value) ∨
    (r.via = .timeout ∧ (k.ctx r.ctx).state = kTimeout ∧ r.isTimeout = true ∧ handed' r.ctx = none)) := by
  intro r hr
  obtain ⟨less,gone,won⟩ := l.winner r hr
  have apart : r.ctx ≠ w := by
    intro here
    exact gone _ (by rw [here]; exact contexts.init w cas.less cas.init)
  rw [cas.next,cas.other _ apart,same _ apart]
  exact ⟨less,gone,won⟩

theorem logReady {w : Nat} {v : Value} (l : Log h status handed log ready collected)
    (contexts : Contexts h status waitCtx) (cas : Cas h k w kReady)
    (mine : k.block (k.ctx w).buf = v)
    (block : ∀ x, x < h.next → (h.ctx x).co ≠ (h.ctx w).co → k.block (h.ctx x).buf = h.block (h.ctx x).buf) :
    Log k status (Function.update handed w (some v)) log (ready ++ [(h.ctx w).co]) collected := by
  have sleeps := contexts.init w cas.less cas.init
  have same : ∀ x, x ≠ w → Function.update handed w (some v) x = handed x :=
    fun x apart => Function.update_of_ne apart _ _
  refine ⟨l.once,casWinner l contexts cas same,?_,?_,?_⟩
  · intro x cases_
    have apart : x ≠ w := by
      rintro rfl
      have less := cas.less
      rcases cases_ with high | init | expired
      · rw [cas.next] at high
        omega
      · rw [cas.state] at init
        contradiction
      · rw [cas.state] at expired
        contradiction
    rw [cas.next,cas.other x apart] at cases_
    rw [same x apart]
    exact l.none x cases_
  · intro x less state
    rw [cas.next] at less
    by_cases here : x = w
    · subst x
      rw [(cas.same w).1]
      exact Or.inr ⟨sleeps,by simp,by rw [Function.update_self,mine]⟩
    · rw [cas.other x here] at state
      rw [(cas.same x).1,(cas.same x).2,same x here]
      rcases l.passed x less state with done | ⟨asleep,listed,value⟩
      · exact Or.inl done
      · have differ : (h.ctx x).co ≠ (h.ctx w).co := by
          intro again
          rw [again,sleeps] at asleep
          exact here (Option.some.inj asleep).symm
        exact Or.inr ⟨asleep,by simp [listed],by rw [block x less differ]; exact value⟩
  · intro x less state
    rw [cas.next] at less
    have apart : x ≠ w := by
      rintro rfl
      rw [cas.state] at state
      contradiction
    rw [cas.other x apart] at state
    rw [(cas.same x).1]
    exact l.expired x less state

theorem logCollected {w : Nat} (l : Log h status handed log ready collected)
    (contexts : Contexts h status waitCtx) (cas : Cas h k w kTimeout) (block : k.block = h.block) :
    Log k status handed log ready (collected ++ [(h.ctx w).co]) := by
  have sleeps := contexts.init w cas.less cas.init
  refine ⟨l.once,casWinner l contexts cas (fun _ _ => rfl),?_,?_,?_⟩
  · intro x cases_
    by_cases here : x = w
    · subst x
      exact l.none w (Or.inr (Or.inl cas.init))
    · rw [cas.next,cas.other x here] at cases_
      exact l.none x cases_
  · intro x less state
    rw [cas.next] at less
    have apart : x ≠ w := by
      rintro rfl
      rw [cas.state] at state
      contradiction
    rw [cas.other x apart] at state
    rw [(cas.same x).1,(cas.same x).2,block]
    exact l.passed x less state
  · intro x less state
    rw [cas.next] at less
    by_cases here : x = w
    · subst x
      rw [(cas.same w).1]
      exact Or.inr ⟨sleeps,by simp⟩
    · rw [cas.other x here] at state
      rw [(cas.same x).1]
      rcases l.expired x less state with done | ⟨asleep,listed⟩
      · exact Or.inl done
      · exact Or.inr ⟨asleep,by simp [listed]⟩

theorem listsPassed {m next : Nat} {rest : List Nat} (lists : Lists h status ready collected queue)
    (front : queue m = next::rest) (mine : queue' m = rest) (others : ∀ n, n ≠ m → queue' n = queue n) :
    Lists h status (ready ++ [next]) collected queue' := by
  have waits := lists.queued m next (by simp [front])
  have nodup := lists.queueNodup m
  rw [front,List.nodup_cons] at nodup
  have part : ∀ n d, d ∈ queue' n → d ∈ queue n := by
    intro n d hd
    by_cases here : n = m
    · subst n
      rw [mine] at hd
      simp [front,hd]
    · rw [others n here] at hd
      exact hd
  have out : next ∉ ready := by
    intro inside
    rcases lists.ready next inside with ⟨w,hw,_⟩ | ⟨n,hn,free⟩
    · rw [((readings (status next)).1 (by simp [hw])).1] at waits
      contradiction
    · cases Option.some.inj (waits.symm.trans hn)
      exact free (by simp [front])
  refine ⟨?_,?_,lists.collectedNodup,lists.collected,?_,fun n d hd => lists.queued n d (part n d hd)⟩
  · refine nodupPush lists.readyNodup ?_
    intro hd
    exact out hd
  · refine allPush (fun d old => ?_) ?_
    · rcases lists.ready d old with ctx | ⟨n,hn,free⟩
      · exact Or.inl ctx
      · exact Or.inr ⟨n,hn,fun inside => free (part n d inside)⟩
    · refine Or.inr ⟨m,waits,?_⟩
      rw [mine]
      exact nodup.1
  · intro n
    by_cases here : n = m
    · subst n
      rw [mine]
      exact nodup.2
    · rw [others n here]
      exact lists.queueNodup n

theorem listsQueued {m : Nat} (lists : Lists h status ready collected queue) (waits : mutexOf (status co) = some m)
    (out : co ∉ ready) (fresh : co ∉ queue m) (mine : queue' m = queue m ++ [co])
    (others : ∀ n, n ≠ m → queue' n = queue n) : Lists h status ready collected queue' := by
  refine ⟨lists.readyNodup,?_,lists.collectedNodup,lists.collected,?_,?_⟩
  · intro d hd
    rcases lists.ready d hd with ctx | ⟨n,hn,free⟩
    · exact Or.inl ctx
    · refine Or.inr ⟨n,hn,?_⟩
      by_cases here : n = m
      · subst n
        rw [mine]
        intro inside
        rcases List.mem_append.1 inside with old | last
        · exact free old
        · cases List.mem_singleton.1 last
          exact out hd
      · rw [others n here]
        exact free
  · intro n
    by_cases here : n = m
    · subst n
      rw [mine]
      refine nodupPush (lists.queueNodup m) ?_
      intro hd
      exact fresh hd
    · rw [others n here]
      exact lists.queueNodup n
  · intro n d hd
    by_cases here : n = m
    · subst n
      rw [mine] at hd
      rcases List.mem_append.1 hd with old | last
      · exact lists.queued m d old
      · cases List.mem_singleton.1 last
        exact waits
    · rw [others n here] at hd
      exact lists.queued n d hd

theorem listsFallback (lists : Lists h status ready collected queue) (timed : plain (status co) = true)
    (fresh : co ∉ collected) : Lists h status ready (collected ++ [co]) queue := by
  refine ⟨lists.readyNodup,lists.ready,?_,?_,lists.queueNodup,lists.queued⟩
  · refine nodupPush lists.collectedNodup ?_
    intro hd
    exact fresh hd
  · refine allPush (fun d old => ?_) ?_
    · exact lists.collected d old
    · exact Or.inr timed

theorem logLists (l : Log h status handed log ready collected) (readyKept : ∀ d ∈ ready, d ∈ ready')
    (collectedKept : ∀ d ∈ collected, d ∈ collected') : Log h status handed log ready' collected' := by
  refine ⟨l.once,l.winner,l.none,?_,?_⟩
  · intro w less state
    rcases l.passed w less state with done | ⟨sleeps,listed,value⟩
    · exact Or.inl done
    · exact Or.inr ⟨sleeps,readyKept _ listed,value⟩
  · intro w less state
    rcases l.expired w less state with done | ⟨sleeps,listed⟩
    · exact Or.inl done
    · exact Or.inr ⟨sleeps,collectedKept _ listed⟩

end Parts

section Steps
variable {s t : State} {co : Nat}

theorem runnerReadings (inv : Inv s) (run : s.running = some co) :
    ctxOf (s.pool.co co).status = none ∧ mutexOf (s.pool.co co).status = none ∧ plain (s.pool.co co).status = false := by
  rw [inv.slots.runner co run]
  exact ⟨rfl,rfl,rfl⟩

theorem runnerOut (inv : Inv s) (run : s.running = some co) :
    co ∉ readyList s ∧ co ∉ collectedOf s.phase ∧ ∀ m, co ∉ (s.mutex m).waitQueue := by
  obtain ⟨ctx,mutex,timed⟩ := runnerReadings inv run
  exact awakeOut inv.lists ctx mutex timed

theorem setStatusWaits (p : Pool) (co : Nat) (st : Status) :
    (fun d => ((p.setStatus co st).co d).waitCtx) = fun d => (p.co d).waitCtx := by
  funext d
  exact setStatusCtx p co d st

theorem frameKeeps (inv : Inv s) (pool : t.pool = s.pool) (running : t.running = s.running) (heap : t.heap = s.heap)
    (handed : t.handed = s.handed) (log : t.log = s.log)
    (mutex : ∀ m, (t.mutex m).waitQueue = (s.mutex m).waitQueue) (ready : readyList t = readyList s)
    (collected : collectedOf t.phase = collectedOf s.phase) (flag : Flag t.phase t.timeout)
    (chan : ∀ ch, ∀ w ∈ (t.chan ch).waitQueue, w ∈ (s.chan ch).waitQueue) : Inv t := by
  refine ⟨?_,?_,?_,?_,flag,?_⟩
  · rw [pool,running]
    exact inv.slots
  · rw [heap,pool]
    exact inv.contexts
  · simp only [heap,pool,ready,collected,mutex]
    exact inv.lists
  · rw [heap,pool,handed,log,ready,collected]
    exact inv.log
  · intro ch w hw
    rw [heap]
    exact inv.queues ch w (chan ch w hw)

theorem parkKeeps (inv : Inv s) (run : s.running = some co) {st : Status} (ctx : ctxOf st = none)
    (pool : t.pool.co = (s.pool.setStatus co st).co) (slots : Slots t.pool t.running) (phase : t.phase = s.phase)
    (timeout : t.timeout = s.timeout) (tasks : t.taskMgr = s.taskMgr) (heap : t.heap = s.heap)
    (handed : t.handed = s.handed) (log : t.log = s.log) (chan : t.chan = s.chan)
    (lists : Lists s.heap (fun d => ((s.pool.setStatus co st).co d).status) (readyList s) (collectedOf s.phase)
        (fun m => (s.mutex m).waitQueue) →
      Lists s.heap (fun d => ((s.pool.setStatus co st).co d).status) (readyList s) (collectedOf s.phase)
        (fun m => (t.mutex m).waitQueue)) : Inv t := by
  obtain ⟨before,_,_⟩ := runnerReadings inv run
  obtain ⟨outReady,outCollected,outQueue⟩ := runnerOut inv run
  have same : ∀ d, d ≠ co → ((s.pool.setStatus co st).co d).status = (s.pool.co d).status :=
    fun d differ => by rw [setStatusOther _ _ differ]
  have awake : ctxOf ((s.pool.setStatus co st).co co).status = none := by rw [setStatusSelf]; exact ctx
  have ready : readyList t = readyList s := by simp only [readyList,phase,tasks]
  refine ⟨slots,?_,?_,?_,?_,?_⟩
  · rw [heap,pool,setStatusWaits]
    exact contextsOther inv.contexts same awake (fun w hw => by simp [before] at hw)
  · rw [heap,pool,ready,phase]
    exact lists (listsOther inv.lists same (List.Sublist.refl _) (List.Sublist.refl _) outReady outCollected outQueue)
  · rw [heap,pool,handed,log,ready,phase]
    exact logOther inv.log same before awake (fun _ _ inside => inside) (fun _ _ inside => inside)
  · rw [phase,timeout]
    exact inv.flag
  · rw [heap,chan]
    exact inv.queues

theorem wakeKeeps (inv : Inv s) {via : Via} {wait : Wait} {timer : Option Nat} {phase : Phase}
    (suspended : (s.pool.co co).status = .suspended wait timer)
    (ready : (readyOf phase ++ s.taskMgr.readyTasks).Sublist (readyList s))
    (collected : (collectedOf phase).Sublist (collectedOf s.phase))
    (outReady : co ∉ readyOf phase ++ s.taskMgr.readyTasks) (outCollected : co ∉ collectedOf phase)
    (outQueue : ∀ m, co ∉ (s.mutex m).waitQueue)
    (readyKept : ∀ d, d ≠ co → d ∈ readyList s → d ∈ readyOf phase ++ s.taskMgr.readyTasks)
    (collectedKept : ∀ d, d ≠ co → d ∈ collectedOf s.phase → d ∈ collectedOf phase) (flag : Flag phase s.timeout)
    (won : ∀ w, ctxOf (s.pool.co co).status = some w →
      (via = .ready ∧ (s.heap.ctx w).state = kReady ∧ s.timeout = false ∧
        s.handed w = some (s.heap.block (s.heap.ctx w).buf)) ∨
      (via = .timeout ∧ (s.heap.ctx w).state = kTimeout ∧ s.timeout = true ∧ s.handed w = none)) :
    Inv (s.resumed via co wait phase) := by
  have same : ∀ d, d ≠ co → ((s.pool.setStatus co .running).co d).status = (s.pool.co d).status :=
    fun d differ => by rw [setStatusOther _ _ differ]
  have awake : ctxOf ((s.pool.setStatus co .running).co co).status = none := by rw [setStatusSelf]; rfl
  refine ⟨slotsResumed inv.slots via phase suspended,?_,?_,?_,flag,inv.queues⟩
  · simp only [State.resumed,setStatusWaits]
    refine contextsOther inv.contexts same awake ?_
    intro w hw init
    rcases won w hw with ⟨_,state,_⟩ | ⟨_,state,_⟩ <;> rw [init] at state <;> contradiction
  · exact listsOther inv.lists same ready collected outReady outCollected outQueue
  · have shape : record s via wait = [] ∧ ctxOf (s.pool.co co).status = none ∨
        ∃ w, ctxOf (s.pool.co co).status = some w ∧
          record s via wait = [⟨w,via,s.timeout,s.heap.block (s.heap.ctx w).buf⟩] := by
      rw [suspended]
      cases wait with
      | read w => exact Or.inr ⟨w,rfl,rfl⟩
      | write w => exact Or.inr ⟨w,rfl,rfl⟩
      | sleep | io | mutex _ => exact Or.inl ⟨rfl,rfl⟩
    simp only [State.resumed]
    rcases shape with ⟨nothing,before⟩ | ⟨w,before,one⟩
    · rw [nothing,List.append_nil]
      exact logOther inv.log same before awake readyKept collectedKept
    · rw [one]
      exact logWake inv.log inv.contexts same before awake (won w before) readyKept collectedKept

theorem readyKeeps (inv : Inv s) {cs : List Nat} {wait : Wait} {timer : Option Nat}
    (phase : s.phase = .tasks [] (co::cs)) (suspended : (s.pool.co co).status = .suspended wait timer) :
    Inv (s.resumed .ready co wait (.tasks [] cs)) := by
  have shape : readyList s = co :: (cs ++ s.taskMgr.readyTasks) := by simp [readyList,phase,readyOf]
  have nodup := inv.lists.readyNodup
  rw [shape,List.nodup_cons] at nodup
  have listed := inv.lists.ready co (by simp [shape])
  have timeout : s.timeout = false := by
    have flag := inv.flag
    rw [phase] at flag
    exact flag
  refine wakeKeeps inv suspended ?_ ?_ nodup.1 (by simp [collectedOf]) ?_ ?_ ?_ timeout ?_
  · rw [shape]
    exact List.sublist_cons_self _ _
  · exact List.nil_sublist _
  · intro m inside
    have waits := inv.lists.queued m co inside
    rcases listed with ⟨w,hw,_⟩ | ⟨n,hn,free⟩
    · rw [((readings _).1 (by simp [hw])).1] at waits
      contradiction
    · cases Option.some.inj (hn.symm.trans waits)
      exact free inside
  · intro d differ inside
    rw [shape] at inside
    exact (List.mem_cons.1 inside).resolve_left differ
  · intro d _ inside
    simp [phase,collectedOf] at inside
  · intro w hw
    obtain ⟨less,owner⟩ := inv.contexts.sleeps co w hw
    have state : (s.heap.ctx w).state = kReady := by
      rcases listed with ⟨x,hx,state⟩ | ⟨m,hm,_⟩
      · cases Option.some.inj (hw.symm.trans hx)
        exact state
      · rw [((readings _).1 (by simp [hw])).1] at hm
        contradiction
    rcases inv.log.passed w less state with ⟨r,hr,rfl⟩ | ⟨_,_,value⟩
    · exact absurd hw ((inv.log.winner r hr).2.1 co)
    · exact Or.inl ⟨rfl,state,timeout,value⟩

theorem timeoutKeeps (inv : Inv s) {id : Nat} {rest : List (Nat × Nat)} {wait : Wait} {timer : Option Nat}
    (phase : s.phase = .timeouts ((co,id)::rest)) (suspended : (s.pool.co co).status = .suspended wait timer) :
    Inv (s.resumed .timeout co wait (.timeouts rest)) := by
  have shape : collectedOf s.phase = co :: rest.map Prod.fst := by simp [phase,collectedOf]
  have nodup := inv.lists.collectedNodup
  rw [shape,List.nodup_cons] at nodup
  have listed := inv.lists.collected co (by simp [shape])
  have timeout : s.timeout = true := by
    have flag := inv.flag
    rw [phase] at flag
    exact flag (by simp)
  have unlocked : mutexOf (s.pool.co co).status = none := by
    rcases listed with ⟨w,hw,_⟩ | timed
    · exact ((readings _).1 (by simp [hw])).1
    · by_contra locked
      rw [(readings _).2 locked] at timed
      contradiction
  refine wakeKeeps inv suspended ?_ ?_ ?_ nodup.1 ?_ ?_ ?_ (fun _ => timeout) ?_
  · simp [readyList,phase,readyOf]
  · rw [shape]
    exact List.sublist_cons_self _ _
  · intro inside
    rcases inv.lists.ready co (by simpa [readyList,phase,readyOf] using inside) with ⟨w,hw,state⟩ | ⟨m,hm,_⟩
    · rcases listed with ⟨x,hx,expired⟩ | timed
      · cases Option.some.inj (hw.symm.trans hx)
        rw [expired] at state
        contradiction
      · rw [((readings _).1 (by simp [hw])).2] at timed
        contradiction
    · rw [unlocked] at hm
      contradiction
  · intro m inside
    have waits := inv.lists.queued m co inside
    rw [unlocked] at waits
    contradiction
  · intro d _ inside
    simpa [readyList,phase,readyOf] using inside
  · intro d differ inside
    rw [shape] at inside
    exact (List.mem_cons.1 inside).resolve_left differ
  · intro w hw
    have state : (s.heap.ctx w).state = kTimeout := by
      rcases listed with ⟨x,hx,state⟩ | timed
      · cases Option.some.inj (hw.symm.trans hx)
        exact state
      · rw [((readings _).1 (by simp [hw])).2] at timed
        contradiction
    exact Or.inr ⟨rfl,state,timeout,inv.log.none w (Or.inr (Or.inr state))⟩

theorem ioKeeps (inv : Inv s) {timer : Option Nat} (phase : s.phase = .io)
    (suspended : (s.pool.co co).status = .suspended .io timer) : Inv (s.resumed .io co .io .io) := by
  have ctx : ctxOf (s.pool.co co).status = none := by rw [suspended]; rfl
  have mutex : mutexOf (s.pool.co co).status = none := by rw [suspended]; rfl
  refine wakeKeeps inv suspended ?_ (List.nil_sublist _) ?_ (by simp [collectedOf]) ?_ ?_ ?_ ?_ ?_
  · simp [readyList,phase,readyOf]
  · intro inside
    rcases inv.lists.ready co (by simpa [readyList,phase,readyOf] using inside) with ⟨w,hw,_⟩ | ⟨m,hm,_⟩
    · simp [ctx] at hw
    · simp [mutex] at hm
  · intro m inside
    simpa [mutex] using inv.lists.queued m co inside
  · intro d _ inside
    simpa [readyList,phase,readyOf] using inside
  · intro d _ inside
    simp [phase,collectedOf] at inside
  · have flag := inv.flag
    rw [phase] at flag
    exact flag
  · intro w hw
    simp [ctx] at hw

theorem startedKeeps (inv : Inv s) {f : Nat} {fs rs : List Nat} (phase : s.phase = .tasks (f::fs) rs) :
    Inv {s with
      phase := .tasks fs rs
      running := some s.pool.pop.1
      pool := s.pool.pop.2.setStatus s.pool.pop.1 .running} := by
  obtain ⟨spare,status,waits,_⟩ := popSpare inv.slots
  have same : ∀ d, d ≠ s.pool.pop.1 →
      ((s.pool.pop.2.setStatus s.pool.pop.1 .running).co d).status = (s.pool.co d).status :=
    fun d differ => by rw [setStatusOther _ _ differ,status]
  have awake : ctxOf ((s.pool.pop.2.setStatus s.pool.pop.1 .running).co s.pool.pop.1).status = none := by
    rw [setStatusSelf]
    rfl
  have before : ctxOf (s.pool.co s.pool.pop.1).status = none := by rw [spare]; rfl
  obtain ⟨outReady,outCollected,outQueue⟩ :=
    awakeOut inv.lists before (by rw [spare]; rfl) (by rw [spare]; rfl)
  have ready : readyList s = rs ++ s.taskMgr.readyTasks := by simp [readyList,phase,readyOf]
  have collected : collectedOf s.phase = [] := by simp [phase,collectedOf]
  have ctxs : (fun d => ((s.pool.pop.2.setStatus s.pool.pop.1 .running).co d).waitCtx) =
      fun d => (s.pool.co d).waitCtx := by
    rw [setStatusWaits]
    funext d
    exact waits d
  have lists := inv.lists
  have log := inv.log
  have flag := inv.flag
  rw [ready] at lists log outReady
  rw [collected] at lists log outCollected
  rw [phase] at flag
  refine ⟨slotsPop inv.slots,?_,?_,?_,flag,inv.queues⟩
  · simp only [ctxs]
    exact contextsOther inv.contexts same awake (fun w hw => by simp [before] at hw)
  · exact listsOther lists same (List.Sublist.refl _) (List.Sublist.refl _) outReady outCollected outQueue
  · exact logOther log same before awake (fun _ _ inside => inside) (fun _ _ inside => inside)

theorem setStateCas {h : Heap} {w : Nat} (st : Nat) (less : w < h.next) (init : (h.ctx w).state = kInit) :
    Cas h (h.setState w st) w st := by
  refine ⟨less,init,rfl,?_,?_,setStateSelf _ _ _⟩
  · intro x
    exact ⟨setStateOwner _ _ _ x,setStateBuf _ _ _ x⟩
  · intro x apart
    rw [setStateOther apart]

theorem pushKeeps (inv : Inv s) (run : s.running = some co) {st : Status} (ctx : ctxOf st = some s.heap.next)
    (slots : Slots t.pool t.running) (pool : t.pool = (s.setWaitCtx co s.heap.next).pool.setStatus co st)
    (phase : t.phase = s.phase) (timeout : t.timeout = s.timeout) (tasks : t.taskMgr = s.taskMgr)
    (handed : t.handed = s.handed) (log : t.log = s.log) (mutex : t.mutex = s.mutex)
    (next : t.heap.next = s.heap.next+1) (old : ∀ w, w < s.heap.next → t.heap.ctx w = s.heap.ctx w)
    (owner : (t.heap.ctx s.heap.next).co = co) (state : (t.heap.ctx s.heap.next).state = kInit)
    (buf : (t.heap.ctx s.heap.next).buf = .priv s.heap.next ∨ (t.heap.ctx s.heap.next).buf = .own co)
    (block : ∀ l, l ≠ (t.heap.ctx s.heap.next).buf → t.heap.block l = s.heap.block l)
    (queues : ∀ ch, ∀ w ∈ (t.chan ch).waitQueue, w ∈ (s.chan ch).waitQueue ∨ w = s.heap.next) : Inv t := by
  obtain ⟨before,_,_⟩ := runnerReadings inv run
  obtain ⟨outReady,outCollected,outQueue⟩ := runnerOut inv run
  have same : ∀ d, d ≠ co → (t.pool.co d).status = (s.pool.co d).status := by
    intro d differ
    rw [pool,setStatusOther _ _ differ,setWaitCtxStatus]
  have mine : ctxOf (t.pool.co co).status = some s.heap.next := by
    rw [pool,setStatusSelf]
    exact ctx
  have kept : ∀ d, d ≠ co → (t.pool.co d).waitCtx = (s.pool.co d).waitCtx := by
    intro d differ
    rw [pool,setStatusCtx]
    simp [State.setWaitCtx,Pool.set,Function.update_of_ne differ]
  have fresh : (t.pool.co co).waitCtx = some s.heap.next := by
    rw [pool,setStatusCtx]
    simp [State.setWaitCtx,Pool.set]
  have ready : readyList t = readyList s := by simp only [readyList,phase,tasks]
  refine ⟨slots,?_,?_,?_,?_,?_⟩
  · exact contextsPush inv.contexts same before mine kept fresh next old owner buf
  · rw [ready,phase,mutex]
    have listed := listsOther inv.lists same (List.Sublist.refl _) (List.Sublist.refl _) outReady outCollected outQueue
    refine listsHeap listed ?_
    intro d w inside hw
    have differ : d ≠ co := by
      rintro rfl
      exact inside.elim outReady outCollected
    rw [same d differ] at hw
    rw [old w (inv.contexts.sleeps d w hw).1]
  · rw [ready,phase,handed,log]
    refine logPush inv.log same before mine next old state ?_
    intro w less differ
    apply block
    have apart : w ≠ s.heap.next := by omega
    rcases inv.contexts.buf w less with theirs | theirs <;> rcases buf with new | new <;> simp_all
  · rw [phase,timeout]
    exact inv.flag
  · intro ch w hw
    rw [next]
    rcases queues ch w hw with earlier | rfl
    · exact Nat.lt_succ_of_lt (inv.queues ch w earlier)
    · exact Nat.lt_succ_self _

theorem suspendKeeps (inv : Inv s) (run : s.running = some co) (ch freed : Nat) {wait : Wait} {c : ChannelImpl}
    {k : Heap} (ctx : ∀ timer, ctxOf (.suspended wait timer) = some s.heap.next)
    (queue : c.waitQueue = (s.chan ch).waitQueue ++ [s.heap.next]) (next : k.next = s.heap.next+1)
    (old : ∀ w, w < s.heap.next → k.ctx w = s.heap.ctx w) (owner : (k.ctx s.heap.next).co = co)
    (state : (k.ctx s.heap.next).state = kInit)
    (buf : (k.ctx s.heap.next).buf = .priv s.heap.next ∨ (k.ctx s.heap.next).buf = .own co)
    (block : ∀ l, l ≠ (k.ctx s.heap.next).buf → k.block l = s.heap.block l) :
    Inv ((State.setWaitCtx {s with chan := Function.update s.chan ch c, heap := k} co s.heap.next).suspend
      co wait c.ms freed) := by
  have slots := slotsSuspend (s := {s with chan := Function.update s.chan ch c, heap := k})
    inv.slots run wait s.heap.next c.ms freed
  have queues : ∀ n, ∀ w ∈ (Function.update s.chan ch c n).waitQueue,
      w ∈ (s.chan n).waitQueue ∨ w = s.heap.next := by
    intro n w hw
    by_cases here : n = ch
    · subst n
      rw [Function.update_self,queue] at hw
      exact (List.mem_append.1 hw).imp id List.mem_singleton.1
    · rw [Function.update_of_ne here] at hw
      exact Or.inl hw
  rcases suspendCases (State.setWaitCtx {s with chan := Function.update s.chan ch c, heap := k} co s.heap.next)
    co wait c.ms freed with yields | arms
  · rw [yields] at slots ⊢
    exact pushKeeps inv run (ctx none) slots rfl rfl rfl rfl rfl rfl rfl next old owner state buf block queues
  · rw [arms] at slots ⊢
    exact pushKeeps inv run (ctx (some s.timers.next)) slots rfl rfl rfl rfl rfl rfl rfl next old owner state buf block
      queues

theorem claimKeeps (inv : Inv s) {ch w : Nat} {c : ChannelImpl} {k : Heap} {v : Value}
    (cas : Cas s.heap k w kReady) (mine : k.block (k.ctx w).buf = v)
    (block : ∀ l, l ≠ (s.heap.ctx w).buf → k.block l = s.heap.block l)
    (part : ∀ x ∈ c.waitQueue, x ∈ (s.chan ch).waitQueue) :
    Inv (State.ready {s with
      chan := Function.update s.chan ch c, heap := k
      handed := Function.update s.handed w (some v)} w) := by
  have owner := (cas.same w).1
  have ready : readyList (State.ready {s with
      chan := Function.update s.chan ch c, heap := k
      handed := Function.update s.handed w (some v)} w) = readyList s ++ [(s.heap.ctx w).co] := by
    simp only [readyList,State.ready,addReadyTasks,owner,List.append_assoc]
  have apart : ∀ x, x < s.heap.next → (s.heap.ctx x).co ≠ (s.heap.ctx w).co →
      k.block (s.heap.ctx x).buf = s.heap.block (s.heap.ctx x).buf := by
    intro x less differ
    apply block
    have other : x ≠ w := by
      rintro rfl
      exact differ rfl
    rcases inv.contexts.buf x less with theirs | theirs <;>
      rcases inv.contexts.buf w cas.less with own | own <;> simp_all
  refine ⟨inv.slots,contextsCas inv.contexts cas (by decide),?_,?_,inv.flag,?_⟩
  · rw [ready]
    exact listsReady inv.lists inv.contexts cas
  · rw [ready]
    exact logReady inv.log inv.contexts cas mine apart
  · intro n x hx
    change x < k.next
    rw [cas.next]
    simp only [State.ready] at hx
    by_cases here : n = ch
    · subst n
      rw [Function.update_self] at hx
      exact inv.queues ch x (part x hx)
    · rw [Function.update_of_ne here] at hx
      exact inv.queues n x hx

theorem chanPart {chan : Nat → ChannelImpl} {ch : Nat} {c : ChannelImpl}
    (part : ∀ x ∈ c.waitQueue, x ∈ (chan ch).waitQueue) :
    ∀ n, ∀ x ∈ (Function.update chan ch c n).waitQueue, x ∈ (chan n).waitQueue := by
  intro n x hx
  by_cases here : n = ch
  · subst n
    rw [Function.update_self] at hx
    exact part x hx
  · rw [Function.update_of_ne here] at hx
    exact hx

theorem readKeeps (inv : Inv s) (run : s.running = some co) (ch freed : Nat) (onStack : Bool) :
    Inv (s.afterRead co ch freed (readSection (s.chan ch) s.heap kInit co onStack)) := by
  rcases readSource (s.chan ch) s.heap kInit co onStack with
    ⟨c,v,result,part⟩ | ⟨c,v,w,result,inside,init,part⟩ | result
  · rw [result]
    exact frameKeeps inv rfl rfl rfl rfl rfl (fun _ => rfl) rfl rfl inv.flag (chanPart part)
  · rw [result]
    exact claimKeeps inv (setStateCas kReady (inv.queues ch w inside) init) rfl (fun _ _ => rfl) part
  · rw [result]
    refine suspendKeeps inv run ch freed (fun _ => rfl) rfl rfl
      (fun w less => Function.update_of_ne (by omega) _ _) ?_ ?_ ?_ (fun _ _ => rfl) <;>
      simp only [createWaitCtxInfo,Function.update_self]
    cases onStack <;> simp

theorem writeKeeps (inv : Inv s) (run : s.running = some co) (ch freed : Nat) (onStack : Bool) (v : Value) :
    Inv (s.afterWrite co ch freed v (writeSection (s.chan ch) s.heap kInit co onStack v)) := by
  rcases writeSource (s.chan ch) s.heap kInit co onStack v with
    ⟨c,result,part⟩ | ⟨c,w,result,inside,init,part⟩ | result
  · rw [result]
    exact frameKeeps inv rfl rfl rfl rfl rfl (fun _ => rfl) rfl rfl inv.flag (chanPart part)
  · rw [result]
    have cas := setStateCas kReady (inv.queues ch w inside) init
    refine claimKeeps inv (k := (s.heap.setState w kReady).put ((s.heap.setState w kReady).ctx w).buf v)
      ⟨cas.less,cas.init,cas.next,cas.same,cas.other,cas.state⟩ ?_ ?_ part
    · simp [Heap.put]
    · intro l differ
      rw [← (cas.same w).2] at differ
      exact Function.update_of_ne differ _ _
  · rw [result]
    refine suspendKeeps inv run ch freed (fun _ => rfl) rfl rfl
      (fun w less => Function.update_of_ne (by omega) _ _) ?_ ?_ ?_ ?_ <;>
      simp only [createWaitCtxInfo,Heap.put,Function.update_self]
    · cases onStack <;> simp
    · intro l differ
      exact Function.update_of_ne differ _ _

theorem phaseKeeps (inv : Inv s) {phase : Phase} {timeout : Bool} {clock : Nat} {tasks : TaskManager Nat Nat}
    {timers : Timers.TimerManager} (ready : readyOf phase ++ tasks.readyTasks = readyList s)
    (collected : collectedOf phase = collectedOf s.phase) (flag : Flag phase timeout) :
    Inv {s with phase := phase, timeout := timeout, clock := clock, taskMgr := tasks, timers := timers} :=
  frameKeeps inv rfl rfl rfl rfl rfl (fun _ => rfl) ready collected flag (fun _ _ queued => queued)

/- The owner of a mutex changes, and nobody comes or goes. -/
theorem mutexKeeps (inv : Inv s) (m : Nat) {x : CoMutex.Mutex} (queue : x.waitQueue = (s.mutex m).waitQueue) :
    Inv {s with mutex := Function.update s.mutex m x} := by
  refine frameKeeps inv rfl rfl rfl rfl rfl ?_ rfl rfl inv.flag (fun _ _ queued => queued)
  intro n
  by_cases here : n = m
  · subst n
    simp only [Function.update_self]
    exact queue
  · simp only [Function.update_of_ne here]

theorem expireKeeps (inv : Inv s) {e : Timers.Entry} {es : List Timers.Entry} {tasks : List (Nat × Nat)}
    {erases : Bool} {w : Nat}
    (phase : s.phase = .collect tasks erases) (ctx : (s.pool.co e.co).waitCtx = some w)
    (won : (s.heap.ctx w).state = kInit) :
    Inv {s with
      heap := s.heap.setState w kTimeout
      timers := {s.timers with timer := es}
      phase := .collect (tasks ++ [(e.co,e.id)]) true} := by
  have flag := inv.flag
  rw [phase] at flag
  obtain ⟨less,owner⟩ := inv.contexts.own e.co w ctx
  have cas := setStateCas kTimeout less won
  have ready : readyList s = [] ++ s.taskMgr.readyTasks := by simp [readyList,phase,readyOf]
  have shape : collectedOf (.collect (tasks ++ [(e.co,e.id)]) true) = collectedOf s.phase ++ [(s.heap.ctx w).co] := by
    simp [phase,collectedOf,owner]
  refine ⟨inv.slots,contextsCas inv.contexts cas (by decide),?_,?_,flag,inv.queues⟩
  · simp only [shape]
    have lists := listsCollected inv.lists inv.contexts cas
    rw [ready] at lists
    exact lists
  · simp only [shape]
    have log := logCollected inv.log inv.contexts cas rfl
    rw [ready] at log
    exact log

theorem fallbackKeeps (inv : Inv s) {e : Timers.Entry} {es : List Timers.Entry} {tasks more : List (Nat × Nat)}
    {erases : Bool}
    {pool : Pool} (slots : Slots pool s.running) (phase : s.phase = .collect tasks erases)
    (same : ∀ d, (pool.co d).status = (s.pool.co d).status ∧ (pool.co d).waitCtx = (s.pool.co d).waitCtx)
    (pushed : more = tasks ∨ more = tasks ++ [(e.co,e.id)]) (timed : plain (s.pool.co e.co).status = true)
    (fresh : e.co ∉ tasks.map Prod.fst) :
    Inv {s with pool := pool, timers := {s.timers with timer := es}, phase := .collect more true} := by
  have flag := inv.flag
  rw [phase] at flag
  have ready : readyList s = [] ++ s.taskMgr.readyTasks := by simp [readyList,phase,readyOf]
  have collected : collectedOf s.phase = tasks.map Prod.fst := by simp [phase,collectedOf]
  have status : (fun d => (pool.co d).status) = fun d => (s.pool.co d).status := funext (fun d => (same d).1)
  have waits : (fun d => (pool.co d).waitCtx) = fun d => (s.pool.co d).waitCtx := funext (fun d => (same d).2)
  have lists := inv.lists
  have log := inv.log
  rw [ready,collected] at lists log
  refine ⟨slots,?_,?_,?_,flag,inv.queues⟩
  · simp only [status,waits]
    exact inv.contexts
  · simp only [status]
    rcases pushed with rfl | rfl
    · exact lists
    · have shape : collectedOf (.collect (tasks ++ [(e.co,e.id)]) true) = tasks.map Prod.fst ++ [e.co] := by
        simp [collectedOf]
      simp only [shape]
      exact listsFallback lists timed fresh
  · simp only [status]
    rcases pushed with rfl | rfl
    · exact log
    · refine logLists log (fun _ inside => inside) ?_
      intro d inside
      simp only [collectedOf,List.map_append,List.mem_append]
      exact Or.inl inside

theorem stepKeeps {e : Event} (inv : Inv s) (unclaimed : Unclaimed s e) (h : step s e = some t) : Inv t := by
  have source := stepSource h
  have slots := stepSlots inv.slots source
  have flag := inv.flag
  cases source with
  | polled free phase =>
    rw [phase] at flag
    exact phaseKeeps inv (by simp [readyList,phase,readyOf]) (by simp [phase,collectedOf]) flag
  | ioResumed co timer free phase asleep => exact ioKeeps inv phase asleep
  | swapped free phase =>
    rw [phase] at flag
    exact phaseKeeps inv (by simp [readyList,phase,readyOf,TaskManager.empty]) (by simp [phase,collectedOf]) flag
  | started f fs rs free phase => exact startedKeeps inv phase
  | readyResumed co cs wait timer free phase asleep => exact readyKeeps inv phase asleep
  | collecting free phase =>
    rw [phase] at flag
    exact phaseKeeps inv (by simp [readyList,phase,readyOf]) (by simp [phase,collectedOf]) flag
  | dropped e es tasks erases free phase timer due none =>
    rw [phase] at flag
    exact phaseKeeps inv (by simp [readyList,phase,readyOf]) (by simp [phase,collectedOf]) flag
  | timedOut e es tasks erases w free phase timer due ctx won => exact expireKeeps inv phase ctx won
  | fellBack e es tasks erases w pool more free phase timer due ctx lost same pushed =>
    obtain ⟨timed,fresh⟩ := unclaimed tasks erases e es w phase timer due ctx lost
    exact fallbackKeeps inv slots phase same.2.2 pushed timed fresh
  | collected tasks erases later clock hint free phase =>
    refine phaseKeeps inv (by simp [readyList,phase,readyOf]) (by simp [phase,collectedOf]) ?_
    intro some
    simpa using some
  | timeoutResumed co id rest wait timer free phase asleep => exact timeoutKeeps inv phase asleep
  | finishedLoop free phase =>
    exact phaseKeeps inv (by simp [readyList,phase,readyOf]) (by simp [phase,collectedOf]) rfl
  | slept co deadline freed wait ev run kind =>
    refine parkKeeps inv run ?_ rfl slots rfl rfl rfl rfl rfl rfl rfl id
    rcases kind with rfl | rfl <;> rfl
  | yielded co wait ev run kind =>
    refine parkKeeps inv run ?_ rfl slots rfl rfl rfl rfl rfl rfl rfl id
    subst wait
    rfl
  | read co ch freed onStack run => exact readKeeps inv run ch freed onStack
  | write co ch freed onStack v run size => exact writeKeeps inv run ch freed onStack v
  | locked co m run free => exact mutexKeeps inv m rfl
  | queued co m run busy =>
    obtain ⟨outReady,_,outQueue⟩ := runnerOut inv run
    refine parkKeeps inv run rfl rfl slots rfl rfl rfl rfl rfl rfl rfl ?_
    intro lists
    refine listsQueued (m := m) lists (by rw [setStatusSelf]; rfl) outReady (outQueue m) ?_ ?_
    · simp [State.yielded]
    · intro n differ
      simp [State.yielded,Function.update_of_ne differ]
  | passed co m next rest run queue =>
    have shape : readyList {s with
        mutex := Function.update s.mutex m ⟨(s.mutex m).lock,rest⟩
        taskMgr := addReadyTasks s.taskMgr next} = readyList s ++ [next] := by
      simp only [readyList,addReadyTasks,List.append_assoc]
    refine ⟨slots,inv.contexts,?_,?_,flag,inv.queues⟩
    · rw [shape]
      exact listsPassed inv.lists queue (by simp) (fun n differ => by simp [Function.update_of_ne differ])
    · rw [shape]
      exact logLists inv.log (fun d inside => by simp [inside]) (fun _ inside => inside)
  | unlocked co m run queue => exact mutexKeeps inv m queue.symm
  | finished co run =>
    have idle : ctxOf .idle = none := rfl
    exact parkKeeps inv run idle rfl slots rfl rfl rfl rfl rfl rfl rfl id
  | added func => exact phaseKeeps inv rfl rfl flag
  | ticked n => exact phaseKeeps inv rfl rfl flag

theorem initialInv (c : Config) : Inv (initial c) := by
  refine ⟨initialSlots c,⟨?_,?_,?_,?_⟩,⟨?_,?_,?_,?_,?_,?_⟩,⟨?_,?_,fun _ _ => rfl,?_,?_⟩,rfl,?_⟩ <;>
    simp [initial,Heap.initial,ctxOf,readyList,readyOf,collectedOf,TaskManager.empty,CoMutex.Mutex.create,
      ChannelImpl.create]

theorem listedAsleep (inv : Inv s) (listed : co ∈ readyList s ∨ co ∈ collectedOf s.phase) :
    asleep (s.pool.co co).status = true := by
  have readings : (∃ w, ctxOf (s.pool.co co).status = some w) ∨ (∃ m, mutexOf (s.pool.co co).status = some m) ∨
      plain (s.pool.co co).status = true := by
    rcases listed with inside | inside
    · rcases inv.lists.ready co inside with ⟨w,hw,_⟩ | ⟨m,hm,_⟩
      · exact Or.inl ⟨w,hw⟩
      · exact Or.inr (Or.inl ⟨m,hm⟩)
    · rcases inv.lists.collected co inside with ⟨w,hw,_⟩ | timed
      · exact Or.inl ⟨w,hw⟩
      · exact Or.inr (Or.inr timed)
  generalize (s.pool.co co).status = st at readings ⊢
  cases st with
  | suspended wait timer => rfl
  | _ => simp [ctxOf,mutexOf,plain] at readings

theorem invExclusive (inv : Inv s) : Exclusive s := by
  refine ⟨inv.log.once,fun r hr => (inv.log.winner r hr).2.2,?_,inv.log.passed,?_,fun _ => listedAsleep inv⟩
  · intro w less init
    exact ⟨inv.contexts.init w less init,inv.log.none w (Or.inr (Or.inl init))⟩
  · intro w less state
    exact ⟨inv.log.none w (Or.inr (Or.inr state)),inv.log.expired w less state⟩

end Steps

/-- A channel wait that nobody has ended is the coroutine's current one, and the entry
that it armed is still in timer_. -/
structure Pending (c : Config) (s : State) : Prop where
  ms : ∀ ch, (s.chan ch).ms = c.ms ch
  low : ∀ co w, ctxOf (s.pool.co co).status = some w → w < s.heap.next
  current : ∀ co w, ctxOf (s.pool.co co).status = some w → (s.pool.co co).waitCtx = some w
  armed : ∀ co w, ctxOf (s.pool.co co).status = some w → (s.heap.ctx w).state = kInit →
    ∃ e ∈ s.timers.timer, e.co = co ∧ timerOf (s.pool.co co).status = some e.id

section Pending
variable {c : Config} {s t : State} {co : Nat}

theorem pendingFrame (pending : Pending c s) (ms : ∀ ch, (t.chan ch).ms = (s.chan ch).ms)
    (next : s.heap.next = t.heap.next)
    (same : ∀ d w, ctxOf (t.pool.co d).status = some w → (t.pool.co d).status = (s.pool.co d).status ∧
      (t.pool.co d).waitCtx = (s.pool.co d).waitCtx)
    (state : ∀ w, (t.heap.ctx w).state = kInit → (s.heap.ctx w).state = kInit)
    (timers : ∀ w e, e ∈ s.timers.timer → (s.pool.co e.co).waitCtx = some w → (t.heap.ctx w).state = kInit →
      e ∈ t.timers.timer) : Pending c t := by
  refine ⟨fun ch => (ms ch).trans (pending.ms ch),?_,?_,?_⟩
  · intro d w hw
    rw [(same d w hw).1] at hw
    rw [← next]
    exact pending.low d w hw
  · intro d w hw
    obtain ⟨status,waits⟩ := same d w hw
    rw [status] at hw
    rw [waits]
    exact pending.current d w hw
  · intro d w hw init
    obtain ⟨status,_⟩ := same d w hw
    rw [status] at hw ⊢
    obtain ⟨e,inside,owner,id⟩ := pending.armed d w hw (state w init)
    refine ⟨e,timers w e inside ?_ init,owner,id⟩
    rw [owner]
    exact pending.current d w hw

theorem pendingStatus (pending : Pending c s) {st : Status} (out : ctxOf st = none)
    (pool : t.pool.co = (s.pool.setStatus co st).co) (chan : t.chan = s.chan) (heap : t.heap = s.heap)
    (timers : ∀ e ∈ s.timers.timer, e ∈ t.timers.timer) : Pending c t := by
  refine pendingFrame pending (fun ch => by rw [chan]) (by rw [heap]) ?_ (fun w init => by rw [heap] at init; exact init)
    (fun _ e inside _ _ => timers e inside)
  intro d w hw
  rw [pool] at hw ⊢
  have differ : d ≠ co := by
    rintro rfl
    rw [setStatusSelf,out] at hw
    contradiction
  rw [setStatusOther _ _ differ]
  exact ⟨rfl,rfl⟩

theorem pendingPush (pending : Pending c s) {wait : Wait} {deadline freed : Nat}
    (ctx : ∀ timer, ctxOf (.suspended wait timer) = some s.heap.next)
    (pool : t.pool = (s.setWaitCtx co s.heap.next).pool.setStatus co (.suspended wait (some s.timers.next)))
    (timers : t.timers = addTimer s.timers deadline co freed) (ms : ∀ ch, (t.chan ch).ms = (s.chan ch).ms)
    (next : t.heap.next = s.heap.next+1) (old : ∀ w, w < s.heap.next → t.heap.ctx w = s.heap.ctx w) : Pending c t := by
  have self : (t.pool.co co).status = .suspended wait (some s.timers.next) := by rw [pool,setStatusSelf]
  have other : ∀ d, d ≠ co → t.pool.co d = s.pool.co d := by
    intro d differ
    rw [pool,setStatusOther _ _ differ]
    simp [State.setWaitCtx,Pool.set,Function.update_of_ne differ]
  refine ⟨fun ch => (ms ch).trans (pending.ms ch),?_,?_,?_⟩
  · intro d w hw
    rw [next]
    by_cases here : d = co
    · subst d
      rw [self,ctx] at hw
      cases Option.some.inj hw
      exact Nat.lt_succ_self _
    · rw [other d here] at hw
      exact Nat.lt_succ_of_lt (pending.low d w hw)
  · intro d w hw
    by_cases here : d = co
    · subst d
      rw [self,ctx] at hw
      rw [pool,setStatusCtx,← hw]
      simp [State.setWaitCtx,Pool.set]
    · rw [other d here] at hw ⊢
      exact pending.current d w hw
  · intro d w hw init
    rw [timers]
    by_cases here : d = co
    · subst d
      exact ⟨_,addTimerMem.2 (Or.inl rfl),rfl,by rw [self]; rfl⟩
    · rw [other d here] at hw ⊢
      rw [old w (pending.low d w hw)] at init
      obtain ⟨e,inside,owner⟩ := pending.armed d w hw init
      exact ⟨e,addTimerMem.2 (Or.inr inside),owner⟩

theorem updateMs {chan : Nat → ChannelImpl} {ch : Nat} {x : ChannelImpl} (ms : x.ms = (chan ch).ms) (n : Nat) :
    (Function.update chan ch x n).ms = (chan n).ms := by
  by_cases here : n = ch
  · subst n
    rw [Function.update_self]
    exact ms
  · rw [Function.update_of_ne here]

theorem pendingSuspend (pending : Pending c s) (finite : ∀ ch, c.ms ch ≠ uint32Max) {ch freed : Nat} {wait : Wait}
    {x : ChannelImpl} {k : Heap} (ms : x.ms = (s.chan ch).ms)
    (ctx : ∀ timer, ctxOf (.suspended wait timer) = some s.heap.next) (next : k.next = s.heap.next+1)
    (old : ∀ w, w < s.heap.next → k.ctx w = s.heap.ctx w) :
    Pending c ((State.setWaitCtx {s with chan := Function.update s.chan ch x, heap := k} co s.heap.next).suspend
      co wait x.ms freed) := by
  have bounded : x.ms ≠ uint32Max := by
    rw [ms,pending.ms]
    exact finite ch
  rw [State.suspend,if_neg bounded]
  exact pendingPush pending ctx rfl rfl (updateMs ms) next old

theorem stepPending {e : Event} (pending : Pending c s) (slots : Slots s.pool s.running)
    (finite : ∀ ch, c.ms ch ≠ uint32Max) (h : Steps s e t) : Pending c t := by
  have running : ctxOf .running = none := rfl
  cases h with
  | ioResumed co timer _ _ _ | readyResumed co _ _ _ _ _ _ | timeoutResumed co _ _ _ _ _ _ _ =>
    exact pendingStatus pending running rfl rfl rfl (fun _ inside => inside)
  | started f fs rs _ _ =>
    obtain ⟨_,status,waits,_⟩ := popSpare slots
    refine pendingFrame pending (fun _ => rfl) rfl ?_ (fun _ init => init) (fun _ _ inside _ _ => inside)
    intro d w hw
    have differ : d ≠ s.pool.pop.1 := by
      rintro rfl
      rw [setStatusSelf] at hw
      contradiction
    rw [setStatusOther _ _ differ]
    exact ⟨status d,waits d⟩
  | dropped e es tasks erases _ _ timer _ none =>
    refine pendingFrame pending (fun _ => rfl) rfl (fun _ _ _ => ⟨rfl,rfl⟩) (fun _ init => init) ?_
    intro w x inside ctx init
    rw [timer] at inside
    rcases List.mem_cons.1 inside with rfl | rest
    · rw [none] at ctx
      contradiction
    · exact rest
  | timedOut e es tasks erases w _ _ timer _ ctx _ =>
    refine pendingFrame pending (fun _ => rfl) rfl (fun _ _ _ => ⟨rfl,rfl⟩)
      (fun x init => (setStateInit (by decide) init).2) ?_
    intro y x inside theirs init
    rw [timer] at inside
    rcases List.mem_cons.1 inside with rfl | rest
    · cases Option.some.inj (ctx.symm.trans theirs)
      exact absurd rfl (setStateInit (by decide) init).1
    · exact rest
  | fellBack e es tasks erases w pool more _ _ timer _ ctx lost same _ =>
    refine pendingFrame pending (fun _ => rfl) rfl (fun d _ _ => same.2.2 d) (fun _ init => init) ?_
    intro y x inside theirs init
    rw [timer] at inside
    rcases List.mem_cons.1 inside with rfl | rest
    · cases Option.some.inj (ctx.symm.trans theirs)
      exact absurd init lost
    · exact rest
  | slept co deadline freed wait ev run kind =>
    have out : ∀ timer, ctxOf (.suspended wait timer) = none := by
      intro timer
      rcases kind with rfl | rfl <;> rfl
    exact pendingStatus pending (out _) rfl rfl rfl (fun e inside => addTimerMem.2 (Or.inr inside))
  | yielded co wait ev run kind =>
    subst wait
    have out : ctxOf (.suspended .io none) = none := rfl
    exact pendingStatus pending out rfl rfl rfl (fun _ inside => inside)
  | read co ch freed onStack run =>
    have ms := readMs (s.chan ch) s.heap kInit co onStack
    rcases readSource (s.chan ch) s.heap kInit co onStack with
      ⟨d,v,result,_⟩ | ⟨d,v,w,result,_⟩ | result
    · rw [result] at ms ⊢
      exact pendingFrame pending (updateMs ms) rfl (fun _ _ _ => ⟨rfl,rfl⟩) (fun _ init => init)
        (fun _ _ inside _ _ => inside)
    · rw [result] at ms ⊢
      exact pendingFrame pending (updateMs ms) rfl (fun _ _ _ => ⟨rfl,rfl⟩)
        (fun _ init => (setStateInit (by decide) init).2) (fun _ _ inside _ _ => inside)
    · rw [result] at ms ⊢
      exact pendingSuspend pending finite ms (fun _ => rfl) rfl (fun w less => Function.update_of_ne (by omega) _ _)
  | write co ch freed onStack v run size =>
    have ms := writeMs (s.chan ch) s.heap kInit co onStack v
    rcases writeSource (s.chan ch) s.heap kInit co onStack v with
      ⟨d,result,_⟩ | ⟨d,w,result,_⟩ | result
    · rw [result] at ms ⊢
      exact pendingFrame pending (updateMs ms) rfl (fun _ _ _ => ⟨rfl,rfl⟩) (fun _ init => init)
        (fun _ _ inside _ _ => inside)
    · rw [result] at ms ⊢
      exact pendingFrame pending (updateMs ms) rfl (fun _ _ _ => ⟨rfl,rfl⟩)
        (fun _ init => (setStateInit (by decide) init).2) (fun _ _ inside _ _ => inside)
    · rw [result] at ms ⊢
      exact pendingSuspend pending finite ms (fun _ => rfl) rfl (fun w less => Function.update_of_ne (by omega) _ _)
  | queued co m run busy =>
    have out : ctxOf (.suspended (.mutex m) none) = none := rfl
    exact pendingStatus pending out rfl rfl rfl (fun _ inside => inside)
  | finished co run =>
    have out : ctxOf .idle = none := rfl
    exact pendingStatus pending out rfl rfl rfl (fun _ inside => inside)
  | _ => exact ⟨pending.ms,pending.low,pending.current,pending.armed⟩

theorem initialPending (c : Config) : Pending c (initial c) := by
  refine ⟨fun _ => rfl,?_,?_,?_⟩ <;> simp [initial,ctxOf]

end Pending

/-- In every run in which CollectTimeoutTasks finds claimed wait contexts only behind the
entries of Sleep and IOEvent::wait, each channel wait is ended once, by its winner; with a
finite ms, a wait that nobody has ended has its entry in timer_. -/
theorem waitersExclusive (c : Config) (es : List Event) (s : State) (ok : Guarded step Unclaimed (initial c) es)
    (reached : run step (initial c) es = some s) :
    Exclusive s ∧ ((∀ ch, c.ms ch ≠ uint32Max) → ∀ w, w < s.heap.next → (s.heap.ctx w).state = kInit →
      ∃ e ∈ s.timers.timer, e.co = (s.heap.ctx w).co ∧ timerOf (s.pool.co e.co).status = some e.id) := by
  have inv : Inv s := guardedInvariant (fun _ _ _ inv ok h => stepKeeps inv ok h) ok reached (initialInv c)
  refine ⟨invExclusive inv,?_⟩
  intro finite w less init
  have keep : ∀ a e b, Slots a.pool a.running ∧ Pending c a → step a e = some b →
      Slots b.pool b.running ∧ Pending c b := by
    rintro a e b ⟨slots,pending⟩ h
    have source := stepSource h
    exact ⟨stepSlots slots source,stepPending pending slots finite source⟩
  have pending := runInvariant keep reached ⟨initialSlots c,initialPending c⟩
  obtain ⟨e,inside,owner,id⟩ := pending.2.armed _ w (inv.contexts.init w less init) init
  exact ⟨e,inside,owner,by rw [owner]; exact id⟩

theorem handedReadExclusive : ∃ s, run step (initial tenMs)
    [.go 0,.go 1,.wait,.getAllTasks,.newTask,.read 0 true 0,.newTask,.write 0 true [7] 0,.finish,.tasksDone,
      .collectDone 0,.timeoutsDone,.wait,.getAllTasks,.readyTask] = some s ∧
    s.log = [⟨0,.ready,false,[7]⟩] ∧ Exclusive s := by
  refine ⟨_,rfl,rfl,(waitersExclusive tenMs [.go 0,.go 1,.wait,.getAllTasks,.newTask,.read 0 true 0,.newTask,
    .write 0 true [7] 0,.finish,.tasksDone,.collectDone 0,.timeoutsDone,.wait,.getAllTasks,.readyTask] _ ?_ rfl).1⟩
  exact guardedFree (by simp [Unclaimed])

/-- The entry of a reader expires between the hand-off and the reader's turn on the ready
list: the fallback collects the reader, and Read sees a timeout with the value in its buffer. -/
theorem handedReadTimedOut : ¬ ∀ (c : Config) (es : List Event) (s : State), (∀ ch, c.ms ch ≠ uint32Max) →
    run step (initial c) es = some s → Exclusive s := by
  intro claim
  have finite : 10 ≠ uint32Max := by decide
  have exclusive := claim tenMs [.go 0,.go 1,.wait,.getAllTasks,.newTask,.read 0 true 0,.newTask,
    .write 0 true [7] 0,.finish,.tasksDone,.tick 10,.collect,.collectDone 0,.timeoutTask] _ (fun _ => finite) rfl
  rcases exclusive.winner ⟨0,.timeout,true,[7]⟩ (List.mem_singleton.2 rfl) with ⟨via,_⟩ | ⟨_,state,_⟩
  · cases via
  · have claimed : kReady = kTimeout := state
    cases claimed

end TitCo.HandOff
