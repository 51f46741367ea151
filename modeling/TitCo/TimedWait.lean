import TitCo.StaleTimer
import TitCo.TimeoutScan

/-! Waits with a time limit over whole runs of one scheduler: Sleep, IOEvent::wait, Read and Write
arm an entry in timer_, and CollectTimeoutTasks ends them. A coroutine is looked at by itself; the
others do what they like. -/
namespace TitCo.TimedWait
open Channel MachineInt Scheduler StaleTimer TimeoutScan Timers Transition

def timerOf : Status → Option Nat
  | .suspended _ timer => timer
  | _ => none

/-- The entries of one coroutine that are in timer_ or have been collected. -/
def pending (co : Nat) (timer : List Entry) (tasks : List (Nat × Nat)) : List Nat :=
  (timer.filter (fun e => e.co == co)).map Entry.id ++ (tasks.filter (fun p => p.1 == co)).map Prod.snd

/-- No IO event or ready task ends a wait of the coroutine whose entry is still in timer_. -/
def Alone (co : Nat) (s : State) : Event → Prop
  | .ioEvent d => d = co → ∀ e ∈ s.timers.timer, e.co ≠ co
  | .readyTask => ∀ cs, s.phase = .tasks [] (co::cs) → ∀ e ∈ s.timers.timer, e.co ≠ co
  | _ => True

/-- The entry of the wait it is in, and no other; without a wait context the scan may have erased it. -/
def Owed (co : Nat) (s : State) : Prop :=
  (pending co s.timers.timer (tasksOf s.phase)).Perm (timerOf (s.pool.co co).status).toList ∨
  (s.pool.co co).waitCtx = none ∧ pending co s.timers.timer (tasksOf s.phase) = []

def Inv (co : Nat) (s : State) : Prop := Slots s.pool s.running ∧ WellFormed s ∧ Owed co s

/-- What a step can do to timer_ and to the collected coroutines. -/
structure Moves (clock : Nat) (m after : TimerManager) (tasks left : List (Nat × Nat)) : Prop where
  next : m.next ≤ after.next
  entry : ∀ e ∈ after.timer, e ∈ m.timer ∨ e.id = m.next ∧ m.next < after.next
  task : ∀ p ∈ left, p ∈ tasks ∨ ∃ e ∈ m.timer, p = (e.co,e.id) ∧ e.deadline ≤ clock

def Fresh (s : State) : Prop :=
  (∀ e ∈ s.timers.timer, e.id < s.timers.next) ∧ ∀ p ∈ tasksOf s.phase, p.2 < s.timers.next

/-- The deadline of one entry, before and after it is collected. -/
structure Deadline (n deadline : Nat) (s : State) : Prop where
  old : n < s.timers.next
  entry : ∀ e ∈ s.timers.timer, e.id = n → e.deadline = deadline
  task : ∀ p ∈ tasksOf s.phase, p.2 = n → deadline ≤ s.clock

/-- The time limit that the running coroutine asks for. -/
def asked (s : State) : Event → Nat
  | .sleep ms _ | .ioWait ms _ => ms
  | .read ch _ _ | .write ch _ _ _ => (s.chan ch).ms
  | _ => 0

section
variable {s t : State} {co n deadline : Nat} {e : Event}

theorem movesNone {clock : Nat} {m : TimerManager} {tasks left : List (Nat × Nat)} (part : ∀ p ∈ left, p ∈ tasks) :
    Moves clock m m tasks left :=
  ⟨Nat.le_refl _,fun _ he => .inl he,fun p hp => .inl (part p hp)⟩

theorem movesArmed {clock : Nat} (m : TimerManager) (tasks : List (Nat × Nat)) (deadline co freed : Nat) :
    Moves clock m (addTimer m deadline co freed) tasks tasks := by
  refine ⟨Nat.le_succ _,?_,fun p hp => .inl hp⟩
  intro e he
  rcases addTimerMem.1 he with rfl | old
  · exact .inr ⟨rfl,Nat.lt_succ_self _⟩
  · exact .inl old

theorem movesSuspend (s : State) (co : Nat) (wait : Wait) (ms freed : Nat) :
    Moves s.clock s.timers (s.suspend co wait ms freed).timers (tasksOf s.phase)
      (tasksOf (s.suspend co wait ms freed).phase) := by
  rcases suspendCases s co wait ms freed with yields | arms
  · rw [yields]
    exact movesNone (fun _ hp => hp)
  · rw [arms]
    exact movesArmed s.timers _ _ co freed

theorem movesCollect {clock next : Nat} {hint : Option Nat} {x : Entry} {es : List Entry} {tasks more : List (Nat × Nat)}
    (due : x.deadline ≤ clock) (pushed : more = tasks ∨ more = tasks ++ [(x.co,x.id)]) :
    Moves clock ⟨x::es,hint,next⟩ ⟨es,hint,next⟩ tasks more := by
  refine ⟨Nat.le_refl _,fun e he => .inl (List.mem_cons_of_mem _ he),?_⟩
  intro p hp
  rcases pushed with rfl | rfl
  · exact .inl hp
  · rcases List.mem_append.1 hp with old | last
    · exact .inl old
    · exact .inr ⟨x,List.mem_cons_self,List.mem_singleton.1 last,due⟩

theorem stepMoves (h : Steps s e t) : Moves s.clock s.timers t.timers (tasksOf s.phase) (tasksOf t.phase) := by
  have manager : ∀ {x : Entry} {es : List Entry}, s.timers.timer = x::es →
      s.timers = ⟨x::es,s.timers.hint,s.timers.next⟩ := by
    intro x es timer
    rw [← timer]
  cases h with
  | polled _ phase | ioResumed _ _ _ phase | swapped _ phase | started _ _ _ _ phase | readyResumed _ _ _ _ _ phase
  | collecting _ phase | finishedLoop _ phase => exact movesNone (by simp [tasksOf,State.resumed])
  | dropped x es tasks erases _ phase timer due _ =>
    rw [phase]
    nth_rewrite 1 [manager timer]
    exact movesCollect due (.inl rfl)
  | timedOut x es tasks erases w _ phase timer due _ _ =>
    rw [phase]
    nth_rewrite 1 [manager timer]
    exact movesCollect due (.inr rfl)
  | fellBack x es tasks erases w pool more _ phase timer due _ _ _ pushed =>
    rw [phase]
    nth_rewrite 1 [manager timer]
    exact movesCollect due pushed
  | collected tasks erases later clock hint _ phase =>
    exact ⟨Nat.le_refl _,fun x hx => .inl hx,fun p hp => .inl (by rw [phase]; exact hp)⟩
  | timeoutResumed d id rest wait timer _ phase _ =>
    exact movesNone (fun p hp => by rw [phase]; exact List.mem_cons_of_mem _ hp)
  | slept d deadline freed wait ev _ _ => exact movesArmed s.timers _ deadline d freed
  | read d ch freed onStack _ =>
    refine afterReadRule (P := fun t => Moves s.clock s.timers t.timers (tasksOf s.phase) (tasksOf t.phase))
      (fun _ _ _ _ => movesNone (fun _ hp => hp)) ?_ ch _
    intro chan heap w wait ms
    exact movesSuspend (State.setWaitCtx {s with chan := chan, heap := heap} d w) d wait ms freed
  | write d ch freed onStack v _ _ =>
    refine afterWriteRule (P := fun t => Moves s.clock s.timers t.timers (tasksOf s.phase) (tasksOf t.phase))
      (fun _ _ _ _ => movesNone (fun _ hp => hp)) ?_ ch v _
    intro chan heap w wait ms
    exact movesSuspend (State.setWaitCtx {s with chan := chan, heap := heap} d w) d wait ms freed
  | _ => exact movesNone (fun _ hp => hp)

theorem suspendClock (s : State) (co : Nat) (wait : Wait) (ms freed : Nat) :
    (s.suspend co wait ms freed).clock = s.clock := by
  unfold State.suspend
  split <;> rfl

/- The second reading that ends the scan may be a later one. -/
theorem doneForward {later : Nat} (h : step s (.collectDone later) = some t) : s.clock ≤ t.clock := by
  simp only [step] at h
  split at h
  · simp only [loopStep] at h
    split at h <;> try contradiction
    · cases Option.some.inj h
      exact Nat.le_refl _
    · split at h <;> try contradiction
      cases Option.some.inj h
      exact Nat.le_add_right _ _
  · simp only [runningStep] at h
    contradiction

theorem clockForward (h : step s e = some t) : s.clock ≤ t.clock := by
  by_cases done : ∃ later, e = .collectDone later
  · obtain ⟨later,rfl⟩ := done
    exact doneForward h
  cases stepSource h with
  | collected tasks erases later => exact absurd ⟨later,rfl⟩ done
  | ticked n => exact Nat.le_add_right _ _
  | read d ch freed onStack _ =>
    exact afterReadRule (P := fun t => s.clock ≤ t.clock) (fun _ _ _ _ => Nat.le_refl _)
      (fun _ _ _ _ _ => by rw [suspendClock]; exact Nat.le_refl _) ch _
  | write d ch freed onStack v _ _ =>
    exact afterWriteRule (P := fun t => s.clock ≤ t.clock) (fun _ _ _ _ => Nat.le_refl _)
      (fun _ _ _ _ _ => by rw [suspendClock]; exact Nat.le_refl _) ch v _
  | _ => exact Nat.le_refl _

theorem stepFresh (fresh : Fresh s) (h : step s e = some t) : Fresh t := by
  obtain ⟨next,entry,task⟩ := stepMoves (stepSource h)
  constructor
  · intro x hx
    rcases entry x hx with old | ⟨new,grows⟩
    · exact Nat.lt_of_lt_of_le (fresh.1 x old) next
    · rwa [new]
  · intro p hp
    rcases task p hp with old | ⟨x,hx,rfl,_⟩
    · exact Nat.lt_of_lt_of_le (fresh.2 p old) next
    · exact Nat.lt_of_lt_of_le (fresh.1 x hx) next

theorem stepDeadline (due : Deadline n deadline s) (h : step s e = some t) : Deadline n deadline t := by
  obtain ⟨next,entry,task⟩ := stepMoves (stepSource h)
  have clock := clockForward h
  have old := due.old
  refine ⟨by omega,?_,?_⟩
  · intro x hx same
    rcases entry x hx with kept | ⟨new,_⟩
    · exact due.entry x kept same
    · omega
  · intro p hp same
    rcases task p hp with kept | ⟨x,hx,rfl,passed⟩
    · exact Nat.le_trans (due.task p kept same) clock
    · rw [← due.entry x hx same]
      exact Nat.le_trans passed clock

theorem pendingNone {timer : List Entry} {tasks : List (Nat × Nat)} (clear : ∀ e ∈ timer, e.co ≠ co)
    (out : ∀ p ∈ tasks, p.1 ≠ co) : pending co timer tasks = [] := by
  have first : timer.filter (fun e => e.co == co) = [] := List.filter_eq_nil_iff.2 (by simpa using clear)
  have second : tasks.filter (fun p => p.1 == co) = [] := List.filter_eq_nil_iff.2 (by simpa using out)
  rw [pending,first,second]
  rfl

theorem pendingEntry {x : Entry} {es : List Entry} {tasks : List (Nat × Nat)} :
    pending co (x::es) tasks = if x.co = co then x.id :: pending co es tasks else pending co es tasks := by
  by_cases mine : x.co = co
  · simp [pending,mine]
  · simp [pending,mine]

theorem pendingTask {id d : Nat} {timer : List Entry} {tasks : List (Nat × Nat)} :
    (pending co timer ((d,id)::tasks)).Perm
      (if d = co then id :: pending co timer tasks else pending co timer tasks) := by
  by_cases mine : d = co
  · rw [if_pos mine]
    simp only [pending,List.filter_cons,mine,beq_self_eq_true,if_true,List.map_cons]
    exact List.perm_middle
  · rw [if_neg mine]
    simp [pending,mine]

theorem pendingPush {id d : Nat} {timer : List Entry} {tasks : List (Nat × Nat)} :
    (pending co timer (tasks ++ [(d,id)])).Perm
      (if d = co then id :: pending co timer tasks else pending co timer tasks) := by
  refine List.Perm.trans ?_ pendingTask
  exact List.Perm.append_left _ (((List.perm_append_singleton _ _).filter _).map _)

theorem pendingArmed (m : TimerManager) (deadline d freed : Nat) (tasks : List (Nat × Nat)) :
    (pending co (addTimer m deadline d freed).timer tasks).Perm
      (if d = co then m.next :: pending co m.timer tasks else pending co m.timer tasks) := by
  have placed := (((addTimerPerm m deadline d freed).filter (fun e => e.co == co)).map Entry.id).append_right
    ((tasks.filter (fun p => p.1 == co)).map Prod.snd)
  refine List.Perm.trans placed ?_
  change (pending co (⟨m.next,deadline,d⟩ :: m.timer) tasks).Perm _
  rw [pendingEntry]

theorem owedFrame (owed : Owed co s) (status : (t.pool.co co).status = (s.pool.co co).status)
    (waitCtx : (t.pool.co co).waitCtx = (s.pool.co co).waitCtx)
    (same : (pending co t.timers.timer (tasksOf t.phase)).Perm (pending co s.timers.timer (tasksOf s.phase))) :
    Owed co t := by
  rcases owed with own | ⟨none,nothing⟩
  · exact .inl (by rw [status]; exact same.trans own)
  · exact .inr ⟨by rw [waitCtx]; exact none,List.perm_nil.1 (by rwa [nothing] at same)⟩

theorem owedNothing (owed : Owed co s) (awake : timerOf (s.pool.co co).status = none) :
    pending co s.timers.timer (tasksOf s.phase) = [] := by
  rcases owed with own | ⟨_,nothing⟩
  · rw [awake] at own
    exact List.perm_nil.1 own
  · exact nothing

theorem owedAwake (awake : timerOf (s.pool.co co).status = none)
    (nothing : pending co s.timers.timer (tasksOf s.phase) = []) : Owed co s :=
  .inl (by rw [awake,nothing]; exact .refl _)

/- An entry that goes from the list leaves nothing behind. -/
theorem owedLast {id : Nat} {rest : List Nat} (owed : Owed co s)
    (first : (pending co s.timers.timer (tasksOf s.phase)).Perm (id :: rest)) :
    rest = [] ∧ timerOf (s.pool.co co).status = some id := by
  rcases owed with own | ⟨_,nothing⟩
  · have whole := first.symm.trans own
    cases timer : timerOf (s.pool.co co).status with
    | none =>
      rw [timer] at whole
      exact absurd whole.length_eq (by simp)
    | some n =>
      rw [timer] at whole
      cases List.perm_singleton.1 whole
      exact ⟨rfl,rfl⟩
  · rw [nothing] at first
    exact absurd first.length_eq (by simp)

theorem armedOwed {d : Nat} (owed : d ≠ co → Owed co s)
    (awake : d = co → pending co s.timers.timer (tasksOf s.phase) = []) (wait : Wait) (deadline freed : Nat) :
    Owed co (s.armed d wait deadline freed) := by
  have placed := @pendingArmed co s.timers deadline d freed (tasksOf s.phase)
  by_cases mine : d = co
  · subst d
    rw [if_pos rfl,awake rfl] at placed
    refine .inl ?_
    rw [State.armed,setStatusSelf]
    exact placed
  · rw [if_neg mine] at placed
    exact owedFrame (owed mine) (by rw [State.armed,setStatusOther _ _ (Ne.symm mine)])
      (by rw [State.armed,setStatusOther _ _ (Ne.symm mine)]) placed

theorem yieldedOwed {d : Nat} (owed : d ≠ co → Owed co s)
    (awake : d = co → pending co s.timers.timer (tasksOf s.phase) = []) (wait : Wait) : Owed co (s.yielded d wait) := by
  by_cases mine : d = co
  · subst d
    exact owedAwake (by rw [State.yielded,setStatusSelf]; rfl) (awake rfl)
  · exact owedFrame (owed mine) (by rw [State.yielded,setStatusOther _ _ (Ne.symm mine)])
      (by rw [State.yielded,setStatusOther _ _ (Ne.symm mine)]) (.refl _)

/- The running coroutine has no entry, so the one that it arms is its only one. -/
theorem suspendOwed {d : Nat} (slots : Slots s.pool s.running) (run : s.running = some d) (owed : Owed co s) (w : Nat)
    (wait : Wait) (ms freed : Nat) : Owed co ((s.setWaitCtx d w).suspend d wait ms freed) := by
  have other : d ≠ co → Owed co (s.setWaitCtx d w) := by
    intro differ
    refine owedFrame owed (setWaitCtxStatus s d w co) ?_ (.refl _)
    simp [State.setWaitCtx,Pool.set,Function.update_of_ne (Ne.symm differ)]
  have awake : d = co → pending co s.timers.timer (tasksOf s.phase) = [] := by
    rintro rfl
    exact owedNothing owed (by rw [slots.runner d run]; rfl)
  rcases suspendCases (s.setWaitCtx d w) d wait ms freed with yields | arms
  · rw [yields]
    exact yieldedOwed other awake wait
  · rw [arms]
    exact armedOwed other awake wait _ freed

theorem resumedOwed {d : Nat} (owed : Owed co s) (via : Via) (wait : Wait) (phase : Phase)
    (mine : d = co → pending co s.timers.timer (tasksOf phase) = [])
    (other : d ≠ co → (pending co s.timers.timer (tasksOf phase)).Perm (pending co s.timers.timer (tasksOf s.phase))) :
    Owed co (s.resumed via d wait phase) := by
  by_cases same : d = co
  · subst d
    exact owedAwake (by rw [State.resumed,setStatusSelf]; rfl) (mine rfl)
  · exact owedFrame owed (by rw [State.resumed,setStatusOther _ _ (Ne.symm same)])
      (by rw [State.resumed,setStatusOther _ _ (Ne.symm same)]) (other same)

/- What CollectTimeoutTasks erases without collecting it belongs to a coroutine without a wait context. -/
theorem collectOwed (wellFormed : WellFormed s) (owed : Owed co s) (h : step s .collect = some t) : Owed co t := by
  simp only [step] at h
  split at h
  · simp only [loopStep] at h
    split at h <;> try contradiction
    rename_i tasks erases x es phase timer
    split at h <;> try contradiction
    cases Option.some.inj h
    obtain ⟨pool,pushed⟩ := collectEntryCalm wellFormed.calm x tasks
    have before : pending co s.timers.timer (tasksOf s.phase) =
        if x.co = co then x.id :: pending co es tasks else pending co es tasks := by
      rw [timer,phase,tasksOf,pendingEntry]
    cases waited : (s.pool.co x.co).waitCtx.isSome with
    | true =>
      refine owedFrame owed (by rw [pool]) (by rw [pool]) ?_
      rw [before]
      simp only [tasksOf,pushed,waited,if_true]
      exact pendingPush
    | false =>
      have none : (s.pool.co x.co).waitCtx = none := by simpa using waited
      by_cases mine : x.co = co
      · rw [if_pos mine] at before
        obtain ⟨gone,_⟩ := owedLast owed (by rw [before])
        refine .inr ⟨by rw [pool,← mine]; exact none,?_⟩
        simp only [tasksOf,pushed,waited,Bool.false_eq_true,if_false,List.append_nil]
        exact gone
      · rw [if_neg mine] at before
        refine owedFrame owed (by rw [pool]) (by rw [pool]) ?_
        rw [before]
        simp only [tasksOf,pushed,waited,Bool.false_eq_true,if_false,List.append_nil]
        exact .refl _
  · simp only [runningStep] at h
    contradiction

theorem stepOwed (inv : Inv co s) (alone : Alone co s e) (h : step s e = some t) : Owed co t := by
  obtain ⟨slots,wellFormed,owed⟩ := inv
  by_cases collects : e = .collect
  · subst e
    exact collectOwed wellFormed owed h
  have runs : ∀ d, s.running = some d → d = co → pending co s.timers.timer (tasksOf s.phase) = [] := by
    rintro d run rfl
    exact owedNothing owed (by rw [slots.runner d run]; rfl)
  cases stepSource h with
  | dropped | timedOut | fellBack => contradiction
  | ioResumed d timer _ phase _ =>
    refine resumedOwed owed .io .io .io (fun same => pendingNone (alone same) (by simp [tasksOf])) (fun _ => ?_)
    rw [phase]
  | readyResumed d cs wait timer _ phase _ =>
    refine resumedOwed owed .ready wait _ ?_ (fun _ => by rw [phase]; exact .refl _)
    rintro rfl
    exact pendingNone (alone cs phase) (by simp [tasksOf])
  | timeoutResumed d id rest wait timer _ phase _ =>
    have first := @pendingTask co id d s.timers.timer rest
    change (pending co s.timers.timer (tasksOf (.timeouts ((d,id)::rest)))).Perm _ at first
    rw [← phase] at first
    refine resumedOwed owed .timeout wait _ (fun same => ?_) (fun differ => ?_)
    · rw [if_pos same] at first
      exact (owedLast owed first).1
    · rw [if_neg differ] at first
      exact first.symm
  | started f fs rs _ phase =>
    obtain ⟨spare,status,waitCtx,-⟩ := popSpare slots
    by_cases mine : s.pool.pop.1 = co
    · subst co
      have nothing := owedNothing owed (by rw [spare]; rfl)
      rw [phase] at nothing
      exact owedAwake (by rw [setStatusSelf]; rfl) nothing
    · refine owedFrame owed ?_ ?_ (by rw [phase]; exact .refl _)
      · rw [setStatusOther _ _ (Ne.symm mine),status]
      · rw [setStatusOther _ _ (Ne.symm mine),waitCtx]
  | polled _ phase | swapped _ phase | collecting _ phase | finishedLoop _ phase
  | collected tasks erases later clock hint _ phase =>
    exact owedFrame owed rfl rfl (by rw [phase]; exact .refl _)
  | slept d deadline freed wait ev run _ => exact armedOwed (fun _ => owed) (runs d run) wait deadline freed
  | yielded d wait ev run _ => exact yieldedOwed (fun _ => owed) (runs d run) wait
  | queued d m run _ =>
    exact yieldedOwed (s := {s with mutex := Function.update s.mutex m ⟨true,(s.mutex m).waitQueue ++ [d]⟩})
      (fun _ => owed) (runs d run) (.mutex m)
  | read d ch freed onStack run =>
    refine afterReadRule (P := Owed co) (fun _ _ _ _ => owed) ?_ ch _
    intro chan heap w wait ms
    exact suspendOwed (s := {s with chan := chan, heap := heap}) slots run owed w wait ms freed
  | write d ch freed onStack v run _ =>
    refine afterWriteRule (P := Owed co) (fun _ _ _ _ => owed) ?_ ch v _
    intro chan heap w wait ms
    exact suspendOwed (s := {s with chan := chan, heap := heap}) slots run owed w wait ms freed
  | finished d run =>
    by_cases mine : d = co
    · subst d
      exact owedAwake (by change timerOf ((s.pool.setStatus co .idle).co co).status = _; rw [setStatusSelf]; rfl)
        (runs co run rfl)
    · have same : (s.pool.setStatus d .idle).co co = s.pool.co co := setStatusOther _ _ (Ne.symm mine)
      exact owedFrame owed (congrArg Coroutine.status same) (congrArg Coroutine.waitCtx same) (.refl _)
  | locked | passed | unlocked | added | ticked => exact owed

theorem stepKept (inv : Inv co s) (alone : Alone co s e) (h : step s e = some t) : Inv co t :=
  ⟨stepSlots inv.1 (stepSource h),stepWellFormed s e t inv.2.1 h,stepOwed inv alone h⟩

theorem initialInv (c : Config) (co : Nat) : Inv co (initial c) :=
  ⟨initialSlots c,⟨List.Pairwise.nil,fun _ => rfl⟩,.inl (.refl _)⟩

theorem initialFresh (c : Config) : Fresh (initial c) :=
  ⟨by simp [initial,TimerManager.create],by simp [initial,tasksOf]⟩

theorem suspendArmed {wait w : Wait} {ms freed : Nat}
    (armed : ((s.suspend co wait ms freed).pool.co co).status = .suspended w (some n)) :
    (s.suspend co wait ms freed).timers = addTimer s.timers (s.clock + ms) co freed := by
  rcases suspendCases s co wait ms freed with yields | arms
  · rw [yields,State.yielded,setStatusSelf] at armed
    cases armed
  · rw [arms]
    rfl

/- An entry is made for the time limit of the call, from the clock of the call. -/
theorem stepArms {wait : Wait} (h : step s e = some t) (run : s.running = some co) (awake : (s.pool.co co).status = .running)
    (armed : (t.pool.co co).status = .suspended wait (some n)) :
    ∃ freed, t.timers = addTimer s.timers (s.clock + asked s e) co freed := by
  have still : (s.pool.co co).status ≠ .suspended wait (some n) := by rw [awake]; simp
  cases e with
  | sleep ms freed =>
    simp only [step,run,runningStep] at h
    cases Option.some.inj h
    exact ⟨freed,rfl⟩
  | ioWait ms freed =>
    simp only [step,run,runningStep] at h
    cases Option.some.inj h
    exact ⟨freed,suspendArmed armed⟩
  | read ch onStack freed =>
    simp only [step,run,runningStep] at h
    cases Option.some.inj h
    have ms := readMs (s.chan ch) s.heap kInit co onStack
    generalize readSection (s.chan ch) s.heap kInit co onStack = r at ms armed ⊢
    obtain ⟨c,k,out⟩ := r
    cases out with
    | taken v => exact absurd armed still
    | woke v w => exact absurd armed still
    | suspended w =>
      refine ⟨freed,?_⟩
      rw [asked,← ms]
      exact suspendArmed armed
  | write ch onStack v freed =>
    simp only [step,run,runningStep] at h
    split at h <;> try contradiction
    cases Option.some.inj h
    have ms := writeMs (s.chan ch) s.heap kInit co onStack v
    generalize writeSection (s.chan ch) s.heap kInit co onStack v = r at ms armed ⊢
    obtain ⟨c,k,out⟩ := r
    cases out with
    | stored => exact absurd armed still
    | handOff w => exact absurd armed still
    | suspended w =>
      refine ⟨freed,?_⟩
      rw [asked,← ms]
      exact suspendArmed armed
  | lock m =>
    simp only [step,run,runningStep] at h
    split at h <;> cases Option.some.inj h
    · exact absurd armed still
    · rw [setStatusSelf] at armed
      cases armed
  | unLock m =>
    simp only [step,run,runningStep] at h
    split at h <;> cases Option.some.inj h <;> exact absurd armed still
  | finish =>
    simp only [step,run,runningStep] at h
    cases Option.some.inj h
    change ((s.pool.setStatus co .idle).co co).status = _ at armed
    rw [setStatusSelf] at armed
    cases armed
  | go func | tick m =>
    cases Option.some.inj h
    exact absurd armed still
  | _ => simp [step,run,runningStep] at h

theorem armedDeadline {wait : Wait} (inv : Inv co s) (fresh : Fresh s) (run : s.running = some co) (h : step s e = some t)
    (armed : (t.pool.co co).status = .suspended wait (some s.timers.next)) :
    Deadline s.timers.next (s.clock + asked s e) t := by
  obtain ⟨freed,timers⟩ := stepArms h run (inv.1.runner co run) armed
  refine ⟨by rw [timers]; exact Nat.lt_succ_self _,?_,?_⟩
  · intro x hx same
    rw [timers] at hx
    rcases addTimerMem.1 hx with rfl | old
    · rfl
    · exact absurd same (Nat.ne_of_lt (fresh.1 x old))
  · intro p hp same
    rw [(runningFrame run (stepSource h)).1] at hp
    exact absurd same (Nat.ne_of_lt (fresh.2 p hp))

theorem pendingMem {timer : List Entry} {tasks : List (Nat × Nat)} (inside : n ∈ pending co timer tasks) :
    (∃ x ∈ timer, x.co = co ∧ x.id = n) ∨ (co,n) ∈ tasks := by
  simp only [pending,List.mem_append,List.mem_map,List.mem_filter,beq_iff_eq] at inside
  rcases inside with ⟨x,⟨hx,mine⟩,same⟩ | ⟨⟨d,id⟩,⟨hp,rfl⟩,rfl⟩
  · exact .inl ⟨x,hx,mine,same⟩
  · exact .inr hp

/- The scan has ended at an entry that is not due, and those behind it are due later. -/
theorem doneCollects {later : Nat} (inv : Inv co s) (due : Deadline n deadline s)
    (timer : timerOf (s.pool.co co).status = some n) (waited : (s.pool.co co).waitCtx ≠ none) (passed : deadline ≤ s.clock)
    (h : step s (.collectDone later) = some t) : (co,n) ∈ tasksOf t.phase := by
  obtain ⟨slots,wellFormed,owed⟩ := inv
  have own : n ∈ pending co s.timers.timer (tasksOf s.phase) := by
    rcases owed with own | ⟨none,_⟩
    · exact own.mem_iff.2 (by simp [timer])
    · exact absurd none waited
  simp only [step] at h
  split at h
  · simp only [loopStep] at h
    split at h <;> try contradiction
    · rename_i tasks _ phase empty
      cases Option.some.inj h
      rw [phase,empty] at own
      rcases pendingMem own with ⟨x,hx,_⟩ | collected
      · contradiction
      · exact collected
    · rename_i tasks erases x es phase shape
      split at h <;> try contradiction
      rename_i early
      cases Option.some.inj h
      rw [phase] at own
      rcases pendingMem own with ⟨y,hy,_,same⟩ | collected
      · have least := sortedHead (shape ▸ wellFormed.sorted) y (shape ▸ hy)
        have exact_ := due.entry y hy same
        omega
      · exact collected
  · simp only [runningStep] at h
    contradiction

end

end TitCo.TimedWait
