import TitCo.Scheduler
import TitCo.TimerHint

/-! CollectTimeoutTasks as a whole: the entries that the scan passes, what it does to their
coroutines, and the tasks that it makes of them. Every turn of the loop makes a reading of the
clock of its own. -/
namespace TitCo.TimeoutScan
open Channel MachineInt Scheduler Timers Transition

/-- The loop, with the tasks there already. -/
def scan (clock : Nat → Nat) (s : State) : List Entry → Nat → List (Nat × Nat) → State × List (Nat × Nat)
  | [],_,tasks => (s,tasks)
  | e::es,k,tasks =>
      if clock k < e.deadline then (s,tasks)
      else scan clock (collectEntry s e tasks).1 es (k+1) (collectEntry s e tasks).2

/-- With the result. The coroutines are not in timer_, so its part stands by itself. -/
def collectTimeoutTasks (clock : Nat → Nat) (s : State) (k : Nat) (tasks : List (Nat × Nat)) :
    State × List (Nat × Nat) × Nat :=
  let r := scan clock s s.timers.timer k tasks
  let m := TimerHint.collectTimeoutTasks clock ⟨s.timers,k⟩
  ({r.1 with timers := m.1.manager},r.2,m.2)

/-- The entries that the readings find due, one after another. -/
def due (clock : Nat → Nat) : List Entry → Nat → List Entry
  | [],_ => []
  | e::es,k => if clock k < e.deadline then [] else e::due clock es (k+1)

/-- The coroutine is still suspended in the wait that armed the entry; a channel wait
has a wait context that nobody has claimed. -/
def waiting (s : State) (e : Entry) : Bool :=
  match (s.pool.co e.co).status with
  | .suspended .sleep timer | .suspended .io timer => timer == some e.id
  | .suspended (.read w) timer | .suspended (.write w) timer =>
      timer == some e.id && (s.heap.ctx w).state == kInit
  | _ => false

/-- timer_ is in order, and state_ holds what every assignment to it writes. -/
structure WellFormed (s : State) : Prop where
  sorted : Sorted s.timers.timer
  calm : ∀ co, (s.pool.co co).state = kInit

/-- No entry goes before its time, and none goes without its sleeper. -/
structure Collects (clock : Nat → Nat) (s : State) (k : Nat) (erased kept : List Entry) (more : List (Nat × Nat)) :
    Prop where
  passed : ∀ i e, erased[i]? = some e → e.deadline ≤ clock (k+i)
  later : ∀ e ∈ kept, clock (k+erased.length) < e.deadline
  once : ∀ e ∈ erased, waiting s e = true → (more.map Prod.fst).count e.co = 1
  sorted : Sorted erased
  ordered : ((erased.filter (waiting s)).map Entry.co).Sublist (more.map Prod.fst)

def LosesNone (clock : Nat → Nat) (s : State) (k : Nat) (tasks : List (Nat × Nat)) : Prop :=
  ∃ erased more, s.timers.timer = erased ++ (collectTimeoutTasks clock s k tasks).1.timers.timer ∧
    (collectTimeoutTasks clock s k tasks).2.1 = tasks ++ more ∧
    Collects clock s k erased (collectTimeoutTasks clock s k tasks).1.timers.timer more

/-- A sleeper has waited on a channel before, and no other due entry is for it. -/
def Single (clock : Nat → Nat) (s : State) (k : Nat) : Prop :=
  ∀ e ∈ due clock s.timers.timer k, waiting s e = true →
    (s.pool.co e.co).waitCtx ≠ none ∧ ((due clock s.timers.timer k).map Entry.co).count e.co = 1

section
variable {clock : Nat → Nat} {s t : State} {timer : List Entry} {k : Nat} {tasks : List (Nat × Nat)} {e : Entry}

theorem dueScan (clock : Nat → Nat) (timer : List Entry) (k : Nat) :
    due clock timer k = timer.take (TimerHint.scan clock timer k).1 := by
  induction timer generalizing k with
  | nil => rfl
  | cons e es ih =>
    simp only [due,TimerHint.scan]
    split
    · rfl
    · rw [ih (k+1),List.take_succ_cons]

theorem dueKept (clock : Nat → Nat) (s : State) (k : Nat) (tasks : List (Nat × Nat)) :
    s.timers.timer = due clock s.timers.timer k ++ (collectTimeoutTasks clock s k tasks).1.timers.timer := by
  obtain ⟨_,kept⟩ := TimerHint.collectSource clock ⟨s.timers,k⟩
  simp only [collectTimeoutTasks,kept,dueScan]
  exact (List.take_append_drop _ _).symm

theorem duePassed {i : Nat} (inside : (due clock timer k)[i]? = some e) : e.deadline ≤ clock (k+i) := by
  induction timer generalizing k i with
  | nil => simp [due] at inside
  | cons x xs ih =>
    simp only [due] at inside
    split at inside
    · simp at inside
    · rename_i early
      cases i with
      | zero =>
        simp only [List.getElem?_cons_zero,Option.some.injEq] at inside
        subst x
        simpa using early
      | succ i =>
        rw [List.getElem?_cons_succ] at inside
        have rest := ih inside
        rwa [show k+1+i = k+(i+1) by omega] at rest

/- The scan stops at the first entry that is not due, and the others are due later still. -/
theorem dueLater (sorted : Sorted timer) {kept : List Entry} (split : timer = due clock timer k ++ kept) :
    ∀ e ∈ kept, clock (k+(due clock timer k).length) < e.deadline := by
  induction timer generalizing k with
  | nil =>
    obtain ⟨_,rfl⟩ := List.append_eq_nil_iff.1 split.symm
    simp
  | cons x xs ih =>
    simp only [due] at split ⊢
    split at split
    · rename_i late
      rw [List.nil_append] at split
      subst kept
      intro e inside
      have least := sortedHead sorted e inside
      simp only [if_pos late,List.length_nil,Nat.add_zero]
      omega
    · rename_i early
      rw [List.cons_append] at split
      have rest := ih (List.pairwise_cons.1 sorted).2 (List.cons.inj split).2
      intro e inside
      have bound := rest e inside
      rw [if_neg early,List.length_cons]
      rwa [show k+1+(due clock xs (k+1)).length = k+((due clock xs (k+1)).length+1) by omega] at bound

/- With state_ at kInit a due entry is lost only through the test of wait_ctx_. -/
theorem collectEntryCalm (calm : ∀ co, (s.pool.co co).state = kInit) (e : Entry) (tasks : List (Nat × Nat)) :
    (collectEntry s e tasks).1.pool = s.pool ∧
    (collectEntry s e tasks).2 = tasks ++ if (s.pool.co e.co).waitCtx.isSome then [(e.co,e.id)] else [] := by
  simp only [collectEntry]
  cases (s.pool.co e.co).waitCtx with
  | none => simp
  | some w =>
    simp only [calm e.co,if_true,Option.isSome_some]
    split <;> exact ⟨rfl,rfl⟩

theorem scanCalm (calm : ∀ co, (s.pool.co co).state = kInit) (timer : List Entry) (k : Nat) (tasks : List (Nat × Nat)) :
    (scan clock s timer k tasks).2 = tasks ++
      ((due clock timer k).filter (fun e => (s.pool.co e.co).waitCtx.isSome)).map (fun e => (e.co,e.id)) := by
  induction timer generalizing s k tasks with
  | nil => simp [scan,due]
  | cons e es ih =>
    obtain ⟨pool,pushed⟩ := collectEntryCalm calm e tasks
    simp only [scan,due]
    split
    · simp
    · rw [ih (by rwa [pool]),pool,pushed,List.append_assoc]
      by_cases waited : (s.pool.co e.co).waitCtx.isSome = true
      · simp [waited]
      · simp [waited]

theorem countCollected (due : List Entry) (waited : Nat → Bool) (co : Nat) :
    (((due.filter (fun e => waited e.co)).map (fun e => (e.co,e.id))).map Prod.fst).count co =
      if waited co then (due.map Entry.co).count co else 0 := by
  have shape : (due.filter (fun e => waited e.co)).map Entry.co = (due.map Entry.co).filter waited :=
    List.filter_map.symm
  rw [List.map_map]
  change ((due.filter (fun e => waited e.co)).map Entry.co).count co = _
  rw [shape]
  split
  · rename_i yes
    exact List.count_filter yes
  · rename_i no
    refine List.count_eq_zero.2 ?_
    intro inside
    exact no (List.mem_filter.1 inside).2

/- The coroutine of a due sleeper is in the tasks as often as it has due entries, or never if it
has not waited on a channel. -/
theorem collectsIff (wellFormed : WellFormed s) {kept : List Entry} (split : s.timers.timer = due clock s.timers.timer k ++ kept) :
    Collects clock s k (due clock s.timers.timer k) kept
      (((due clock s.timers.timer k).filter (fun e => (s.pool.co e.co).waitCtx.isSome)).map (fun e => (e.co,e.id))) ↔
    Single clock s k := by
  have count := countCollected (due clock s.timers.timer k) (fun co => (s.pool.co co).waitCtx.isSome)
  constructor
  · intro collects e inside sleeper
    have once := collects.once e inside sleeper
    rw [count] at once
    split at once
    · rename_i waited
      exact ⟨Option.isSome_iff_ne_none.1 waited,once⟩
    · contradiction
  · intro single
    have sorted := wellFormed.sorted
    rw [split] at sorted
    refine ⟨fun _ _ => duePassed,dueLater wellFormed.sorted split,?_,(List.pairwise_append.1 sorted).1,?_⟩
    · intro e inside sleeper
      obtain ⟨waited,once⟩ := single e inside sleeper
      rw [count,if_pos (Option.isSome_iff_ne_none.2 waited)]
      exact once
    · rw [List.map_map]
      refine List.Sublist.map Entry.co ?_
      have both : (due clock s.timers.timer k).filter (waiting s) =
          ((due clock s.timers.timer k).filter (fun e => (s.pool.co e.co).waitCtx.isSome)).filter (waiting s) := by
        rw [List.filter_filter]
        refine List.filter_congr ?_
        intro e inside
        cases sleeper : waiting s e with
        | false => rfl
        | true => simp [Option.isSome_iff_ne_none.2 (single e inside sleeper).1]
      rw [both]
      exact List.filter_sublist

theorem setCalm {p : Pool} (calm : ∀ co, (p.co co).state = kInit) {co : Nat} {c : Coroutine} (kept : c.state = kInit) (d : Nat) :
    ((p.set co c).co d).state = kInit := by
  by_cases same : d = co
  · subst d
    simpa [Pool.set] using kept
  · simpa [Pool.set,Function.update_of_ne same] using calm d

theorem popCalm {p : Pool} (calm : ∀ co, (p.co co).state = kInit) (d : Nat) : ((p.pop.2).co d).state = kInit := by
  unfold Pool.pop
  split
  · exact calm d
  · exact setCalm (p := p) calm (c := {p.co _ with state := kInit}) rfl d

theorem suspendWellFormed (wellFormed : WellFormed s) (co : Nat) (wait : Wait) (ms freed : Nat) :
    WellFormed (s.suspend co wait ms freed) := by
  rcases suspendCases s co wait ms freed with yields | arms
  · rw [yields]
    exact ⟨wellFormed.sorted,setCalm wellFormed.calm (wellFormed.calm co)⟩
  · rw [arms]
    exact ⟨addTimerSorted wellFormed.sorted _ co freed,setCalm wellFormed.calm (wellFormed.calm co)⟩

theorem setWaitCtxWellFormed (wellFormed : WellFormed s) (co w : Nat) : WellFormed (s.setWaitCtx co w) :=
  ⟨wellFormed.sorted,setCalm wellFormed.calm (wellFormed.calm co)⟩

theorem collectWellFormed {es : List Entry} (wellFormed : WellFormed s) (shape : s.timers.timer = e::es) (phase : Phase) :
    WellFormed {(collectEntry s e tasks).1 with timers := {s.timers with timer := es}, phase := phase} := by
  have sorted := wellFormed.sorted
  rw [shape] at sorted
  refine ⟨(List.pairwise_cons.1 sorted).2,?_⟩
  intro co
  change ((collectEntry s e tasks).1.pool.co co).state = kInit
  rw [(collectEntryCalm wellFormed.calm e tasks).1]
  exact wellFormed.calm co

theorem stepCollect (wellFormed : WellFormed s) (h : step s .collect = some t) : WellFormed t := by
  simp only [step] at h
  split at h
  · simp only [loopStep] at h
    split at h
    · rename_i tasks erases e es phase shape
      split at h <;> try contradiction
      cases Option.some.inj h
      exact collectWellFormed wellFormed shape _
    · contradiction
  · simp only [runningStep] at h
    contradiction

/- Every other step leaves state_ alone, except for the Init of a reused slot. -/
theorem stepWellFormed (s : State) (e : Scheduler.Event) (t : State) (wellFormed : WellFormed s) (h : step s e = some t) :
    WellFormed t := by
  by_cases collects : e = .collect
  · subst e
    exact stepCollect wellFormed h
  have woken : ∀ (co : Nat) (via : Via) (wait : Wait) (phase : Phase), WellFormed (s.resumed via co wait phase) :=
    fun co _ _ _ => ⟨wellFormed.sorted,setCalm wellFormed.calm (wellFormed.calm co)⟩
  have asleep : ∀ (x : State), WellFormed x → ∀ (co : Nat) (wait : Wait), WellFormed (x.yielded co wait) :=
    fun x kept co _ => ⟨kept.sorted,setCalm kept.calm (kept.calm co)⟩
  have kept : ∀ chan heap taskMgr handed,
      WellFormed {s with chan := chan, heap := heap, taskMgr := taskMgr, handed := handed} :=
    fun _ _ _ _ => ⟨wellFormed.sorted,wellFormed.calm⟩
  have parked : ∀ (co freed : Nat) chan heap w wait ms,
      WellFormed ((State.setWaitCtx {s with chan := chan, heap := heap} co w).suspend co wait ms freed) :=
    fun co freed chan heap w wait ms =>
      suspendWellFormed (setWaitCtxWellFormed (kept chan heap s.taskMgr s.handed) co w) co wait ms freed
  cases stepSource h with
  | dropped | timedOut | fellBack => contradiction
  | ioResumed co timer => exact woken co .io .io .io
  | readyResumed co cs wait timer => exact woken co .ready wait _
  | timeoutResumed co id rest wait timer => exact woken co .timeout wait _
  | started f fs rs => exact ⟨wellFormed.sorted,setCalm (popCalm wellFormed.calm) (popCalm wellFormed.calm _)⟩
  | slept co deadline freed wait ev =>
    exact ⟨addTimerSorted wellFormed.sorted deadline co freed,setCalm wellFormed.calm (wellFormed.calm co)⟩
  | yielded co wait ev => exact asleep s wellFormed co wait
  | read co ch freed onStack => exact afterReadRule (fun _ _ _ _ => kept _ _ _ _) (parked co freed) ch _
  | write co ch freed onStack v => exact afterWriteRule (fun _ _ _ _ => kept _ _ _ _) (parked co freed) ch v _
  | queued co m =>
    exact asleep {s with mutex := Function.update s.mutex m ⟨true,(s.mutex m).waitQueue ++ [co]⟩}
      ⟨wellFormed.sorted,wellFormed.calm⟩ co (.mutex m)
  | finished co => exact ⟨wellFormed.sorted,setCalm wellFormed.calm (wellFormed.calm co)⟩
  | _ => exact ⟨wellFormed.sorted,wellFormed.calm⟩

/- The states that a run of Loop reaches. -/
theorem runWellFormed {c : Config} {es : List Scheduler.Event} (h : run step (initial c) es = some s) : WellFormed s :=
  runInvariant stepWellFormed h ⟨List.Pairwise.nil,fun _ => rfl⟩

end

/-- For every timer_ in order and all readings of the clock: the call erases the due entries, keeps
the later ones and queues every sleeper among them once, in the order of the deadlines, exactly
when each of these has a wait_ctx_ and no second due entry. -/
theorem sleepersCollected (clock : Nat → Nat) (s : State) (k : Nat) (tasks : List (Nat × Nat))
    (wellFormed : WellFormed s) : LosesNone clock s k tasks ↔ Single clock s k := by
  have split := dueKept clock s k tasks
  have queued : (collectTimeoutTasks clock s k tasks).2.1 = _ := scanCalm wellFormed.calm s.timers.timer k tasks
  rw [← collectsIff wellFormed split]
  constructor
  · rintro ⟨erased,more,whole,pushed,collects⟩
    have sameErased := List.append_cancel_right (whole.symm.trans split)
    have sameMore := List.append_cancel_left (pushed.symm.trans queued)
    rwa [sameErased,sameMore] at collects
  · intro collects
    exact ⟨_,_,split,queued,collects⟩

/- A read that has waited for ten milliseconds. -/
theorem readerCollected : ∃ s, run step (initial tenMs) [.go 0,.wait,.getAllTasks,.newTask,.read 0 false 0] = some s ∧
    (LosesNone (fun _ => 10) s 0 [] ↔ Single (fun _ => 10) s 0) := by
  have reached : run step (initial tenMs) [.go 0,.wait,.getAllTasks,.newTask,.read 0 false 0] = some _ := rfl
  exact ⟨_,reached,sleepersCollected _ _ 0 [] (runWellFormed reached)⟩

/-- The coroutine of a first task sleeps, and has never waited on a channel. -/
theorem firstSleepLost : ¬ ∀ (clock : Nat → Nat) (c : Config) (es : List Scheduler.Event) (s : State) (k : Nat),
    (∀ i j, i ≤ j → clock i ≤ clock j) → run step (initial c) es = some s → LosesNone clock s k [] := by
  intro claim
  obtain ⟨erased,more,whole,pushed,collects⟩ :=
    claim (fun _ => 5) tenMs [.go 0,.wait,.getAllTasks,.newTask,.sleep 5 0] _ 0 (fun _ _ _ => Nat.le_refl 5) rfl
  have one : [(⟨0,5,1⟩ : Entry)] = erased ++ [] := whole
  have nothing : [] = [] ++ more := pushed
  rw [List.append_nil] at one
  subst erased
  rw [List.nil_append] at nothing
  subst more
  exact absurd (collects.once ⟨0,5,1⟩ (by simp) rfl) (by simp)

end TitCo.TimeoutScan
