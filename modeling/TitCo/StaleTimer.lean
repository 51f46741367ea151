import TitCo.Scheduler

/-! Which call a collected coroutine is suspended in when Loop resumes it. Entries leave
timer_ only by expiry: a wait that ends through an IO event or a ready task leaves its
entry behind. -/
namespace TitCo.StaleTimer
open Channel MachineInt Queue Scheduler Timers Transition

/-- Whenever Loop is about to resume a collected coroutine, it is still suspended in the
call that armed the entry it was collected for. -/
def Timely (s : State) : Prop :=
  ∀ co id rest, s.phase = .timeouts ((co,id)::rest) → s.running = none →
    ∃ wait, (s.pool.co co).status = .suspended wait (some id)

/-- No IO event or ready task ends a wait whose entry is still in timer_. -/
def Settled (s : State) : Event → Prop
  | .ioEvent co => ∀ e ∈ s.timers.timer, e.co ≠ co
  | .readyTask => ∀ co cs, s.phase = .tasks [] (co::cs) → ∀ e ∈ s.timers.timer, e.co ≠ co
  | _ => True

def tasksOf : Phase → List (Nat × Nat)
  | .collect tasks _ => tasks
  | .timeouts tasks => tasks
  | _ => []

/-- The entries and the collected coroutines with the calls that armed them. -/
structure Live (timer : List Entry) (next : Nat) (tasks : List (Nat × Nat)) (status : Nat → Status) : Prop where
  armed : ∀ e ∈ timer, ∃ wait, status e.co = .suspended wait (some e.id)
  collected : ∀ p ∈ tasks, ∃ wait, status p.1 = .suspended wait (some p.2)
  distinct : ∀ e ∈ timer, ∀ p ∈ tasks, e.id ≠ p.2
  once : (tasks.map Prod.snd).Nodup
  single : (timer.map Entry.id).Nodup
  fresh : (∀ e ∈ timer, e.id < next) ∧ ∀ p ∈ tasks, p.2 < next

def Inv (s : State) : Prop :=
  Slots s.pool s.running ∧
  Live s.timers.timer s.timers.next (tasksOf s.phase) (fun co => (s.pool.co co).status)

section Live
variable {timer es : List Entry} {next : Nat} {tasks : List (Nat × Nat)} {status after : Nat → Status} {co : Nat}

theorem liveOther (live : Live timer next tasks status) (same : ∀ d, d ≠ co → after d = status d)
    (clear : ∀ e ∈ timer, e.co ≠ co) (out : ∀ p ∈ tasks, p.1 ≠ co) : Live timer next tasks after := by
  refine ⟨?_,?_,live.distinct,live.once,live.single,live.fresh⟩
  · intro e he
    rw [same e.co (clear e he)]
    exact live.armed e he
  · intro p hp
    rw [same p.1 (out p hp)]
    exact live.collected p hp

theorem liveClear (live : Live timer next tasks status)
    (awake : ∀ wait id, status co ≠ .suspended wait (some id)) :
    (∀ e ∈ timer, e.co ≠ co) ∧ ∀ p ∈ tasks, p.1 ≠ co := by
  constructor
  · rintro e he rfl
    obtain ⟨wait,asleep⟩ := live.armed e he
    exact awake wait e.id asleep
  · rintro p hp rfl
    obtain ⟨wait,asleep⟩ := live.collected p hp
    exact awake wait p.2 asleep

theorem liveAwake (co : Nat) (live : Live timer next tasks status) (same : ∀ d, d ≠ co → after d = status d)
    (awake : ∀ wait id, status co ≠ .suspended wait (some id)) : Live timer next tasks after := by
  obtain ⟨clear,out⟩ := liveClear live awake
  exact liveOther live same clear out

theorem liveDrop {e : Entry} (live : Live (e::es) next tasks status) : Live es next tasks status := by
  refine ⟨fun x hx => live.armed x (by simp [hx]),live.collected,fun x hx => live.distinct x (by simp [hx]),
    live.once,(List.nodup_cons.1 live.single).2,fun x hx => live.fresh.1 x (by simp [hx]),live.fresh.2⟩

theorem liveCollect {e : Entry} (live : Live (e::es) next tasks status) :
    Live es next (tasks ++ [(e.co,e.id)]) status := by
  have rest := liveDrop live
  have head := List.nodup_cons.1 live.single
  refine ⟨rest.armed,?_,?_,?_,rest.single,rest.fresh.1,?_⟩
  · refine allPush (fun p inside => ?_) ?_
    · exact live.collected p inside
    · exact live.armed e (by simp)
  · intro x hx p hp
    rcases List.mem_append.1 hp with inside | last
    · exact rest.distinct x hx p inside
    · cases List.mem_singleton.1 last
      intro same
      exact head.1 (List.mem_map.2 ⟨x,hx,same⟩)
  · rw [List.map_append]
    refine nodupPush live.once ?_
    intro hi
    obtain ⟨p,hp,same⟩ := List.mem_map.1 hi
    exact live.distinct e (by simp) p hp same.symm
  · refine allPush (fun p inside => ?_) ?_
    · exact live.fresh.2 p inside
    · exact live.fresh.1 e (by simp)

theorem liveResume {id : Nat} {rest : List (Nat × Nat)} (live : Live timer next ((co,id)::rest) status)
    (same : ∀ d, d ≠ co → after d = status d) : Live timer next rest after := by
  obtain ⟨wait,asleep⟩ := live.collected (co,id) (by simp)
  have once := List.nodup_cons.1 live.once
  have tail : Live timer next rest status :=
    ⟨live.armed,fun p hp => live.collected p (by simp [hp]),fun e he p hp => live.distinct e he p (by simp [hp]),
      once.2,live.single,live.fresh.1,fun p hp => live.fresh.2 p (by simp [hp])⟩
  refine liveOther tail same ?_ ?_
  · rintro e he rfl
    obtain ⟨_,other⟩ := live.armed e he
    cases other.symm.trans asleep
    exact live.distinct e he (e.co,e.id) (by simp) rfl
  · rintro p hp rfl
    obtain ⟨_,other⟩ := live.collected p (by simp [hp])
    cases other.symm.trans asleep
    exact once.1 (List.mem_map_of_mem hp)

theorem liveArm {m : TimerManager} {deadline freed : Nat} {wait : Wait} (live : Live m.timer m.next tasks status)
    (awake : ∀ wait id, status co ≠ .suspended wait (some id)) (same : ∀ d, d ≠ co → after d = status d)
    (mine : after co = .suspended wait (some m.next)) :
    Live (addTimer m deadline co freed).timer (addTimer m deadline co freed).next tasks after := by
  have kept := liveAwake co live same awake
  refine ⟨?_,kept.collected,?_,kept.once,?_,?_,?_⟩
  · intro e he
    rcases addTimerMem.1 he with rfl | old
    · exact ⟨wait,mine⟩
    · exact kept.armed e old
  · intro e he p hp
    rcases addTimerMem.1 he with rfl | old
    · exact Nat.ne_of_gt (live.fresh.2 p hp)
    · exact live.distinct e old p hp
  · rw [((addTimerPerm m deadline co freed).map Entry.id).nodup_iff,List.map_cons,List.nodup_cons]
    refine ⟨?_,live.single⟩
    intro inside
    obtain ⟨e,he,same⟩ := List.mem_map.1 inside
    have less := live.fresh.1 e he
    simp only at same
    omega
  · intro e he
    change e.id < m.next+1
    rcases addTimerMem.1 he with rfl | old
    · exact Nat.lt_succ_self _
    · exact Nat.lt_succ_of_lt (live.fresh.1 e old)
  · intro p hp
    exact Nat.lt_succ_of_lt (live.fresh.2 p hp)

end Live

section Steps
variable {s t : State} {co : Nat}

theorem runnerAwake (slots : Slots s.pool s.running) (run : s.running = some co) :
    ∀ wait id, (s.pool.co co).status ≠ .suspended wait (some id) := by
  intro wait id asleep
  rw [slots.runner co run] at asleep
  contradiction

theorem armedKeeps (inv : Inv s) (run : s.running = some co) (wait : Wait) (deadline freed : Nat) :
    Inv (s.armed co wait deadline freed) :=
  ⟨slotsArmed inv.1 run wait deadline freed,liveArm inv.2 (runnerAwake inv.1 run)
    (fun d differ => by rw [State.armed,setStatusOther _ _ differ]) (setStatusSelf _ _ _)⟩

theorem yieldedKeeps (inv : Inv s) (run : s.running = some co) (wait : Wait) : Inv (s.yielded co wait) :=
  ⟨slotsYielded inv.1 run wait,
    liveAwake co inv.2 (fun d differ => by rw [State.yielded,setStatusOther _ _ differ]) (runnerAwake inv.1 run)⟩

theorem suspendKeeps (inv : Inv s) (run : s.running = some co) (wait : Wait) (w ms freed : Nat) :
    Inv ((s.setWaitCtx co w).suspend co wait ms freed) := by
  have kept : Inv (s.setWaitCtx co w) := by
    refine ⟨slotsSame inv.1 (setWaitCtxStatus s co w) rfl rfl,?_⟩
    simp only [setWaitCtxStatus]
    exact inv.2
  rcases suspendCases (s.setWaitCtx co w) co wait ms freed with yields | arms
  · rw [yields]
    exact yieldedKeeps kept run wait
  · rw [arms]
    exact armedKeeps kept run wait _ freed

theorem resumedKeeps (inv : Inv s) {via : Via} {wait : Wait} {timer : Option Nat} {phase : Phase}
    (asleep : (s.pool.co co).status = .suspended wait timer) (tasks : tasksOf s.phase = [])
    (after : tasksOf phase = []) (clear : ∀ e ∈ s.timers.timer, e.co ≠ co) : Inv (s.resumed via co wait phase) := by
  refine ⟨slotsResumed inv.1 via phase asleep,?_⟩
  have live := inv.2
  rw [tasks] at live
  simp only [State.resumed,after]
  exact liveOther live (fun d differ => by rw [setStatusOther _ _ differ]) clear (by simp)

theorem stepKeeps {e : Event} (inv : Inv s) (settled : Settled s e) (h : step s e = some t) : Inv t := by
  have source := stepSource h
  refine ⟨stepSlots inv.1 source,?_⟩
  cases source with
  | ioResumed co timer free phase asleep =>
    exact (resumedKeeps inv asleep (by rw [phase]; rfl) rfl settled).2
  | readyResumed co cs wait timer free phase asleep =>
    exact (resumedKeeps inv asleep (by rw [phase]; rfl) rfl (settled co cs phase)).2
  | started f fs rs free phase =>
    have live := inv.2
    obtain ⟨spare,status,_⟩ := popSpare inv.1
    rw [phase] at live
    refine liveAwake s.pool.pop.1 live ?_ ?_
    · intro d differ
      rw [setStatusOther _ _ differ,status]
    · intro wait id asleep
      rw [spare] at asleep
      contradiction
  | polled free phase | swapped free phase | collecting free phase | finishedLoop free phase
  | collected tasks erases later clock hint free phase =>
    have live := inv.2
    rw [phase] at live
    exact live
  | dropped e es tasks erases free phase timer due none =>
    have live := inv.2
    rw [phase,timer] at live
    exact liveDrop live
  | timedOut e es tasks erases w free phase timer due ctx won =>
    have live := inv.2
    rw [phase,timer] at live
    exact liveCollect live
  | fellBack e es tasks erases w pool more free phase timer due ctx lost same pushed =>
    have live := inv.2
    rw [phase,timer] at live
    simp only [(same.2.2 _).1]
    rcases pushed with rfl | rfl
    · exact liveDrop live
    · exact liveCollect live
  | timeoutResumed co id rest wait timer free phase asleep =>
    have live := inv.2
    rw [phase] at live
    exact liveResume live (fun d differ => by rw [State.resumed,setStatusOther _ _ differ])
  | slept co deadline freed wait ev run kind => exact (armedKeeps inv run wait deadline freed).2
  | yielded co wait ev run kind => exact (yieldedKeeps inv run wait).2
  | read co ch freed onStack run =>
    refine (afterReadRule (P := Inv) (fun _ _ _ _ => inv) ?_ ch _).2
    intro chan heap w wait ms
    exact suspendKeeps (s := {s with chan := chan, heap := heap}) inv run wait w ms freed
  | write co ch freed onStack v run size =>
    refine (afterWriteRule (P := Inv) (fun _ _ _ _ => inv) ?_ ch v _).2
    intro chan heap w wait ms
    exact suspendKeeps (s := {s with chan := chan, heap := heap}) inv run wait w ms freed
  | queued co m run busy =>
    exact (yieldedKeeps (s := {s with mutex := Function.update s.mutex m ⟨true,(s.mutex m).waitQueue ++ [co]⟩})
      inv run (.mutex m)).2
  | finished co run =>
    refine liveAwake co inv.2 ?_ (runnerAwake inv.1 run)
    intro d differ
    change ((s.pool.setStatus co .idle).co d).status = _
    rw [setStatusOther _ _ differ]
  | locked | passed | unlocked | added | ticked => exact inv.2

theorem initialInv (c : Config) : Inv (initial c) :=
  ⟨initialSlots c,by simp [initial,TimerManager.create],by simp [initial,tasksOf],by simp [initial,TimerManager.create],
    by simp [initial,tasksOf],by simp [initial,TimerManager.create],by simp [initial,TimerManager.create],
    by simp [initial,tasksOf]⟩

end Steps

end TitCo.StaleTimer
