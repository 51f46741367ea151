import TitCo.CoMutex
import TitCo.Settling

/-! The coroutine mutex is free of deadlocks: when no coroutine locks it once more while it holds it,
and holders do unlock it, everybody who waits gets it and leaves. -/
namespace TitCo.MutexDrain
open CoMutex Settling Transition

/-- Nobody waits for itself. -/
def NotOwn (s : State) : Event → Prop
  | .lock co => s.holds co = false
  | _ => True

def Leaving : Event → Prop
  | .lock _ => False
  | .tryLock _ => False
  | _ => True

def weight : Pc → Nat
  | .pushed => 1
  | .waking _ => 2
  | _ => 0

@[simp] theorem weightOut : weight .out = 0 := rfl
@[simp] theorem weightPushed : weight .pushed = 1 := rfl
@[simp] theorem weightAsleep : weight .asleep = 0 := rfl
@[simp] theorem weightWaking (co : Nat) : weight (.waking co) = 2 := rfl

def rank (n : Nat) (s : State) : Nat :=
  4 * s.mutex.waitQueue.length + s.mutex.lock.toNat + ∑ co ∈ Finset.range n, weight (s.pc co) +
    ∑ co ∈ Finset.range n, (s.granted co).toNat

/- Who is in a call or holds the mutex is below `n`, and a holder in Lock has been let in. -/
structure Orderly (home : Nat → Nat) (n : Nat) (s : State) : Prop where
  inv : Inv home s
  users : ∀ co, n ≤ co → s.pc co = .out
  holders : ∀ co, s.holds co = true → co < n
  letIn : ∀ co, s.holds co = true → (s.pc co).inLock = true → s.granted co = true

section
variable {home : Nat → Nat} {n : Nat} {s t : State}

theorem userBelow (orderly : Orderly home n s) {co : Nat} (busy : s.pc co ≠ .out) : co < n := by
  by_contra above
  exact busy (orderly.users co (by omega))

theorem usersMoved (users : ∀ co, n ≤ co → s.pc co = .out) {co : Nat} {p : Pc} (less : co < n) :
    ∀ d, n ≤ d → Function.update s.pc co p d = .out := by
  intro d above
  rw [Function.update_of_ne (by omega)]
  exact users d above

/- A step that leaves its own coroutine outside, or out of the holders, lets nobody in unnoticed. -/
theorem letInMoved (letIn : ∀ co, s.holds co = true → (s.pc co).inLock = true → s.granted co = true) {co : Nat} {p : Pc}
    (fits : p.inLock = true → s.holds co = true → s.granted co = true) :
    ∀ c, s.holds c = true → (Function.update s.pc co p c).inLock = true → s.granted c = true := by
  intro c held inside
  by_cases same : c = co
  · subst c
    exact fits (by simpa using inside) held
  · exact letIn c held (by simpa [Function.update_of_ne same] using inside)

theorem wider (orderly : Orderly home n s) {k : Nat} (wide : n ≤ k) : Orderly home k s :=
  ⟨orderly.inv,fun co above => orderly.users co (by omega),fun co held => by have := orderly.holders co held; omega,
    orderly.letIn⟩

theorem takenKept (orderly : Orderly home n s) {co : Nat} (out : s.pc co = .out) (less : co < n)
    (free : s.mutex.lock = false) :
    Orderly home n {s with mutex := ⟨true,s.mutex.waitQueue⟩, holds := Function.update s.holds co true} := by
  refine ⟨lockedKeeps orderly.inv co free,orderly.users,?_,?_⟩
  · intro c held
    by_cases same : c = co
    · rwa [same]
    · exact orderly.holders c (by simpa [Function.update_of_ne same] using held)
  · intro c held inside
    by_cases same : c = co
    · subst c
      simp [out,Pc.inLock] at inside
    · exact orderly.letIn c (by simpa [Function.update_of_ne same] using held) inside

theorem queuedKept (orderly : Orderly home n s) {co : Nat} (out : s.pc co = .out) (less : co < n)
    (busy : s.mutex.lock = true) (other : s.holds co = false) : Orderly home n {s with
      mutex := ⟨true,s.mutex.waitQueue ++ [co]⟩
      pc := Function.update s.pc co .pushed
      scheduler := Function.update s.scheduler co (some (home co))
      queued := s.queued ++ [co]} :=
  ⟨queuedKeeps orderly.inv co out busy,usersMoved orderly.users less,orderly.holders,
    letInMoved orderly.letIn (fun _ held => by simp [other] at held)⟩

theorem yieldedKept (orderly : Orderly home n s) {co : Nat} (pushed : s.pc co = .pushed) :
    Orderly home n {s with pc := Function.update s.pc co .asleep} :=
  ⟨yieldedKeeps orderly.inv co pushed,usersMoved orderly.users (userBelow orderly (by simp [pushed])),orderly.holders,
    letInMoved orderly.letIn (fun _ held => orderly.letIn co held (by simp [pushed,Pc.inLock]))⟩

theorem releasedKept (orderly : Orderly home n s) {co : Nat} (out : s.pc co = .out) (held : s.holds co = true)
    (empty : s.mutex.waitQueue = []) :
    Orderly home n {s with mutex := ⟨false,[]⟩, holds := Function.update s.holds co false} := by
  have earlier : ∀ c, Function.update s.holds co false c = true → s.holds c = true := by
    intro c still
    by_cases same : c = co
    · rwa [same]
    · simpa [Function.update_of_ne same] using still
  exact ⟨releasedKeeps orderly.inv co out held empty,orderly.users,
    fun c still => orderly.holders c (earlier c still),fun c still inside => orderly.letIn c (earlier c still) inside⟩

theorem handedKept (orderly : Orderly home n s) {co next : Nat} {rest : List Nat} (out : s.pc co = .out)
    (held : s.holds co = true) (front : s.mutex.waitQueue = next::rest) :
    Orderly home n {s with
      mutex := ⟨s.mutex.lock,rest⟩
      pc := Function.update s.pc co (.waking next)
      holds := Function.update (Function.update s.holds co false) next true
      granted := Function.update s.granted next true
      handed := s.handed ++ [next]} := by
  have waits := (orderly.inv.waiting next).1 (by simp [front])
  have below : next < n := userBelow orderly (by intro same; simp [same,Pc.inLock] at waits)
  refine ⟨handedKeeps orderly.inv co next rest out held front,usersMoved orderly.users (orderly.holders co held),?_,?_⟩
  all_goals
    intro c holds
    by_cases popped : c = next
  · rwa [popped]
  · by_cases same : c = co
    · rw [same]
      exact orderly.holders co held
    · exact orderly.holders c (by simpa [Function.update_of_ne popped,Function.update_of_ne same] using holds)
  · subst c
    simp
  · intro inside
    by_cases same : c = co
    · subst c
      simp [Function.update_of_ne popped] at holds
    · simp only [Function.update_of_ne popped,Function.update_of_ne same] at holds inside ⊢
      exact orderly.letIn c holds inside

theorem readiedKept (orderly : Orderly home n s) {co next sched : Nat} (waking : s.pc co = .waking next)
    (own : s.scheduler next = some sched) : Orderly home n (s.addReadyTask co next sched) :=
  ⟨readiedKeeps orderly.inv co next sched waking own,
    usersMoved orderly.users (userBelow orderly (by simp [waking])),orderly.holders,
    letInMoved orderly.letIn (by simp [Pc.inLock])⟩

theorem resumedKept (orderly : Orderly home n s) {co : Nat} (asleep : s.pc co = .asleep) (ready : co ∈ s.ready (home co)) :
    Orderly home n (s.resume home co) := by
  refine ⟨resumedKeeps orderly.inv co ready,
    usersMoved orderly.users (userBelow orderly (by simp [asleep])),orderly.holders,?_⟩
  intro c held inside
  by_cases same : c = co
  · subst c
    simp [State.resume,Pc.inLock] at inside
  · simp only [State.resume,Function.update_of_ne same] at held inside ⊢
    exact orderly.letIn c held inside

/- One more holder or waiter at most. -/
theorem orderlyStep {e : Event} (orderly : ∃ n, Orderly home n s) (ok : NotOwn s e) (h : step home s e = some t) :
    ∃ n, Orderly home n t := by
  obtain ⟨n,orderly⟩ := orderly
  cases e with
  | lock co =>
    have wide := wider orderly (Nat.le_max_left n (co+1))
    have less : co < max n (co+1) := by omega
    simp only [step] at h
    split at h <;> try contradiction
    rename_i out
    cases Option.some.inj h
    cases busy : s.mutex.lock with
    | false => exact ⟨_,by simpa [State.lock,Mutex.lockSection,busy] using takenKept wide out less busy⟩
    | true => exact ⟨_,by simpa [State.lock,Mutex.lockSection,busy] using queuedKept wide out less busy ok⟩
  | tryLock co =>
    simp only [step] at h
    split at h <;> try contradiction
    rename_i out
    cases Option.some.inj h
    cases busy : s.mutex.lock with
    | false =>
      have taken := takenKept (wider orderly (Nat.le_max_left n (co+1))) out (by omega) busy
      exact ⟨_,by simpa [State.tryLock,Mutex.tryLock,busy] using taken⟩
    | true => exact ⟨n,by simpa [State.tryLock,Mutex.tryLock,busy] using orderly⟩
  | yield co =>
    simp only [step] at h
    split at h <;> try contradiction
    cases Option.some.inj h
    exact ⟨n,yieldedKept orderly ‹_›⟩
  | unLock co =>
    simp only [step] at h
    split at h <;> try contradiction
    rename_i guard
    cases Option.some.inj h
    cases front : s.mutex.waitQueue with
    | nil => exact ⟨n,by simpa [State.unLock,Mutex.unLockSection,front] using releasedKept orderly guard.1 guard.2 front⟩
    | cons next rest =>
      exact ⟨n,by simpa [State.unLock,Mutex.unLockSection,front] using handedKept orderly guard.1 guard.2 front⟩
  | addReadyTask co =>
    simp only [step] at h
    split at h <;> try contradiction
    rename_i next waking
    obtain ⟨sched,own,last⟩ := Option.bind_eq_some_iff.1 h
    cases Option.some.inj last
    exact ⟨n,readiedKept orderly waking own⟩
  | resume co =>
    simp only [step] at h
    split at h <;> try contradiction
    rename_i guard
    cases Option.some.inj h
    exact ⟨n,resumedKept orderly guard.1 guard.2⟩

theorem leavingFalls (home : Nat → Nat) (n : Nat) : Falls (step home) Leaving (Orderly home n) (rank n) := by
  intro s e t orderly leaving h
  cases e with
  | lock co => exact leaving.elim
  | tryLock co => exact leaving.elim
  | yield co =>
    simp only [step] at h
    split at h <;> try contradiction
    rename_i pushed
    cases Option.some.inj h
    refine ⟨yieldedKept orderly pushed,?_⟩
    have sum := sumMoved weight s.pc (userBelow orderly (show s.pc co ≠ .out by simp [pushed])) .asleep
    simp only [pushed,weightPushed,weightAsleep] at sum
    simp only [rank]
    omega
  | unLock co =>
    simp only [step] at h
    split at h <;> try contradiction
    rename_i guard
    cases Option.some.inj h
    have below := orderly.holders co guard.2
    cases front : s.mutex.waitQueue with
    | nil =>
      have busy := orderly.inv.locked.2 ⟨co,guard.2⟩
      simp only [State.unLock,Mutex.unLockSection,front]
      refine ⟨releasedKept orderly guard.1 guard.2 front,?_⟩
      simp [rank,front,busy]
    | cons next rest =>
      simp only [State.unLock,Mutex.unLockSection,front]
      refine ⟨handedKept orderly guard.1 guard.2 front,?_⟩
      have waits := (orderly.inv.waiting next).1 (by simp [front])
      have inside : next < n := userBelow orderly (by intro same; simp [same,Pc.inLock] at waits)
      have moved := sumMoved weight s.pc below (.waking next)
      have marked := sumMoved Bool.toNat s.granted inside true
      simp only [guard.1,waits.2,weightOut,weightWaking,Bool.toNat_true,Bool.toNat_false] at moved marked
      simp only [rank,front,List.length_cons]
      omega
  | addReadyTask co =>
    simp only [step] at h
    split at h <;> try contradiction
    rename_i next waking
    obtain ⟨sched,own,last⟩ := Option.bind_eq_some_iff.1 h
    cases Option.some.inj last
    refine ⟨readiedKept orderly waking own,?_⟩
    have sum := sumMoved weight s.pc (userBelow orderly (show s.pc co ≠ .out by simp [waking])) .out
    simp only [waking,weightWaking,weightOut] at sum
    simp only [rank,State.addReadyTask]
    omega
  | resume co =>
    simp only [step] at h
    split at h <;> try contradiction
    rename_i guard
    cases Option.some.inj h
    refine ⟨resumedKept orderly guard.1 guard.2,?_⟩
    have below := userBelow orderly (show s.pc co ≠ .out by simp [guard.1])
    have mark := (orderly.inv.readied (home co) co guard.2).2.1
    have moved := sumMoved weight s.pc below .out
    have marked := sumMoved Bool.toNat s.granted below false
    simp only [guard.1,mark,weightAsleep,weightOut,Bool.toNat_true,Bool.toNat_false] at moved marked
    simp only [rank,State.resume]
    omega

theorem quietFree (orderly : Orderly home n s) (quiet : Quiet (step home) Leaving s) :
    s.mutex = .create ∧ (∀ co, s.pc co = .out) ∧ (∀ sched, s.ready sched = []) ∧ s.handed = s.queued := by
  have inv := orderly.inv
  have noPushed : ∀ co, s.pc co ≠ .pushed := by
    intro co pushed
    have stuck := quiet (.yield co) trivial
    simp [step,pushed] at stuck
  have noWaking : ∀ co next, s.pc co ≠ .waking next := by
    intro co next waking
    have stuck := quiet (.addReadyTask co) trivial
    have mark := (inv.waker co next waking).1
    simp [step,waking,inv.own next (inv.granted next mark).2] at stuck
  have noReady : ∀ co, co ∉ s.ready (home co) := by
    intro co ready
    have stuck := quiet (.resume co) trivial
    have inside := (inv.granted co (inv.readied (home co) co ready).2.1).2
    have asleep : s.pc co = .asleep := by
      cases here : s.pc co with
      | out => simp [here,Pc.inLock] at inside
      | pushed => exact absurd here (noPushed co)
      | asleep => rfl
      | waking next => simp [here,Pc.inLock] at inside
    simp [step,asleep,ready] at stuck
  have unmarked : ∀ co, s.granted co = false := by
    intro co
    by_contra mark
    rcases inv.onTheWay co (by simpa using mark) with ⟨h,waking⟩ | ready
    · exact noWaking h co waking
    · exact noReady co ready
  -- A holder is outside, where nothing keeps it from UnLock.
  have noHolder : ∀ co, s.holds co ≠ true := by
    intro co held
    have stuck := quiet (.unLock co) trivial
    have out : s.pc co = .out := by
      cases here : s.pc co with
      | out => rfl
      | pushed => exact absurd here (noPushed co)
      | asleep =>
        have mark := orderly.letIn co held (by simp [here,Pc.inLock])
        simp [unmarked co] at mark
      | waking next => exact absurd here (noWaking co next)
    simp [step,out,held] at stuck
  have free : s.mutex.lock = false := by
    by_contra busy
    obtain ⟨c,held⟩ := inv.locked.1 (by simpa using busy)
    exact noHolder c held
  have empty := (freeNobody inv free).2.1
  refine ⟨?_,?_,?_,?_⟩
  · cases whole : s.mutex with
    | mk lock waitQueue =>
      rw [whole] at free empty
      exact (Mutex.mk.injEq ..).symm ▸ ⟨free,empty⟩
  · intro co
    cases here : s.pc co with
    | out => rfl
    | pushed => exact absurd here (noPushed co)
    | asleep =>
      have waits := (inv.waiting co).2 ⟨by simp [here,Pc.inLock],unmarked co⟩
      simp [empty] at waits
    | waking next => exact absurd here (noWaking co next)
  · intro sched
    refine List.eq_nil_iff_forall_not_mem.2 (fun co ready => ?_)
    rw [(inv.readied sched co ready).1] at ready
    exact noReady co ready
  · rw [inv.order,empty,List.append_nil]

end

end TitCo.MutexDrain
