import TitCo.Transition

/-! The coroutine mutex of mutex.cc. Each section under the thread mutex `mutex_`
is one step; the Yield of a queued caller, the AddReadyTask of an UnLock and the
resumption by a scheduler's Loop are later steps of their own. UnLock is called by
the holder only, and a coroutine asleep in Lock comes back only through a ready
list. The order in which one Loop resumes its ready tasks is left open. -/
namespace TitCo.CoMutex
open Transition

structure Mutex where
  lock : Bool
  waitQueue : List Nat
  deriving DecidableEq, Repr

def Mutex.create : Mutex := ⟨false,[]⟩

/-- True when the caller takes the lock, false when it is queued. -/
def Mutex.lockSection (m : Mutex) (co : Nat) : Mutex × Bool :=
  if m.lock then ({m with waitQueue := m.waitQueue ++ [co]},false)
  else ({m with lock := true},true)

/-- The waiter that is popped, if there is one. `lock` stays true for it. -/
def Mutex.unLockSection (m : Mutex) : Mutex × Option Nat :=
  match m.waitQueue with
  | co::rest => ({m with waitQueue := rest},some co)
  | [] => ({m with lock := false},none)

def Mutex.tryLock (m : Mutex) : Mutex × Bool :=
  if m.lock then (m,false) else ({m with lock := true},true)

inductive Pc where
  | out
  | pushed
  | asleep
  | waking (co : Nat)
  deriving DecidableEq, Repr

def Pc.inLock : Pc → Bool
  | .pushed | .asleep => true
  | _ => false

/- `holds` follows the claim's reading: from a successful Lock or TryLock, or from
the pop by UnLock, until the UnLock. `granted` marks a popped waiter that has not
come back from Lock. `queued` and `handed` record pushes and pops in order. -/
structure State where
  mutex : Mutex
  pc : Nat → Pc
  scheduler : Nat → Option Nat
  ready : Nat → List Nat
  holds : Nat → Bool
  granted : Nat → Bool
  queued : List Nat
  handed : List Nat

def initial : State :=
  ⟨.create,fun _ => .out,fun _ => none,fun _ => [],fun _ => false,fun _ => false,[],[]⟩

inductive Event where
  | lock (co : Nat)
  | yield (co : Nat)
  | tryLock (co : Nat)
  | unLock (co : Nat)
  | addReadyTask (co : Nat)
  | resume (co : Nat)
  deriving DecidableEq, Repr




def State.lock (home : Nat → Nat) (s : State) (co : Nat) : State :=
  match s.mutex.lockSection co with
  | (m,true) => {s with mutex := m, holds := Function.update s.holds co true}
  | (m,false) =>
      {s with
        mutex := m
        pc := Function.update s.pc co .pushed
        scheduler := Function.update s.scheduler co (some (home co))
        queued := s.queued ++ [co]}

def State.tryLock (s : State) (co : Nat) : State :=
  match s.mutex.tryLock with
  | (m,true) => {s with mutex := m, holds := Function.update s.holds co true}
  | (m,false) => {s with mutex := m}

def State.unLock (s : State) (co : Nat) : State :=
  match s.mutex.unLockSection with
  | (m,some next) =>
      {s with
        mutex := m
        pc := Function.update s.pc co (.waking next)
        holds := Function.update (Function.update s.holds co false) next true
        granted := Function.update s.granted next true
        handed := s.handed ++ [next]}
  | (m,none) => {s with mutex := m, holds := Function.update s.holds co false}

def State.addReadyTask (s : State) (co next sched : Nat) : State :=
  {s with
    pc := Function.update s.pc co .out
    ready := Function.update s.ready sched (s.ready sched ++ [next])}

def State.resume (home : Nat → Nat) (s : State) (co : Nat) : State :=
  {s with
    pc := Function.update s.pc co .out
    granted := Function.update s.granted co false
    ready := Function.update s.ready (home co) ((s.ready (home co)).erase co)}

/-- `home co` is the scheduler whose thread runs `co`. -/
def step (home : Nat → Nat) (s : State) : Event → Option State
  | .lock co => if s.pc co = .out then some (s.lock home co) else none
  | .yield co =>
      if s.pc co = .pushed then some {s with pc := Function.update s.pc co .asleep} else none
  | .tryLock co => if s.pc co = .out then some (s.tryLock co) else none
  | .unLock co => if s.pc co = .out ∧ s.holds co = true then some (s.unLock co) else none
  | .addReadyTask co =>
      match s.pc co with
      | .waking next => do
          let sched ← s.scheduler next
          some (s.addReadyTask co next sched)
      | _ => none
  | .resume co =>
      if s.pc co = .asleep ∧ co ∈ s.ready (home co) then some (s.resume home co) else none

/- Everything one step can do, with its guards. -/
inductive Steps (home : Nat → Nat) (s : State) : State → Prop where
  | locked (co) (out : s.pc co = .out) (free : s.mutex.lock = false) :
      Steps home s {s with mutex := ⟨true,s.mutex.waitQueue⟩, holds := Function.update s.holds co true}
  | queued (co) (out : s.pc co = .out) (busy : s.mutex.lock = true) :
      Steps home s {s with
        mutex := ⟨true,s.mutex.waitQueue ++ [co]⟩
        pc := Function.update s.pc co .pushed
        scheduler := Function.update s.scheduler co (some (home co))
        queued := s.queued ++ [co]}
  | refused : Steps home s s
  | yielded (co) (pushed : s.pc co = .pushed) :
      Steps home s {s with pc := Function.update s.pc co .asleep}
  | released (co) (out : s.pc co = .out) (held : s.holds co = true) (empty : s.mutex.waitQueue = []) :
      Steps home s {s with mutex := ⟨false,[]⟩, holds := Function.update s.holds co false}
  | handed (co next rest) (out : s.pc co = .out) (held : s.holds co = true)
      (front : s.mutex.waitQueue = next::rest) :
      Steps home s {s with
        mutex := ⟨s.mutex.lock,rest⟩
        pc := Function.update s.pc co (.waking next)
        holds := Function.update (Function.update s.holds co false) next true
        granted := Function.update s.granted next true
        handed := s.handed ++ [next]}
  | readied (co next sched) (waking : s.pc co = .waking next) (own : s.scheduler next = some sched) :
      Steps home s (s.addReadyTask co next sched)
  | resumed (co) (asleep : s.pc co = .asleep) (ready : co ∈ s.ready (home co)) :
      Steps home s (s.resume home co)

theorem stepSource {home s e t} (h : step home s e = some t) : Steps home s t := by
  cases e with
  | lock co =>
    simp only [step] at h
    split at h <;> try contradiction
    rename_i out
    cases Option.some.inj h
    cases busy : s.mutex.lock with
    | false => simpa [State.lock,Mutex.lockSection,busy] using Steps.locked co out busy
    | true => simpa [State.lock,Mutex.lockSection,busy] using Steps.queued co out busy
  | yield co =>
    simp only [step] at h
    split at h <;> try contradiction
    cases Option.some.inj h
    exact .yielded co ‹_›
  | tryLock co =>
    simp only [step] at h
    split at h <;> try contradiction
    rename_i out
    cases Option.some.inj h
    cases busy : s.mutex.lock with
    | false => simpa [State.tryLock,Mutex.tryLock,busy] using Steps.locked co out busy
    | true => simpa [State.tryLock,Mutex.tryLock,busy] using Steps.refused
  | unLock co =>
    simp only [step] at h
    split at h <;> try contradiction
    rename_i guard
    cases Option.some.inj h
    cases front : s.mutex.waitQueue with
    | nil => simpa [State.unLock,Mutex.unLockSection,front] using Steps.released co guard.1 guard.2 front
    | cons next rest =>
      simpa [State.unLock,Mutex.unLockSection,front] using Steps.handed co next rest guard.1 guard.2 front
  | addReadyTask co =>
    simp only [step] at h
    split at h <;> try contradiction
    rename_i next waking
    simp only [bind,Option.bind_eq_some_iff] at h
    obtain ⟨sched,own,last⟩ := h
    cases Option.some.inj last
    exact .readied co next sched waking own
  | resume co =>
    simp only [step] at h
    split at h <;> try contradiction
    rename_i guard
    cases Option.some.inj h
    exact .resumed co guard.1 guard.2

structure Inv (home : Nat → Nat) (s : State) : Prop where
  exclusive : ∀ c d, s.holds c = true → s.holds d = true → c = d
  locked : s.mutex.lock = true ↔ ∃ c, s.holds c = true
  order : s.queued = s.handed ++ s.mutex.waitQueue
  once : s.mutex.waitQueue.Nodup
  waiting : ∀ c, c ∈ s.mutex.waitQueue ↔ (s.pc c).inLock = true ∧ s.granted c = false
  busy : s.mutex.waitQueue ≠ [] → s.mutex.lock = true
  granted : ∀ c, s.granted c = true → s.holds c = true ∧ (s.pc c).inLock = true
  waker : ∀ h d, s.pc h = .waking d → s.granted d = true ∧ ∀ sched, d ∉ s.ready sched
  wakerOnce : ∀ h g d e, s.pc h = .waking d → s.pc g = .waking e → h = g
  readied : ∀ sched d, d ∈ s.ready sched →
    sched = home d ∧ s.granted d = true ∧ s.ready sched = [d]
  onTheWay : ∀ c, s.granted c = true → (∃ h, s.pc h = .waking c) ∨ c ∈ s.ready (home c)
  own : ∀ c, (s.pc c).inLock = true → s.scheduler c = some (home c)

theorem initialInv (home : Nat → Nat) : Inv home initial := by
  constructor <;> simp [initial,Mutex.create,Pc.inLock]

theorem freeNobody {home s} (inv : Inv home s) (free : s.mutex.lock = false) :
    (∀ c, s.holds c = false) ∧ s.mutex.waitQueue = [] ∧ ∀ c, s.granted c = false := by
  have nobody : ∀ c, s.holds c = false := by
    intro c
    by_contra held
    have busy := inv.locked.mpr ⟨c,by simpa using held⟩
    simp [free] at busy
  refine ⟨nobody,?_,?_⟩
  · by_contra queue
    have busy := inv.busy queue
    simp [free] at busy
  · intro c
    by_contra mark
    have held := (inv.granted c (by simpa using mark)).1
    simp [nobody c] at held

/- While the holder is outside the mutex, no hand-off is in flight. -/
theorem outUnmarked {home s} (inv : Inv home s) {co : Nat} (out : s.pc co = .out) (held : s.holds co = true) (c : Nat) :
    s.granted c = false := by
  by_contra mark
  have g := inv.granted c (by simpa using mark)
  have same := inv.exclusive c co g.1 held
  subst c
  simp [out,Pc.inLock] at g

theorem markedOnce {home s} (inv : Inv home s) {c d : Nat} (first : s.granted c = true) (second : s.granted d = true) :
    c = d :=
  inv.exclusive c d (inv.granted c first).1 (inv.granted d second).1

theorem inLockMoved {pc : Nat → Pc} {co : Nat} {p : Pc} (same : p.inLock = (pc co).inLock) (c : Nat) :
    (Function.update pc co p c).inLock = (pc c).inLock := by
  by_cases here : c = co
  · subst c
    rw [Function.update_self]
    exact same
  · rw [Function.update_of_ne here]

theorem lockedKeeps {home s} (inv : Inv home s) (co : Nat) (free : s.mutex.lock = false) :
    Inv home {s with mutex := ⟨true,s.mutex.waitQueue⟩, holds := Function.update s.holds co true} := by
  obtain ⟨nobody,empty,unmarked⟩ := freeNobody inv free
  have only : ∀ c, Function.update s.holds co true c = true → c = co := by
    intro c held
    by_contra other
    simp [Function.update_of_ne other,nobody] at held
  refine {inv with exclusive := ?_, locked := ?_, busy := fun _ => rfl, granted := ?_}
  · intro c d hc hd
    exact (only c hc).trans (only d hd).symm
  · exact ⟨fun _ => ⟨co,by simp⟩,fun _ => rfl⟩
  · intro c mark
    simp [unmarked c] at mark

theorem queuedKeeps {home s} (inv : Inv home s) (co : Nat) (out : s.pc co = .out)
    (busy : s.mutex.lock = true) :
    Inv home {s with
      mutex := ⟨true,s.mutex.waitQueue ++ [co]⟩
      pc := Function.update s.pc co .pushed
      scheduler := Function.update s.scheduler co (some (home co))
      queued := s.queued ++ [co]} := by
  have unmarked : s.granted co = false := by
    by_contra mark
    have inside := (inv.granted co (by simpa using mark)).2
    simp [out,Pc.inLock] at inside
  have absent : co ∉ s.mutex.waitQueue := by
    intro member
    have inside := ((inv.waiting co).mp member).1
    simp [out,Pc.inLock] at inside
  have waking : ∀ h d, Function.update s.pc co Pc.pushed h = .waking d → s.pc h = .waking d := by
    intro h d place
    by_cases same : h = co
    · subst h; simp at place
    · simpa [Function.update_of_ne same] using place
  refine {inv with locked := ?_, order := ?_, once := ?_, waiting := ?_, busy := fun _ => rfl,
                   granted := ?_, waker := ?_, wakerOnce := ?_, onTheWay := ?_, own := ?_}
  · exact ⟨fun _ => inv.locked.mp busy,fun _ => rfl⟩
  · simp only [inv.order,List.append_assoc]
  · exact List.nodup_append.mpr ⟨inv.once,by simp,by grind⟩
  · intro c
    by_cases same : c = co
    · subst c; simp [unmarked,Pc.inLock]
    · simpa [Function.update_of_ne same,same] using inv.waiting c
  · intro c mark
    refine ⟨(inv.granted c mark).1,?_⟩
    by_cases same : c = co
    · subst c; simp [Pc.inLock]
    · simpa [Function.update_of_ne same] using (inv.granted c mark).2
  · intro h d place
    exact inv.waker h d (waking h d place)
  · intro h g d e ha ga
    exact inv.wakerOnce h g d e (waking h d ha) (waking g e ga)
  · intro c mark
    rcases inv.onTheWay c mark with ⟨h,place⟩ | ready
    · refine .inl ⟨h,?_⟩
      have other : h ≠ co := by intro same; subst h; simp [out] at place
      simpa [Function.update_of_ne other] using place
    · exact .inr ready
  · intro c inside
    by_cases same : c = co
    · subst c; simp
    · simpa [Function.update_of_ne same] using inv.own c (by simpa [Function.update_of_ne same] using inside)

theorem yieldedKeeps {home s} (inv : Inv home s) (co : Nat) (pushed : s.pc co = .pushed) :
    Inv home {s with pc := Function.update s.pc co .asleep} := by
  have inside : ∀ c, (Function.update s.pc co Pc.asleep c).inLock = (s.pc c).inLock :=
    inLockMoved (by simp [pushed,Pc.inLock])
  have waking : ∀ h d, Function.update s.pc co Pc.asleep h = .waking d ↔ s.pc h = .waking d := by
    intro h d
    by_cases same : h = co
    · subst h; simp [pushed]
    · simp [Function.update_of_ne same]
  exact {inv with
    waiting := fun c => by simpa only [inside] using inv.waiting c
    granted := fun c mark => by simpa only [inside] using inv.granted c mark
    waker := fun h d place => inv.waker h d ((waking h d).mp place)
    wakerOnce := fun h g d e ha ga => inv.wakerOnce h g d e ((waking h d).mp ha) ((waking g e).mp ga)
    onTheWay := fun c mark => by simpa only [waking] using inv.onTheWay c mark
    own := fun c place => inv.own c (by simpa only [inside] using place)}

theorem releasedKeeps {home s} (inv : Inv home s) (co : Nat) (out : s.pc co = .out)
    (held : s.holds co = true) (empty : s.mutex.waitQueue = []) :
    Inv home {s with mutex := ⟨false,[]⟩, holds := Function.update s.holds co false} := by
  have nobody : ∀ c, Function.update s.holds co false c = false := by
    intro c
    by_cases same : c = co
    · subst c; simp
    · rw [Function.update_of_ne same]
      by_contra other
      exact same (inv.exclusive c co (by simpa using other) held)
  have unmarked := outUnmarked inv out held
  refine {inv with exclusive := ?_, locked := ?_, order := ?_, once := by simp, waiting := ?_,
                   busy := by simp, granted := ?_}
  · intro c d hc
    simp [nobody c] at hc
  · simp [nobody]
  · simpa [empty] using inv.order
  · intro c
    simpa [empty] using inv.waiting c
  · intro c mark
    simp [unmarked c] at mark

theorem handedKeeps {home s} (inv : Inv home s) (co next : Nat) (rest : List Nat)
    (out : s.pc co = .out) (held : s.holds co = true) (front : s.mutex.waitQueue = next::rest) :
    Inv home {s with
      mutex := ⟨s.mutex.lock,rest⟩
      pc := Function.update s.pc co (.waking next)
      holds := Function.update (Function.update s.holds co false) next true
      granted := Function.update s.granted next true
      handed := s.handed ++ [next]} := by
  have waits := (inv.waiting next).mp (by simp [front])
  have other : next ≠ co := by intro same; subst next; simp [out,Pc.inLock] at waits
  have only : ∀ c, Function.update (Function.update s.holds co false) next true c = true → c = next := by
    intro c hc
    by_contra different
    rw [Function.update_of_ne different] at hc
    by_cases same : c = co
    · subst c; simp at hc
    · rw [Function.update_of_ne same] at hc
      exact same (inv.exclusive c co hc held)
  have unmarked := outUnmarked inv out held
  have idle : ∀ h d, s.pc h ≠ .waking d := by
    intro h d place
    have mark := (inv.waker h d place).1
    simp [unmarked d] at mark
  have noReady : ∀ sched d, d ∉ s.ready sched := by
    intro sched d member
    have mark := (inv.readied sched d member).2.1
    simp [unmarked d] at mark
  have fresh : next ∉ rest ∧ rest.Nodup := List.nodup_cons.mp (front ▸ inv.once)
  have waking : ∀ h d, Function.update s.pc co (Pc.waking next) h = .waking d → h = co ∧ d = next := by
    intro h d place
    by_cases same : h = co
    · subst h; simp at place; exact ⟨rfl,place.symm⟩
    · rw [Function.update_of_ne same] at place
      exact absurd place (idle h d)
  refine {inv with exclusive := ?_, locked := ?_, order := ?_, once := fresh.2, waiting := ?_,
                   busy := ?_, granted := ?_, waker := ?_, wakerOnce := ?_, readied := ?_,
                   onTheWay := ?_, own := ?_}
  · intro c d hc hd
    exact (only c hc).trans (only d hd).symm
  · exact ⟨fun _ => ⟨next,by simp⟩,fun _ => inv.locked.mpr ⟨co,held⟩⟩
  · simp [inv.order,front]
  · intro c
    have old := inv.waiting c
    rw [front] at old
    by_cases same : c = next
    · subst c; simp [fresh.1]
    · by_cases caller : c = co
      · subst c; simpa [same,out,Pc.inLock] using old
      · simpa [same,Function.update_of_ne same,Function.update_of_ne caller] using old
  · intro _
    exact inv.locked.mpr ⟨co,held⟩
  · intro c mark
    by_cases same : c = next
    · subst c; exact ⟨by simp,by simpa [Function.update_of_ne other] using waits.1⟩
    · simp [Function.update_of_ne same,unmarked] at mark
  · intro h d place
    obtain ⟨_,rfl⟩ := waking h d place
    exact ⟨by simp,fun sched => noReady sched d⟩
  · intro h g d e ha ga
    exact (waking h d ha).1.trans (waking g e ga).1.symm
  · intro sched d member
    exact absurd member (noReady sched d)
  · intro c mark
    by_cases same : c = next
    · subst c; exact .inl ⟨co,by simp⟩
    · simp [Function.update_of_ne same,unmarked] at mark
  · intro c inside
    by_cases same : c = co
    · subst c; simp [Pc.inLock] at inside
    · exact inv.own c (by simpa [Function.update_of_ne same] using inside)

theorem readiedKeeps {home s} (inv : Inv home s) (co next sched : Nat)
    (place : s.pc co = .waking next) (known : s.scheduler next = some sched) :
    Inv home (s.addReadyTask co next sched) := by
  obtain ⟨mark,noReady⟩ := inv.waker co next place
  have g := inv.granted next mark
  have own := inv.own next g.2
  have same : sched = home next := Option.some.inj (known.symm.trans own)
  subst sched
  have marked : ∀ c, s.granted c = true → c = next := fun c hc => markedOnce inv hc mark
  have empty : ∀ sched, s.ready sched = [] := by
    intro sched
    by_contra some_
    obtain ⟨d,member⟩ := List.exists_mem_of_ne_nil _ some_
    have dm := (inv.readied sched d member).2.1
    rw [marked d dm] at member
    exact noReady sched member
  have waking : ∀ h d, Function.update s.pc co Pc.out h = .waking d → s.pc h = .waking d ∧ h ≠ co := by
    intro h d at_
    by_cases here : h = co
    · subst h; simp at at_
    · exact ⟨by simpa [Function.update_of_ne here] using at_,here⟩
  have inside : ∀ c, (Function.update s.pc co Pc.out c).inLock = (s.pc c).inLock :=
    inLockMoved (by simp [place,Pc.inLock])
  have lone : ∀ h d, Function.update s.pc co Pc.out h ≠ .waking d := by
    intro h d at_
    obtain ⟨old,different⟩ := waking h d at_
    exact different (inv.wakerOnce h co d next old place)
  have members : ∀ other d, d ∈ Function.update s.ready (home next) (s.ready (home next) ++ [next]) other →
      other = home next ∧ d = next := by
    intro other d member
    by_cases here : other = home next
    · subst other; simpa [empty] using member
    · simp [Function.update_of_ne here,empty] at member
  simp only [State.addReadyTask]
  refine {inv with waiting := ?_, granted := ?_, waker := ?_, wakerOnce := ?_, readied := ?_,
                   onTheWay := ?_, own := ?_}
  · intro c
    simpa only [inside] using inv.waiting c
  · intro c hc
    simpa only [inside] using inv.granted c hc
  · intro h d at_
    exact absurd at_ (lone h d)
  · intro h g d e at_
    exact absurd at_ (lone h d)
  · intro other d member
    obtain ⟨rfl,rfl⟩ := members other d member
    exact ⟨rfl,mark,by simp [empty]⟩
  · intro c hc
    cases marked c hc
    exact .inr (by simp)
  · intro c hc
    exact inv.own c (by simpa only [inside] using hc)

theorem resumedKeeps {home s} (inv : Inv home s) (co : Nat) (ready : co ∈ s.ready (home co)) :
    Inv home (s.resume home co) := by
  obtain ⟨_,mark,list⟩ := inv.readied (home co) co ready
  have marked : ∀ c, s.granted c = true → c = co := fun c hc => markedOnce inv hc mark
  have idle : ∀ h d, s.pc h ≠ .waking d := by
    intro h d place
    obtain ⟨dm,noReady⟩ := inv.waker h d place
    cases marked d dm
    exact noReady (home co) ready
  have empty : ∀ sched, Function.update s.ready (home co) ((s.ready (home co)).erase co) sched = [] := by
    intro sched
    by_cases here : sched = home co
    · subst sched; simp [list]
    · rw [Function.update_of_ne here]
      by_contra some_
      obtain ⟨d,member⟩ := List.exists_mem_of_ne_nil _ some_
      obtain ⟨own,dm,_⟩ := inv.readied sched d member
      cases marked d dm
      exact here own
  have unmarked : ∀ c, Function.update s.granted co false c = false := by
    intro c
    by_cases here : c = co
    · subst c; simp
    · rw [Function.update_of_ne here]
      by_contra hc
      exact here (marked c (by simpa using hc))
  have waking : ∀ h d, Function.update s.pc co Pc.out h ≠ .waking d := by
    intro h d place
    by_cases here : h = co
    · subst h; simp at place
    · exact idle h d (by simpa [Function.update_of_ne here] using place)
  simp only [State.resume]
  refine {inv with waiting := ?_, granted := ?_, waker := ?_, wakerOnce := ?_, readied := ?_,
                   onTheWay := ?_, own := ?_}
  · intro c
    by_cases here : c = co
    · subst c; simp [inv.waiting,mark,Pc.inLock]
    · simpa [Function.update_of_ne here] using inv.waiting c
  · intro c hc
    simp [unmarked c] at hc
  · intro h d place
    exact absurd place (waking h d)
  · intro h g d e place
    exact absurd place (waking h d)
  · intro sched d member
    simp [empty sched] at member
  · intro c hc
    simp [unmarked c] at hc
  · intro c inside
    by_cases here : c = co
    · subst c; simp [Pc.inLock] at inside
    · exact inv.own c (by simpa [Function.update_of_ne here] using inside)

theorem stepKeeps {home s t} (inv : Inv home s) (h : Steps home s t) : Inv home t := by
  cases h with
  | locked co out free => exact lockedKeeps inv co free
  | queued co out busy => exact queuedKeeps inv co out busy
  | refused => exact inv
  | yielded co pushed => exact yieldedKeeps inv co pushed
  | released co out held empty => exact releasedKeeps inv co out held empty
  | handed co next rest out held front => exact handedKeeps inv co next rest out held front
  | readied co next sched waking own => exact readiedKeeps inv co next sched waking own
  | resumed co asleep ready => exact resumedKeeps inv co ready

theorem reachedInv {home es s} (h : run (step home) initial es = some s) : Inv home s :=
  runInvariant (fun _ _ _ inv e => stepKeeps inv (stepSource e)) h (initialInv home)

/-- In every state of every run: one holder at most; `lock_` says whether there is one;
hand-offs happen in queue order, with what is not yet handed off still queued, each
waiter once; while somebody holds the mutex, in flight or not, TryLock fails and Lock
queues; and a popped waiter is woken by exactly one AddReadyTask or sits exactly once
in the ready list of its own scheduler, where nobody else was put. -/
theorem mutexSafe (home : Nat → Nat) (es : List Event) (s : State)
    (h : run (step home) initial es = some s) :
    (∀ c d, s.holds c = true → s.holds d = true → c = d) ∧
    (s.mutex.lock = false ↔ ∀ c, s.holds c = false) ∧
    s.queued = s.handed ++ s.mutex.waitQueue ∧ s.mutex.waitQueue.Nodup ∧
    ((∃ c, s.holds c = true) → ∀ c, s.mutex.tryLock = (s.mutex,false) ∧
      s.mutex.lockSection c = ({s.mutex with waitQueue := s.mutex.waitQueue ++ [c]},false)) ∧
    (∀ c, (s.pc c).inLock = true → s.granted c = false → c ∈ s.mutex.waitQueue) ∧
    (∀ c, s.granted c = true → s.holds c = true ∧ s.scheduler c = some (home c) ∧
      ((∃! h, s.pc h = .waking c) ∧ (∀ sched, c ∉ s.ready sched) ∨
       (∀ h, s.pc h ≠ .waking c) ∧ s.ready (home c) = [c])) ∧
    (∀ h c, s.pc h = .waking c → s.granted c = true) ∧
    (∀ sched c, c ∈ s.ready sched → s.granted c = true) := by
  have inv := reachedInv h
  refine ⟨inv.exclusive,?_,inv.order,inv.once,?_,?_,?_,?_,?_⟩
  · constructor
    · exact fun free => (freeNobody inv free).1
    · intro nobody
      by_contra busy
      obtain ⟨c,held⟩ := inv.locked.mp (by simpa using busy)
      simp [nobody c] at held
  · intro held c
    have busy := inv.locked.mpr held
    simp [Mutex.tryLock,Mutex.lockSection,busy]
  · exact fun c inside unmarked => (inv.waiting c).mpr ⟨inside,unmarked⟩
  · intro c mark
    refine ⟨(inv.granted c mark).1,inv.own c (inv.granted c mark).2,?_⟩
    rcases inv.onTheWay c mark with ⟨h,place⟩ | ready
    · exact .inl ⟨⟨h,place,fun g at_ => inv.wakerOnce g h c c at_ place⟩,(inv.waker h c place).2⟩
    · exact .inr ⟨fun h place => (inv.waker h c place).2 (home c) ready,(inv.readied (home c) c ready).2.2⟩
  · exact fun h c place => (inv.waker h c place).1
  · exact fun sched c member => (inv.readied sched c member).2.1

theorem mutexSafeHandoff : ∃ s, run (step id) initial
    [.lock 0,.lock 1,.lock 2,.yield 1,.unLock 0,.tryLock 3] = some s ∧
    s.holds 1 = true ∧ s.handed = [1] ∧ s.mutex.waitQueue = [2] ∧
    (∀ c d, s.holds c = true → s.holds d = true → c = d) :=
  ⟨_,rfl,rfl,rfl,rfl,
    (mutexSafe id [.lock 0,.lock 1,.lock 2,.yield 1,.unLock 0,.tryLock 3] _ rfl).1⟩

end TitCo.CoMutex
