import TitCo.Timers
import TitCo.Transition

/-! TimerManager by itself: its three operations on timer_ and on the hint it_, over the readings
that they make of the clock, one after another. What CollectTimeoutTasks does to the coroutines
of the due entries touches neither and is left out here. -/
namespace TitCo.TimerHint
open MachineInt Timers Transition

/-- `reading` is the number of calls of now::ms() made so far. -/
structure State where
  manager : TimerManager
  reading : Nat
  deriving DecidableEq, Repr

/-- AddTimer for a coroutine, DelTimer of an iterator into timer_, and CollectTimeoutTasks. -/
inductive Event where
  | addTimer (ms co freed : Nat)
  | delTimer (id : Nat)
  | collectTimeoutTasks
  deriving DecidableEq, Repr

def initial : State := ⟨.create,0⟩

/-- The loop of CollectTimeoutTasks: how many entries it passes, and the readings made so far. -/
def scan (clock : Nat → Nat) : List Entry → Nat → Nat × Nat
  | [],k => (0,k)
  | e::es,k =>
      if clock k < e.deadline then (0,k+1)
      else ((scan clock es (k+1)).1+1,(scan clock es (k+1)).2)

/-- With the result, which is -1 when no timer is left. -/
def collectTimeoutTasks (clock : Nat → Nat) (s : State) : State × Nat :=
  let n := (scan clock s.manager.timer s.reading).1
  let k := (scan clock s.manager.timer s.reading).2
  match s.manager.timer.drop n with
  | [] => (⟨{s.manager with timer := []},k⟩,uint32Max)
  | e::es =>
      if n = 0 then (⟨s.manager,k+1⟩,nextTimeout e.deadline (clock k))
      else
        let hint := if e.deadline ≤ clock k then some e.id else s.manager.hint
        (⟨{s.manager with timer := e::es, hint := hint},k+2⟩,nextTimeout e.deadline (clock (k+1)))

/-- The iterator that ++ makes of the one to entry `id`. -/
def successor (timer : List Entry) (id : Nat) : Option Nat :=
  (timer.dropWhile (fun e => e.id != id)).tail.head?.map Entry.id

def delTimer (m : TimerManager) (id : Nat) : TimerManager :=
  {m with
    hint := if m.hint = some id then successor m.timer id else m.hint
    timer := m.timer.eraseP (fun e => e.id == id)}

def step (clock : Nat → Nat) (s : State) : Event → Option State
  | .addTimer ms co freed => some ⟨addTimer s.manager (clock s.reading + ms) co freed,s.reading+1⟩
  | .delTimer id =>
      if s.manager.timer.any (fun e => e.id == id) then some {s with manager := delTimer s.manager id} else none
  | .collectTimeoutTasks => some (collectTimeoutTasks clock s).1

def Valid (s : State) : Prop := ∀ id, s.manager.hint = some id → ∃ e ∈ s.manager.timer, e.id = id

/-- CollectTimeoutTasks erases the entry of the hint only when the next entry is due by the time
it looks again. -/
def Renewed (clock : Nat → Nat) (s : State) : Event → Prop
  | .collectTimeoutTasks => ∀ e ∈ s.manager.timer.take (scan clock s.manager.timer s.reading).1,
      s.manager.hint = some e.id → ∃ next rest, s.manager.timer.drop (scan clock s.manager.timer s.reading).1 = next::rest ∧
        next.deadline ≤ clock (scan clock s.manager.timer s.reading).2
  | _ => True

structure Inv (s : State) : Prop where
  single : (s.manager.timer.map Entry.id).Nodup
  fresh : ∀ e ∈ s.manager.timer, e.id < s.manager.next

section
variable {clock : Nat → Nat} {s t : State} {timer : List Entry} {id d : Nat}

theorem successorSource (found : successor timer id = some d) : ∃ e ∈ timer.eraseP (fun e => e.id == id), e.id = d := by
  induction timer with
  | nil => simp [successor] at found
  | cons x xs ih =>
    by_cases here : x.id = id
    · cases xs with
      | nil => simp [successor,here] at found
      | cons y ys =>
        simp only [successor,List.dropWhile_cons,here,bne_self_eq_false,Bool.false_eq_true,if_false,List.tail_cons,
          List.head?_cons,Option.map_some,Option.some.injEq] at found
        exact ⟨y,by simp [here],found⟩
    · have later : successor xs id = some d := by
        simpa [successor,List.dropWhile_cons,here] using found
      obtain ⟨e,inside,same⟩ := ih later
      exact ⟨e,by simp [here,inside],same⟩

theorem addTimerValid (m : TimerManager) (deadline co freed reading : Nat) :
    Valid ⟨addTimer m deadline co freed,reading⟩ := by
  intro id named
  cases Option.some.inj named
  exact ⟨_,addTimerMem.2 (Or.inl rfl),rfl⟩

theorem delTimerValid (valid : Valid s) (id : Nat) : Valid {s with manager := delTimer s.manager id} := by
  intro d named
  simp only [delTimer] at named
  split at named
  · exact successorSource named
  · rename_i other
    obtain ⟨e,inside,same⟩ := valid d named
    subst d
    have apart : e.id ≠ id := by
      rintro rfl
      exact other named
    exact ⟨e,(List.mem_eraseP_of_neg (by simpa using apart)).2 inside,rfl⟩

theorem collectSource (clock : Nat → Nat) (s : State) :
    (collectTimeoutTasks clock s).1.manager.next = s.manager.next ∧
    (collectTimeoutTasks clock s).1.manager.timer = s.manager.timer.drop (scan clock s.manager.timer s.reading).1 := by
  cases left : s.manager.timer.drop (scan clock s.manager.timer s.reading).1 with
  | nil => simp only [collectTimeoutTasks,left,and_self]
  | cons e es =>
    simp only [collectTimeoutTasks,left]
    split
    · rename_i none
      rw [none,List.drop_zero] at left
      exact ⟨rfl,left⟩
    · exact ⟨rfl,rfl⟩

theorem collectHint (clock : Nat → Nat) (s : State) :
    (∃ e es, s.manager.timer.drop (scan clock s.manager.timer s.reading).1 = e::es ∧
      e.deadline ≤ clock (scan clock s.manager.timer s.reading).2 ∧
      (collectTimeoutTasks clock s).1.manager.hint = some e.id) ∨
    ((collectTimeoutTasks clock s).1.manager.hint = s.manager.hint ∧
      ((scan clock s.manager.timer s.reading).1 = 0 ∨
        ∀ e es, s.manager.timer.drop (scan clock s.manager.timer s.reading).1 = e::es →
          ¬ e.deadline ≤ clock (scan clock s.manager.timer s.reading).2)) := by
  cases left : s.manager.timer.drop (scan clock s.manager.timer s.reading).1 with
  | nil => exact Or.inr ⟨by simp only [collectTimeoutTasks,left],Or.inr (by simp)⟩
  | cons e es =>
    simp only [collectTimeoutTasks,left]
    split
    · exact Or.inr ⟨rfl,Or.inl ‹_›⟩
    · by_cases due : e.deadline ≤ clock (scan clock s.manager.timer s.reading).2
      · exact Or.inl ⟨e,es,rfl,due,by simp only [if_pos due]⟩
      · refine Or.inr ⟨by simp only [if_neg due],Or.inr ?_⟩
        intro _ _ same
        cases same
        exact due

theorem collectValid (inv : Inv s) (valid : Valid s) :
    Valid (collectTimeoutTasks clock s).1 ↔ Renewed clock s .collectTimeoutTasks := by
  obtain ⟨-,timer⟩ := collectSource clock s
  have whole := List.take_append_drop (scan clock s.manager.timer s.reading).1 s.manager.timer
  rcases collectHint clock s with ⟨e,es,left,due,hint⟩ | ⟨hint,passed⟩
  · refine iff_of_true ?_ (fun _ _ _ => ⟨e,es,left,due⟩)
    intro id named
    rw [hint] at named
    cases Option.some.inj named
    exact ⟨e,by rw [timer,left]; simp,rfl⟩
  · simp only [Valid,hint,timer]
    constructor
    · intro after x inside named
      obtain ⟨y,kept,same⟩ := after x.id named
      have single := inv.single
      rw [← whole,List.map_append,List.nodup_append] at single
      exact absurd same.symm (single.2.2 _ (List.mem_map_of_mem inside) _ (List.mem_map_of_mem kept))
    · intro renewed id named
      obtain ⟨e,inside,rfl⟩ := valid id named
      rw [← whole] at inside
      rcases List.mem_append.1 inside with erased | kept
      · obtain ⟨next,rest,left,due⟩ := renewed e erased named
        rcases passed with none | late
        · simp [none] at erased
        · exact absurd due (late next rest left)
      · exact ⟨e,kept,rfl⟩

theorem stepInv (s : State) (e : Event) (t : State) (inv : Inv s) (_ : Valid s) (h : step clock s e = some t) :
    Inv t := by
  cases e with
  | addTimer ms co freed =>
    cases Option.some.inj h
    refine ⟨?_,?_⟩
    · rw [((addTimerPerm s.manager (clock s.reading + ms) co freed).map Entry.id).nodup_iff,List.map_cons,List.nodup_cons]
      refine ⟨?_,inv.single⟩
      intro inside
      obtain ⟨e,he,same⟩ := List.mem_map.1 inside
      have less := inv.fresh e he
      simp only at same
      omega
    · intro e inside
      change e.id < s.manager.next+1
      rcases addTimerMem.1 inside with rfl | old
      · exact Nat.lt_succ_self _
      · exact Nat.lt_succ_of_lt (inv.fresh e old)
  | delTimer id =>
    simp only [step] at h
    split at h <;> try contradiction
    cases Option.some.inj h
    refine ⟨inv.single.sublist (List.eraseP_sublist.map _),?_⟩
    intro e inside
    exact inv.fresh e (List.eraseP_sublist.subset inside)
  | collectTimeoutTasks =>
    cases Option.some.inj h
    obtain ⟨next,timer⟩ := collectSource clock s
    refine ⟨?_,?_⟩
    · rw [timer]
      exact inv.single.sublist ((List.drop_sublist _ _).map _)
    · intro e inside
      rw [timer] at inside
      rw [next]
      exact inv.fresh e (List.mem_of_mem_drop inside)

theorem stepValid (s : State) (e : Event) (t : State) (inv : Inv s) (valid : Valid s) (h : step clock s e = some t) :
    Valid t ↔ Renewed clock s e := by
  cases e with
  | addTimer ms co freed =>
    cases Option.some.inj h
    exact iff_of_true (addTimerValid _ _ _ _ _) trivial
  | delTimer id =>
    simp only [step] at h
    split at h <;> try contradiction
    cases Option.some.inj h
    exact iff_of_true (delTimerValid valid id) trivial
  | collectTimeoutTasks =>
    cases Option.some.inj h
    exact collectValid inv valid

end

/-- In a run, the hint is good in every state exactly when each CollectTimeoutTasks that erases its
entry finds the next one due when it looks again. -/
theorem hintValid (clock : Nat → Nat) (es : List Event) (u : State) (whole : run (step clock) initial es = some u) :
    (∀ before after t, es = before ++ after → run (step clock) initial before = some t → Valid t) ↔
      Guarded (step clock) (Renewed clock) initial es :=
  goodIffGuarded stepInv stepValid whole ⟨List.nodup_nil,by simp [initial,TimerManager.create]⟩
    (by simp [Valid,initial,TimerManager.create])

theorem deletedHintValid : (∀ before after t,
    [Event.addTimer 5 1 0,.addTimer 3 2 0,.delTimer 1,.collectTimeoutTasks] = before ++ after →
    run (step id) initial before = some t → Valid t) ↔
      Guarded (step id) (Renewed id) initial [.addTimer 5 1 0,.addTimer 3 2 0,.delTimer 1,.collectTimeoutTasks] :=
  hintValid id _ _ rfl

/-- A single timer that expires: CollectTimeoutTasks erases it and keeps the hint on it. -/
theorem onlyTimerExpires : ¬ ∀ (clock : Nat → Nat) (es : List Event) (s : State), (∀ j k, j ≤ k → clock j ≤ clock k) →
    run (step clock) initial es = some s → Valid s := by
  intro claim
  have valid := claim (fun k => 10*k) [.addTimer 5 1 0,.collectTimeoutTasks] _
    (fun j k order => Nat.mul_le_mul_left 10 order) rfl
  obtain ⟨e,inside,_⟩ := valid 0 rfl
  exact absurd inside (by simp [collectTimeoutTasks,scan,addTimer,insertPlace,initial,TimerManager.create])

end TitCo.TimerHint
