import TitCo.Tasks
import TitCo.Transition

/-! SchedulerImpl::Loop with its two local vectors, which GetAllTasks swaps with those of
the task manager, the three for loops run over, and CollectTimeoutTasks fills again.
Other threads and the coroutine that Loop has resumed add tasks at any point. -/
namespace TitCo.TaskOrder
open Tasks Transition

/-- Where Loop is; the number is the iterator of a for loop. -/
inductive Place where
  | wait
  | io
  | newTask (i : Nat)
  | readyTask (i : Nat)
  | collect
  | timeoutTask (i : Nat)
  | ended
  deriving DecidableEq, Repr

/-- `stored` and `run` are the histories of both lists. -/
structure State (κ γ : Type) where
  tasks : TaskManager κ γ
  newTaskList : List κ
  readyTaskList : List γ
  place : Place
  running : Bool
  timeout : Bool
  stop : Bool
  storedNew : List κ
  storedReady : List γ
  runNew : List κ
  runReady : List γ
  deriving DecidableEq, Repr

variable {κ γ : Type}

def initial : State κ γ := ⟨.empty,[],[],.wait,false,false,false,[],[],[],[]⟩

inductive Event (κ γ : Type) where
  | addNewTasks (func : κ)
  | addReadyTasks (co : γ)
  | stop
  | yield
  | wait
  | waitError
  | leave
  | resumeIo
  | getAllTasks
  | resumeNew
  | newDone
  | resumeReady
  | readyDone
  | pushTimeout (co : γ)
  | collected
  | resumeTimeout
  | timeoutDone
  deriving DecidableEq, Repr

def addStep (s : State κ γ) : Event κ γ → Option (State κ γ)
  | .addNewTasks func =>
      some {s with tasks := addNewTasks s.tasks func, storedNew := s.storedNew ++ [func]}
  | .addReadyTasks co =>
      some {s with tasks := addReadyTasks s.tasks co, storedReady := s.storedReady ++ [co]}
  | .stop => some {s with stop := true}
  | _ => none

/-- The statements of Loop. A for loop ends when its iterator is at the end of the vector. -/
def loopStep (s : State κ γ) : Event κ γ → Option (State κ γ)
  | .wait => if s.place = .wait ∧ s.stop = false then some {s with place := .io} else none
  | .waitError => if s.place = .wait ∧ s.stop = false then some s else none
  | .leave => if s.place = .wait ∧ s.stop = true then some {s with place := .ended} else none
  | .resumeIo => if s.place = .io then some {s with running := true} else none
  | .getAllTasks =>
      if s.place = .io then
        let r := Tasks.getAllTasks s.tasks s.newTaskList s.readyTaskList
        some {s with tasks := r.1, newTaskList := r.2.1, readyTaskList := r.2.2, place := .newTask 0}
      else none
  | .resumeNew =>
      match s.place with
      | .newTask i => do
          let func ← s.newTaskList[i]?
          some {s with place := .newTask (i+1), running := true, runNew := s.runNew ++ [func]}
      | _ => none
  | .newDone =>
      if s.place = .newTask s.newTaskList.length then some {s with newTaskList := [], place := .readyTask 0} else none
  | .resumeReady =>
      match s.place with
      | .readyTask i => do
          let co ← s.readyTaskList[i]?
          some {s with place := .readyTask (i+1), running := true, runReady := s.runReady ++ [co]}
      | _ => none
  | .readyDone =>
      if s.place = .readyTask s.readyTaskList.length then some {s with readyTaskList := [], place := .collect} else none
  | .pushTimeout co =>
      if s.place = .collect then some {s with readyTaskList := s.readyTaskList ++ [co]} else none
  | .collected =>
      if s.place = .collect then some {s with place := .timeoutTask 0, timeout := !s.readyTaskList.isEmpty} else none
  | .resumeTimeout =>
      match s.place with
      | .timeoutTask i => do
          let _ ← s.readyTaskList[i]?
          some {s with place := .timeoutTask (i+1), running := true}
      | _ => none
  | .timeoutDone =>
      if s.place = .timeoutTask s.readyTaskList.length then
        some {s with timeout := false, readyTaskList := [], place := .wait}
      else none
  | _ => none

/-- While a coroutine runs, Loop is inside Resume. -/
def step (s : State κ γ) (e : Event κ γ) : Option (State κ γ) :=
  match addStep s e,s.running,e with
  | some t,_,_ => some t
  | none,true,.yield => some {s with running := false}
  | none,true,_ => none
  | none,false,e => loopStep s e

def State.ownNew (s : State κ γ) : List κ :=
  match s.place with
  | .newTask i => s.newTaskList.drop i
  | _ => []

def State.ownReady (s : State κ γ) : List γ :=
  match s.place with
  | .newTask _ => s.readyTaskList
  | .readyTask i => s.readyTaskList.drop i
  | _ => []

structure Inv (s : State κ γ) : Prop where
  new : s.storedNew = s.runNew ++ s.ownNew ++ s.tasks.newTasks
  ready : s.storedReady = s.runReady ++ s.ownReady ++ s.tasks.readyTasks
  newCleared : (∀ i, s.place ≠ .newTask i) → s.newTaskList = []
  readyCleared : s.place = .wait ∨ s.place = .io → s.readyTaskList = []

theorem initialInv : Inv (initial : State κ γ) := by
  constructor <;> simp [initial,State.ownNew,State.ownReady,TaskManager.empty]

theorem dropNext {α : Type} {l : List α} {i : Nat} {a : α} (at_ : l[i]? = some a) : [a] ++ l.drop (i+1) = l.drop i := by
  obtain ⟨bound,rfl⟩ := List.getElem?_eq_some_iff.1 at_
  exact (List.drop_eq_getElem_cons bound).symm

theorem addKeeps {s t : State κ γ} {e : Event κ γ} (inv : Inv s) (h : addStep s e = some t) : Inv t := by
  cases e <;> try contradiction
  case addNewTasks func =>
    cases Option.some.inj h
    refine {inv with new := ?_, ready := inv.ready}
    simp only [addNewTasks]
    rw [inv.new,List.append_assoc _ _ [func]]
    rfl
  case addReadyTasks co =>
    cases Option.some.inj h
    refine {inv with new := inv.new, ready := ?_}
    simp only [addReadyTasks]
    rw [inv.ready,List.append_assoc _ _ [co]]
    rfl
  case stop =>
    cases Option.some.inj h
    exact {inv with new := inv.new, ready := inv.ready}

theorem loopKeeps {s t : State κ γ} {e : Event κ γ} (inv : Inv s) (h : loopStep s e = some t) : Inv t := by
  obtain ⟨new,ready,newCleared,readyCleared⟩ := inv
  simp only [State.ownNew] at new
  simp only [State.ownReady] at ready
  cases e <;> simp only [loopStep] at h <;> try contradiction
  case wait =>
    split at h <;> try contradiction
    rename_i guard
    cases Option.some.inj h
    simp only [guard.1] at new ready newCleared readyCleared
    exact ⟨new,ready,fun _ => newCleared (by simp),fun _ => readyCleared (by simp)⟩
  case waitError =>
    split at h <;> try contradiction
    cases Option.some.inj h
    exact ⟨new,ready,newCleared,readyCleared⟩
  case leave =>
    split at h <;> try contradiction
    rename_i guard
    cases Option.some.inj h
    simp only [guard.1] at new ready newCleared
    exact ⟨new,ready,fun _ => newCleared (by simp),by simp⟩
  case resumeIo =>
    split at h <;> try contradiction
    cases Option.some.inj h
    exact ⟨new,ready,newCleared,readyCleared⟩
  case getAllTasks =>
    split at h <;> try contradiction
    rename_i place
    cases Option.some.inj h
    simp only [place] at new ready newCleared readyCleared
    -- The swap with two empty vectors takes everything.
    rw [newCleared (by simp),readyCleared (by simp),getAllTasksEmpty]
    refine ⟨?_,?_,?_,?_⟩
    · simpa [State.ownNew,TaskManager.empty] using new
    · simpa [State.ownReady,TaskManager.empty] using ready
    · intro elsewhere
      exact absurd rfl (elsewhere 0)
    · simp
  case resumeNew =>
    split at h <;> try contradiction
    rename_i i place
    obtain ⟨func,next,h⟩ := Option.bind_eq_some_iff.1 h
    cases Option.some.inj h
    simp only [place] at new ready
    refine ⟨?_,ready,?_,by simp⟩
    · simp only [State.ownNew]
      rw [List.append_assoc s.runNew,dropNext next]
      exact new
    · intro elsewhere
      exact absurd rfl (elsewhere (i+1))
  case newDone =>
    split at h <;> try contradiction
    rename_i place
    cases Option.some.inj h
    simp only [place,List.drop_length] at new ready
    exact ⟨new,ready,fun _ => rfl,by simp⟩
  case resumeReady =>
    split at h <;> try contradiction
    rename_i i place
    obtain ⟨co,next,h⟩ := Option.bind_eq_some_iff.1 h
    cases Option.some.inj h
    simp only [place] at new ready newCleared
    refine ⟨new,?_,fun _ => newCleared (by simp),by simp⟩
    simp only [State.ownReady]
    rw [List.append_assoc s.runReady,dropNext next]
    exact ready
  case readyDone =>
    split at h <;> try contradiction
    rename_i place
    cases Option.some.inj h
    simp only [place,List.drop_length] at new ready newCleared
    exact ⟨new,ready,fun _ => newCleared (by simp),by simp⟩
  case pushTimeout co =>
    split at h <;> try contradiction
    rename_i place
    cases Option.some.inj h
    simp only [place] at new ready newCleared
    refine ⟨?_,?_,fun _ => newCleared (by simp),by simp [place]⟩
    · simpa [State.ownNew,place] using new
    · simpa [State.ownReady,place] using ready
  case collected =>
    split at h <;> try contradiction
    rename_i place
    cases Option.some.inj h
    simp only [place] at new ready newCleared
    exact ⟨new,ready,fun _ => newCleared (by simp),by simp⟩
  case resumeTimeout =>
    split at h <;> try contradiction
    rename_i i place
    obtain ⟨co,next,h⟩ := Option.bind_eq_some_iff.1 h
    cases Option.some.inj h
    simp only [place] at new ready newCleared
    exact ⟨new,ready,fun _ => newCleared (by simp),by simp⟩
  case timeoutDone =>
    split at h <;> try contradiction
    rename_i place
    cases Option.some.inj h
    simp only [place] at new ready newCleared
    exact ⟨new,ready,fun _ => newCleared (by simp),fun _ => rfl⟩

theorem stepKeeps {s t : State κ γ} {e : Event κ γ} (inv : Inv s) (h : step s e = some t) : Inv t := by
  simp only [step] at h
  split at h
  · rename_i added
    cases Option.some.inj h
    exact addKeeps inv added
  · cases Option.some.inj h
    exact ⟨inv.new,inv.ready,inv.newCleared,inv.readyCleared⟩
  · contradiction
  · exact loopKeeps inv h

/-- Whatever was stored has been run in that order, then comes what Loop is about to run of
its batch, then what the manager holds; no swap meets a vector that is not empty. -/
theorem tasksRunInOrder (es : List (Event κ γ)) (s : State κ γ) (h : run step initial es = some s) :
    s.runNew <+: s.storedNew ∧ s.runReady <+: s.storedReady ∧
    s.storedNew = s.runNew ++ s.ownNew ++ s.tasks.newTasks ∧
    s.storedReady = s.runReady ++ s.ownReady ++ s.tasks.readyTasks ∧
    (s.place = .io → s.newTaskList = [] ∧ s.readyTaskList = []) := by
  have inv := runInvariant (fun _ _ _ inv e => stepKeeps inv e) h initialInv
  refine ⟨?_,?_,inv.new,inv.ready,?_⟩
  · rw [inv.new,List.append_assoc]
    exact List.prefix_append _ _
  · rw [inv.ready,List.append_assoc]
    exact List.prefix_append _ _
  · intro place
    exact ⟨inv.newCleared (by simp [place]),inv.readyCleared (.inr place)⟩

def overlapping : List (Event Nat Nat) :=
  [.addNewTasks 1,.addReadyTasks 11,.addReadyTasks 12,.wait,.getAllTasks,.resumeNew,.addNewTasks 2,.addReadyTasks 13,
    .yield,.newDone,.resumeReady,.yield,.resumeReady,.addReadyTasks 14,.yield,.readyDone,.pushTimeout 20,.collected,
    .resumeTimeout,.addNewTasks 3,.yield,.timeoutDone,.waitError,.wait,.getAllTasks,.resumeNew,.yield]

theorem tasksRunInOrderOverlapping : ∃ s : State Nat Nat, run step initial overlapping = some s ∧
    s.runNew = [1,2] ∧ s.ownNew = [3] ∧ s.runReady = [11,12] ∧ s.ownReady = [13,14] ∧
    s.runNew <+: s.storedNew ∧ s.runReady <+: s.storedReady :=
  have ordered := tasksRunInOrder overlapping _ rfl
  ⟨_,rfl,rfl,rfl,rfl,rfl,ordered.1,ordered.2.1⟩

end TitCo.TaskOrder
