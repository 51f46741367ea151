import Mathlib.Data.List.Basic

/-! task_manager.cc: the two task lists of one scheduler and the swap by which Loop
takes them. Closures and coroutines stay abstract. Each function is one section
under the manager's mutex. -/
namespace TitCo.Tasks

structure TaskManager (κ γ : Type) where
  newTasks : List κ
  readyTasks : List γ
  deriving DecidableEq, Repr

variable {κ γ : Type}

def TaskManager.empty : TaskManager κ γ := ⟨[],[]⟩

def addNewTasks (m : TaskManager κ γ) (func : κ) : TaskManager κ γ :=
  {m with newTasks := m.newTasks ++ [func]}

def addReadyTasks (m : TaskManager κ γ) (co : γ) : TaskManager κ γ :=
  {m with readyTasks := m.readyTasks ++ [co]}

/-- std::swap with the caller's vector, skipped when there is nothing to take. -/
def swapIn {α : Type} (mine theirs : List α) : List α × List α :=
  if mine.isEmpty then (mine,theirs) else (theirs,mine)

def getAllTasks (m : TaskManager κ γ) (new : List κ) (ready : List γ) :
    TaskManager κ γ × List κ × List γ :=
  let n := swapIn m.newTasks new
  let r := swapIn m.readyTasks ready
  (⟨n.1,r.1⟩,n.2,r.2)

theorem swapInEmpty {α : Type} (mine : List α) : swapIn mine [] = ([],mine) := by
  cases mine <;> rfl

theorem getAllTasksEmpty (m : TaskManager κ γ) :
    getAllTasks m [] [] = (.empty,m.newTasks,m.readyTasks) := by
  simp only [getAllTasks,swapInEmpty,TaskManager.empty]

end TitCo.Tasks
