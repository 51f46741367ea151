import TitCo.Transition
import TitCo.Tasks

/-! The wake-up protocol between AddNewTask / AddReadyTask and Loop. A producer
pushes under the task mutex, tries the compare-and-swap on `is_wakeup_` and, if it
wins, writes the eventfd. Loop gets the edge from epoll_wait, reads the eventfd,
resets `is_wakeup_` and collects the tasks. Every line is its own step. A write to
the eventfd queues an edge and a read resets its counter; both are repeated on
EINTR, which changes nothing. epoll_wait may also return for other reasons, with or
without the wake-up edge still queued. -/
namespace TitCo.Wakeup
open Transition Tasks

inductive Producer where
  | idle
  | pushed
  | writing
  deriving DecidableEq, Repr

/- `served` is the rest of the IO phase, after HandleWakeUpEvent or without one;
`resuming` is everything from GetAllTasks back to epoll_wait. -/
inductive Loop where
  | waiting
  | woken
  | drained
  | served
  | resuming
  deriving DecidableEq, Repr

structure State (κ γ : Type) where
  tasks : TaskManager κ γ
  newTaskList : List κ
  readyTaskList : List γ
  isWakeup : Bool
  counter : Nat
  edge : Bool
  producer : Nat → Producer
  loop : Loop

variable {κ γ : Type}

def initial : State κ γ := ⟨.empty,[],[],false,0,false,fun _ => .idle,.waiting⟩

inductive Event (κ γ : Type) where
  | addNewTasks (p : Nat) (func : κ)
  | addReadyTasks (p : Nat) (co : γ)
  | compareSwap (p : Nat)
  | write (p : Nat)
  | writeInterrupted (p : Nat)
  | waitEdge
  | waitOther
  | waitError
  | read
  | readInterrupted
  | reset
  | getAllTasks
  | wait

def step (s : State κ γ) : Event κ γ → Option (State κ γ)
  | .addNewTasks p func =>
      if s.producer p = .idle then
        some {s with tasks := addNewTasks s.tasks func, producer := Function.update s.producer p .pushed}
      else none
  | .addReadyTasks p co =>
      if s.producer p = .idle then
        some {s with tasks := addReadyTasks s.tasks co, producer := Function.update s.producer p .pushed}
      else none
  | .compareSwap p =>
      if s.producer p = .pushed then
        if s.isWakeup = false then
          some {s with isWakeup := true, producer := Function.update s.producer p .writing}
        else some {s with producer := Function.update s.producer p .idle}
      else none
  | .write p =>
      if s.producer p = .writing then
        some {s with
          counter := s.counter+1
          edge := true
          producer := Function.update s.producer p .idle}
      else none
  | .writeInterrupted p => if s.producer p = .writing then some s else none
  | .waitEdge => if s.loop = .waiting ∧ s.edge = true then some {s with edge := false, loop := .woken} else none
  | .waitOther => if s.loop = .waiting then some {s with loop := .served} else none
  | .waitError => if s.loop = .waiting then some s else none
  | .read => if s.loop = .woken then some {s with counter := 0, loop := .drained} else none
  | .readInterrupted => if s.loop = .woken then some s else none
  | .reset => if s.loop = .drained then some {s with isWakeup := false, loop := .served} else none
  | .getAllTasks =>
      if s.loop = .served then
        let r := getAllTasks s.tasks s.newTaskList s.readyTaskList
        some {s with tasks := r.1, newTaskList := r.2.1, readyTaskList := r.2.2, loop := .resuming}
      else none
  | .wait =>
      if s.loop = .resuming then some {s with newTaskList := [], readyTaskList := [], loop := .waiting}
      else none

def Pending (s : State κ γ) : Prop := s.tasks.newTasks ≠ [] ∨ s.tasks.readyTasks ≠ []

/- While the flag is up somebody still owes a reset: the producer that will write,
the queued edge, or Loop on its way from epoll_wait to the reset. Tasks that nobody
owes anything for are about to be collected. -/
structure Inv (s : State κ γ) : Prop where
  owed : s.isWakeup = true →
    (∃ p, s.producer p = .writing) ∨ s.edge = true ∨ s.loop = .woken ∨ s.loop = .drained
  announced : Pending s → (∃ p, s.producer p = .pushed) ∨ s.isWakeup = true ∨ s.loop = .served
  vectors : s.loop ≠ .resuming → s.newTaskList = [] ∧ s.readyTaskList = []

theorem initialInv : Inv (initial : State κ γ) := by
  constructor <;> simp [initial,Pending,TaskManager.empty]

theorem Inv.owedOutside {s : State κ γ} (inv : Inv s) (up : s.isWakeup = true)
    (outside : s.loop ≠ .woken ∧ s.loop ≠ .drained) :
    (∃ p, s.producer p = .writing) ∨ s.edge = true := by
  rcases inv.owed up with writing | edge | woken | drained
  · exact .inl writing
  · exact .inr edge
  · exact absurd woken outside.1
  · exact absurd drained outside.2

theorem Inv.announcedOutside {s : State κ γ} (inv : Inv s) (pending : Pending s)
    (outside : s.loop ≠ .served) : (∃ p, s.producer p = .pushed) ∨ s.isWakeup = true := by
  rcases inv.announced pending with pushed | up | served
  · exact .inl pushed
  · exact .inr up
  · exact absurd served outside

/- Loop moves on from a place that owes nothing to one that may. -/
theorem Inv.owedMoves {s : State κ γ} (inv : Inv s) (outside : s.loop ≠ .woken ∧ s.loop ≠ .drained) (loop : Loop)
    (up : s.isWakeup = true) :
    (∃ p, s.producer p = .writing) ∨ s.edge = true ∨ loop = .woken ∨ loop = .drained := by
  rcases inv.owedOutside up outside with writing | edge
  · exact .inl writing
  · exact .inr (.inl edge)

theorem Inv.announcedMoves {s : State κ γ} (inv : Inv s) (outside : s.loop ≠ .served) (loop : Loop)
    (pending : Pending s) : (∃ p, s.producer p = .pushed) ∨ s.isWakeup = true ∨ loop = .served := by
  rcases inv.announcedOutside pending outside with pushed | up
  · exact .inl pushed
  · exact .inr (.inl up)

theorem otherStays {s : State κ γ} {p q : Nat} {old new at_ : Producer}
    (place : s.producer q = at_) (here : s.producer p = old) (different : old ≠ at_) :
    Function.update s.producer p new q = at_ := by
  have other : q ≠ p := by
    intro same
    subst q
    exact different (here.symm.trans place)
  simpa [Function.update_of_ne other] using place

theorem pushKeeps {s : State κ γ} (inv : Inv s) (p : Nat) (tasks : TaskManager κ γ)
    (idle : s.producer p = .idle) :
    Inv {s with tasks := tasks, producer := Function.update s.producer p .pushed} := by
  refine {inv with owed := ?_, announced := fun _ => .inl ⟨p,by simp⟩}
  intro up
  rcases inv.owed up with ⟨q,place⟩ | rest
  · exact .inl ⟨q,otherStays place idle (by simp)⟩
  · exact .inr rest

theorem stepKeeps {s t : State κ γ} {e : Event κ γ} (inv : Inv s) (h : step s e = some t) : Inv t := by
  cases e with
  | addNewTasks p func =>
    simp only [step] at h
    split at h <;> try contradiction
    cases Option.some.inj h
    exact pushKeeps inv p _ ‹_›
  | addReadyTasks p co =>
    simp only [step] at h
    split at h <;> try contradiction
    cases Option.some.inj h
    exact pushKeeps inv p _ ‹_›
  | compareSwap p =>
    simp only [step] at h
    split at h <;> try contradiction
    rename_i pushed
    split at h
    · cases Option.some.inj h
      exact {inv with owed := fun _ => .inl ⟨p,by simp⟩, announced := fun _ => .inr (.inl rfl)}
    · rename_i up
      cases Option.some.inj h
      refine {inv with owed := ?_, announced := fun _ => .inr (.inl (by simpa using up))}
      intro flag
      rcases inv.owed flag with ⟨q,place⟩ | rest
      · exact .inl ⟨q,otherStays place pushed (by simp)⟩
      · exact .inr rest
  | write p =>
    simp only [step] at h
    split at h <;> try contradiction
    rename_i writing
    cases Option.some.inj h
    refine {inv with owed := fun _ => .inr (.inl rfl), announced := ?_}
    intro pending
    rcases inv.announced pending with ⟨q,place⟩ | rest
    · exact .inl ⟨q,otherStays place writing (by simp)⟩
    · exact .inr rest
  | writeInterrupted p =>
    simp only [step] at h
    split at h <;> try contradiction
    cases Option.some.inj h
    exact inv
  | waitEdge =>
    simp only [step] at h
    split at h <;> try contradiction
    rename_i guard
    cases Option.some.inj h
    exact ⟨fun _ => .inr (.inr (.inl rfl)),inv.announcedMoves (by simp [guard.1]) _,
      fun _ => inv.vectors (by simp [guard.1])⟩
  | waitOther =>
    simp only [step] at h
    split at h <;> try contradiction
    rename_i waiting
    cases Option.some.inj h
    exact ⟨inv.owedMoves (by simp [waiting]) _,fun _ => .inr (.inr rfl),fun _ => inv.vectors (by simp [waiting])⟩
  | waitError =>
    simp only [step] at h
    split at h <;> try contradiction
    cases Option.some.inj h
    exact inv
  | read =>
    simp only [step] at h
    split at h <;> try contradiction
    rename_i woken
    cases Option.some.inj h
    exact ⟨fun _ => .inr (.inr (.inr rfl)),inv.announcedMoves (by simp [woken]) _,
      fun _ => inv.vectors (by simp [woken])⟩
  | readInterrupted =>
    simp only [step] at h
    split at h <;> try contradiction
    cases Option.some.inj h
    exact inv
  | reset =>
    simp only [step] at h
    split at h <;> try contradiction
    rename_i drained
    cases Option.some.inj h
    exact ⟨by simp,fun _ => .inr (.inr rfl),fun _ => inv.vectors (by simp [drained])⟩
  | getAllTasks =>
    simp only [step] at h
    split at h <;> try contradiction
    rename_i served
    cases Option.some.inj h
    obtain ⟨new,ready⟩ := inv.vectors (by simp [served])
    refine ⟨inv.owedMoves (by simp [served]) _,?_,by simp⟩
    intro pending
    simp [Pending,new,ready,getAllTasksEmpty,TaskManager.empty] at pending
  | wait =>
    simp only [step] at h
    split at h <;> try contradiction
    rename_i resuming
    cases Option.some.inj h
    exact ⟨inv.owedMoves (by simp [resuming]) _,inv.announcedMoves (by simp [resuming]) _,fun _ => ⟨rfl,rfl⟩⟩

/-- Loop is never blocked in epoll_wait without a queued edge while a task is stored
and every producer has finished its Wakeup. -/
theorem noLostWakeup (es : List (Event κ γ)) (s : State κ γ) (h : run step initial es = some s) :
    ¬ (s.loop = .waiting ∧ s.edge = false ∧ Pending s ∧ ∀ p, s.producer p = .idle) := by
  rintro ⟨waiting,quiet,pending,idle⟩
  have inv := runInvariant (fun _ _ _ inv e => stepKeeps inv e) h initialInv
  have up : s.isWakeup = true := by
    rcases inv.announcedOutside pending (by simp [waiting]) with ⟨p,pushed⟩ | up
    · simp [idle p] at pushed
    · exact up
  rcases inv.owedOutside up (by simp [waiting]) with ⟨p,writing⟩ | edge
  · simp [idle p] at writing
  · simp [quiet] at edge

theorem noLostWakeupOverlap : ∃ s : State Nat Nat, run step initial
    [.addNewTasks 0 7,.compareSwap 0,.write 0,.waitEdge,.read,.addReadyTasks 1 9,.compareSwap 1,
      .reset,.getAllTasks,.wait] = some s ∧ s.isWakeup = false ∧ ¬ Pending s ∧
    ¬ (s.loop = .waiting ∧ s.edge = false ∧ Pending s ∧ ∀ p, s.producer p = .idle) :=
  ⟨_,rfl,rfl,by simp [Pending,getAllTasks,swapIn,addNewTasks,addReadyTasks,initial],
    noLostWakeup [.addNewTasks 0 7,.compareSwap 0,.write 0,.waitEdge,.read,.addReadyTasks 1 9,
      .compareSwap 1,.reset,.getAllTasks,.wait] _ rfl⟩

end TitCo.Wakeup
