import TitCo.Settling
import TitCo.Wakeup

/-! Every task that has been stored is collected, without a further event from outside: the producers'
writes and Loop's reads come to an end, and only with nothing left to collect. -/
namespace TitCo.TaskDrain
open Settling Tasks Transition Wakeup

variable {κ γ : Type}

/-- The steps that nobody outside is needed for. -/
def Serving : Event κ γ → Prop
  | .compareSwap _ | .write _ | .waitEdge | .read | .reset | .getAllTasks | .wait => True
  | _ => False

/-- The batches that Loop takes in a run, one behind the other. -/
def collected (s : State κ γ) : List (Event κ γ) → List κ × List γ
  | [] => ([],[])
  | e::es =>
    match step s e with
    | none => ([],[])
    | some t =>
      let later := collected t es
      match e with
      | .getAllTasks => (t.newTaskList ++ later.1,t.readyTaskList ++ later.2)
      | _ => later

/-- Loop sleeps, nobody is about to wake it, and there is nothing to wake it for. -/
structure Asleep (s : State κ γ) : Prop where
  loop : s.loop = .waiting
  edge : s.edge = false
  isWakeup : s.isWakeup = false
  producers : ∀ p, s.producer p = .idle
  tasks : s.tasks = .empty
  vectors : s.newTaskList = [] ∧ s.readyTaskList = []

def producerWeight : Producer → Nat
  | .idle => 0
  | .writing => 7
  | .pushed => 8

@[simp] theorem weightIdle : producerWeight .idle = 0 := rfl
@[simp] theorem weightWriting : producerWeight .writing = 7 := rfl
@[simp] theorem weightPushed : producerWeight .pushed = 8 := rfl

def loopWeight : Loop → Nat
  | .waiting => 0
  | .resuming => 1
  | .served => 2
  | .drained => 3
  | .woken => 4

def rank (n : Nat) (s : State κ γ) : Nat :=
  ∑ p ∈ Finset.range n, producerWeight (s.producer p) + 5 * s.edge.toNat + loopWeight s.loop

/- Producers from `n` on have added nothing yet. -/
def Producers (n : Nat) (s : State κ γ) : Prop := ∀ p, n ≤ p → s.producer p = .idle

section
variable {n : Nat} {s t : State κ γ} {e : Event κ γ}

theorem producersMoved (producers : Producers n s) {p : Nat} {at_ : Producer} (less : p < n)
    (moved : t.producer = Function.update s.producer p at_) : Producers n t := by
  intro q above
  rw [moved,Function.update_of_ne (by omega)]
  exact producers q above

theorem producerBelow (producers : Producers n s) {p : Nat} (busy : s.producer p ≠ .idle) : p < n := by
  by_contra above
  exact busy (producers p (by omega))

theorem someProducers (some_ : ∃ n, Producers n s) (h : step s e = some t) : ∃ n, Producers n t := by
  obtain ⟨n,producers⟩ := some_
  have same : t.producer = s.producer → ∃ n, Producers n t := by
    intro same
    exact ⟨n,fun p above => by rw [same]; exact producers p above⟩
  have moved : ∀ p at_, t.producer = Function.update s.producer p at_ → ∃ n, Producers n t := fun p at_ moved =>
    ⟨max n (p+1),producersMoved (fun q above => producers q (by omega)) (show p < max n (p+1) by omega) moved⟩
  cases e with
  | addNewTasks p _ | addReadyTasks p _ | write p =>
    simp only [step] at h
    split at h <;> try contradiction
    cases Option.some.inj h
    exact moved p _ rfl
  | compareSwap p =>
    simp only [step] at h
    split at h <;> try contradiction
    split at h <;> cases Option.some.inj h <;> exact moved p _ rfl
  | writeInterrupted _ | waitEdge | waitOther | waitError | read | readInterrupted | reset | getAllTasks | wait =>
    simp only [step] at h
    split at h <;> try contradiction
    cases Option.some.inj h
    exact same rfl

theorem servingFalls (n : Nat) : Falls step Serving (fun s : State κ γ => Inv s ∧ Producers n s) (rank n) := by
  rintro s e t ⟨inv,producers⟩ serving h
  have kept := stepKeeps inv h
  cases e with
  | addNewTasks _ _ | addReadyTasks _ _ | writeInterrupted _ | waitOther | waitError | readInterrupted => exact serving.elim
  | compareSwap p =>
    simp only [step] at h
    split at h <;> try contradiction
    rename_i pushed
    have below := producerBelow producers (show s.producer p ≠ .idle by simp [pushed])
    split at h
    all_goals
      cases Option.some.inj h
      refine ⟨⟨kept,producersMoved producers below rfl⟩,?_⟩
    · have sum := sumMoved producerWeight s.producer below .writing
      simp only [pushed,weightPushed,weightWriting] at sum
      simp only [rank]
      omega
    · have sum := sumMoved producerWeight s.producer below .idle
      simp only [pushed,weightPushed,weightIdle] at sum
      simp only [rank]
      omega
  | write p =>
    simp only [step] at h
    split at h <;> try contradiction
    rename_i writing
    have below := producerBelow producers (show s.producer p ≠ .idle by simp [writing])
    cases Option.some.inj h
    refine ⟨⟨kept,producersMoved producers below rfl⟩,?_⟩
    have sum := sumMoved producerWeight s.producer below .idle
    simp only [writing,weightWriting,weightIdle] at sum
    simp only [rank,Bool.toNat_true]
    omega
  | waitEdge =>
    simp only [step] at h
    split at h <;> try contradiction
    rename_i guard
    cases Option.some.inj h
    refine ⟨⟨kept,producers⟩,?_⟩
    simp only [rank,guard.1,guard.2,loopWeight,Bool.toNat_true,Bool.toNat_false]
    omega
  | read | reset | getAllTasks | wait =>
    simp only [step] at h
    split at h <;> try contradiction
    rename_i at_
    cases Option.some.inj h
    refine ⟨⟨kept,producers⟩,?_⟩
    simp only [rank,at_,loopWeight]
    omega

theorem quietAsleep (inv : Inv s) (quiet : Quiet step Serving s) : Asleep s := by
  have producers : ∀ p, s.producer p = .idle := by
    intro p
    cases at_ : s.producer p with
    | idle => rfl
    | pushed =>
      have stuck := quiet (.compareSwap p) trivial
      simp only [step,at_,if_true] at stuck
      split at stuck <;> contradiction
    | writing =>
      have stuck := quiet (.write p) trivial
      simp [step,at_] at stuck
  have loop : s.loop = .waiting := by
    have read := quiet .read trivial
    have reset := quiet .reset trivial
    have take := quiet .getAllTasks trivial
    have wait := quiet .wait trivial
    cases at_ : s.loop <;> simp [step,at_] at read reset take wait
    rfl
  have edge : s.edge = false := by
    have stuck := quiet .waitEdge trivial
    simpa [step,loop] using stuck
  have isWakeup : s.isWakeup = false := by
    by_contra up
    rcases inv.owedOutside (by simpa using up) (by simp [loop]) with ⟨p,writing⟩ | some_
    · simp [producers p] at writing
    · simp [edge] at some_
  have none : ¬ Pending s := by
    intro pending
    rcases inv.announcedOutside pending (by simp [loop]) with ⟨p,pushed⟩ | up
    · simp [producers p] at pushed
    · simp [isWakeup] at up
  refine ⟨loop,edge,isWakeup,producers,?_,inv.vectors (by simp [loop])⟩
  simp only [Pending,not_or,not_not] at none
  exact (TaskManager.mk.injEq ..).symm ▸ none

/- A batch is all that was there, and nothing is added meanwhile. -/
theorem collectedAll {es : List (Event κ γ)} (inv : Inv s) (all : ∀ e ∈ es, Serving e) (h : run step s es = some t) :
    (collected s es).1 ++ t.tasks.newTasks = s.tasks.newTasks ∧
    (collected s es).2 ++ t.tasks.readyTasks = s.tasks.readyTasks := by
  induction es generalizing s with
  | nil =>
    cases Option.some.inj h
    exact ⟨rfl,rfl⟩
  | cons e es ih =>
    obtain ⟨m,first,rest⟩ := runCons h
    have serving := all e (by simp)
    have later := ih (stepKeeps inv first) (fun f inside => all f (by simp [inside])) rest
    cases e with
    | addNewTasks _ _ | addReadyTasks _ _ | writeInterrupted _ | waitOther | waitError | readInterrupted =>
      exact serving.elim
    | getAllTasks =>
      simp only [collected,first]
      simp only [step] at first
      split at first <;> try contradiction
      rename_i served
      cases Option.some.inj first
      obtain ⟨new,ready⟩ := inv.vectors (by simp [served])
      simp only [new,ready,getAllTasksEmpty,TaskManager.empty] at later ⊢
      obtain ⟨noNew,noReady⟩ := later
      simp only [List.append_eq_nil_iff] at noNew noReady
      simp only [noNew,noReady,List.append_nil,and_self]
    | compareSwap _ =>
      simp only [collected,first]
      simp only [step] at first
      split at first <;> try contradiction
      split at first <;> cases Option.some.inj first <;> exact later
    | write _ | waitEdge | read | reset | wait =>
      simp only [collected,first]
      simp only [step] at first
      split at first <;> try contradiction
      cases Option.some.inj first
      exact later

end

/-- From every state that producers and Loop reach: when nobody adds a task any more, the wake-ups that
are under way come to an end, Loop is asleep then, and it has collected every task that was stored,
each once and in order. -/
theorem tasksCollected (es : List (Event κ γ)) (s : State κ γ) (reached : run step initial es = some s) :
    SettlesTo step Serving s Asleep ∧
    ∀ fs t, (∀ e ∈ fs, Serving e) → run step s fs = some t → Quiet step Serving t →
      collected s fs = (s.tasks.newTasks,s.tasks.readyTasks) := by
  have inv := runInvariant (fun _ _ _ inv e => stepKeeps inv e) reached initialInv
  have some_ : ∃ n, Producers n s := runInvariant (fun _ _ _ some_ h => someProducers some_ h) reached ⟨0,fun _ _ => rfl⟩
  obtain ⟨n,producers⟩ := some_
  have settles := settlesTo (servingFalls n) ⟨inv,producers⟩ (fun _ kept quiet => quietAsleep kept.1 quiet)
  refine ⟨settles,?_⟩
  intro fs t all h quiet
  have asleep := settles.good fs t all h quiet
  have whole := collectedAll inv all h
  rw [asleep.tasks] at whole
  simp only [TaskManager.empty,List.append_nil] at whole
  exact Prod.ext whole.1 whole.2

/- The second producer finds the flag up that the first one has not yet written for. -/
theorem bothCollected : ∃ s : State Nat Nat, run step initial [.addNewTasks 0 7,.compareSwap 0,.addReadyTasks 1 9,
      .compareSwap 1] = some s ∧
    ∃ fs t, (∀ e ∈ fs, Serving e) ∧ run step s fs = some t ∧ t.loop = .waiting ∧ collected s fs = ([7],[9]) := by
  refine ⟨_,rfl,?_⟩
  obtain ⟨⟨-,⟨fs,t,all,h,quiet⟩,ends⟩,whole⟩ := tasksCollected (κ := Nat) (γ := Nat)
    [.addNewTasks 0 7,.compareSwap 0,.addReadyTasks 1 9,.compareSwap 1] _ rfl
  exact ⟨fs,t,all,h,(ends fs t all h quiet).loop,whole fs t all h quiet⟩

end TitCo.TaskDrain
