import TitCo.MachineInt
import Mathlib.Data.List.TakeWhile

/-! timer_manager.h: the multimap of deadlines with its insertion hint. An entry is
named by an identity of its own, as an iterator names it. -/
namespace TitCo.Timers
open MachineInt

structure Entry where
  id : Nat
  deadline : Nat
  co : Nat
  deriving DecidableEq, Repr

/-- `hint` is it_, with none for end(). -/
structure TimerManager where
  timer : List Entry
  hint : Option Nat
  next : Nat
  deriving DecidableEq, Repr

def TimerManager.create : TimerManager := ⟨[],none,0⟩

/-- The place that multimap::insert(hint, ..) takes: as close before the hint as the order
of the keys lets it. A hint whose entry is gone stands at the arbitrary place `freed`. -/
def insertPlace (m : TimerManager) (deadline freed : Nat) : Nat :=
  let first := (m.timer.takeWhile (fun e => e.deadline < deadline)).length
  let last := (m.timer.takeWhile (fun e => e.deadline ≤ deadline)).length
  let wanted := match m.hint with
    | none => m.timer.length
    | some id => (m.timer.findIdx? (fun e => e.id == id)).getD freed
  max first (min wanted last)

def addTimer (m : TimerManager) (deadline co freed : Nat) : TimerManager :=
  let place := insertPlace m deadline freed
  ⟨m.timer.take place ++ ⟨m.next,deadline,co⟩ :: m.timer.drop place,some m.next,m.next+1⟩

theorem addTimerPerm (m : TimerManager) (deadline co freed : Nat) :
    (addTimer m deadline co freed).timer.Perm (⟨m.next,deadline,co⟩ :: m.timer) := by
  refine List.perm_middle.trans ?_
  rw [List.take_append_drop]

theorem addTimerMem {m : TimerManager} {deadline co freed : Nat} {e : Entry} :
    e ∈ (addTimer m deadline co freed).timer ↔ e = ⟨m.next,deadline,co⟩ ∨ e ∈ m.timer := by
  rw [(addTimerPerm m deadline co freed).mem_iff,List.mem_cons]

/-- What CollectTimeoutTasks returns when timer_ is not empty. -/
def nextTimeout (head reading : Nat) : Nat := toUint32 (toInt32 ((head : Int) - reading))

theorem nextTimeoutNear {head reading : Nat} (past : reading ≤ head) (near : head < reading + 2^31) :
    nextTimeout head reading = head - reading := by
  unfold nextTimeout
  rw [toInt32Small (by omega) (by omega),toUint32]
  omega

/-- timer_ is a multimap: its entries stand in the order of their deadlines. -/
def Sorted (timer : List Entry) : Prop := timer.Pairwise (fun a b => a.deadline ≤ b.deadline)

theorem sortedHead {e : Entry} {es : List Entry} (sorted : Sorted (e::es)) : ∀ x ∈ e::es, e.deadline ≤ x.deadline := by
  intro x inside
  rcases List.mem_cons.1 inside with rfl | later
  · exact Nat.le_refl _
  · exact (List.pairwise_cons.1 sorted).1 x later

theorem dueLast {timer : List Entry} (sorted : Sorted timer) (deadline : Nat) :
    ∀ e ∈ timer.dropWhile (fun e => e.deadline < deadline), deadline ≤ e.deadline := by
  induction timer with
  | nil => simp
  | cons x xs ih =>
    simp only [List.dropWhile_cons]
    split
    · exact ih (List.pairwise_cons.1 sorted).2
    · rename_i late
      intro e inside
      have least := sortedHead sorted e inside
      simp only [decide_eq_true_eq] at late
      omega

/- The place lies between the entries that are due earlier and those that are due later. -/
theorem insertPlaceBounds (m : TimerManager) (deadline freed : Nat) :
    (∀ e ∈ m.timer.take (insertPlace m deadline freed), e.deadline ≤ deadline) ∧
    (Sorted m.timer → ∀ e ∈ m.timer.drop (insertPlace m deadline freed), deadline ≤ e.deadline) := by
  have order : (m.timer.takeWhile (fun e => e.deadline < deadline)).length ≤
      (m.timer.takeWhile (fun e => e.deadline ≤ deadline)).length := by
    induction m.timer with
    | nil => simp
    | cons x xs ih =>
      simp only [List.takeWhile_cons]
      split
      · rename_i early
        simp only [decide_eq_true_eq] at early
        simp only [Nat.le_of_lt early,decide_true,if_true,List.length_cons]
        omega
      · exact Nat.zero_le _
  have below : insertPlace m deadline freed ≤ (m.timer.takeWhile (fun e => e.deadline ≤ deadline)).length := by
    simp only [insertPlace]
    omega
  have above : (m.timer.takeWhile (fun e => e.deadline < deadline)).length ≤ insertPlace m deadline freed := by
    simp only [insertPlace]
    omega
  refine ⟨?_,?_⟩
  · intro e inside
    have early : e ∈ m.timer.takeWhile (fun e => e.deadline ≤ deadline) := by
      have shape := List.takeWhile_append_dropWhile (p := fun e : Entry => decide (e.deadline ≤ deadline)) (l := m.timer)
      rw [← shape,List.take_append_of_le_length below] at inside
      exact List.mem_of_mem_take inside
    simpa using List.mem_takeWhile_imp early
  · intro sorted e inside
    have late : e ∈ m.timer.dropWhile (fun e => e.deadline < deadline) := by
      have shape := List.takeWhile_append_dropWhile (p := fun e : Entry => decide (e.deadline < deadline)) (l := m.timer)
      rw [← shape,List.drop_append,List.drop_eq_nil_of_le above,List.nil_append] at inside
      exact List.mem_of_mem_drop inside
    exact dueLast sorted deadline e late

theorem addTimerSorted {m : TimerManager} (sorted : Sorted m.timer) (deadline co freed : Nat) :
    Sorted (addTimer m deadline co freed).timer := by
  obtain ⟨early,late⟩ := insertPlaceBounds m deadline freed
  simp only [addTimer,Sorted,List.pairwise_append,List.pairwise_cons]
  refine ⟨List.Pairwise.sublist (List.take_sublist _ _) sorted,⟨late sorted,List.Pairwise.sublist (List.drop_sublist _ _) sorted⟩,?_⟩
  intro a ha b hb
  have first := early a ha
  rcases List.mem_cons.1 hb with rfl | later
  · exact first
  · exact Nat.le_trans first (late sorted b later)

/- What the entries are for does not matter to where they stand. -/
def Entry.rename (f : Nat → Nat) (e : Entry) : Entry := {e with co := f e.id}

def TimerManager.rename (f : Nat → Nat) (m : TimerManager) : TimerManager := {m with timer := m.timer.map (Entry.rename f)}

theorem insertPlaceRename (f : Nat → Nat) (m : TimerManager) (deadline freed : Nat) :
    insertPlace (m.rename f) deadline freed = insertPlace m deadline freed := by
  simp only [insertPlace,TimerManager.rename,List.takeWhile_map,List.length_map,List.findIdx?_map]
  rfl

theorem addTimerRename (f : Nat → Nat) (m : TimerManager) (deadline co freed : Nat) :
    addTimer (m.rename f) deadline (f m.next) freed = (addTimer m deadline co freed).rename f := by
  simp only [addTimer,insertPlaceRename]
  simp [TimerManager.rename,Entry.rename]

end TitCo.Timers
