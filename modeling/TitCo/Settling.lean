import Mathlib.Algebra.BigOperators.Group.Finset.Basic
import TitCo.Transition

/-! Steps of one kind that can only be taken so often. `own` says which events are of that kind and
`rank` falls with each of them, so a run of such events alone ends, and ends where none is left. -/
namespace TitCo.Settling
open Transition

/- Steps of the kind keep `inv` and lower `rank`. -/
def Falls {σ ε : Type} (step : σ → ε → Option σ) (own : ε → Prop) (inv : σ → Prop) (rank : σ → Nat) : Prop :=
  ∀ s e t, inv s → own e → step s e = some t → inv t ∧ rank t < rank s

/-- No event of the kind is enabled. -/
def Quiet {σ ε : Type} (step : σ → ε → Option σ) (own : ε → Prop) (s : σ) : Prop := ∀ e, own e → step s e = none

/-- Left to the events of the kind alone, `s` comes to rest, sooner or later, and only where `good` holds. -/
structure SettlesTo {σ ε : Type} (step : σ → ε → Option σ) (own : ε → Prop) (s : σ) (good : σ → Prop) : Prop where
  bounded : ∃ bound, ∀ es t, (∀ e ∈ es, own e) → run step s es = some t → es.length ≤ bound
  rests : ∃ es t, (∀ e ∈ es, own e) ∧ run step s es = some t ∧ Quiet step own t
  good : ∀ es t, (∀ e ∈ es, own e) → run step s es = some t → Quiet step own t → good t

section
variable {σ ε : Type} {step : σ → ε → Option σ} {own : ε → Prop} {inv : σ → Prop} {rank : σ → Nat} {s t : σ}

theorem rankBounds (falls : Falls step own inv rank) {es : List ε} (start : inv s) (all : ∀ e ∈ es, own e)
    (h : run step s es = some t) : inv t ∧ es.length + rank t ≤ rank s := by
  induction es generalizing s with
  | nil =>
    cases Option.some.inj h
    exact ⟨start,by simp⟩
  | cons e es ih =>
    obtain ⟨m,first,rest⟩ := runCons h
    obtain ⟨keeps,lower⟩ := falls s e m start (all e (by simp)) first
    obtain ⟨ends,bound⟩ := ih keeps (fun f inside => all f (by simp [inside])) rest
    refine ⟨ends,?_⟩
    rw [List.length_cons]
    omega

theorem quietReached (falls : Falls step own inv rank) (start : inv s) :
    ∃ es t, (∀ e ∈ es, own e) ∧ run step s es = some t ∧ Quiet step own t := by
  induction hr : rank s using Nat.strong_induction_on generalizing s with
  | h r ih =>
    by_cases quiet : Quiet step own s
    · exact ⟨[],s,by simp,rfl,quiet⟩
    · obtain ⟨e,mine,moves⟩ : ∃ e, own e ∧ step s e ≠ none := by simpa [Quiet] using quiet
      obtain ⟨m,first⟩ := Option.ne_none_iff_exists'.1 moves
      obtain ⟨keeps,lower⟩ := falls s e m start mine first
      obtain ⟨es,t,all,rest,last⟩ := ih (rank m) (by omega) keeps rfl
      refine ⟨e::es,t,?_,?_,last⟩
      · rintro f (_ | ⟨_,inside⟩)
        · exact mine
        · exact all f inside
      · simp only [run,first,bind,Option.bind_some,rest]

theorem settlesTo (falls : Falls step own inv rank) (start : inv s) {good : σ → Prop}
    (quietGood : ∀ t, inv t → Quiet step own t → good t) : SettlesTo step own s good where
  bounded := by
    refine ⟨rank s,fun es t all h => ?_⟩
    have bound := (rankBounds falls start all h).2
    omega
  rests := quietReached falls start
  good es t all h quiet := quietGood t (rankBounds falls start all h).1 quiet

end

/- What the parties below `n` add up to when one of them changes. -/
theorem sumMoved {α : Type} (weight : α → Nat) (f : Nat → α) {n i : Nat} (less : i < n) (a : α) :
    ∑ j ∈ Finset.range n, weight (Function.update f i a j) + weight (f i) =
      ∑ j ∈ Finset.range n, weight (f j) + weight a := by
  have inside : i ∈ Finset.range n := Finset.mem_range.2 less
  have same : ∑ j ∈ (Finset.range n).erase i, weight (Function.update f i a j) =
      ∑ j ∈ (Finset.range n).erase i, weight (f j) := by
    refine Finset.sum_congr rfl (fun j other => ?_)
    rw [Function.update_of_ne (Finset.ne_of_mem_erase other)]
  rw [← Finset.add_sum_erase _ _ inside,same,Function.update_self,← Finset.add_sum_erase _ (fun j => weight (f j)) inside]
  omega

end TitCo.Settling
