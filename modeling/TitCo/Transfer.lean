import Mathlib.Data.List.Basic

/-! A loop that moves n units in parts. Each attempt moves some of them, is made again, or ends
the loop with a code. What is moved, and who answers the attempts, is left open. -/
namespace TitCo.Transfer

inductive Outcome where
  | moved (k : Nat)
  | retry
  | stop (r : Int)
  deriving DecidableEq, Repr

/-- What has been moved in the end, and the code; none when the outcomes run out first. -/
def transfer (n : Nat) : Nat → List Outcome → Nat × Option Int
  | done,[] => (done,none)
  | done,.moved k :: os => if n ≤ done + k then (n,some n) else transfer n (done+k) os
  | done,.retry :: os => transfer n done os
  | done,.stop r :: _ => (done,some r)

def amount : List Outcome → Nat
  | [] => 0
  | .moved k :: os => k + amount os
  | _ :: os => amount os

def Going (os : List Outcome) : Prop := ∀ r, .stop r ∉ os

/-- Enough is moved before anything ends the loop. -/
def Reaches (n done : Nat) (os : List Outcome) : Prop :=
  ∃ before after, os = before ++ after ∧ Going before ∧ n ≤ done + amount before

/-- The loop comes to `.stop r` while something is still missing. -/
def Stops (n done : Nat) (r : Int) (os : List Outcome) : Prop :=
  ∃ before after, os = before ++ .stop r :: after ∧ Going before ∧ done + amount before < n

section
variable {n done k : Nat} {r : Int} {os : List Outcome}

theorem goingCons {o : Outcome} (here : ∀ r, o ≠ .stop r) (going : Going os) : Going (o::os) := by
  intro r inside
  rcases List.mem_cons.1 inside with same | later
  · exact here r same.symm
  · exact going r later

theorem goingTail {o : Outcome} (going : Going (o::os)) : Going os :=
  fun r inside => going r (List.mem_cons_of_mem _ inside)

/- An outcome that moves `k` and ends nothing only shifts what is done. -/
theorem reachesCons {o : Outcome} (here : ∀ r, o ≠ .stop r) (moves : ∀ xs, amount (o::xs) = k + amount xs)
    (missing : done < n) : Reaches n done (o::os) ↔ Reaches n (done+k) os := by
  constructor
  · rintro ⟨before,after,shape,going,enough⟩
    cases before with
    | nil => simp only [amount] at enough; omega
    | cons x before =>
      rw [List.cons_append,List.cons.injEq] at shape
      obtain ⟨rfl,shape⟩ := shape
      rw [moves] at enough
      exact ⟨before,after,shape,goingTail going,by omega⟩
  · rintro ⟨before,after,shape,going,enough⟩
    exact ⟨o::before,after,by rw [shape,List.cons_append],goingCons here going,by rw [moves]; omega⟩

theorem stopsCons {o : Outcome} (here : ∀ r, o ≠ .stop r) (moves : ∀ xs, amount (o::xs) = k + amount xs) :
    Stops n done r (o::os) ↔ Stops n (done+k) r os := by
  constructor
  · rintro ⟨before,after,shape,going,short⟩
    cases before with
    | nil =>
      rw [List.nil_append,List.cons.injEq] at shape
      exact absurd shape.1 (here r)
    | cons x before =>
      rw [List.cons_append,List.cons.injEq] at shape
      obtain ⟨rfl,shape⟩ := shape
      rw [moves] at short
      exact ⟨before,after,shape,goingTail going,by omega⟩
  · rintro ⟨before,after,shape,going,short⟩
    exact ⟨o::before,after,by rw [shape,List.cons_append],goingCons here going,by rw [moves]; omega⟩

theorem transferBound (missing : done ≤ n) : (transfer n done os).1 ≤ n := by
  induction os generalizing done with
  | nil => exact missing
  | cons o os ih =>
    cases o with
    | moved k =>
      simp only [transfer]
      split
      · exact Nat.le_refl n
      · exact ih (by omega)
    | retry => exact ih missing
    | stop r => exact missing

/-- The loop returns n exactly when n units are moved before an end; no code of an end is n. -/
theorem transferFull (missing : done < n) (codes : ∀ r : Int, .stop r ∈ os → r ≠ n) :
    (transfer n done os).2 = some (n : Int) ↔ Reaches n done os := by
  induction os generalizing done with
  | nil =>
    refine iff_of_false (by simp [transfer]) ?_
    rintro ⟨before,after,shape,_,enough⟩
    obtain ⟨rfl,-⟩ := List.append_eq_nil_iff.1 shape.symm
    simp only [amount] at enough
    omega
  | cons o os ih =>
    have later : ∀ r : Int, .stop r ∈ os → r ≠ n := fun r inside => codes r (List.mem_cons_of_mem _ inside)
    cases o with
    | moved k =>
      simp only [transfer]
      split
      · rename_i enough
        exact iff_of_true rfl ⟨[.moved k],os,rfl,goingCons (by simp) (by simp [Going]),by simpa [amount] using enough⟩
      · rw [reachesCons (by simp) (fun _ => rfl) missing]
        exact ih (by omega) later
    | retry =>
      rw [reachesCons (k := 0) (by simp) (by simp [amount]) missing]
      exact ih missing later
    | stop r =>
      refine iff_of_false ?_ ?_
      · intro same
        exact codes r (by simp) (Option.some.inj same)
      · rintro ⟨before,after,shape,going,enough⟩
        cases before with
        | nil => simp only [amount] at enough; omega
        | cons x before =>
          rw [List.cons_append,List.cons.injEq] at shape
          obtain ⟨rfl,-⟩ := shape
          exact going r (by simp)

/-- Any other code comes from the end that the loop met while something was missing. -/
theorem transferStopped (missing : done < n) (other : r ≠ n) :
    (transfer n done os).2 = some r ↔ Stops n done r os := by
  induction os generalizing done with
  | nil =>
    refine iff_of_false (by simp [transfer]) ?_
    rintro ⟨before,after,shape,_⟩
    exact List.append_ne_nil_of_right_ne_nil before (List.cons_ne_nil _ _) shape.symm
  | cons o os ih =>
    cases o with
    | moved k =>
      rw [stopsCons (by simp) (fun _ => rfl)]
      simp only [transfer]
      split
      · rename_i enough
        refine iff_of_false ?_ ?_
        · intro same
          exact other (Option.some.inj same).symm
        · rintro ⟨_,_,_,_,short⟩
          omega
      · exact ih (by omega)
    | retry =>
      rw [stopsCons (k := 0) (by simp) (by simp [amount])]
      exact ih missing
    | stop q =>
      constructor
      · intro same
        cases Option.some.inj same
        exact ⟨[],os,rfl,by simp [Going],by simpa [amount] using missing⟩
      · rintro ⟨before,after,shape,going,_⟩
        cases before with
        | nil =>
          rw [List.nil_append,List.cons.injEq] at shape
          cases shape.1
          rfl
        | cons x before =>
          rw [List.cons_append,List.cons.injEq] at shape
          obtain ⟨rfl,-⟩ := shape
          exact absurd (by simp) (going q)

theorem transferCode (ended : (transfer n done os).2 = some r) : r = n ∨ .stop r ∈ os := by
  induction os generalizing done with
  | nil => simp [transfer] at ended
  | cons o os ih =>
    cases o with
    | moved k =>
      simp only [transfer] at ended
      split at ended
      · exact Or.inl (Option.some.inj ended).symm
      · exact (ih ended).imp_right (List.mem_cons_of_mem _)
    | retry => exact (ih ended).imp_right (List.mem_cons_of_mem _)
    | stop q =>
      cases Option.some.inj ended
      exact Or.inr (by simp)

/-- All n units are moved exactly when the loop has returned n. -/
theorem transferWhole (missing : done < n) (codes : ∀ r : Int, .stop r ∈ os → r ≠ n) :
    (transfer n done os).1 = n ↔ (transfer n done os).2 = some (n : Int) := by
  induction os generalizing done with
  | nil => exact iff_of_false (Nat.ne_of_lt missing) (by simp [transfer])
  | cons o os ih =>
    have later : ∀ r : Int, .stop r ∈ os → r ≠ n := fun r inside => codes r (List.mem_cons_of_mem _ inside)
    cases o with
    | moved k =>
      simp only [transfer]
      split
      · exact iff_of_true rfl rfl
      · exact ih (by omega) later
    | retry => exact ih missing later
    | stop r =>
      refine iff_of_false (Nat.ne_of_lt missing) ?_
      intro same
      exact codes r (by simp) (Option.some.inj same)

section
variable {α : Type} {outcome : α → Outcome} {lasts : List α → Prop} {weight : List α → Nat} {script : List α}

/- Attempts that are answered by something else: `lasts` says of a list of answers that none of
them ends the loop, and `weight` how much they move. -/
theorem reachesMap (going : ∀ xs, Going (xs.map outcome) ↔ lasts xs)
    (amounts : ∀ xs, lasts xs → amount (xs.map outcome) = weight xs) :
    Reaches n done (script.map outcome) ↔
      ∃ before after, script = before ++ after ∧ lasts before ∧ n ≤ done + weight before := by
  constructor
  · rintro ⟨_,_,shape,goes,enough⟩
    obtain ⟨before,after,rfl,rfl,rfl⟩ := List.map_eq_append_iff.1 shape
    have last := (going before).1 goes
    rw [amounts before last] at enough
    exact ⟨before,after,rfl,last,enough⟩
  · rintro ⟨before,after,rfl,last,enough⟩
    refine ⟨before.map outcome,after.map outcome,List.map_append,(going before).2 last,?_⟩
    rw [amounts before last]
    exact enough

theorem stopsMap (going : ∀ xs, Going (xs.map outcome) ↔ lasts xs)
    (amounts : ∀ xs, lasts xs → amount (xs.map outcome) = weight xs) :
    Stops n done r (script.map outcome) ↔ ∃ before a after,
      script = before ++ a :: after ∧ outcome a = .stop r ∧ lasts before ∧ done + weight before < n := by
  constructor
  · rintro ⟨_,_,shape,goes,short⟩
    obtain ⟨before,tail,rfl,rfl,ends⟩ := List.map_eq_append_iff.1 shape
    obtain ⟨a,after,rfl,same,rfl⟩ := List.map_eq_cons_iff.1 ends
    have last := (going before).1 goes
    rw [amounts before last] at short
    exact ⟨before,a,after,rfl,same,last,short⟩
  · rintro ⟨before,a,after,rfl,same,last,short⟩
    refine ⟨before.map outcome,after.map outcome,?_,(going before).2 last,?_⟩
    · rw [List.map_append,List.map_cons,same]
    · rw [amounts before last]
      exact short

end

end

end TitCo.Transfer
