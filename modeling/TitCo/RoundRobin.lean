import TitCo.MachineInt
import TitCo.Transition
import Mathlib.Data.List.Count
import Mathlib.Data.List.Nodup
import Mathlib.Data.List.Perm.Subperm
import Mathlib.Data.Nat.ModEq
import Mathlib.Data.List.Range

/-! SchedulerManager::NextScheduler called by any number of threads: the increment of index_ is
one atomic step, the read of it behind that another. -/
namespace TitCo.RoundRobin
open MachineInt Transition

/-- Calls are numbered by their increments; `returned` has what each has returned, once it has. -/
structure State where
  index : Nat
  returned : List (Option Nat)
  deriving DecidableEq, Repr

def start : State := ⟨0,[]⟩

/-- `increment` is the atomic_inc of a call that begins, `read` the rest of call `i`. -/
inductive Event where
  | increment
  | read (i : Nat)
  deriving DecidableEq, Repr

def step (schedNum : Nat) (s : State) : Event → Option State
  | .increment => some ⟨toUint32 (s.index+1),s.returned ++ [none]⟩
  | .read i =>
      if s.returned[i]? = some none then
        some {s with returned := s.returned.set i (some (s.index % schedNum))}
      else none

/-- If the first `n` rounds of calls have returned, each scheduler has been returned `n` times. -/
def Fair (schedNum : Nat) (s : State) : Prop :=
  ∀ n, n*schedNum ≤ s.returned.length → none ∉ s.returned.take (n*schedNum) →
    ∀ j < schedNum, (s.returned.take (n*schedNum)).count (some j) = n

/-- index_ does not wrap, or wraps at a multiple of schedNum; and a call reads it before any
other has incremented it, or after a whole number of rounds of increments. -/
def Clean (schedNum : Nat) (s : State) : Event → Prop
  | .increment => s.returned.length + 1 < 2^32 ∨ schedNum ∣ 2^32
  | .read i => schedNum ∣ s.returned.length - (i+1)

instance (schedNum : Nat) (s : State) (e : Event) : Decidable (Clean schedNum s e) := by
  cases e <;> unfold Clean <;> infer_instance

/-- The scheduler that call `i` should be given. -/
def turn (schedNum i : Nat) : Nat := (i+1) % schedNum

section
variable {schedNum : Nat}

/- Any `schedNum` calls in a row have every scheduler once. -/
theorem roundOnce (first j : Nat) (low : j < schedNum) :
    ((List.range schedNum).map (fun i => turn schedNum (first+i))).count j = 1 := by
  have apart : ∀ x ∈ List.range schedNum, ∀ y ∈ List.range schedNum,
      turn schedNum (first+x) = turn schedNum (first+y) → x = y := by
    intro x hx y hy same
    have equal : x ≡ y [MOD schedNum] := by
      have shifted : first + 1 + x ≡ first + 1 + y [MOD schedNum] := by
        unfold Nat.ModEq
        rw [show first + 1 + x = first + x + 1 by omega,show first + 1 + y = first + y + 1 by omega]
        exact same
      exact Nat.ModEq.add_left_cancel' _ shifted
    exact Nat.ModEq.eq_of_lt_of_lt equal (List.mem_range.1 hx) (List.mem_range.1 hy)
  have nodup : ((List.range schedNum).map (fun i => turn schedNum (first+i))).Nodup :=
    List.Nodup.map_on apart List.nodup_range
  refine List.count_eq_one_of_mem nodup ?_
  have inside : ∀ x ∈ (List.range schedNum).map (fun i => turn schedNum (first+i)), x ∈ List.range schedNum := by
    intro x hx
    obtain ⟨i,_,rfl⟩ := List.mem_map.1 hx
    exact List.mem_range.2 (Nat.mod_lt _ (by omega))
  have all := (List.subperm_of_subset nodup inside).perm_of_length_le (by simp)
  exact (all.mem_iff).2 (List.mem_range.2 low)

theorem roundsFair (n j : Nat) (low : j < schedNum) :
    ((List.range (n*schedNum)).map (turn schedNum)).count j = n := by
  induction n with
  | zero => simp
  | succ n ih =>
    rw [Nat.succ_mul,List.range_add,List.map_append,List.count_append,ih,List.map_map]
    exact congrArg (n + ·) (roundOnce (n*schedNum) j low)

/-- What clean steps keep: index_ counts the calls as far as its remainder goes, and a call
that has returned has returned its turn. -/
structure Inv (schedNum : Nat) (s : State) : Prop where
  counts : s.index % schedNum = s.returned.length % schedNum
  exact : s.returned.length < 2^32 → s.index = s.returned.length
  turns : ∀ i k, s.returned[i]? = some (some k) → k = turn schedNum i

variable {s t : State} {e : Event}

theorem incrementInv (inv : Inv schedNum s) (clean : Clean schedNum s .increment)
    (h : step schedNum s .increment = some t) : Inv schedNum t := by
  cases Option.some.inj h
  have length : (s.returned ++ [none]).length = s.returned.length + 1 := List.length_append
  refine ⟨?_,?_,?_⟩
  · rw [length]
    rcases clean with small | divides
    · have index := inv.exact (by omega)
      have narrow : toUint32 (s.index+1) = s.returned.length + 1 := by
        rw [index]
        exact toUint32Small small
      rw [narrow]
    · have wrapped : toUint32 (s.index+1) = (s.index+1) % 2^32 := by
        unfold toUint32
        omega
      rw [wrapped,Nat.mod_mod_of_dvd _ divides,Nat.add_mod,inv.counts,← Nat.add_mod]
  · intro small
    rw [length] at small ⊢
    have index := inv.exact (by omega)
    simp only [index]
    exact toUint32Small small
  · intro i k held
    rw [List.getElem?_append] at held
    split at held
    · exact inv.turns i k held
    · cases last : i - s.returned.length <;> simp [last] at held

/- The reader sees a count that differs from its own by whole rounds. -/
theorem readInv {i : Nat} (inv : Inv schedNum s) (clean : Clean schedNum s (.read i))
    (h : step schedNum s (.read i) = some t) : Inv schedNum t := by
  simp only [step] at h
  split at h <;> try contradiction
  rename_i begun
  cases Option.some.inj h
  have inside : i < s.returned.length := (List.getElem?_eq_some_iff.1 begun).1
  have own : s.index % schedNum = turn schedNum i := by
    obtain ⟨rounds,gap⟩ := clean
    have count : s.returned.length = i + 1 + schedNum*rounds := by omega
    rw [inv.counts,count,Nat.add_mul_mod_self_left]
    rfl
  refine ⟨?_,?_,?_⟩
  · rw [List.length_set]
    exact inv.counts
  · rw [List.length_set]
    exact inv.exact
  · intro x k held
    by_cases same : i = x
    · subst x
      rw [List.getElem?_set_self inside] at held
      cases Option.some.inj (Option.some.inj held)
      exact own
    · rw [List.getElem?_set_ne same] at held
      exact inv.turns x k held

theorem stepInv (s : State) (e : Event) (t : State) (inv : Inv schedNum s) (clean : Clean schedNum s e)
    (h : step schedNum s e = some t) : Inv schedNum t := by
  cases e with
  | increment => exact incrementInv inv clean h
  | read i => exact readInv inv clean h

theorem invFair (inv : Inv schedNum s) : Fair schedNum s := by
  intro n enough all j low
  have turns : s.returned.take (n*schedNum) = ((List.range (n*schedNum)).map (turn schedNum)).map some := by
    apply List.ext_getElem?
    intro i
    by_cases early : i < n*schedNum
    · have inside : i < s.returned.length := by omega
      rw [List.getElem?_take_of_lt early,List.getElem?_eq_getElem inside]
      simp only [List.getElem?_map,List.getElem?_range early,Option.map_some]
      cases held : s.returned[i] with
      | none =>
        refine absurd ?_ all
        rw [← held]
        exact List.mem_take_iff_getElem.2 ⟨i,by omega,rfl⟩
      | some k =>
        rw [inv.turns i k (by rw [List.getElem?_eq_getElem inside,held])]
    · rw [List.getElem?_eq_none (by simp; omega),List.getElem?_eq_none (by simpa using early)]
  rw [turns,List.count_map_of_injective _ _ (Option.some_injective Nat)]
  exact roundsFair n j low

/-- In a run whose steps are all clean the first `n` rounds of calls, once they have
returned, have been given every scheduler `n` times. -/
theorem nextSchedulerFair {es : List Event} (reached : run (step schedNum) start es = some s)
    (clean : Guarded (step schedNum) (Clean schedNum) start es) : Fair schedNum s := by
  have first : Inv schedNum start := by
    refine ⟨rfl,fun _ => rfl,?_⟩
    intro i k held
    simp [start] at held
  exact invFair (guardedInvariant stepInv clean reached first)

end

/- Two calls, one after the other. -/
theorem twoCallsFair : Fair 2 ⟨2,[some 1,some 0]⟩ := by
  have reached : run (step 2) start [.increment,.read 0,.increment,.read 1] = some ⟨2,[some 1,some 0]⟩ := by decide
  exact nextSchedulerFair reached (guardedCons (by decide) rfl (guardedCons (by decide) rfl
    (guardedCons (by decide) rfl (guardedCons (by decide) rfl trivial))))

/-- Two overlapping calls both read 2, and both return the first of two schedulers. -/
theorem overlapUnfair : ¬ ∀ (schedNum : Nat) (es : List Event) (s : State), 1 ≤ schedNum →
    run (step schedNum) start es = some s → Fair schedNum s := by
  intro claim
  have fair := claim 2 [.increment,.increment,.read 0,.read 1] ⟨2,[some 0,some 0]⟩ (by decide) (by decide)
  exact absurd (fair 1 (by decide) (by decide) 0 (by decide)) (by decide)

end TitCo.RoundRobin
