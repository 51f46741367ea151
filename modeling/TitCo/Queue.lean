import Mathlib.Data.List.Nodup

/-! Lists that grow at the back. -/
namespace TitCo.Queue

variable {α : Type} {xs : List α} {x : α}

theorem nodupPush (once : xs.Nodup) (out : x ∉ xs) : (xs ++ [x]).Nodup := by
  rw [← List.concat_eq_append]
  exact List.Nodup.concat out once

theorem allPush {p : α → Prop} (old : ∀ y ∈ xs, p y) (last : p x) : ∀ y ∈ xs ++ [x], p y :=
  List.forall_mem_append.2 ⟨old,List.forall_mem_singleton.2 last⟩

end TitCo.Queue
