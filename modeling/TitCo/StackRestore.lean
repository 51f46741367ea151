import TitCo.SharedStack

/-! The memcpy of Resume that brings a frame back, against what SaveStack has put by: its length is
the size() of the private stack, which is a capacity, and not the length() of what was appended. -/
namespace TitCo.StackRestore
open Transition ByteMemory MachineInt StreamBuffer SharedStack

structure Copy where
  dst : Nat
  bytes : List UInt8
  deriving DecidableEq, Repr

variable (l : Layout)

/-- memcpy(co->ctx_, co->stack_.data(), co->stack_.size()), made when somebody else owns the stack. -/
def restore (s : State) (co : Nat) : Option Copy :=
  match s.ctx co with
  | none => none
  | some ctx =>
      if found s co = some co then none
      else
        let stack := (takeStack l s co).stack co
        some ⟨ctx,load stack.data 0 (streamSize stack)⟩

def Copy.Writes (c : Copy) (a : Nat) : Prop := c.dst ≤ a ∧ a < c.dst + c.bytes.length

/-- Nothing but [ctx_, top) is written, with as many bytes as SaveStack has saved. -/
structure RestoresUsed (s : State) (co : Nat) (c : Copy) : Prop where
  inside : ∀ a, c.Writes a → c.dst ≤ a ∧ a < l.top (stackId co)
  count : c.bytes.length = (s.stack co).cur

section
variable {l} {s t : State} {co make : Nat} {c : Copy}

/- Apart from this copy Resume leaves the memory alone. -/
theorem resumeCopies : (resume l s co make).memory =
    match restore l s co with
    | none => s.memory
    | some c => store s.memory c.dst c.bytes := by
  unfold resume restore
  cases s.ctx co with
  | none => exact takeStackMemory s co
  | some ctx =>
    by_cases alone : found s co = some co
    · simp only [if_pos alone,takeStackMemory]
    · simp only [if_neg alone,takeStackMemory]

theorem restoreLength (copies : restore l s co = some c) : c.bytes.length = kSmallBuffer := by
  simp only [restore] at copies
  split at copies <;> try contradiction
  split at copies <;> try contradiction
  cases Option.some.inj copies
  simp [streamSize]

/- A private stack is never filled up to its capacity. -/
def Unfilled (s : State) : Prop := ∀ co, (s.stack co).cur < kSmallBuffer

theorem streamAppendUnfilled {b : FixedBuffer} (m : Memory) (data : Nat) (len : Int) (below : b.cur < kSmallBuffer) :
    (streamAppend b m data len).cur < kSmallBuffer := by
  have space : toSizeT (avail kSmallBuffer b) = kSmallBuffer - b.cur := by
    unfold avail
    rw [toSizeTSmall (by omega) (by simp only [kSmallBuffer]; omega)]
    omega
  simp only [streamAppend,append,space]
  split
  · simp only
    omega
  · exact below

theorem stepUnfilled {e : Event} (unfilled : Unfilled s) (h : step l s e = some t) : Unfilled t := by
  have empty : ∀ b : FixedBuffer, (reset b).cur < kSmallBuffer := by
    intro b
    simp [reset,kSmallBuffer]
  cases e with
  | newCoroutine co =>
    simp only [step] at h
    split at h <;> try contradiction
    cases Option.some.inj h
    intro d
    by_cases same : d = co
    · subst d
      simpa using empty (s.stack co)
    · simpa [Function.update_of_ne same] using unfilled d
  | resume co make =>
    simp only [step] at h
    split at h <;> try contradiction
    cases Option.some.inj h
    intro d
    rw [resumeStack]
    simp only [takeStack]
    split
    · exact unfilled d
    · simp only [saveStack]
      split
      · exact unfilled d
      · rename_i o owner
        by_cases same : d = o
        · subst d
          simpa using streamAppendUnfilled s.memory _ _ (empty (s.stack o))
        · simpa [Function.update_of_ne same] using unfilled d
  | write address byte =>
    simp only [step] at h
    split at h <;> try contradiction
    split at h <;> try contradiction
    cases Option.some.inj h
    exact unfilled
  | yield ctx =>
    simp only [step] at h
    split at h <;> try contradiction
    split at h <;> try contradiction
    cases Option.some.inj h
    exact unfilled
  | finish =>
    simp only [step] at h
    split at h <;> try contradiction
    cases Option.some.inj h
    exact unfilled

end

end TitCo.StackRestore
