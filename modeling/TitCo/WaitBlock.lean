import TitCo.ByteMemory
import TitCo.Channel

/-! CreateWaitCtxInfo of channel.cc with addresses: what it mallocs, where it lets buf_ point to, and
the memcpys of Read and Write that go through buf_. -/
namespace TitCo.WaitBlock
open ByteMemory

/-- A pointer, a uint8 with its padding and a pointer. -/
def sizeofWaitCtx : Nat := 24

structure Stack where
  p : Nat
  top : Nat
  deriving DecidableEq, Repr

def onStack (s : Stack) (p : Nat) : Bool := s.p ≤ p && p < s.top

structure Allocation where
  base : Nat
  size : Nat
  deriving DecidableEq, Repr

structure WaitCtx where
  co : Nat
  buf : Nat
  deriving DecidableEq, Repr

/-- A WaitCtx* plus a number, which counts elements. -/
def advance (p n : Nat) : Nat := p + n * sizeofWaitCtx

/-- `block` is what malloc returns. The shared_ptr that is handed out gets a copy of the fields. -/
def createWaitCtxInfo (blkSize : Nat) (s : Stack) (block co buf : Nat) : Allocation × WaitCtx :=
  if onStack s buf then (⟨block,sizeofWaitCtx + blkSize⟩,⟨co,advance block sizeofWaitCtx⟩)
  else (⟨block,sizeofWaitCtx⟩,⟨co,buf⟩)

/-- The end of a suspended Read, the Read that lets a writer in, the Write that serves a reader,
and the Write that suspends. `p` is the caller's pointer and `slot` a place in the ring. -/
inductive Site where
  | readReturns (p : Nat)
  | readHandsOff (slot : Nat)
  | writeHandsOff (p : Nat)
  | writeSuspends (p : Nat)
  deriving DecidableEq, Repr

/-- Destination and source of a memcpy of blk_size_ bytes. -/
def Site.memcpy (w : WaitCtx) : Site → Option (Nat × Nat)
  | .readReturns p => if w.buf ≠ p then some (p,w.buf) else none
  | .readHandsOff slot => some (slot,w.buf)
  | .writeHandsOff p => some (w.buf,p)
  | .writeSuspends p => if w.buf ≠ p then some (w.buf,p) else none

def Site.run (blkSize : Nat) (mem : Memory) (w : WaitCtx) (site : Site) : Memory :=
  match site.memcpy w with
  | some (dst,src) => store mem dst (load mem src blkSize)
  | none => mem

/-- [buf_, buf_ + blk_size_) -/
def WaitCtx.Holds (w : WaitCtx) (blkSize a : Nat) : Prop := w.buf ≤ a ∧ a < w.buf + blkSize

/-- The value block lies in what was allocated for it, behind the header. -/
structure Inside (blkSize : Nat) (made : Allocation × WaitCtx) : Prop where
  within : ∀ a, made.2.Holds blkSize a → made.1.base ≤ a ∧ a < made.1.base + made.1.size
  header : ∀ a, made.2.Holds blkSize a → ¬ (made.1.base ≤ a ∧ a < made.1.base + sizeofWaitCtx)

section
variable {blkSize block co buf : Nat} {s : Stack}

theorem createOnStack (on : onStack s buf = true) : createWaitCtxInfo blkSize s block co buf =
    (⟨block,sizeofWaitCtx + blkSize⟩,⟨co,block + sizeofWaitCtx * sizeofWaitCtx⟩) := if_pos on

/- The addresses of the places that the channels' own model of the wait contexts tells apart. -/
def address (blocks vars : Nat → Nat) : Channel.Loc → Nat
  | .priv w => blocks w + sizeofWaitCtx * sizeofWaitCtx
  | .own co => vars co

theorem createAddress (h : Channel.Heap) (raw : Nat) (blocks vars : Nat → Nat) :
    (createWaitCtxInfo blkSize s (blocks h.next) co (vars co)).2.buf =
      address blocks vars ((Channel.createWaitCtxInfo h raw co (onStack s (vars co))).ctx h.next).buf := by
  rw [Channel.createSelf]
  unfold createWaitCtxInfo
  split <;> rfl

theorem siteBlock {w : WaitCtx} {site : Site} {dst src : Nat} (copies : site.memcpy w = some (dst,src)) :
    dst = w.buf ∨ src = w.buf := by
  cases site with
  | readReturns p =>
    simp only [Site.memcpy] at copies
    split at copies <;> try contradiction
    cases Option.some.inj copies
    exact Or.inr rfl
  | readHandsOff slot =>
    cases Option.some.inj copies
    exact Or.inr rfl
  | writeHandsOff p =>
    cases Option.some.inj copies
    exact Or.inl rfl
  | writeSuspends p =>
    simp only [Site.memcpy] at copies
    split at copies <;> try contradiction
    cases Option.some.inj copies
    exact Or.inl rfl

/-- The value of a peer goes past the allocation: nothing in it changes, up to a size of 552. -/
theorem handOffPast (on : onStack s buf = true) (small : blkSize ≤ 552) (mem : Memory) (p : Nat) {a : Nat}
    (inside : a < block + (sizeofWaitCtx + blkSize)) :
    (Site.writeHandsOff p).run blkSize mem (createWaitCtxInfo blkSize s block co buf).2 a = mem a := by
  rw [createOnStack on]
  refine storeOutside mem (Or.inl ?_)
  simp only [sizeofWaitCtx] at inside ⊢
  omega

/-- The block of a variable on the shared stack lies in its allocation only when it is empty: it
starts sizeof(WaitCtx) headers behind the base, not one. -/
theorem blockInside (on : onStack s buf = true) : Inside blkSize (createWaitCtxInfo blkSize s block co buf) ↔
    blkSize = 0 := by
  rw [createOnStack on]
  constructor
  · rintro ⟨within,_⟩
    by_contra some_
    have last := within (block + sizeofWaitCtx * sizeofWaitCtx + (blkSize - 1)) ⟨Nat.le_add_right _ _,by simp only; omega⟩
    simp only [sizeofWaitCtx] at last
    omega
  · rintro rfl
    exact ⟨fun a holds => absurd holds.2 (Nat.not_lt.2 holds.1),fun a holds => absurd holds.2 (Nat.not_lt.2 holds.1)⟩

end

theorem emptyInside : onStack ⟨65536,73728⟩ 70000 = true ∧
    (Inside 0 (createWaitCtxInfo 0 ⟨65536,73728⟩ 4096 1 70000) ↔ 0 = 0) :=
  ⟨rfl,blockInside rfl⟩

/-- An int on the stack: 28 bytes are allocated, and the block starts 576 bytes behind their start. -/
theorem intOutside : ¬ ∀ (blkSize : Nat) (s : Stack) (block co buf : Nat), onStack s buf = true →
    Inside blkSize (createWaitCtxInfo blkSize s block co buf) := by
  intro claim
  have last := (claim 4 ⟨65536,73728⟩ 4096 1 70000 rfl).within 4672 ⟨by decide,by decide⟩
  exact absurd last.2 (by decide)

end TitCo.WaitBlock
