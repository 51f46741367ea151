import Mathlib.Algebra.Group.Nat.Defs
import TitCo.Transition
import TitCo.StreamBuffer

/-! Resume, Yield and Recycle of scheduler.cc on the eight shared stacks of one
scheduler. The address space is flat: `base` is what malloc returned for each stack,
and a copy past the top of one stack lands wherever the allocator put the next block.
tb_context_make and tb_context_jump are faithful and give a context inside the stack;
a running coroutine writes only inside its own shared stack. -/
namespace TitCo.SharedStack
open Transition ByteMemory StreamBuffer

def kShareStackSize : Nat := 8

structure Layout where
  stackSize : Nat
  base : Nat → Nat
  width : stackSize < 2^32
  apart : ∀ i j, i < kShareStackSize → j < kShareStackSize → i ≠ j →
    base i + stackSize ≤ base j ∨ base j + stackSize ≤ base i

def Layout.top (l : Layout) (i : Nat) : Nat := l.base i + l.stackSize

def stackId (co : Nat) : Nat := co % 8

inductive Life where
  | idle
  | fresh
  | running
  | yielded
  deriving DecidableEq, Repr

/- `made` says that stack->p is set. `frame` records what [ctx_, top) held at the
last yield. -/
structure State where
  memory : Memory
  made : Nat → Bool
  owner : Nat → Option Nat
  ctx : Nat → Option Nat
  stack : Nat → FixedBuffer
  life : Nat → Life
  running : Option Nat
  frame : Nat → List UInt8

def initial (memory : Memory) (data : Nat → Memory) : State :=
  ⟨memory,fun _ => false,fun _ => none,fun _ => none,fun co => ⟨data co,0⟩,fun _ => .idle,none,fun _ => []⟩

inductive Event where
  | newCoroutine (co : Nat)
  | resume (co : Nat) (make : Nat)
  | write (address : Nat) (byte : UInt8)
  | yield (ctx : Nat)
  | finish
  deriving DecidableEq, Repr

variable (l : Layout)

def saveStack (s : State) : Option Nat → State
  | none => s
  | some co =>
      let bottom := (s.ctx co).getD 0
      let saved := streamAppend (reset (s.stack co)) s.memory bottom ((l.top (stackId co) : Int) - bottom)
      {s with stack := Function.update s.stack co saved}

/-- The owner that Resume finds once a missing stack has been allocated for `co`. -/
def found (s : State) (co : Nat) : Option Nat :=
  if s.made (stackId co) then s.owner (stackId co) else some co

def takeStack (s : State) (co : Nat) : State :=
  if found s co = some co then s else saveStack l s (found s co)

/-- Resume up to the jump; `make` is what tb_context_make returns for a new coroutine. -/
def resume (s : State) (co make : Nat) : State :=
  let t := takeStack l s co
  let u : State := {t with
    made := Function.update s.made (stackId co) true
    owner := Function.update s.owner (stackId co) (some co)
    life := Function.update s.life co .running
    running := some co}
  match s.ctx co with
  | none => {u with ctx := Function.update s.ctx co (some make)}
  | some ctx =>
      if found s co = some co then u
      else {u with memory := store t.memory ctx (load (t.stack co).data 0 (streamSize (t.stack co)))}

def inStack (co address : Nat) : Prop :=
  l.base (stackId co) ≤ address ∧ address ≤ l.top (stackId co)

instance (co address : Nat) : Decidable (inStack l co address) := by unfold inStack; infer_instance

def step (s : State) : Event → Option State
  | .newCoroutine co =>
      if s.life co = .idle then
        some {s with
          ctx := Function.update s.ctx co none
          stack := Function.update s.stack co (reset (s.stack co))
          life := Function.update s.life co .fresh}
      else none
  | .resume co make =>
      if s.running = none ∧ (s.life co = .fresh ∨ s.life co = .yielded) ∧ inStack l co make then
        some (resume l s co make)
      else none
  | .write address byte =>
      match s.running with
      | some co =>
          if inStack l co address ∧ address ≠ l.top (stackId co) then
            some {s with memory := Function.update s.memory address byte}
          else none
      | none => none
  | .yield ctx =>
      match s.running with
      | some co =>
          if inStack l co ctx then
            some {s with
              ctx := Function.update s.ctx co (some ctx)
              life := Function.update s.life co .yielded
              running := none
              frame := Function.update s.frame co (load s.memory ctx (l.top (stackId co) - ctx))}
          else none
      | none => none
  | .finish =>
      match s.running with
      | some co =>
          some {s with
            owner := Function.update s.owner (stackId co) none
            life := Function.update s.life co .idle
            running := none}
      | none => none

/- The two things Resume relies on and does not check: the private stack of the owner
it displaces has room for the used part, and the capacity-sized copy that brings `co`
back does not reach into the used part of another shared stack. -/
def Clean (s : State) : Event → Prop
  | .resume co _ =>
      (∀ o, found s co = some o → o ≠ co → l.top (stackId co) - (s.ctx o).getD 0 < kSmallBuffer) ∧
      (∀ ctx, s.ctx co = some ctx → found s co ≠ some co → ∀ i o bottom, i ≠ stackId co →
        s.owner i = some o → s.ctx o = some bottom → ctx + kSmallBuffer ≤ bottom ∨ l.top i ≤ ctx)
  | _ => True

/-- Where the frame of a coroutine that has yielded is: on its shared stack while it
still owns it, in its private stack otherwise. -/
structure Kept (s : State) (co ctx : Nat) : Prop where
  context : s.ctx co = some ctx
  inside : inStack l co ctx
  live : s.owner (stackId co) = some co →
    load s.memory ctx (l.top (stackId co) - ctx) = s.frame co
  saved : s.owner (stackId co) ≠ some co →
    l.top (stackId co) - ctx < kSmallBuffer ∧
    load (s.stack co).data 0 (l.top (stackId co) - ctx) = s.frame co

structure Inv (s : State) : Prop where
  active : ∀ co, s.life co = .running ↔ s.running = some co
  owned : ∀ co, s.running = some co → s.owner (stackId co) = some co
  owner : ∀ i o, s.owner i = some o → stackId o = i ∧ (s.life o = .running ∨ s.life o = .yielded)
  made : ∀ co, s.life co = .running ∨ s.life co = .yielded → s.made (stackId co) = true
  fresh : ∀ co, s.life co = .fresh → s.ctx co = none
  kept : ∀ co, s.life co = .yielded → ∃ ctx, Kept l s co ctx

theorem initialInv (memory : Memory) (data : Nat → Memory) : Inv l (initial memory data) := by
  constructor <;> simp [initial]

theorem stackIdLess (co : Nat) : stackId co < kShareStackSize := Nat.mod_lt co (by decide)

variable {l}

theorem takeStackMemory (s : State) (co : Nat) : (takeStack l s co).memory = s.memory := by
  simp only [takeStack,saveStack]
  split
  · rfl
  · split <;> rfl

theorem takeStackOther (s : State) {co other : Nat} (kept : found s co ≠ some other ∨ other = co) :
    (takeStack l s co).stack other = s.stack other := by
  simp only [takeStack]
  split
  · rfl
  · rename_i displaced
    cases h : found s co with
    | none => rfl
    | some o =>
      have different : other ≠ o := by
        rintro rfl
        rcases kept with kept | rfl
        · exact kept h
        · exact displaced h
      simp [saveStack,Function.update_of_ne different]

theorem takeStackSaved (s : State) {co o ctx : Nat} (owner : found s co = some o) (other : o ≠ co)
    (context : s.ctx o = some ctx) (same : stackId o = stackId co) (inside : ctx ≤ l.top (stackId co))
    (room : l.top (stackId co) - ctx < kSmallBuffer) :
    load ((takeStack l s co).stack o).data 0 (l.top (stackId co) - ctx) =
      load s.memory ctx (l.top (stackId co) - ctx) := by
  have displaced : ¬ found s co = some co := by
    rw [owner]
    simpa using other
  have length : (l.top (stackId co) : Int) - ctx = (l.top (stackId co) - ctx : Nat) := by omega
  rw [takeStack,if_neg displaced]
  simp only [owner,saveStack,context,Option.getD_some,same,length,
    streamAppendReset _ _ _ _ room,Function.update_self]
  rw [loadStorePrefix _ _ (by simp),List.take_of_length_le (by simp)]

section Resume
variable {s : State} {co make : Nat}

@[simp] theorem resumeOwner : (resume l s co make).owner = Function.update s.owner (stackId co) (some co) := by
  simp only [resume]; split <;> [rfl; split <;> rfl]

@[simp] theorem resumeMade : (resume l s co make).made = Function.update s.made (stackId co) true := by
  simp only [resume]; split <;> [rfl; split <;> rfl]

@[simp] theorem resumeLife : (resume l s co make).life = Function.update s.life co .running := by
  simp only [resume]; split <;> [rfl; split <;> rfl]

@[simp] theorem resumeRunning : (resume l s co make).running = some co := by
  simp only [resume]; split <;> [rfl; split <;> rfl]

@[simp] theorem resumeStack : (resume l s co make).stack = (takeStack l s co).stack := by
  simp only [resume]; split <;> [rfl; split <;> rfl]

@[simp] theorem resumeFrame : (resume l s co make).frame = s.frame := by
  have same : (takeStack l s co).frame = s.frame := by
    simp only [takeStack,saveStack]
    split <;> [rfl; split <;> rfl]
  simp only [resume]
  split <;> [exact same; split <;> exact same]

theorem resumeCtx (c : Nat) (kept : c ≠ co ∨ s.ctx co ≠ none) : (resume l s co make).ctx c = s.ctx c := by
  have same : (takeStack l s co).ctx = s.ctx := by
    simp only [takeStack,saveStack]
    split <;> [rfl; split <;> rfl]
  simp only [resume]
  split
  · rename_i empty
    rcases kept with other | some_
    · simp [Function.update_of_ne other]
    · exact absurd empty some_
  · split <;> simp [same]

theorem resumeMemory {a n : Nat}
    (clear : ∀ ctx, s.ctx co = some ctx → found s co ≠ some co →
      ctx + kSmallBuffer ≤ a ∨ a + n ≤ ctx) :
    load (resume l s co make).memory a n = load s.memory a n := by
  simp only [resume]
  split
  · simp only [takeStackMemory]
  · rename_i ctx context
    split
    · simp only [takeStackMemory]
    · rename_i displaced
      simp only [takeStackMemory]
      apply loadStoreDisjoint
      have away := clear ctx context displaced
      simp only [loadLength,streamSize]
      omega

theorem resumeRestored {ctx n : Nat} (context : s.ctx co = some ctx) (displaced : found s co ≠ some co)
    (room : n < kSmallBuffer) :
    load (resume l s co make).memory ctx n = load (s.stack co).data 0 n := by
  simp only [resume,context,if_neg displaced]
  rw [loadStorePrefix _ _ (by simp [streamSize]; omega),loadTake _ _ (by simp [streamSize]; omega),
    takeStackOther s (.inr rfl)]

end Resume

theorem foundOwner {s : State} (inv : Inv l s) {co : Nat} (started : s.life co = .yielded) :
    found s co = s.owner (stackId co) := by
  simp [found,inv.made co (.inr started)]

/- The displaced owner of the stack goes to its private copy; everybody else who has
yielded keeps the place of the frame. -/
theorem resumeKeepsFrame {s : State} (inv : Inv l s) {co make c : Nat}
    (clean : Clean l s (.resume co make)) (other : c ≠ co)
    (yielded : s.life c = .yielded) : ∃ ctx, Kept l (resume l s co make) c ctx := by
  obtain ⟨ctx,kept⟩ := inv.kept c yielded
  obtain ⟨room,clear⟩ := clean
  have context : (resume l s co make).ctx c = some ctx := (resumeCtx c (.inl other)).trans kept.context
  have below := kept.inside.2
  by_cases same : stackId c = stackId co
  · -- `c` shares the stack that `co` takes over, so afterwards it is not the owner.
    have lost : (resume l s co make).owner (stackId c) ≠ some c := by
      simp [same,Ne.symm other]
    refine ⟨ctx,context,kept.inside,fun own => absurd own lost,fun _ => ?_⟩
    by_cases own : s.owner (stackId c) = some c
    · have owner : found s co = some c := by
        have made := inv.made c (.inr yielded)
        rw [same] at made own
        simp [found,made,own]
      have small := room c owner other
      rw [kept.context,Option.getD_some,← same] at small
      have saved := takeStackSaved s owner other kept.context same (same ▸ below) (same ▸ small)
      rw [← same] at saved
      refine ⟨small,?_⟩
      rw [resumeStack,resumeFrame,saved,kept.live own]
    · have keeps : found s co ≠ some c := by
        have made := inv.made c (.inr yielded)
        rw [same] at made own
        simpa [found,made] using own
      rw [resumeStack,resumeFrame,takeStackOther s (.inl keeps)]
      exact kept.saved own
  · have unchanged : (resume l s co make).owner (stackId c) = s.owner (stackId c) := by
      simp [Function.update_of_ne same]
    refine ⟨ctx,context,kept.inside,?_,?_⟩
    · rw [unchanged]
      intro own
      rw [resumeFrame,← kept.live own]
      apply resumeMemory
      intro from_ here displaced
      have away := clear from_ here displaced (stackId c) c ctx same own kept.context
      omega
    · rw [unchanged]
      intro own
      have keeps : found s co ≠ some c := by
        intro owner
        simp only [found] at owner
        split at owner
        · exact same (inv.owner _ _ owner).1
        · exact other (Option.some.inj owner).symm
      rw [resumeStack,resumeFrame,takeStackOther s (.inl keeps)]
      exact kept.saved own

theorem resumeKeeps {s : State} (inv : Inv l s) {co make : Nat} (idle : s.running = none)
    (clean : Clean l s (.resume co make)) : Inv l (resume l s co make) := by
  have still : ∀ c, s.life c ≠ .running := by
    intro c run
    simpa [idle] using (inv.active c).mp run
  refine ⟨?_,?_,?_,?_,?_,?_⟩
  · intro c
    by_cases same : c = co
    · subst c; simp
    · simp [Function.update_of_ne same,still c,Ne.symm same]
  · intro c run
    simp only [resumeRunning,Option.some.injEq] at run
    subst c
    simp
  · intro i o own
    by_cases here : i = stackId co
    · subst i
      simp only [resumeOwner,Function.update_self,Option.some.injEq] at own
      subst o
      simp
    · rw [resumeOwner,Function.update_of_ne here] at own
      have old := inv.owner i o own
      have other : o ≠ co := by
        rintro rfl
        exact here old.1.symm
      simpa [Function.update_of_ne other] using old
  · intro c started
    by_cases here : stackId c = stackId co
    · simp [here]
    · have other : c ≠ co := by
        rintro rfl
        exact here rfl
      rw [resumeLife,Function.update_of_ne other] at started
      rw [resumeMade,Function.update_of_ne here]
      exact inv.made c started
  · intro c fresh
    have other : c ≠ co := by
      rintro rfl
      simp at fresh
    rw [resumeLife,Function.update_of_ne other] at fresh
    rw [resumeCtx c (.inl other)]
    exact inv.fresh c fresh
  · intro c yielded
    have other : c ≠ co := by
      rintro rfl
      simp at yielded
    rw [resumeLife,Function.update_of_ne other] at yielded
    exact resumeKeepsFrame inv clean other yielded

theorem newKeeps {s : State} (inv : Inv l s) {co : Nat} (idle : s.life co = .idle) :
    Inv l {s with
      ctx := Function.update s.ctx co none
      stack := Function.update s.stack co (reset (s.stack co))
      life := Function.update s.life co .fresh} := by
  refine ⟨?_,inv.owned,?_,?_,?_,?_⟩
  · intro c
    by_cases same : c = co
    · subst c
      have old := inv.active co
      simp [idle] at old
      simpa using old
    · simpa [Function.update_of_ne same] using inv.active c
  · intro i o own
    have old := inv.owner i o own
    have other : o ≠ co := by
      rintro rfl
      simp [idle] at old
    simpa [Function.update_of_ne other] using old
  · intro c started
    by_cases same : c = co
    · subst c; simp at started
    · exact inv.made c (by simpa [Function.update_of_ne same] using started)
  · intro c fresh
    by_cases same : c = co
    · subst c; simp
    · simpa [Function.update_of_ne same] using
        inv.fresh c (by simpa [Function.update_of_ne same] using fresh)
  · intro c yielded
    by_cases same : c = co
    · subst c; simp at yielded
    · obtain ⟨ctx,kept⟩ := inv.kept c (by simpa [Function.update_of_ne same] using yielded)
      exact ⟨ctx,by simpa [Function.update_of_ne same] using kept.context,kept.inside,kept.live,
        by simpa [Function.update_of_ne same] using kept.saved⟩

theorem writeKeeps {s : State} (inv : Inv l s) {co address : Nat} (byte : UInt8)
    (run : s.running = some co) (inside : inStack l co address) (below : address ≠ l.top (stackId co)) :
    Inv l {s with memory := Function.update s.memory address byte} := by
  refine {inv with kept := ?_}
  intro c yielded
  obtain ⟨ctx,kept⟩ := inv.kept c yielded
  refine ⟨ctx,kept.context,kept.inside,?_,kept.saved⟩
  intro own
  change load (Function.update s.memory address byte) _ _ = _
  rw [← kept.live own]
  apply loadCongr
  intro x lower upper
  apply Function.update_of_ne
  rintro rfl
  have different : stackId c ≠ stackId co := by
    intro same
    have mine := inv.owned co run
    rw [← same] at mine
    cases Option.some.inj (mine.symm.trans own)
    simp [(inv.active co).mpr run] at yielded
  have far := l.apart _ _ (stackIdLess c) (stackIdLess co) different
  have i1 := inside.1
  have i2 := inside.2
  have k1 := kept.inside.1
  have k2 := kept.inside.2
  simp only [Layout.top] at *
  omega

theorem yieldKeeps {s : State} (inv : Inv l s) {co ctx : Nat} (run : s.running = some co)
    (inside : inStack l co ctx) :
    Inv l {s with
      ctx := Function.update s.ctx co (some ctx)
      life := Function.update s.life co .yielded
      running := none
      frame := Function.update s.frame co (load s.memory ctx (l.top (stackId co) - ctx))} := by
  have own := inv.owned co run
  refine ⟨?_,by simp,?_,?_,?_,?_⟩
  · intro c
    by_cases same : c = co
    · subst c; simp
    · simp only [Function.update_of_ne same,inv.active c,run,Option.some.injEq]
      exact ⟨fun h => absurd h.symm same,by simp⟩
  · intro i o h
    have old := inv.owner i o h
    refine ⟨old.1,?_⟩
    by_cases same : o = co
    · subst o; simp
    · simpa [Function.update_of_ne same] using old.2
  · intro c started
    by_cases same : c = co
    · subst c; exact inv.made co (.inl ((inv.active co).mpr run))
    · exact inv.made c (by simpa [Function.update_of_ne same] using started)
  · intro c fresh
    by_cases same : c = co
    · subst c; simp at fresh
    · simpa [Function.update_of_ne same] using
        inv.fresh c (by simpa [Function.update_of_ne same] using fresh)
  · intro c yielded
    by_cases same : c = co
    · subst c
      exact ⟨ctx,by simp,inside,fun _ => by simp,fun h => absurd own h⟩
    · obtain ⟨a,kept⟩ := inv.kept c (by simpa [Function.update_of_ne same] using yielded)
      exact ⟨a,by simpa [Function.update_of_ne same] using kept.context,kept.inside,
        by simpa [Function.update_of_ne same] using kept.live,
        by simpa [Function.update_of_ne same] using kept.saved⟩

theorem finishKeeps {s : State} (inv : Inv l s) {co : Nat} (run : s.running = some co) :
    Inv l {s with
      owner := Function.update s.owner (stackId co) none
      life := Function.update s.life co .idle
      running := none} := by
  have own := inv.owned co run
  refine ⟨?_,by simp,?_,?_,?_,?_⟩
  · intro c
    by_cases same : c = co
    · subst c; simp
    · simp only [Function.update_of_ne same,inv.active c,run,Option.some.injEq]
      exact ⟨fun h => absurd h.symm same,by simp⟩
  · intro i o h
    by_cases here : i = stackId co
    · subst i; simp at h
    · have old := inv.owner i o (by simpa [Function.update_of_ne here] using h)
      have other : o ≠ co := by
        rintro rfl
        exact here old.1.symm
      simpa [Function.update_of_ne other] using old
  · intro c started
    by_cases same : c = co
    · subst c; simp at started
    · exact inv.made c (by simpa [Function.update_of_ne same] using started)
  · intro c fresh
    by_cases same : c = co
    · subst c; simp at fresh
    · exact inv.fresh c (by simpa [Function.update_of_ne same] using fresh)
  · intro c yielded
    by_cases same : c = co
    · subst c; simp at yielded
    · obtain ⟨ctx,kept⟩ := inv.kept c (by simpa [Function.update_of_ne same] using yielded)
      refine ⟨ctx,kept.context,kept.inside,?_,?_⟩
      · intro h
        by_cases here : stackId c = stackId co
        · simp [here] at h
        · exact kept.live (by simpa [Function.update_of_ne here] using h)
      · intro h
        by_cases here : stackId c = stackId co
        · apply kept.saved
          rw [here,own]
          simpa using Ne.symm same
        · exact kept.saved (by simpa [Function.update_of_ne here] using h)

theorem stepKeeps {s t : State} {e : Event} (inv : Inv l s) (clean : Clean l s e)
    (h : step l s e = some t) : Inv l t := by
  cases e with
  | newCoroutine co =>
    simp only [step] at h
    split at h <;> try contradiction
    cases Option.some.inj h
    exact newKeeps inv ‹_›
  | resume co make =>
    simp only [step] at h
    split at h <;> try contradiction
    rename_i guard
    cases Option.some.inj h
    exact resumeKeeps inv guard.1 clean
  | write address byte =>
    simp only [step] at h
    split at h <;> try contradiction
    rename_i co run
    split at h <;> try contradiction
    rename_i guard
    cases Option.some.inj h
    exact writeKeeps inv byte run guard.1 guard.2
  | yield ctx =>
    simp only [step] at h
    split at h <;> try contradiction
    rename_i co run
    split at h <;> try contradiction
    rename_i guard
    cases Option.some.inj h
    exact yieldKeeps inv run guard
  | finish =>
    simp only [step] at h
    split at h <;> try contradiction
    rename_i co run
    cases Option.some.inj h
    exact finishKeeps inv run

/-- In every run whose Resumes all find room for the displaced frame and keep clear of
the other stacks: when Resume jumps into a coroutine that had yielded, [ctx_, top) of
its shared stack is what it was at that yield. -/
theorem resumeRestoresFrame (l : Layout) (memory : Memory) (data : Nat → Memory) (es : List Event)
    (s t : State) (co make : Nat)
    (clean : Guarded (step l) (Clean l) (initial memory data) (es ++ [.resume co make]))
    (reached : run (step l) (initial memory data) es = some s) (yielded : s.life co = .yielded)
    (resumed : step l s (.resume co make) = some t) :
    ∃ ctx, s.ctx co = some ctx ∧ t.ctx co = some ctx ∧ inStack l co ctx ∧
      load t.memory ctx (l.top (stackId co) - ctx) = s.frame co := by
  obtain ⟨before,last⟩ := guardedAppend clean reached
  have inv := guardedInvariant (fun _ _ _ inv ok h => stepKeeps inv ok h) before reached
    (initialInv l memory data)
  obtain ⟨ctx,kept⟩ := inv.kept co yielded
  simp only [step] at resumed
  split at resumed <;> try contradiction
  cases Option.some.inj resumed
  refine ⟨ctx,kept.context,?_,kept.inside,?_⟩
  · rw [resumeCtx co (.inr (by simp [kept.context])),kept.context]
  · by_cases own : s.owner (stackId co) = some co
    · rw [← kept.live own]
      exact resumeMemory (fun _ _ displaced => absurd ((foundOwner inv yielded).trans own) displaced)
    · obtain ⟨room,copy⟩ := kept.saved own
      have displaced : found s co ≠ some co := by
        rw [foundOwner inv yielded]
        exact own
      rw [resumeRestored kept.context displaced room,copy]

def spaced : Layout where
  stackSize := 8192
  base i := 16384*i
  width := by decide
  apart i j _ _ different := by omega

theorem shallowFrameRestored : ∃ s t, run (step spaced) (initial (fun _ => 0) (fun _ _ => 0))
    [.newCoroutine 0,.resume 0 8192,.write 8000 7,.yield 8000,.newCoroutine 8,.resume 8 8192,.write 8000 9,
      .yield 8100] = some s ∧ step spaced s (.resume 0 8192) = some t ∧
    ∃ ctx, s.ctx 0 = some ctx ∧ t.ctx 0 = some ctx ∧ inStack spaced 0 ctx ∧
      load t.memory ctx (spaced.top (stackId 0) - ctx) = s.frame 0 := by
  refine ⟨_,_,rfl,rfl,resumeRestoresFrame spaced (fun _ => 0) (fun _ _ => 0)
    [.newCoroutine 0,.resume 0 8192,.write 8000 7,.yield 8000,.newCoroutine 8,.resume 8 8192,.write 8000 9,
      .yield 8100] _ _ 0 8192 ?_ rfl rfl rfl⟩
  refine guardedCons trivial rfl (guardedCons ⟨?_,?_⟩ rfl (guardedCons trivial rfl (guardedCons trivial rfl
    (guardedCons trivial rfl (guardedCons ⟨?_,?_⟩ rfl (guardedCons trivial rfl (guardedCons trivial rfl
    (guardedCons ⟨?_,?_⟩ rfl trivial))))))))
  · intro o h other
    exact absurd (Option.some.inj h).symm other
  · intro ctx h
    cases h
  · intro o h other
    cases Option.some.inj h
    decide
  · intro ctx h
    cases h
  · intro o h other
    cases Option.some.inj h
    decide
  · intro ctx h displaced i o bottom different own
    have other : i ≠ 0 := different
    change Function.update (Function.update (fun _ => none) 0 (some 0)) 0 (some 8) i = some o at own
    simp [Function.update_of_ne other] at own

/-- With 4000 bytes in use nothing is saved, and the frame is gone. -/
theorem deepFrameLost : ¬ ∀ (l : Layout) (memory : Memory) (data : Nat → Memory) (es : List Event)
    (s t : State) (co make : Nat), run (step l) (initial memory data) es = some s →
    s.life co = .yielded → step l s (.resume co make) = some t →
    ∃ ctx, s.ctx co = some ctx ∧ load t.memory ctx (l.top (stackId co) - ctx) = s.frame co := by
  intro claim
  obtain ⟨ctx,context,same⟩ := claim spaced (fun _ => 0) (fun _ _ => 0)
    [.newCoroutine 0,.resume 0 8192,.write 4192 7,.yield 4192,.newCoroutine 8,.resume 8 8192,.write 4192 9,
      .yield 8100] _ _ 0 8192 rfl rfl rfl
  cases Option.some.inj context
  have first := congrArg (List.take 1) same
  rw [loadTake _ _ (by decide),resumeRestored rfl (by decide) (by decide)] at first
  exact absurd first (by decide)

end TitCo.SharedStack
