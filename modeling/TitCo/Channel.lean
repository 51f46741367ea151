import TitCo.MachineInt
import TitCo.RingBuffer

/-! ChannelImpl of channel.cc: the ring, the wait contexts and the section that Read
and Write run under `mutex_`. What a call does after UnLock is left to the caller of
these functions, as the outcome says. -/
namespace TitCo.Channel
open ByteMemory MachineInt RingBuffer

/- co_state, shared by coroutines and wait contexts. -/
def kInit : Nat := 0
def kWait : Nat := 1
def kReady : Nat := 2
def kTimeout : Nat := 4

abbrev Value := List UInt8

/-- Where a wait context keeps its value: the block malloc'ed behind it, or the
variable of its coroutine when that is not on the shared stack. -/
inductive Loc where
  | priv (ctx : Nat)
  | own (co : Nat)
  deriving DecidableEq, Repr

structure WaitCtx where
  co : Nat
  state : Nat
  buf : Loc
  deriving DecidableEq, Repr

/-- The wait contexts made so far are those below `next`. -/
structure Heap where
  ctx : Nat → WaitCtx
  block : Loc → Value
  next : Nat

def Heap.initial : Heap := ⟨fun _ => ⟨0,kInit,.priv 0⟩,fun _ => [],0⟩

def Heap.setState (h : Heap) (w state : Nat) : Heap :=
  {h with ctx := Function.update h.ctx w {h.ctx w with state := state}}

def Heap.put (h : Heap) (l : Loc) (v : Value) : Heap := {h with block := Function.update h.block l v}

section
variable {h : Heap} {w x st : Nat}

theorem setStateSelf (h : Heap) (w st : Nat) : ((h.setState w st).ctx w).state = st := by
  simp [Heap.setState]

theorem setStateOther (differ : x ≠ w) (st : Nat) : (h.setState w st).ctx x = h.ctx x :=
  Function.update_of_ne differ _ _

/- Only the state of a context changes. -/
theorem setStateOwner (h : Heap) (w st x : Nat) : ((h.setState w st).ctx x).co = (h.ctx x).co := by
  by_cases same : x = w
  · subst x
    simp [Heap.setState]
  · rw [setStateOther same]

theorem setStateBuf (h : Heap) (w st x : Nat) : ((h.setState w st).ctx x).buf = (h.ctx x).buf := by
  by_cases same : x = w
  · subst x
    simp [Heap.setState]
  · rw [setStateOther same]

theorem setStateInit (claimed : st ≠ kInit) (init : ((h.setState w st).ctx x).state = kInit) :
    x ≠ w ∧ (h.ctx x).state = kInit := by
  by_cases same : x = w
  · subst x
    rw [setStateSelf] at init
    exact absurd init claimed
  · rw [setStateOther same] at init
    exact ⟨same,init⟩

end

structure ChannelImpl where
  buf : Memory
  bufSize : Nat
  blkSize : Nat
  rx : Nat
  wx : Nat
  ms : Nat
  full : Bool
  waitQueue : List Nat

/-- Channel<T>(cap, ms) with sizeof(T) = blk, over whatever malloc returned. -/
def ChannelImpl.create (raw : Memory) (cap blk ms : Nat) : ChannelImpl :=
  ⟨raw,toUint32 (cap * blk : Nat),blk,0,0,ms,false,[]⟩

def ChannelImpl.advance (c : ChannelImpl) (x : Nat) : Nat :=
  let y := toUint32 (x + c.blkSize : Nat)
  if y = c.bufSize then 0 else y

def ChannelImpl.front (c : ChannelImpl) : Value := load c.buf c.rx c.blkSize
def ChannelImpl.take (c : ChannelImpl) : ChannelImpl := {c with rx := c.advance c.rx}
def ChannelImpl.put (c : ChannelImpl) (v : Value) : ChannelImpl :=
  {c with buf := store c.buf c.wx v, wx := c.advance c.wx}
def ChannelImpl.markFull (c : ChannelImpl) : ChannelImpl := if c.wx = c.rx then {c with full := true} else c

/-- `raw` is what malloc left in state_. -/
def createWaitCtxInfo (h : Heap) (raw co : Nat) (onStack : Bool) : Heap :=
  {h with
    ctx := Function.update h.ctx h.next ⟨co,raw,if onStack then .priv h.next else .own co⟩
    next := h.next+1}

theorem createOther {h : Heap} {x : Nat} (differ : x ≠ h.next) (raw co : Nat) (onStack : Bool) :
    (createWaitCtxInfo h raw co onStack).ctx x = h.ctx x :=
  Function.update_of_ne differ _ _

theorem createSelf (h : Heap) (raw co : Nat) (onStack : Bool) :
    (createWaitCtxInfo h raw co onStack).ctx h.next = ⟨co,raw,if onStack then .priv h.next else .own co⟩ :=
  Function.update_self _ _ _

/-- The loop over wait_queue_: the first context whose CAS from kInit succeeds, and
the queue behind it. -/
def claim (h : Heap) : List Nat → Option Nat × List Nat
  | [] => (none,[])
  | w::ws => if (h.ctx w).state = kInit then (some w,ws) else claim h ws

inductive ReadOutcome where
  | taken (v : Value)
  | woke (v : Value) (w : Nat)
  | suspended (w : Nat)
  deriving DecidableEq, Repr

inductive WriteOutcome where
  | stored
  | handOff (w : Nat)
  | suspended (w : Nat)
  deriving DecidableEq, Repr

def readSection (c : ChannelImpl) (h : Heap) (raw co : Nat) (onStack : Bool) :
    ChannelImpl × Heap × ReadOutcome :=
  if c.rx ≠ c.wx then (c.take,h,.taken c.front)
  else if c.full = false then
    ({c with waitQueue := c.waitQueue ++ [h.next]},createWaitCtxInfo h raw co onStack,.suspended h.next)
  else match claim h c.waitQueue with
    | (some w,rest) =>
        ({c.take.put (h.block (h.ctx w).buf) with waitQueue := rest},h.setState w kReady,.woke c.front w)
    | (none,rest) => ({c.take with full := false, waitQueue := rest},h,.taken c.front)

def writeSection (c : ChannelImpl) (h : Heap) (raw co : Nat) (onStack : Bool) (v : Value) :
    ChannelImpl × Heap × WriteOutcome :=
  if c.wx ≠ c.rx then ((c.put v).markFull,h,.stored)
  else if c.full = false then
    match claim h c.waitQueue with
    | (some w,rest) => ({c with waitQueue := rest},h.setState w kReady,.handOff w)
    | (none,rest) => ({(c.put v).markFull with waitQueue := rest},h,.stored)
  else
    -- Off the stack buf_ is p itself, which holds v before any memcpy.
    let made := createWaitCtxInfo h raw co onStack
    ({c with waitQueue := c.waitQueue ++ [h.next]},made.put (made.ctx h.next).buf v,.suspended h.next)

theorem claimSource (h : Heap) (queue : List Nat) :
    (∃ skipped w rest, queue = skipped ++ w::rest ∧ claim h queue = (some w,rest) ∧
      (h.ctx w).state = kInit ∧ ∀ x ∈ skipped, (h.ctx x).state ≠ kInit) ∨
    (claim h queue = (none,[]) ∧ ∀ x ∈ queue, (h.ctx x).state ≠ kInit) := by
  induction queue with
  | nil => exact Or.inr ⟨rfl,by simp⟩
  | cons w ws ih =>
    by_cases init : (h.ctx w).state = kInit
    · exact Or.inl ⟨[],w,ws,rfl,by simp [claim,init],init,by simp⟩
    · have step : claim h (w::ws) = claim h ws := by simp [claim,init]
      rcases ih with ⟨skipped,x,rest,shape,found,state,others⟩ | ⟨found,others⟩
      · refine Or.inl ⟨w::skipped,x,rest,by simp [shape],step.trans found,state,?_⟩
        intro y hy
        rcases List.mem_cons.1 hy with rfl | later
        · exact init
        · exact others y later
      · refine Or.inr ⟨step.trans found,?_⟩
        intro y hy
        rcases List.mem_cons.1 hy with rfl | later
        · exact init
        · exact others y later

theorem claimSome {h : Heap} {queue rest : List Nat} {w : Nat} (found : claim h queue = (some w,rest)) :
    w ∈ queue ∧ (h.ctx w).state = kInit ∧ ∀ x ∈ rest, x ∈ queue := by
  rcases claimSource h queue with ⟨skipped,y,left,shape,result,state,_⟩ | ⟨result,_⟩
  · cases result.symm.trans found
    exact ⟨by simp [shape],state,fun x hx => by simp [shape,hx]⟩
  · cases result.symm.trans found

theorem claimNone {h : Heap} {queue rest : List Nat} (found : claim h queue = (none,rest)) : rest = [] := by
  rcases claimSource h queue with ⟨_,_,_,_,result,_⟩ | ⟨result,_⟩
  · cases result.symm.trans found
  · cases result.symm.trans found
    rfl

theorem claimDead {h : Heap} {queue rest : List Nat} (found : claim h queue = (none,rest)) :
    ∀ x ∈ queue, (h.ctx x).state ≠ kInit := by
  rcases claimSource h queue with ⟨_,_,_,_,result,_⟩ | ⟨_,dead⟩
  · cases result.symm.trans found
  · exact dead

theorem readSource (c : ChannelImpl) (h : Heap) (raw co : Nat) (onStack : Bool) :
    (∃ d v, readSection c h raw co onStack = (d,h,.taken v) ∧ ∀ x ∈ d.waitQueue, x ∈ c.waitQueue) ∨
    (∃ d v w, readSection c h raw co onStack = (d,h.setState w kReady,.woke v w) ∧ w ∈ c.waitQueue ∧
      (h.ctx w).state = kInit ∧ ∀ x ∈ d.waitQueue, x ∈ c.waitQueue) ∨
    readSection c h raw co onStack =
      ({c with waitQueue := c.waitQueue ++ [h.next]},createWaitCtxInfo h raw co onStack,.suspended h.next) := by
  unfold readSection
  split
  · exact Or.inl ⟨_,_,rfl,fun _ hx => hx⟩
  · split
    · exact Or.inr (Or.inr rfl)
    · split
      · rename_i w rest found
        obtain ⟨inside,init,part⟩ := claimSome found
        exact Or.inr (Or.inl ⟨_,_,w,rfl,inside,init,part⟩)
      · rename_i rest found
        cases claimNone found
        exact Or.inl ⟨_,_,rfl,by simp⟩

theorem writeSource (c : ChannelImpl) (h : Heap) (raw co : Nat) (onStack : Bool) (v : Value) :
    (∃ d, writeSection c h raw co onStack v = (d,h,.stored) ∧ ∀ x ∈ d.waitQueue, x ∈ c.waitQueue) ∨
    (∃ d w, writeSection c h raw co onStack v = (d,h.setState w kReady,.handOff w) ∧ w ∈ c.waitQueue ∧
      (h.ctx w).state = kInit ∧ ∀ x ∈ d.waitQueue, x ∈ c.waitQueue) ∨
    writeSection c h raw co onStack v = ({c with waitQueue := c.waitQueue ++ [h.next]},
      (createWaitCtxInfo h raw co onStack).put ((createWaitCtxInfo h raw co onStack).ctx h.next).buf v,
      .suspended h.next) := by
  have marked : ∀ d : ChannelImpl, d.markFull.waitQueue = d.waitQueue := by
    intro d
    unfold ChannelImpl.markFull
    split <;> rfl
  unfold writeSection
  split
  · exact Or.inl ⟨_,rfl,fun x hx => by rw [marked] at hx; exact hx⟩
  · split
    · split
      · rename_i w rest found
        obtain ⟨inside,init,part⟩ := claimSome found
        exact Or.inr (Or.inl ⟨_,w,rfl,inside,init,part⟩)
      · rename_i rest found
        cases claimNone found
        exact Or.inl ⟨_,rfl,by simp⟩
    · exact Or.inr (Or.inr rfl)

theorem wokeQueued {c : ChannelImpl} {h : Heap} {raw co : Nat} {onStack : Bool} {v : Value} {w : Nat}
    (woke : (readSection c h raw co onStack).2.2 = .woke v w) : w ∈ c.waitQueue := by
  rcases readSource c h raw co onStack with ⟨d,x,same,_⟩ | ⟨d,x,y,same,inside,_⟩ | same
  · rw [same] at woke
    cases woke
  · rw [same] at woke
    cases woke
    exact inside
  · rw [same] at woke
    cases woke

theorem handedQueued {c : ChannelImpl} {h : Heap} {raw co : Nat} {onStack : Bool} {v : Value} {w : Nat}
    (handed : (writeSection c h raw co onStack v).2.2 = .handOff w) : w ∈ c.waitQueue := by
  rcases writeSource c h raw co onStack v with ⟨d,same,_⟩ | ⟨d,y,same,inside,_⟩ | same
  · rw [same] at handed
    cases handed
  · rw [same] at handed
    cases handed
    exact inside
  · rw [same] at handed
    cases handed

theorem readSuspends (c : ChannelImpl) (h : Heap) (raw co : Nat) (onStack : Bool) :
    (∃ w, (readSection c h raw co onStack).2.2 = .suspended w) ↔ c.rx = c.wx ∧ c.full = false := by
  unfold readSection
  split
  · rename_i apart
    simp [apart]
  · rename_i meet
    split
    · rename_i unfilled
      simp [unfilled,not_not.1 meet]
    · rename_i full
      split <;> simp [full]

theorem writeSuspends (c : ChannelImpl) (h : Heap) (raw co : Nat) (onStack : Bool) (v : Value) :
    (∃ w, (writeSection c h raw co onStack v).2.2 = .suspended w) ↔ c.wx = c.rx ∧ c.full = true := by
  unfold writeSection
  split
  · rename_i apart
    simp [apart]
  · rename_i meet
    split
    · rename_i unfilled
      split <;> simp [unfilled]
    · rename_i full
      simp [full,not_not.1 meet]

theorem readMs (c : ChannelImpl) (h : Heap) (raw co : Nat) (onStack : Bool) :
    (readSection c h raw co onStack).1.ms = c.ms := by
  unfold readSection
  split
  · rfl
  · split
    · rfl
    · split <;> rfl

theorem writeMs (c : ChannelImpl) (h : Heap) (raw co : Nat) (onStack : Bool) (v : Value) :
    (writeSection c h raw co onStack v).1.ms = c.ms := by
  have marked : ∀ d : ChannelImpl, d.markFull.ms = d.ms := by
    intro d
    unfold ChannelImpl.markFull
    split <;> rfl
  unfold writeSection
  split
  · exact marked _
  · split
    · split
      · rfl
      · exact marked _
    · rfl

/-- The ring holds `vals`, oldest first, from slot `r` on. -/
structure Ring (cap : Nat) (c : ChannelImpl) (r : Nat) (vals : List Value) : Prop where
  size : c.bufSize = cap * c.blkSize
  small : c.bufSize < 2^32
  apart : 0 < c.blkSize ∨ cap = 1
  low : r < cap
  read : c.rx = r * c.blkSize
  write : c.wx = slot cap c.blkSize r vals.length
  fits : vals.length ≤ cap
  holds : Holds c.buf cap c.blkSize r vals

section
variable {cap r : Nat} {c : ChannelImpl} {vals : List Value} {v : Value}

theorem advanceSlot (ring : Ring cap c r vals) {x : Nat} (low : x < cap) :
    c.advance (x * c.blkSize) = (x+1) % cap * c.blkSize := by
  have below : x * c.blkSize + c.blkSize ≤ cap * c.blkSize := by
    rw [← Nat.add_one_mul]
    exact Nat.mul_le_mul_right _ low
  have narrow : toUint32 (x * c.blkSize + c.blkSize : Nat) = x * c.blkSize + c.blkSize := by
    have small := ring.small
    have size := ring.size
    exact toUint32Small (by omega)
  rw [ChannelImpl.advance,narrow,ring.size]
  exact slotAdvance ring.apart low

theorem ringMeet (ring : Ring cap c r vals) : c.rx = c.wx ↔ vals.length = 0 ∨ vals.length = cap := by
  rw [ring.read,ring.write]
  exact slotsMeet ring.apart ring.low ring.fits

theorem ringTake (ring : Ring cap c r (v::vals)) : c.front = v ∧ Ring cap c.take ((r+1) % cap) vals := by
  obtain ⟨first,rest⟩ := holdsPop ring.low ring.holds
  refine ⟨?_,ring.size,ring.small,ring.apart,Nat.mod_lt _ (Nat.zero_lt_of_lt ring.low),?_,?_,?_,rest⟩
  · rw [ChannelImpl.front,ring.read,first]
  · change c.advance c.rx = _
    rw [ring.read]
    exact advanceSlot ring ring.low
  · change c.wx = _
    rw [ring.write,List.length_cons]
    exact (slotNext _ _ _ _).symm
  · have fits := ring.fits
    rw [List.length_cons] at fits
    omega

theorem ringPut (ring : Ring cap c r vals) (room : vals.length < cap) (size : v.length = c.blkSize) :
    Ring cap (c.put v) r (vals ++ [v]) := by
  refine ⟨ring.size,ring.small,ring.apart,ring.low,ring.read,?_,?_,?_⟩
  · change c.advance c.wx = slot cap c.blkSize r (vals ++ [v]).length
    have turn : (r + vals.length) % cap < cap := Nat.mod_lt _ (Nat.zero_lt_of_lt ring.low)
    rw [ring.write,slot,advanceSlot ring turn,Nat.mod_add_mod,List.length_append,List.length_singleton,slot,
      Nat.add_assoc]
  · rw [List.length_append,List.length_singleton]
    exact room
  · change Holds (store c.buf c.wx v) cap c.blkSize r (vals ++ [v])
    rw [ring.write]
    exact holdsPush ring.holds room size

end

/-- The slots in use: sizes of zero leave one slot of nothing. -/
def slots (cap blk : Nat) : Nat := if blk = 0 then 1 else cap

theorem ringCreate (raw : Memory) (ms : Nat) {cap blk : Nat} (positive : 1 ≤ cap) (small : cap * blk < 2^32) :
    Ring (slots cap blk) (.create raw cap blk ms) 0 [] := by
  have narrow : toUint32 (cap * blk : Nat) = cap * blk := toUint32Small small
  have some : 0 < slots cap blk := by unfold slots; split <;> omega
  refine ⟨?_,?_,?_,some,?_,?_,?_,holdsNil _ _ _ _⟩
  · change toUint32 (cap * blk : Nat) = slots cap blk * blk
    rw [narrow,slots]
    split <;> simp_all
  · change toUint32 (cap * blk : Nat) < 2^32
    rw [narrow]
    exact small
  · change 0 < blk ∨ slots cap blk = 1
    unfold slots
    split <;> omega
  · simp [ChannelImpl.create]
  · simp [ChannelImpl.create,slot]
  · simp

/-- What a channel looks like between two sections: who waits, waits at an empty ring or at
a full one. -/
structure Holding (cap : Nat) (c : ChannelImpl) (vals : List Value) : Prop where
  ring : ∃ r, Ring cap c r vals
  full : c.full = true ↔ vals.length = cap
  quiet : c.waitQueue = [] ∨ vals = [] ∨ vals.length = cap

section
variable {cap : Nat} {c : ChannelImpl} {vals : List Value}

theorem holdingPositive (holding : Holding cap c vals) : 0 < cap := by
  obtain ⟨r,ring⟩ := holding.ring
  exact Nat.zero_lt_of_lt ring.low

theorem holdingOpen (holding : Holding cap c vals) (none : vals.length = 0) : c.full = false := by
  have positive := holdingPositive holding
  by_contra full
  have whole := holding.full.1 (by simpa using full)
  omega

theorem holdingApart (holding : Holding cap c vals) (apart : c.rx ≠ c.wx) :
    0 < vals.length ∧ vals.length < cap ∧ c.waitQueue = [] ∧ c.full = false := by
  obtain ⟨r,ring⟩ := holding.ring
  have meet := ringMeet ring
  have fits := ring.fits
  have some : vals.length ≠ 0 := fun none => apart (meet.2 (Or.inl none))
  have room : vals.length ≠ cap := fun whole => apart (meet.2 (Or.inr whole))
  refine ⟨by omega,by omega,?_,?_⟩
  · rcases holding.quiet with none | none | whole
    · exact none
    · simp [none] at some
    · exact absurd whole room
  · by_contra full
    exact room (holding.full.1 (by simpa using full))

theorem markFullQueue (d : ChannelImpl) : d.markFull.waitQueue = d.waitQueue ∧ d.markFull.blkSize = d.blkSize := by
  unfold ChannelImpl.markFull
  split <;> exact ⟨rfl,rfl⟩

theorem markFullClear (d : ChannelImpl) :
    ({d.markFull with waitQueue := []} : ChannelImpl) = ChannelImpl.markFull {d with waitQueue := []} := by
  by_cases turn : d.wx = d.rx <;> simp [ChannelImpl.markFull,turn]

theorem holdingPut (holding : Holding cap c vals) {v : Value} (room : vals.length < cap) (size : v.length = c.blkSize)
    (empty : c.waitQueue = []) : Holding cap (c.put v).markFull (vals ++ [v]) := by
  obtain ⟨r,ring⟩ := holding.ring
  have next := ringPut ring room size
  have meet := ringMeet next
  have old : c.full ≠ true := by
    intro full
    have whole := holding.full.1 full
    omega
  have some : (vals ++ [v]).length ≠ 0 := by simp
  have queue : (c.put v).markFull.waitQueue = [] := (markFullQueue _).1.trans empty
  unfold ChannelImpl.markFull at queue ⊢
  by_cases turn : (c.put v).wx = (c.put v).rx
  · have whole : (vals ++ [v]).length = cap := (meet.1 turn.symm).resolve_left some
    rw [if_pos turn] at queue ⊢
    refine ⟨⟨r,next.size,next.small,next.apart,next.low,next.read,next.write,next.fits,next.holds⟩,?_,Or.inl queue⟩
    exact ⟨fun _ => whole,fun _ => rfl⟩
  · rw [if_neg turn] at queue ⊢
    refine ⟨⟨r,next⟩,⟨fun full => absurd full old,?_⟩,Or.inl queue⟩
    intro whole
    exact absurd (meet.2 (Or.inr whole)).symm turn

end

/-- What a channel without timeouts looks like between two sections. -/
structure Sound (cap : Nat) (c : ChannelImpl) (h : Heap) (vals : List Value) : Prop where
  ring : ∃ r, Ring cap c r vals
  full : c.full = true ↔ vals.length = cap
  quiet : c.waitQueue = [] ∨ vals = [] ∨ vals.length = cap
  live : ∀ w ∈ c.waitQueue, (h.ctx w).state = kInit

section
variable {cap : Nat} {c : ChannelImpl} {h : Heap} {vals : List Value}

theorem soundHolding (sound : Sound cap c h vals) : Holding cap c vals := ⟨sound.ring,sound.full,sound.quiet⟩

theorem soundPositive (sound : Sound cap c h vals) : 0 < cap := holdingPositive (soundHolding sound)

theorem emptyOpen (sound : Sound cap c h vals) (none : vals.length = 0) : c.full = false :=
  holdingOpen (soundHolding sound) none

theorem partlyFilled (sound : Sound cap c h vals) (apart : c.rx ≠ c.wx) :
    0 < vals.length ∧ vals.length < cap ∧ c.waitQueue = [] ∧ c.full = false :=
  holdingApart (soundHolding sound) apart

theorem soundPut (sound : Sound cap c h vals) {v : Value} (room : vals.length < cap)
    (size : v.length = c.blkSize) (empty : c.waitQueue = []) :
    Sound cap (c.put v).markFull h (vals ++ [v]) := by
  obtain ⟨ring,full,quiet⟩ := holdingPut (soundHolding sound) room size empty
  refine ⟨ring,full,quiet,?_⟩
  intro w inside
  rw [(markFullQueue _).1,show (c.put v).waitQueue = [] from empty] at inside
  contradiction

theorem readCases (sound : Sound cap c h vals) (raw co : Nat) (onStack : Bool) :
    (∃ v rest d, vals = v::rest ∧ c.waitQueue = [] ∧ readSection c h raw co onStack = (d,h,.taken v) ∧
      Sound cap d h rest ∧ d.full = false ∧ d.waitQueue = [] ∧ d.blkSize = c.blkSize) ∨
    (vals = [] ∧ c.full = false ∧ readSection c h raw co onStack =
      ({c with waitQueue := c.waitQueue ++ [h.next]},createWaitCtxInfo h raw co onStack,.suspended h.next)) ∨
    (∃ v rest w ws d, vals = v::rest ∧ vals.length = cap ∧ c.full = true ∧ c.waitQueue = w::ws ∧
      readSection c h raw co onStack = (d,h.setState w kReady,.woke v w) ∧
      ((h.block (h.ctx w).buf).length = c.blkSize → ∃ r, Ring cap d r (rest ++ [h.block (h.ctx w).buf])) ∧
      d.full = true ∧ d.waitQueue = ws ∧ d.blkSize = c.blkSize) := by
  obtain ⟨r,ring⟩ := sound.ring
  have positive := soundPositive sound
  have meet := ringMeet ring
  unfold readSection
  by_cases apart : c.rx ≠ c.wx
  · rw [if_pos apart]
    obtain ⟨some,room,empty,unfilled⟩ := partlyFilled sound apart
    cases vals with
    | nil => simp at some
    | cons v rest =>
      obtain ⟨front,next⟩ := ringTake ring
      have fits := ring.fits
      simp only [List.length_cons] at fits
      refine Or.inl ⟨v,rest,c.take,rfl,empty,by rw [front],?_,unfilled,empty,rfl⟩
      refine ⟨⟨_,next⟩,⟨fun full => ?_,fun whole => by omega⟩,Or.inl empty,sound.live⟩
      rw [show c.take.full = c.full from rfl,unfilled] at full
      contradiction
  · rw [if_neg apart]
    rcases meet.1 (not_not.1 apart) with none | whole
    · have unfilled := emptyOpen sound none
      rw [if_pos unfilled]
      exact Or.inr (Or.inl ⟨List.length_eq_zero_iff.1 none,unfilled,rfl⟩)
    · have full : c.full = true := sound.full.2 whole
      rw [if_neg (by simp [full])]
      cases vals with
      | nil => simp at whole; omega
      | cons v rest =>
        obtain ⟨front,next⟩ := ringTake ring
        simp only [List.length_cons] at whole
        cases queue : c.waitQueue with
        | nil =>
          refine Or.inl ⟨v,rest,{c.take with full := false, waitQueue := []},rfl,rfl,?_,?_,rfl,rfl,rfl⟩
          · simp only [claim,front]
          · refine ⟨⟨_,next.size,next.small,next.apart,next.low,next.read,next.write,next.fits,next.holds⟩,
              ⟨fun false => by simp at false,fun again => by omega⟩,Or.inl rfl,by simp⟩
        | cons w ws =>
          have init := sound.live w (by simp [queue])
          refine Or.inr (Or.inr ⟨v,rest,w,ws,
            {c.take.put (h.block (h.ctx w).buf) with waitQueue := ws},rfl,whole,full,rfl,?_,?_,full,rfl,rfl⟩)
          · simp only [claim,init,if_true,front]
          · intro size
            have last := ringPut next (by omega) size
            exact ⟨_,last.size,last.small,last.apart,last.low,last.read,last.write,last.fits,last.holds⟩

theorem writeCases (sound : Sound cap c h vals) (raw co : Nat) (onStack : Bool) {v : Value}
    (size : v.length = c.blkSize) :
    (∃ d, c.waitQueue = [] ∧ writeSection c h raw co onStack v = (d,h,.stored) ∧ Sound cap d h (vals ++ [v]) ∧
      d.waitQueue = [] ∧ d.blkSize = c.blkSize ∧ c.full = false) ∨
    (∃ w ws, vals = [] ∧ c.full = false ∧ c.waitQueue = w::ws ∧ writeSection c h raw co onStack v =
      ({c with waitQueue := ws},h.setState w kReady,.handOff w)) ∨
    (vals.length = cap ∧ c.full = true ∧ writeSection c h raw co onStack v =
      ({c with waitQueue := c.waitQueue ++ [h.next]},
        (createWaitCtxInfo h raw co onStack).put ((createWaitCtxInfo h raw co onStack).ctx h.next).buf v,
        .suspended h.next)) := by
  obtain ⟨r,ring⟩ := sound.ring
  have positive := soundPositive sound
  have meet := ringMeet ring
  have marked := markFullQueue
  unfold writeSection
  by_cases apart : c.wx ≠ c.rx
  · rw [if_pos apart]
    obtain ⟨some,room,empty,unfilled⟩ := partlyFilled sound (Ne.symm apart)
    exact Or.inl ⟨_,empty,rfl,soundPut sound room size empty,(marked _).1.trans empty,(marked _).2,unfilled⟩
  · rw [if_neg apart]
    rcases meet.1 (not_not.1 apart).symm with none | whole
    · have unfilled := emptyOpen sound none
      rw [if_pos unfilled]
      cases queue : c.waitQueue with
      | nil =>
        have same : ({(c.put v).markFull with waitQueue := []} : ChannelImpl) = (c.put v).markFull := by
          rw [← (show (c.put v).markFull.waitQueue = [] from (marked _).1.trans queue)]
        refine Or.inl ⟨(c.put v).markFull,rfl,?_,soundPut sound (by omega) size queue,
          (marked _).1.trans queue,(marked _).2,unfilled⟩
        simp only [claim,same]
      | cons w ws =>
        have init := sound.live w (by simp [queue])
        exact Or.inr (Or.inl ⟨w,ws,List.length_eq_zero_iff.1 none,unfilled,rfl,by simp only [claim,init,if_true]⟩)
    · have full : c.full = true := sound.full.2 whole
      rw [if_neg (by simp [full])]
      exact Or.inr (Or.inr ⟨whole,full,rfl⟩)

/-- What Read's section does to the values, also when waits have expired: it takes the
oldest one, perhaps letting in a waiting writer's, or queues the caller at an empty ring. -/
theorem readHolding (holding : Holding cap c vals) (raw co : Nat) (onStack : Bool) :
    (∃ v rest d, vals = v::rest ∧ readSection c h raw co onStack = (d,h,.taken v) ∧ Holding cap d rest ∧
      d.full = false ∧ d.waitQueue = [] ∧ ∀ x ∈ c.waitQueue, (h.ctx x).state ≠ kInit) ∨
    (vals = [] ∧ c.full = false ∧ c.rx = c.wx ∧ readSection c h raw co onStack =
      ({c with waitQueue := c.waitQueue ++ [h.next]},createWaitCtxInfo h raw co onStack,.suspended h.next)) ∨
    (∃ v rest w ws, vals = v::rest ∧ c.full = true ∧ claim h c.waitQueue = (some w,ws) ∧ readSection c h raw co onStack =
      ({c.take.put (h.block (h.ctx w).buf) with waitQueue := ws},h.setState w kReady,.woke v w) ∧
      ((h.block (h.ctx w).buf).length = c.blkSize →
        Holding cap {c.take.put (h.block (h.ctx w).buf) with waitQueue := ws} (rest ++ [h.block (h.ctx w).buf]))) := by
  obtain ⟨r,ring⟩ := holding.ring
  have positive := holdingPositive holding
  have meet := ringMeet ring
  unfold readSection
  by_cases apart : c.rx ≠ c.wx
  · rw [if_pos apart]
    obtain ⟨some,room,empty,unfilled⟩ := holdingApart holding apart
    cases vals with
    | nil => simp at some
    | cons v rest =>
      obtain ⟨front,next⟩ := ringTake ring
      simp only [List.length_cons] at room
      refine Or.inl ⟨v,rest,c.take,rfl,by rw [front],⟨⟨_,next⟩,?_,Or.inl empty⟩,unfilled,empty,by simp [empty]⟩
      refine ⟨fun full => ?_,fun whole => by omega⟩
      rw [show c.take.full = c.full from rfl,unfilled] at full
      contradiction
  · rw [if_neg apart]
    rcases meet.1 (not_not.1 apart) with none | whole
    · have unfilled := holdingOpen holding none
      rw [if_pos unfilled]
      exact Or.inr (Or.inl ⟨List.length_eq_zero_iff.1 none,unfilled,not_not.1 apart,rfl⟩)
    · have full : c.full = true := holding.full.2 whole
      rw [if_neg (by simp [full])]
      cases vals with
      | nil =>
        rw [List.length_nil] at whole
        omega
      | cons v rest =>
        obtain ⟨front,next⟩ := ringTake ring
        simp only [List.length_cons] at whole
        rcases found : claim h c.waitQueue with ⟨_ | w,ws⟩
        · cases claimNone found
          refine Or.inl ⟨v,rest,{c.take with full := false, waitQueue := []},rfl,by rw [front],?_,rfl,rfl,
            claimDead found⟩
          refine ⟨⟨_,next.size,next.small,next.apart,next.low,next.read,next.write,next.fits,next.holds⟩,?_,Or.inl rfl⟩
          exact ⟨fun no => by simp at no,fun again => by omega⟩
        · refine Or.inr (Or.inr ⟨v,rest,w,ws,rfl,full,rfl,by rw [front],?_⟩)
          intro size
          have last := ringPut next (by omega) size
          refine ⟨⟨_,last.size,last.small,last.apart,last.low,last.read,last.write,last.fits,last.holds⟩,?_,?_⟩
          · exact ⟨fun _ => by simp [whole],fun _ => full⟩
          · exact Or.inr (Or.inr (by simp [whole]))

theorem writeHolding (holding : Holding cap c vals) (raw co : Nat) (onStack : Bool) {v : Value}
    (size : v.length = c.blkSize) :
    (∃ d, writeSection c h raw co onStack v = (d,h,.stored) ∧ Holding cap d (vals ++ [v]) ∧ c.full = false ∧
      d.waitQueue = [] ∧ ∀ x ∈ c.waitQueue, (h.ctx x).state ≠ kInit) ∨
    (∃ w ws, vals = [] ∧ c.full = false ∧ claim h c.waitQueue = (some w,ws) ∧ writeSection c h raw co onStack v =
      ({c with waitQueue := ws},h.setState w kReady,.handOff w)) ∨
    (vals.length = cap ∧ c.full = true ∧ writeSection c h raw co onStack v =
      ({c with waitQueue := c.waitQueue ++ [h.next]},
        (createWaitCtxInfo h raw co onStack).put ((createWaitCtxInfo h raw co onStack).ctx h.next).buf v,
        .suspended h.next)) := by
  obtain ⟨r,ring⟩ := holding.ring
  have positive := holdingPositive holding
  have meet := ringMeet ring
  unfold writeSection
  by_cases apart : c.wx ≠ c.rx
  · rw [if_pos apart]
    obtain ⟨some,room,empty,unfilled⟩ := holdingApart holding (Ne.symm apart)
    exact Or.inl ⟨_,rfl,holdingPut holding room size empty,unfilled,(markFullQueue _).1.trans empty,by simp [empty]⟩
  · rw [if_neg apart]
    rcases meet.1 (not_not.1 apart).symm with none | whole
    · have unfilled := holdingOpen holding none
      rw [if_pos unfilled]
      rcases found : claim h c.waitQueue with ⟨_ | w,ws⟩
      · cases claimNone found
        refine Or.inl ⟨_,rfl,?_,unfilled,rfl,claimDead found⟩
        -- The expired waiters are dropped before the value is stored.
        have cleared : Holding cap {c with waitQueue := []} vals :=
          ⟨⟨r,ring.size,ring.small,ring.apart,ring.low,ring.read,ring.write,ring.fits,ring.holds⟩,holding.full,Or.inl rfl⟩
        have put := holdingPut cleared (by omega) size rfl
        have same : ({(c.put v).markFull with waitQueue := []} : ChannelImpl) =
            (ChannelImpl.put {c with waitQueue := []} v).markFull := markFullClear (c.put v)
        rw [same]
        exact put
      · exact Or.inr (Or.inl ⟨w,ws,List.length_eq_zero_iff.1 none,unfilled,rfl,rfl⟩)
    · have full : c.full = true := holding.full.2 whole
      rw [if_neg (by simp [full])]
      exact Or.inr (Or.inr ⟨whole,full,rfl⟩)

end

end TitCo.Channel
