import TitCo.Channel
import TitCo.Transition

/-! The ring offsets, full_ and wait_queue_ of one channel with any ms: what holds outside
the sections under `mutex_`, for any interleaving of Reads, Writes and expiries. Neither
Read nor Write looks at the kind of a waiter that it pops. -/
namespace TitCo.ChannelRep
open Channel ByteMemory MachineInt Transition

inductive Kind where
  | read
  | write
  deriving DecidableEq, Repr

/-- `kind` says which call has pushed a wait context; `pops` are the contexts that left the
queue, by kind, each with the kind of the call that popped it. -/
structure State where
  chan : ChannelImpl
  heap : Heap
  kind : Nat → Kind
  pops : List (Kind × Kind)

def initial (memory : Memory) (cap blk ms : Nat) : State := ⟨.create memory cap blk ms,.initial,fun _ => .read,[]⟩

/-- `raw` is what malloc leaves in state_ if the call suspends. -/
inductive Event where
  | read (co raw : Nat) (onStack : Bool)
  | write (co raw : Nat) (onStack : Bool) (v : Value)
  | expire (w : Nat)
  deriving DecidableEq, Repr

def popped (before after : ChannelImpl) : List Nat :=
  before.waitQueue.take (before.waitQueue.length - after.waitQueue.length)

def State.after (s : State) (kind : Kind) (c : ChannelImpl) (h : Heap) : State where
  chan := c
  heap := h
  kind := if s.heap.next < h.next then Function.update s.kind s.heap.next kind else s.kind
  pops := s.pops ++ (popped s.chan c).map (fun w => (kind,s.kind w))

/-- `expire` is the CAS of CollectTimeoutTasks. -/
def step (s : State) : Event → Option State
  | .read co raw onStack =>
      let r := readSection s.chan s.heap raw co onStack
      some (s.after .read r.1 r.2.1)
  | .write co raw onStack v =>
      if v.length = s.chan.blkSize then
        let r := writeSection s.chan s.heap raw co onStack v
        some (s.after .write r.1 r.2.1)
      else none
  | .expire w =>
      if w < s.heap.next ∧ (s.heap.ctx w).state = kInit then some {s with heap := s.heap.setState w kTimeout} else none

def Offset (c : ChannelImpl) (x : Nat) : Prop := x % c.blkSize = 0 ∧ x < c.bufSize

def buffered (c : ChannelImpl) : Bool := c.rx ≠ c.wx || c.full
def hasRoom (c : ChannelImpl) : Bool := !c.full

structure Rep (s : State) : Prop where
  rx : Offset s.chan s.chan.rx
  wx : Offset s.chan s.chan.wx
  full : s.chan.full = true → s.chan.rx = s.chan.wx
  between : s.chan.rx ≠ s.chan.wx → s.chan.waitQueue = []
  readers : s.chan.rx = s.chan.wx → s.chan.full = false → ∀ w ∈ s.chan.waitQueue, s.kind w = .read
  writers : s.chan.full = true → ∀ w ∈ s.chan.waitQueue, s.kind w = .write
  live : ∀ w, w < s.heap.next → (s.heap.ctx w).state = kInit → w ∈ s.chan.waitQueue ∧
    (s.kind w = .read → buffered s.chan = false) ∧ (s.kind w = .write → hasRoom s.chan = false)
  peers : ∀ p ∈ s.pops, p.1 ≠ p.2

structure Shape (s : State) : Prop where
  block : 1 ≤ s.chan.blkSize
  size : s.chan.bufSize % s.chan.blkSize = 0
  small : s.chan.bufSize < 2^32
  rx : Offset s.chan s.chan.rx
  wx : Offset s.chan s.chan.wx
  full : s.chan.full = true → s.chan.rx = s.chan.wx
  between : s.chan.rx ≠ s.chan.wx → s.chan.waitQueue = []
  readers : s.chan.rx = s.chan.wx → s.chan.full = false → ∀ w ∈ s.chan.waitQueue, s.kind w = .read
  writers : s.chan.full = true → ∀ w ∈ s.chan.waitQueue, s.kind w = .write
  bound : ∀ w ∈ s.chan.waitQueue, w < s.heap.next
  init : ∀ w, w < s.heap.next → (s.heap.ctx w).state = kInit → w ∈ s.chan.waitQueue
  peers : ∀ p ∈ s.pops, p.1 ≠ p.2

section
variable {s t : State}

theorem advanceOffset {c : ChannelImpl} {x : Nat} (block : 1 ≤ c.blkSize) (size : c.bufSize % c.blkSize = 0)
    (small : c.bufSize < 2^32) (offset : Offset c x) : Offset c (c.advance x) := by
  obtain ⟨multiple,below⟩ := offset
  obtain ⟨i,rfl⟩ := Nat.dvd_of_mod_eq_zero multiple
  obtain ⟨cap,total⟩ := Nat.dvd_of_mod_eq_zero size
  rw [total] at below
  have low : i < cap := Nat.lt_of_mul_lt_mul_left below
  have next : c.blkSize * i + c.blkSize ≤ c.bufSize := by
    rw [total,← Nat.mul_succ]
    exact Nat.mul_le_mul_left _ low
  have narrow : toUint32 (c.blkSize * i + c.blkSize : Nat) = c.blkSize * i + c.blkSize :=
    toUint32Small (Nat.lt_of_le_of_lt next small)
  unfold ChannelImpl.advance
  rw [narrow]
  simp only
  split
  · exact ⟨Nat.zero_mod _,by omega⟩
  · refine ⟨?_,by omega⟩
    rw [Nat.add_mod_right,Nat.mul_mod_right]

theorem poppedInside {before after : ChannelImpl} {w : Nat} (h : w ∈ popped before after) : w ∈ before.waitQueue :=
  List.mem_of_mem_take h

theorem popShape (shape : Shape s) (kind : Kind) {c : ChannelImpl} {h : Heap} (next : h.next = s.heap.next)
    (block : c.blkSize = s.chan.blkSize) (size : c.bufSize = s.chan.bufSize) (rx : Offset s.chan c.rx)
    (wx : Offset s.chan c.wx) (full : c.full = true → c.rx = c.wx) (between : c.rx ≠ c.wx → c.waitQueue = [])
    (part : ∀ w ∈ c.waitQueue, w ∈ s.chan.waitQueue)
    (readers : c.full = false → c.waitQueue = [] ∨ (s.chan.rx = s.chan.wx ∧ s.chan.full = false))
    (writers : c.full = true → c.waitQueue = [] ∨ s.chan.full = true)
    (init : ∀ w, (h.ctx w).state = kInit → (s.heap.ctx w).state = kInit ∧ (w ∈ s.chan.waitQueue → w ∈ c.waitQueue))
    (foreign : ∀ w ∈ s.chan.waitQueue, popped s.chan c ≠ [] → s.kind w ≠ kind) : Shape (s.after kind c h) := by
  have same : (s.after kind c h).kind = s.kind := by
    simp only [State.after]
    rw [if_neg (by omega)]
  have offset : ∀ x, Offset s.chan x → Offset c x := by
    intro x hx
    rw [Offset,block,size]
    exact hx
  refine ⟨?_,?_,?_,offset _ rx,offset _ wx,full,between,?_,?_,?_,?_,?_⟩
  · change 1 ≤ c.blkSize
    rw [block]
    exact shape.block
  · change c.bufSize % c.blkSize = 0
    rw [block,size]
    exact shape.size
  · change c.bufSize < 2^32
    rw [size]
    exact shape.small
  · intro _ partly w hw
    rw [same]
    rcases readers partly with none | ⟨met,empty⟩
    · change w ∈ c.waitQueue at hw
      rw [none] at hw
      contradiction
    · exact shape.readers met empty w (part w hw)
  · intro filled w hw
    rw [same]
    rcases writers filled with none | still
    · change w ∈ c.waitQueue at hw
      rw [none] at hw
      contradiction
    · exact shape.writers still w (part w hw)
  · intro w hw
    change w < h.next
    rw [next]
    exact shape.bound w (part w hw)
  · intro w less state
    have low : w < s.heap.next := by
      rw [← next]
      exact less
    obtain ⟨before,kept⟩ := init w state
    exact kept (shape.init w low before)
  · intro p hp
    rcases List.mem_append.1 hp with old | new
    · exact shape.peers p old
    · obtain ⟨w,hw,rfl⟩ := List.mem_map.1 new
      have some : popped s.chan c ≠ [] := List.ne_nil_of_mem hw
      exact (foreign w (poppedInside hw) some).symm

theorem pushShape (shape : Shape s) (kind : Kind) {h : Heap} (next : h.next = s.heap.next+1)
    (old : ∀ w, w < s.heap.next → h.ctx w = s.heap.ctx w) (met : s.chan.rx = s.chan.wx)
    (readers : s.chan.full = false → kind = .read) (writers : s.chan.full = true → kind = .write) :
    Shape (s.after kind {s.chan with waitQueue := s.chan.waitQueue ++ [s.heap.next]} h) := by
  have kinds : ∀ w ∈ s.chan.waitQueue ++ [s.heap.next], (∀ x ∈ s.chan.waitQueue, s.kind x = kind) →
      (s.after kind {s.chan with waitQueue := s.chan.waitQueue ++ [s.heap.next]} h).kind w = kind := by
    intro w hw all
    simp only [State.after]
    rw [if_pos (by omega)]
    by_cases last : w = s.heap.next
    · rw [last,Function.update_self]
    · rw [Function.update_of_ne last]
      rcases List.mem_append.1 hw with before | here
      · exact all w before
      · exact absurd (List.mem_singleton.1 here) last
  refine ⟨shape.block,shape.size,shape.small,shape.rx,shape.wx,shape.full,fun differ => absurd met differ,?_,?_,?_,?_,?_⟩
  · intro _ empty w hw
    have mine := readers empty
    subst kind
    exact kinds w hw (shape.readers met empty)
  · intro filled w hw
    have mine := writers filled
    subst kind
    exact kinds w hw (shape.writers filled)
  · intro w hw
    change w < h.next
    rw [next]
    rcases List.mem_append.1 hw with before | here
    · exact Nat.lt_succ_of_lt (shape.bound w before)
    · cases List.mem_singleton.1 here
      exact Nat.lt_succ_self _
  · intro w less state
    change w < h.next at less
    change w ∈ s.chan.waitQueue ++ [s.heap.next]
    by_cases last : w = s.heap.next
    · simp [last]
    · have low : w < s.heap.next := by omega
      have before : (s.heap.ctx w).state = kInit := by
        rw [← old w low]
        exact state
      exact List.mem_append_left _ (shape.init w low before)
  · intro p hp
    have none : popped s.chan {s.chan with waitQueue := s.chan.waitQueue ++ [s.heap.next]} = [] := by
      simp [popped]
    simp only [State.after,none,List.map_nil,List.append_nil] at hp
    exact shape.peers p hp

theorem setStateKept {h : Heap} {w st : Nat} {queue rest : List Nat} (found : claim h queue = (some w,rest))
    (claimed : st ≠ kInit) : ∀ x, ((h.setState w st).ctx x).state = kInit →
      (h.ctx x).state = kInit ∧ (x ∈ queue → x ∈ rest) := by
  intro x after
  obtain ⟨differ,state⟩ := setStateInit claimed after
  refine ⟨state,?_⟩
  intro inside
  rcases claimSource h queue with ⟨skipped,y,left,split,result,_,lost⟩ | ⟨result,_⟩
  · cases result.symm.trans found
    rw [split] at inside
    rcases List.mem_append.1 inside with passed | later
    · exact absurd state (lost x passed)
    · rcases List.mem_cons.1 later with same | behind
      · exact absurd same differ
      · exact behind
  · cases result.symm.trans found

theorem readShape (shape : Shape s) (co raw : Nat) (onStack : Bool) :
    Shape (s.after .read (readSection s.chan s.heap raw co onStack).1 (readSection s.chan s.heap raw co onStack).2.1) := by
  have forward : ∀ x, Offset s.chan x → Offset s.chan (s.chan.advance x) :=
    fun _ => advanceOffset shape.block shape.size shape.small
  unfold readSection
  split
  · rename_i differ
    have none := shape.between differ
    have partly : s.chan.full = false := by
      by_contra filled
      exact differ (shape.full (by simpa using filled))
    refine popShape shape .read rfl rfl rfl (forward _ shape.rx) shape.wx ?_ (fun _ => none) (fun _ hw => hw)
      (fun _ => Or.inl none) (fun _ => Or.inl none) (fun _ state => ⟨state,id⟩) ?_
    · intro filled
      simp [ChannelImpl.take,partly] at filled
    · intro w hw
      rw [none] at hw
      contradiction
  · rename_i met
    have met : s.chan.rx = s.chan.wx := by simpa using met
    split
    · rename_i empty
      exact pushShape shape .read rfl (fun w less => Function.update_of_ne (by omega) _ _) met (fun _ => rfl)
        (by simp [empty])
    · rename_i filled
      have filled : s.chan.full = true := by simpa using filled
      split
      · rename_i w rest found
        obtain ⟨_,_,part⟩ := claimSome found
        have both : s.chan.advance s.chan.rx = s.chan.advance s.chan.wx := by rw [met]
        refine popShape shape .read rfl rfl rfl (forward _ shape.rx) (forward _ shape.wx) (fun _ => both)
          (fun differ => absurd both differ) part ?_ (fun _ => Or.inr filled) (setStateKept found (by decide)) ?_
        · intro emptied
          simp [ChannelImpl.take,ChannelImpl.put,filled] at emptied
        · intro x hx _
          rw [shape.writers filled x hx]
          simp
      · rename_i rest found
        cases claimNone found
        refine popShape shape .read rfl rfl rfl (forward _ shape.rx) shape.wx (by simp) (fun _ => rfl) (by simp)
          (fun _ => Or.inl rfl) (by simp) ?_ ?_
        · intro x state
          exact ⟨state,fun inside => absurd state (claimDead found x inside)⟩
        · intro x hx _
          rw [shape.writers filled x hx]
          simp

theorem writeShape (shape : Shape s) (co raw : Nat) (onStack : Bool) (v : Value) :
    Shape (s.after .write (writeSection s.chan s.heap raw co onStack v).1
      (writeSection s.chan s.heap raw co onStack v).2.1) := by
  have forward : ∀ x, Offset s.chan x → Offset s.chan (s.chan.advance x) :=
    fun _ => advanceOffset shape.block shape.size shape.small
  have marked : ((s.chan.put v).markFull.full = true → (s.chan.put v).markFull.rx = (s.chan.put v).markFull.wx ∨
      s.chan.full = true) ∧ (s.chan.put v).markFull.rx = s.chan.rx ∧
      (s.chan.put v).markFull.wx = s.chan.advance s.chan.wx ∧ (s.chan.put v).markFull.waitQueue = s.chan.waitQueue ∧
      (s.chan.put v).markFull.blkSize = s.chan.blkSize ∧ (s.chan.put v).markFull.bufSize = s.chan.bufSize := by
    unfold ChannelImpl.markFull
    split
    · rename_i same
      exact ⟨fun _ => Or.inl same.symm,rfl,rfl,rfl,rfl,rfl⟩
    · exact ⟨fun filled => Or.inr filled,rfl,rfl,rfl,rfl,rfl⟩
  obtain ⟨full,rx,wx,queue,block,size⟩ := marked
  unfold writeSection
  split
  · rename_i differ
    have none := shape.between (Ne.symm differ)
    have partly : s.chan.full ≠ true := fun filled => differ (shape.full filled).symm
    refine popShape shape .write rfl block size (by rw [rx]; exact shape.rx) (by rw [wx]; exact forward _ shape.wx) ?_
      (fun _ => queue.trans none) (by rw [queue]; exact fun _ hw => hw) (fun _ => Or.inl (queue.trans none))
      (fun _ => Or.inl (queue.trans none)) ?_ ?_
    · intro filled
      exact (full filled).resolve_right partly
    · intro x state
      exact ⟨state,by rw [queue]; exact id⟩
    · intro w hw
      rw [none] at hw
      contradiction
  · rename_i met
    have met : s.chan.rx = s.chan.wx := by simpa [eq_comm] using met
    split
    · rename_i empty
      split
      · rename_i w rest found
        obtain ⟨_,_,part⟩ := claimSome found
        refine popShape shape .write rfl rfl rfl shape.rx shape.wx shape.full (fun differ => absurd met differ) part
          (fun _ => Or.inr ⟨met,empty⟩) (by simp [empty]) (setStateKept found (by decide)) ?_
        intro x hx _
        rw [shape.readers met empty x hx]
        simp
      · rename_i rest found
        cases claimNone found
        refine popShape shape .write rfl block size (by rw [rx]; exact shape.rx) (by rw [wx]; exact forward _ shape.wx) ?_
          (fun _ => rfl) (by simp) (fun _ => Or.inl rfl) (fun _ => Or.inl rfl) ?_ ?_
        · intro filled
          exact (full filled).resolve_right (by simp [empty])
        · intro x state
          exact ⟨state,fun inside => absurd state (claimDead found x inside)⟩
        · intro x hx _
          rw [shape.readers met empty x hx]
          simp
    · rename_i filled
      have filled : s.chan.full = true := by simpa using filled
      refine pushShape shape .write rfl ?_ met (by simp [filled]) (fun _ => rfl)
      intro w less
      exact createOther (by omega) _ _ _

theorem expireShape (shape : Shape s) (w : Nat) : Shape {s with heap := s.heap.setState w kTimeout} := by
  refine ⟨shape.block,shape.size,shape.small,shape.rx,shape.wx,shape.full,shape.between,shape.readers,shape.writers,
    shape.bound,?_,shape.peers⟩
  intro x less state
  exact shape.init x less (setStateInit (by decide) state).2

theorem stepShape {e : Event} (shape : Shape s) (h : step s e = some t) : Shape t := by
  cases e with
  | read co raw onStack =>
    cases Option.some.inj h
    exact readShape shape co raw onStack
  | write co raw onStack v =>
    simp only [step] at h
    split at h <;> try contradiction
    cases Option.some.inj h
    exact writeShape shape co raw onStack v
  | expire w =>
    simp only [step] at h
    split at h <;> try contradiction
    cases Option.some.inj h
    exact expireShape shape w

theorem shapeRep (shape : Shape s) : Rep s := by
  refine ⟨shape.rx,shape.wx,shape.full,shape.between,shape.readers,shape.writers,?_,shape.peers⟩
  intro w less state
  have inside := shape.init w less state
  have met : s.chan.rx = s.chan.wx := by
    by_contra differ
    rw [shape.between differ] at inside
    contradiction
  refine ⟨inside,?_,?_⟩
  · intro reads
    cases filled : s.chan.full with
    | false => simp [buffered,met,filled]
    | true =>
      rw [shape.writers filled w inside] at reads
      contradiction
  · intro writes
    cases filled : s.chan.full with
    | false =>
      rw [shape.readers met filled w inside] at writes
      contradiction
    | true => simp [hasRoom,filled]

end

/-- The representation invariant, for every interleaving and whatever malloc returns. -/
theorem channelRep (memory : Memory) (cap blk ms : Nat) (positive : 1 ≤ cap) (block : 1 ≤ blk)
    (small : cap * blk < 2^32) (es : List Event) (s : State)
    (reached : run step (initial memory cap blk ms) es = some s) :
    Rep s := by
  have size : toUint32 (cap * blk : Nat) = cap * blk := toUint32Small small
  have room : 0 < cap * blk := Nat.mul_pos positive block
  have start : Shape (initial memory cap blk ms) := by
    refine ⟨block,?_,?_,⟨Nat.zero_mod _,?_⟩,⟨Nat.zero_mod _,?_⟩,fun _ => rfl,fun _ => rfl,?_,?_,?_,?_,?_⟩
    · change toUint32 (cap * blk : Nat) % blk = 0
      rw [size,Nat.mul_mod_left]
    · change toUint32 (cap * blk : Nat) < 2^32
      rw [size]
      exact small
    · change 0 < toUint32 (cap * blk : Nat)
      rw [size]
      exact room
    · change 0 < toUint32 (cap * blk : Nat)
      rw [size]
      exact room
    all_goals simp [initial,ChannelImpl.create,Heap.initial]
  exact shapeRep (runInvariant (fun _ _ _ shape h => stepShape shape h) reached start)

theorem expiredReaderRep : ∃ s, run step (initial (fun _ => 0) 1 1 10)
    [.read 1 kInit true,.expire 0,.write 2 kInit true [7],.write 3 kInit true [8]] = some s ∧
    s.pops = [(.write,.read)] ∧ s.chan.waitQueue = [1] ∧ Rep s := by
  refine ⟨_,rfl,rfl,rfl,channelRep (fun _ => 0) 1 1 10 (by decide) (by decide) (by decide) [.read 1 kInit true,.expire 0,
    .write 2 kInit true [7],.write 3 kInit true [8]] _ rfl⟩

/-- The first call of the other kind ends the wait `w`. -/
def Completes (s : State) (w : Nat) : Kind → Prop
  | .read => ∀ co raw onStack v, (writeSection s.chan s.heap raw co onStack v).2.2 = .handOff w
  | .write => ∀ co raw onStack, ∃ v, (readSection s.chan s.heap raw co onStack).2.2 = .woke v w

def opens (co raw : Nat) (onStack : Bool) (v : Value) : Kind → Event
  | .read => .read co raw onStack
  | .write => .write co raw onStack v

def Quiet (kind : Kind) (w : Nat) : Event → Prop
  | .read _ _ _ => kind = .read
  | .write _ _ _ _ => kind = .write
  | .expire x => x ≠ w

/-- Reads find the channel empty and Writes find it full. -/
structure Blocks (kind : Kind) (c : ChannelImpl) : Prop where
  met : c.rx = c.wx
  full : c.full = true ↔ kind = .write

/- `w` has its place behind `ahead`, with the state that it was made with. -/
structure Waits (kind : Kind) (raw w : Nat) (ahead : List Nat) (s : State) : Prop where
  blocks : Blocks kind s.chan
  queue : ∃ behind, s.chan.waitQueue = ahead ++ w::behind
  state : (s.heap.ctx w).state = raw
  low : w < s.heap.next

section
variable {s t u : State} {kind : Kind}

theorem readBlocked (blocks : Blocks .read s.chan) (co raw : Nat) (onStack : Bool) :
    readSection s.chan s.heap raw co onStack =
      ({s.chan with waitQueue := s.chan.waitQueue ++ [s.heap.next]},createWaitCtxInfo s.heap raw co onStack,
        .suspended s.heap.next) := by
  have empty : s.chan.full = false := by
    cases filled : s.chan.full with
    | false => rfl
    | true => cases blocks.full.1 filled
  unfold readSection
  rw [if_neg (by simp [blocks.met]),if_pos empty]

theorem writeBlocked (blocks : Blocks .write s.chan) (co raw : Nat) (onStack : Bool) (v : Value) :
    ∃ h, writeSection s.chan s.heap raw co onStack v =
        ({s.chan with waitQueue := s.chan.waitQueue ++ [s.heap.next]},h,.suspended s.heap.next) ∧
      h.ctx = (createWaitCtxInfo s.heap raw co onStack).ctx ∧ h.next = s.heap.next+1 := by
  have filled := blocks.full.2 rfl
  unfold writeSection
  rw [if_neg (by simp [blocks.met]),if_neg (by simp [filled])]
  exact ⟨_,rfl,rfl,rfl⟩

theorem opened {co raw : Nat} {onStack : Bool} {v : Value} (blocks : Blocks kind s.chan)
    (h : step s (opens co raw onStack v kind) = some t) :
    t.chan = {s.chan with waitQueue := s.chan.waitQueue ++ [s.heap.next]} ∧ t.heap.next = s.heap.next+1 ∧
      t.heap.ctx = (createWaitCtxInfo s.heap raw co onStack).ctx := by
  cases kind with
  | read =>
    cases Option.some.inj h
    simp [State.after,readBlocked blocks,createWaitCtxInfo]
  | write =>
    simp only [opens,step] at h
    split at h <;> try contradiction
    cases Option.some.inj h
    obtain ⟨k,result,ctx,next⟩ := writeBlocked blocks co raw onStack v
    simp [State.after,result,next,ctx]

theorem waitsPush {co raw w fresh : Nat} {onStack : Bool} {v : Value} {ahead : List Nat}
    (waits : Waits kind raw w ahead s) (h : step s (opens co fresh onStack v kind) = some t) :
    Waits kind raw w ahead t := by
  obtain ⟨chan,next,ctx⟩ := opened waits.blocks h
  obtain ⟨behind,queue⟩ := waits.queue
  refine ⟨?_,⟨behind ++ [s.heap.next],?_⟩,?_,?_⟩
  · rw [chan]
    exact ⟨waits.blocks.met,waits.blocks.full⟩
  · rw [chan]
    simp [queue]
  · have differ : w ≠ s.heap.next := Nat.ne_of_lt waits.low
    rw [ctx]
    simp only [createWaitCtxInfo,Function.update_of_ne differ]
    exact waits.state
  · rw [next]
    exact Nat.lt_succ_of_lt waits.low

theorem waitsStep {raw w : Nat} {ahead : List Nat} {e : Event} (waits : Waits kind raw w ahead s)
    (quiet : Quiet kind w e) (h : step s e = some t) : Waits kind raw w ahead t := by
  cases e with
  | read co fresh onStack =>
    cases quiet
    exact waitsPush (v := []) waits h
  | write co fresh onStack v =>
    cases quiet
    exact waitsPush waits h
  | expire x =>
    simp only [step] at h
    split at h <;> try contradiction
    cases Option.some.inj h
    refine ⟨waits.blocks,waits.queue,?_,waits.low⟩
    simp only [setStateOther (Ne.symm quiet)]
    exact waits.state

theorem waitsRun {raw w : Nat} {ahead : List Nat} {es : List Event} (waits : Waits kind raw w ahead s)
    (quiet : ∀ e ∈ es, Quiet kind w e) (h : run step s es = some t) : Waits kind raw w ahead t := by
  induction es generalizing s with
  | nil =>
    cases Option.some.inj h
    exact waits
  | cons e es ih =>
    obtain ⟨m,first,rest⟩ := runCons h
    exact ih (waitsStep waits (quiet e (by simp)) first) (fun x hx => quiet x (by simp [hx])) rest

theorem claimAhead {h : Heap} {w : Nat} {ahead behind : List Nat} (dead : ∀ x ∈ ahead, (h.ctx x).state ≠ kInit)
    (live : (h.ctx w).state = kInit) : claim h (ahead ++ w::behind) = (some w,behind) := by
  induction ahead with
  | nil => simp [claim,live]
  | cons x ahead ih =>
    rw [List.cons_append,claim,if_neg (dead x (by simp))]
    exact ih (fun y hy => dead y (by simp [hy]))

theorem waitsCompletes {w : Nat} {ahead : List Nat} (waits : Waits kind kInit w ahead s)
    (dead : ∀ x ∈ ahead, (s.heap.ctx x).state ≠ kInit) : Completes s w kind := by
  obtain ⟨behind,queue⟩ := waits.queue
  have found : claim s.heap (ahead ++ w::behind) = (some w,behind) := claimAhead dead waits.state
  cases kind with
  | read =>
    intro co raw onStack v
    have empty : ¬ s.chan.full = true := fun filled => by cases waits.blocks.full.1 filled
    have apart : ¬ s.chan.wx ≠ s.chan.rx := by simp [waits.blocks.met]
    simp only [writeSection,if_neg apart,queue,found]
    simp [empty]
  | write =>
    intro co raw onStack
    have filled : s.chan.full = true := waits.blocks.full.2 rfl
    have apart : ¬ s.chan.rx ≠ s.chan.wx := by simp [waits.blocks.met]
    simp only [readSection,if_neg apart,queue,found]
    simp [filled]

/-- A call has suspended, calls of its kind may follow and other waits expire. It is in
kInit, and the first call of the other kind ends it when nobody live is ahead, exactly
when malloc has left kInit in state_. -/
theorem waiterReachable (kind : Kind) (s t u : State) (co raw : Nat) (onStack : Bool) (v : Value) (es : List Event)
    (blocks : Blocks kind s.chan)
    (suspended : step s (opens co raw onStack v kind) = some t) (quiet : ∀ e ∈ es, Quiet kind s.heap.next e)
    (waited : run step t es = some u) (dead : ∀ x ∈ s.chan.waitQueue, (u.heap.ctx x).state ≠ kInit) :
    ((u.heap.ctx s.heap.next).state = kInit ∧ Completes u s.heap.next kind) ↔ raw = kInit := by
  have first : Waits kind raw s.heap.next s.chan.waitQueue t := by
    obtain ⟨chan,next,ctx⟩ := opened blocks suspended
    refine ⟨?_,⟨[],?_⟩,?_,?_⟩
    · rw [chan]
      exact ⟨blocks.met,blocks.full⟩
    · rw [chan]
    · rw [ctx]
      simp [createWaitCtxInfo]
    · rw [next]
      exact Nat.lt_succ_self _
  have last := waitsRun first quiet waited
  constructor
  · rintro ⟨init,_⟩
    exact last.state.symm.trans init
  · rintro rfl
    exact ⟨last.state,waitsCompletes last dead⟩

end

theorem firstReaderReachable : ∃ t u, step (initial (fun _ => 0) 1 1 10) (.read 1 kInit true) = some t ∧
    run step t [.read 2 kInit true,.expire 1] = some u ∧ Completes u 0 .read := by
  have reachable := (waiterReachable .read (initial (fun _ => 0) 1 1 10) _ _ 1 kInit true [] [.read 2 kInit true,.expire 1]
    ⟨rfl,by decide⟩ rfl (by simp [Quiet,initial,Heap.initial]) rfl (by simp [initial,ChannelImpl.create])).2 rfl
  exact ⟨_,_,rfl,rfl,reachable.2⟩

/-- A byte other than kInit in the memory that malloc returns, and the Write passes the
reader over. -/
theorem staleByteSkipped : ¬ ∀ (kind : Kind) (s t u : State) (co raw : Nat) (onStack : Bool) (v : Value)
    (es : List Event), Blocks kind s.chan → step s (opens co raw onStack v kind) = some t →
    (∀ e ∈ es, Quiet kind s.heap.next e) → run step t es = some u →
    (∀ x ∈ s.chan.waitQueue, (u.heap.ctx x).state ≠ kInit) →
    (u.heap.ctx s.heap.next).state = kInit ∧ Completes u s.heap.next kind := by
  intro claim
  have init : kTimeout = kInit := (claim .read (initial (fun _ => 0) 1 1 10) _ _ 1 kTimeout true [] []
    ⟨rfl,by decide⟩ rfl (by simp) rfl (by simp [initial,ChannelImpl.create])).1
  contradiction

end TitCo.ChannelRep
