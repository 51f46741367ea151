import TitCo.Channel
import TitCo.Queue
import TitCo.Transition

/-! One channel without timeouts (ms = -1) under any number of coroutines on any
schedulers. A section under `mutex_` is one step; the memcpy and the AddReadyTask after
UnLock and the resumption of a suspended caller are later steps of their own. -/
namespace TitCo.ChannelFifo
open ByteMemory Channel MachineInt Queue RingBuffer Transition

/-- `reading` and `writing` are suspended callers with their wait context. `handing` has
claimed a reader and not copied yet, `waking` has AddReadyTask to do; a Read that lets
a writer in already has its own result. -/
inductive Status where
  | idle
  | reading (w ticket : Nat)
  | writing (w : Nat)
  | handing (w : Nat) (v : Value)
  | waking (w : Nat) (result : Option (Nat × Value))
  deriving DecidableEq, Repr

def Status.sleeps : Status → Option Nat
  | .reading w _ => some w
  | .writing w => some w
  | _ => none

def Status.carries : Status → Option Nat
  | .handing w _ => some w
  | .waking w _ => some w
  | _ => none

def Status.ticket : Status → Option Nat
  | .reading _ k => some k
  | .waking _ (some r) => some r.1
  | _ => none

/- `writes` are the values of the Writes and `reads` the number of the Reads that have
taken `mutex_`, in that order; `readDone` are the Reads that have returned. `ready`
joins the ready lists of all schedulers. -/
structure State where
  chan : ChannelImpl
  heap : Heap
  status : Nat → Status
  ready : List Nat
  writes : List Value
  reads : Nat
  readDone : List (Nat × Value)

def initial (raw : Memory) (cap blk : Nat) : State :=
  ⟨.create raw cap blk uint32Max,.initial,fun _ => .idle,[],[],0,[]⟩

inductive Event where
  | read (co : Nat) (onStack : Bool)
  | write (co : Nat) (onStack : Bool) (v : Value)
  | copy (co : Nat)
  | addReadyTask (co : Nat)
  | resume (co : Nat)
  deriving DecidableEq, Repr

def State.afterRead (s : State) (co : Nat) : ChannelImpl × Heap × ReadOutcome → State
  | (c,h,.taken v) =>
      {s with chan := c, heap := h, reads := s.reads+1, readDone := s.readDone ++ [(s.reads,v)]}
  | (c,h,.woke v w) =>
      {s with
        chan := c, heap := h, reads := s.reads+1
        status := Function.update s.status co (.waking w (some (s.reads,v)))}
  | (c,h,.suspended w) =>
      {s with
        chan := c, heap := h, reads := s.reads+1
        status := Function.update s.status co (.reading w s.reads)}

def State.afterWrite (s : State) (co : Nat) (v : Value) : ChannelImpl × Heap × WriteOutcome → State
  | (c,h,.stored) => {s with chan := c, heap := h, writes := s.writes ++ [v]}
  | (c,h,.handOff w) =>
      {s with
        chan := c, heap := h, writes := s.writes ++ [v]
        status := Function.update s.status co (.handing w v)}
  | (c,h,.suspended w) =>
      {s with
        chan := c, heap := h, writes := s.writes ++ [v]
        status := Function.update s.status co (.writing w)}

def State.copied (s : State) (co w : Nat) (v : Value) : State :=
  {s with
    heap := s.heap.put (s.heap.ctx w).buf v
    status := Function.update s.status co (.waking w none)}

def State.readied (s : State) (co w : Nat) (result : Option (Nat × Value)) : State :=
  {s with
    status := Function.update s.status co .idle
    ready := s.ready ++ [(s.heap.ctx w).co]
    readDone := s.readDone ++ result.toList}

def State.resumed (s : State) (co : Nat) (result : Option (Nat × Value)) : State :=
  {s with
    status := Function.update s.status co .idle
    ready := s.ready.erase co
    readDone := s.readDone ++ result.toList}

def step (s : State) : Event → Option State
  | .read co onStack =>
      if s.status co = .idle then some (s.afterRead co (readSection s.chan s.heap kInit co onStack)) else none
  | .write co onStack v =>
      if s.status co = .idle ∧ v.length = s.chan.blkSize then
        some (s.afterWrite co v (writeSection s.chan s.heap kInit co onStack v))
      else none
  | .copy co =>
      match s.status co with
      | .handing w v => some (s.copied co w v)
      | _ => none
  | .addReadyTask co =>
      match s.status co with
      | .waking w result => some (s.readied co w result)
      | _ => none
  | .resume co =>
      if co ∈ s.ready then
        match s.status co with
        | .reading w k => some (s.resumed co (some (k,s.heap.block (s.heap.ctx w).buf)))
        | .writing _ => some (s.resumed co none)
        | _ => none
      else none

/-- The values in the ring, oldest first, read off the offsets. -/
def contents (cap : Nat) (c : ChannelImpl) : List Value :=
  let r := c.rx / c.blkSize
  let n := if c.full then cap else (c.wx / c.blkSize + cap - r) % cap
  (List.range n).map (fun i => load c.buf (slot cap c.blkSize r i) c.blkSize)

def State.queued (s : State) : List Value :=
  if s.chan.full then s.chan.waitQueue.map (fun w => s.heap.block (s.heap.ctx w).buf) else []

/-- The k-th Read returns the value of the k-th Write and nothing else; each Read returns
once; a Read whose Write has come has its value on the way; what no Read has asked for
is in the ring and, behind it, with the waiting writers. -/
structure Fifo (cap : Nat) (s : State) : Prop where
  matched : ∀ k v, (k,v) ∈ s.readDone → s.writes[k]? = some v
  once : (s.readDone.map Prod.fst).Nodup
  accounted : ∀ k, k < s.reads → (∃ v, (k,v) ∈ s.readDone) ∨ ∃ co, (s.status co).ticket = some k
  arriving : ∀ co w k, s.status co = .reading w k → k < s.writes.length →
    (∃ d v, s.status d = .handing w v ∧ s.writes[k]? = some v) ∨
    (s.writes[k]? = some (s.heap.block (s.heap.ctx w).buf) ∧
      ((∃ d r, s.status d = .waking w r) ∨ co ∈ s.ready))
  kept : contents cap s.chan ++ s.queued = s.writes.drop s.reads

inductive Stage where
  | queued
  | flying (peer : Nat)
  | ready
  | gone
  deriving DecidableEq, Repr

structure Tokens (stage : Nat → Stage) (h : Heap) (queue : List Nat) (status : Nat → Status)
    (ready : List Nat) : Prop where
  made : ∀ co w, (status co).sleeps = some w →
    w < h.next ∧ (h.ctx w).co = co ∧ ((h.ctx w).buf = .priv w ∨ (h.ctx w).buf = .own co)
  queueNodup : queue.Nodup
  waiting : ∀ w ∈ queue, stage w = .queued ∧ (status (h.ctx w).co).sleeps = some w
  flight : ∀ d w, (status d).carries = some w → stage w = .flying d ∧ (status (h.ctx w).co).sleeps = some w
  readyNodup : ready.Nodup
  due : ∀ co ∈ ready, ∃ w, (status co).sleeps = some w ∧ stage w = .ready
  placed : ∀ co w, (status co).sleeps = some w →
    (stage w = .queued ∧ w ∈ queue) ∨ (∃ d, stage w = .flying d ∧ (status d).carries = some w) ∨
    (stage w = .ready ∧ co ∈ ready)

/- What a claimed waiter will find when it is resumed. -/
def Settled (s : State) (w : Nat) : Prop :=
  s.status (s.heap.ctx w).co = .writing w ∨
  ∃ k, s.status (s.heap.ctx w).co = .reading w k ∧ s.writes[k]? = some (s.heap.block (s.heap.ctx w).buf)

structure Values (s : State) : Prop where
  handed : ∀ d w v, s.status d = .handing w v →
    ∃ k, s.status (s.heap.ctx w).co = .reading w k ∧ s.writes[k]? = some v
  woken : ∀ d w r, s.status d = .waking w r → Settled s w
  readied : ∀ co w, co ∈ s.ready → (s.status co).sleeps = some w → Settled s w
  result : ∀ d w k v, s.status d = .waking w (some (k,v)) → s.writes[k]? = some v

inductive Place where
  | returned
  | held (co : Nat)
  deriving DecidableEq, Repr

structure Tickets (place : Nat → Place) (s : State) : Prop where
  held : ∀ co k, (s.status co).ticket = some k → k < s.reads ∧ place k = .held co
  matched : ∀ k v, (k,v) ∈ s.readDone → k < s.reads ∧ place k = .returned ∧ s.writes[k]? = some v
  once : (s.readDone.map Prod.fst).Nodup
  returned : ∀ k, k < s.reads → place k = .returned → ∃ v, (k,v) ∈ s.readDone
  holder : ∀ k co, k < s.reads → place k = .held co → (s.status co).ticket = some k

structure Accounts (cap : Nat) (vals : List Value) (s : State) : Prop where
  sound : Sound cap s.chan s.heap vals
  kept : vals ++ s.queued = s.writes.drop s.reads
  behind : s.chan.full = true → s.reads + vals.length + s.chan.waitQueue.length = s.writes.length
  ahead : s.chan.full = false → s.reads + vals.length = s.writes.length + s.chan.waitQueue.length
  readers : s.chan.full = false → ∀ i w, s.chan.waitQueue[i]? = some w →
    s.status (s.heap.ctx w).co = .reading w (s.writes.length + i)
  writers : s.chan.full = true → ∀ w ∈ s.chan.waitQueue,
    s.status (s.heap.ctx w).co = .writing w ∧ (s.heap.block (s.heap.ctx w).buf).length = s.chan.blkSize

def Inv (cap : Nat) (s : State) : Prop :=
  ∃ vals stage place, Accounts cap vals s ∧ Tokens stage s.heap s.chan.waitQueue s.status s.ready ∧
    Values s ∧ Tickets place s

section Tokens
variable {stage : Nat → Stage} {h k : Heap} {queue ws : List Nat} {status : Nat → Status} {ready : List Nat}

-- `field` is the wait a status sleeps in, or the one it carries.
theorem keptField {field : Status → Option Nat} {co d x : Nat} {st : Status} (empty : field st = none)
    (found : field (Function.update status co st d) = some x) : d ≠ co ∧ field (status d) = some x := by
  have mine : d ≠ co := by
    rintro rfl
    rw [Function.update_self,empty] at found
    contradiction
  rw [Function.update_of_ne mine] at found
  exact ⟨mine,found⟩

theorem apartField {field : Status → Option Nat} {co d x : Nat} (empty : field (status co) = none)
    (found : field (status d) = some x) : d ≠ co := by
  rintro rfl
  rw [empty] at found
  contradiction

theorem tokensSuspend (tokens : Tokens stage h queue status ready) {co : Nat} {st : Status}
    (idle : status co = .idle) (sleeps : st.sleeps = some h.next) (carries : st.carries = none)
    (next : k.next = h.next+1) (old : ∀ w, w < h.next → k.ctx w = h.ctx w)
    (owner : (k.ctx h.next).co = co) (buf : (k.ctx h.next).buf = .priv h.next ∨ (k.ctx h.next).buf = .own co) :
    Tokens (Function.update stage h.next .queued) k (queue ++ [h.next]) (Function.update status co st) ready := by
  have awake : (status co).sleeps = none := by rw [idle]; rfl
  have below : ∀ d w, (status d).sleeps = some w → w < h.next ∧ d ≠ co := by
    intro d w hw
    exact ⟨(tokens.made d w hw).1,apartField awake hw⟩
  have same : ∀ w, w < h.next → Function.update stage h.next .queued w = stage w :=
    fun w less => Function.update_of_ne (by omega) _ _
  have other : ∀ d, d ≠ co → Function.update status co st d = status d :=
    fun d differ => Function.update_of_ne differ _ _
  have waits : ∀ w ∈ queue, w < h.next := fun w hw => (below _ w (tokens.waiting w hw).2).1
  refine ⟨?_,?_,?_,?_,tokens.readyNodup,?_,?_⟩
  · intro d w hw
    by_cases mine : d = co
    · subst d
      rw [Function.update_self,sleeps] at hw
      cases Option.some.inj hw
      exact ⟨by omega,owner,buf⟩
    · rw [other d mine] at hw
      obtain ⟨less,rest⟩ := tokens.made d w hw
      rw [old w less]
      exact ⟨by omega,rest⟩
  · refine nodupPush tokens.queueNodup ?_
    intro hw
    have less := waits _ hw
    omega
  · refine allPush (fun w inside => ?_) ?_
    · have less := waits w inside
      obtain ⟨place,asleep⟩ := tokens.waiting w inside
      rw [same w less,old w less,other _ (below _ w asleep).2]
      exact ⟨place,asleep⟩
    · rw [Function.update_self,owner,Function.update_self]
      exact ⟨rfl,sleeps⟩
  · intro d w hw
    obtain ⟨place,asleep⟩ := tokens.flight d w (keptField carries hw).2
    have less := (below _ w asleep).1
    rw [same w less,old w less,other _ (below _ w asleep).2]
    exact ⟨place,asleep⟩
  · intro d hd
    obtain ⟨w,asleep,place⟩ := tokens.due d hd
    obtain ⟨less,differ⟩ := below d w asleep
    exact ⟨w,by rw [other d differ]; exact asleep,by rw [same w less]; exact place⟩
  · intro d w hw
    by_cases mine : d = co
    · subst d
      rw [Function.update_self,sleeps] at hw
      cases Option.some.inj hw
      exact Or.inl ⟨Function.update_self ..,by simp⟩
    · rw [other d mine] at hw
      rw [same w (below d w hw).1]
      rcases tokens.placed d w hw with ⟨place,inside⟩ | ⟨e,place,carried⟩ | last
      · exact Or.inl ⟨place,by simp [inside]⟩
      · have differ : e ≠ co := by
          rintro rfl
          rw [idle] at carried
          contradiction
        exact Or.inr (Or.inl ⟨e,place,by rw [other e differ]; exact carried⟩)
      · exact Or.inr (Or.inr last)

theorem tokensClaim {co w : Nat} (tokens : Tokens stage h (w::ws) status ready) {st : Status}
    (idle : status co = .idle) (sleeps : st.sleeps = none) (carries : st.carries = some w)
    (next : k.next = h.next) (same : ∀ x, (k.ctx x).co = (h.ctx x).co ∧ (k.ctx x).buf = (h.ctx x).buf) :
    Tokens (Function.update stage w (.flying co)) k ws (Function.update status co st) ready := by
  obtain ⟨was,asleep⟩ := tokens.waiting w (by simp)
  have awake : (status co).sleeps = none := by rw [idle]; rfl
  have differ : ∀ d x, (status d).sleeps = some x → d ≠ co := fun d x hx => apartField awake hx
  have other : ∀ d, d ≠ co → Function.update status co st d = status d :=
    fun d distinct => Function.update_of_ne distinct _ _
  have head := List.nodup_cons.1 tokens.queueNodup
  refine ⟨?_,head.2,?_,?_,tokens.readyNodup,?_,?_⟩
  · intro d x hx
    rw [next,(same x).1,(same x).2]
    exact tokens.made d x (keptField sleeps hx).2
  · intro x hx
    obtain ⟨place,sleeper⟩ := tokens.waiting x (by simp [hx])
    have apart : x ≠ w := by rintro rfl; exact head.1 hx
    rw [Function.update_of_ne apart,(same x).1,other _ (differ _ x sleeper)]
    exact ⟨place,sleeper⟩
  · intro d x hx
    by_cases mine : d = co
    · subst d
      rw [Function.update_self,carries] at hx
      cases Option.some.inj hx
      rw [Function.update_self,(same w).1,other _ (differ _ w asleep)]
      exact ⟨rfl,asleep⟩
    · rw [other d mine] at hx
      obtain ⟨place,sleeper⟩ := tokens.flight d x hx
      have apart : x ≠ w := by rintro rfl; rw [was] at place; contradiction
      rw [Function.update_of_ne apart,(same x).1,other _ (differ _ x sleeper)]
      exact ⟨place,sleeper⟩
  · intro d hd
    obtain ⟨x,sleeper,place⟩ := tokens.due d hd
    have apart : x ≠ w := by rintro rfl; rw [was] at place; contradiction
    exact ⟨x,by rw [other d (differ d x sleeper)]; exact sleeper,by rw [Function.update_of_ne apart]; exact place⟩
  · intro d x hx
    obtain ⟨_,sleeper⟩ := keptField sleeps hx
    by_cases apart : x = w
    · subst x
      exact Or.inr (Or.inl ⟨co,Function.update_self ..,by rw [Function.update_self]; exact carries⟩)
    · rw [Function.update_of_ne apart]
      rcases tokens.placed d x sleeper with ⟨place,inside⟩ | ⟨e,place,carried⟩ | last
      · exact Or.inl ⟨place,(List.mem_cons.1 inside).resolve_left apart⟩
      · have distinct : e ≠ co := by
          rintro rfl
          rw [idle] at carried
          contradiction
        exact Or.inr (Or.inl ⟨e,place,by rw [other e distinct]; exact carried⟩)
      · exact Or.inr (Or.inr last)

theorem tokensCopy (tokens : Tokens stage h queue status ready) {co w : Nat} {v u : Value} {l : Loc}
    (before : status co = .handing w v) :
    Tokens stage (h.put l u) queue (Function.update status co (.waking w none)) ready := by
  have sleeps : ∀ d, (Function.update status co (.waking w none) d).sleeps = (status d).sleeps := by
    intro d
    by_cases mine : d = co
    · subst d
      rw [Function.update_self,before]
      rfl
    · rw [Function.update_of_ne mine]
  have carries : ∀ d, (Function.update status co (.waking w none) d).carries = (status d).carries := by
    intro d
    by_cases mine : d = co
    · subst d
      rw [Function.update_self,before]
      rfl
    · rw [Function.update_of_ne mine]
  refine ⟨?_,tokens.queueNodup,?_,?_,tokens.readyNodup,?_,?_⟩
  · intro d x
    rw [sleeps]
    exact tokens.made d x
  · intro x hx
    rw [sleeps]
    exact tokens.waiting x hx
  · intro d x
    rw [carries,sleeps]
    exact tokens.flight d x
  · intro d hd
    obtain ⟨x,asleep,place⟩ := tokens.due d hd
    exact ⟨x,by rw [sleeps]; exact asleep,place⟩
  · intro d x
    simp only [sleeps,carries]
    exact tokens.placed d x

theorem tokensReady (tokens : Tokens stage h queue status ready) {co w : Nat}
    (carries : (status co).carries = some w) (awake : (status co).sleeps = none) :
    Tokens (Function.update stage w .ready) h queue (Function.update status co .idle)
      (ready ++ [(h.ctx w).co]) := by
  obtain ⟨was,asleep⟩ := tokens.flight co w carries
  have differ : ∀ d x, (status d).sleeps = some x → d ≠ co := fun d x hx => apartField awake hx
  have other : ∀ d, d ≠ co → Function.update status co .idle d = status d :=
    fun d distinct => Function.update_of_ne distinct _ _
  refine ⟨?_,tokens.queueNodup,?_,?_,?_,?_,?_⟩
  · intro d x hx
    exact tokens.made d x (keptField rfl hx).2
  · intro x hx
    obtain ⟨place,sleeper⟩ := tokens.waiting x hx
    have apart : x ≠ w := by rintro rfl; rw [was] at place; contradiction
    rw [Function.update_of_ne apart,other _ (differ _ x sleeper)]
    exact ⟨place,sleeper⟩
  · intro d x hx
    obtain ⟨mine,held⟩ := keptField rfl hx
    obtain ⟨place,sleeper⟩ := tokens.flight d x held
    have apart : x ≠ w := by
      rintro rfl
      rw [was] at place
      injection place with peer
      exact mine peer.symm
    rw [Function.update_of_ne apart,other _ (differ _ x sleeper)]
    exact ⟨place,sleeper⟩
  · refine nodupPush tokens.readyNodup ?_
    intro hd
    obtain ⟨x,sleeper,place⟩ := tokens.due _ hd
    cases Option.some.inj (asleep.symm.trans sleeper)
    rw [was] at place
    contradiction
  · refine allPush (fun d inside => ?_) ?_
    · obtain ⟨x,sleeper,place⟩ := tokens.due d inside
      have apart : x ≠ w := by rintro rfl; rw [was] at place; contradiction
      exact ⟨x,by rw [other d (differ d x sleeper)]; exact sleeper,by rw [Function.update_of_ne apart]; exact place⟩
    · exact ⟨w,by rw [other _ (differ _ w asleep)]; exact asleep,Function.update_self ..⟩
  · intro d x hx
    obtain ⟨mine,sleeper⟩ := keptField rfl hx
    by_cases apart : x = w
    · subst x
      have owner := (tokens.made d w sleeper).2.1
      exact Or.inr (Or.inr ⟨Function.update_self ..,by simp [owner]⟩)
    · rw [Function.update_of_ne apart]
      rcases tokens.placed d x sleeper with inside | ⟨e,place,carried⟩ | ⟨place,inside⟩
      · exact Or.inl inside
      · have distinct : e ≠ co := by
          rintro rfl
          exact apart (Option.some.inj (carried.symm.trans carries))
        exact Or.inr (Or.inl ⟨e,place,by rw [other e distinct]; exact carried⟩)
      · exact Or.inr (Or.inr ⟨place,by simp [inside]⟩)

theorem tokensResume (tokens : Tokens stage h queue status ready) {co w : Nat}
    (inside : co ∈ ready) (asleep : (status co).sleeps = some w) (free : (status co).carries = none) :
    Tokens (Function.update stage w .gone) h queue (Function.update status co .idle) (ready.erase co) := by
  obtain ⟨_,sleeps,was⟩ := tokens.due co inside
  cases Option.some.inj (asleep.symm.trans sleeps)
  have owner := (tokens.made co w asleep).2.1
  have other : ∀ d, d ≠ co → Function.update status co .idle d = status d :=
    fun d distinct => Function.update_of_ne distinct _ _
  have apart : ∀ d x, (status d).sleeps = some x → d ≠ co → x ≠ w := by
    rintro d x hx mine rfl
    exact mine ((tokens.made d x hx).2.1.symm.trans owner)
  refine ⟨?_,tokens.queueNodup,?_,?_,tokens.readyNodup.erase co,?_,?_⟩
  · intro d x hx
    exact tokens.made d x (keptField rfl hx).2
  · intro x hx
    obtain ⟨place,sleeper⟩ := tokens.waiting x hx
    have distinct : x ≠ w := by rintro rfl; rw [was] at place; contradiction
    have mine : (h.ctx x).co ≠ co := by
      intro same
      rw [same,asleep] at sleeper
      exact distinct (Option.some.inj sleeper).symm
    rw [Function.update_of_ne distinct,other _ mine]
    exact ⟨place,sleeper⟩
  · intro d x hx
    obtain ⟨mine,held⟩ := keptField rfl hx
    obtain ⟨place,sleeper⟩ := tokens.flight d x held
    have distinct : x ≠ w := by rintro rfl; rw [was] at place; contradiction
    have theirs : (h.ctx x).co ≠ co := by
      intro same
      rw [same,asleep] at sleeper
      exact distinct (Option.some.inj sleeper).symm
    rw [Function.update_of_ne distinct,other _ theirs]
    exact ⟨place,sleeper⟩
  · intro d hd
    obtain ⟨mine,kept⟩ := (List.Nodup.mem_erase_iff tokens.readyNodup).1 hd
    obtain ⟨x,sleeper,place⟩ := tokens.due d kept
    exact ⟨x,by rw [other d mine]; exact sleeper,by rw [Function.update_of_ne (apart d x sleeper mine)]; exact place⟩
  · intro d x hx
    obtain ⟨mine,sleeper⟩ := keptField rfl hx
    rw [Function.update_of_ne (apart d x sleeper mine)]
    rcases tokens.placed d x sleeper with waits | ⟨e,place,carried⟩ | ⟨place,kept⟩
    · exact Or.inl waits
    · have distinct : e ≠ co := by
        rintro rfl
        simp [free] at carried
      exact Or.inr (Or.inl ⟨e,place,by rw [other e distinct]; exact carried⟩)
    · exact Or.inr (Or.inr ⟨place,(List.Nodup.mem_erase_iff tokens.readyNodup).2 ⟨mine,kept⟩⟩)

end Tokens

theorem getAppend {α : Type} {xs ys : List α} {k : Nat} {v : α} (h : xs[k]? = some v) : (xs ++ ys)[k]? = some v := by
  rw [List.getElem?_append_left (List.getElem?_eq_some_iff.1 h).1]
  exact h

section Tickets
variable {place : Nat → Place} {s t : State}

theorem ticketsSame (more : List Value) (tickets : Tickets place s)
    (status : ∀ d, (t.status d).ticket = (s.status d).ticket) (reads : t.reads = s.reads)
    (done : t.readDone = s.readDone) (writes : t.writes = s.writes ++ more) : Tickets place t := by
  refine ⟨?_,?_,by rw [done]; exact tickets.once,?_,?_⟩
  · intro co k
    rw [status,reads]
    exact tickets.held co k
  · intro k v
    rw [done,reads,writes]
    intro hk
    obtain ⟨less,at_,value⟩ := tickets.matched k v hk
    exact ⟨less,at_,getAppend value⟩
  · intro k
    rw [reads,done]
    exact tickets.returned k
  · intro k co
    rw [reads,status]
    exact tickets.holder k co

theorem ticketsHold (tickets : Tickets place s) {co : Nat} (before : (s.status co).ticket = none)
    (mine : (t.status co).ticket = some s.reads) (others : ∀ d, d ≠ co → t.status d = s.status d)
    (reads : t.reads = s.reads+1) (done : t.readDone = s.readDone) (writes : t.writes = s.writes) :
    Tickets (Function.update place s.reads (.held co)) t := by
  have old : ∀ k, k < s.reads → Function.update place s.reads (.held co) k = place k :=
    fun k less => Function.update_of_ne (by omega) _ _
  refine ⟨?_,?_,by rw [done]; exact tickets.once,?_,?_⟩
  · intro d k hk
    by_cases same : d = co
    · subst d
      cases Option.some.inj (mine.symm.trans hk)
      exact ⟨by omega,Function.update_self ..⟩
    · rw [others d same] at hk
      obtain ⟨less,at_⟩ := tickets.held d k hk
      exact ⟨by omega,by rw [old k less]; exact at_⟩
  · intro k v hk
    rw [done] at hk
    obtain ⟨less,at_,value⟩ := tickets.matched k v hk
    rw [writes]
    exact ⟨by omega,by rw [old k less]; exact at_,value⟩
  · intro k less at_
    have earlier : k < s.reads := by
      by_contra last
      have same : k = s.reads := by omega
      subst k
      rw [Function.update_self] at at_
      contradiction
    rw [old k earlier] at at_
    rw [done]
    exact tickets.returned k earlier at_
  · intro k d less at_
    by_cases last : k = s.reads
    · subst k
      rw [Function.update_self] at at_
      injection at_ with same
      rw [← same]
      exact mine
    · have earlier : k < s.reads := by omega
      rw [old k earlier] at at_
      have holds := tickets.holder k d earlier at_
      have differ : d ≠ co := by
        rintro rfl
        simp [before] at holds
      rw [others d differ]
      exact holds

theorem ticketsReturn (tickets : Tickets place s) {co k : Nat} {v : Value}
    (before : (s.status co).ticket = some k) (mine : (t.status co).ticket = none)
    (others : ∀ d, d ≠ co → t.status d = s.status d) (reads : t.reads = s.reads)
    (done : t.readDone = s.readDone ++ [(k,v)]) (writes : t.writes = s.writes) (value : s.writes[k]? = some v) :
    Tickets (Function.update place k .returned) t := by
  obtain ⟨less,at_⟩ := tickets.held co k before
  have fresh : ∀ u, (k,u) ∉ s.readDone := by
    intro u hu
    rw [(tickets.matched k u hu).2.1] at at_
    contradiction
  refine ⟨?_,?_,?_,?_,?_⟩
  · intro d j hj
    have differ : d ≠ co := by
      rintro rfl
      simp [mine] at hj
    rw [others d differ] at hj
    obtain ⟨small,theirs⟩ := tickets.held d j hj
    have apart : j ≠ k := by
      rintro rfl
      rw [at_] at theirs
      injection theirs with same
      exact differ same.symm
    rw [reads,Function.update_of_ne apart]
    exact ⟨small,theirs⟩
  · intro j u hj
    rw [done] at hj
    rw [reads,writes]
    rcases List.mem_append.1 hj with earlier | last
    · obtain ⟨small,theirs,read⟩ := tickets.matched j u earlier
      have apart : j ≠ k := by
        rintro rfl
        exact fresh u earlier
      rw [Function.update_of_ne apart]
      exact ⟨small,theirs,read⟩
    · cases List.mem_singleton.1 last
      exact ⟨less,Function.update_self ..,value⟩
  · rw [done,List.map_append]
    refine nodupPush tickets.once ?_
    intro hj
    obtain ⟨⟨_,u⟩,hu,rfl⟩ := List.mem_map.1 hj
    exact fresh u hu
  · intro j small theirs
    rw [reads] at small
    rw [done]
    by_cases same : j = k
    · exact ⟨v,by simp [same]⟩
    · rw [Function.update_of_ne same] at theirs
      obtain ⟨u,hu⟩ := tickets.returned j small theirs
      exact ⟨u,by simp [hu]⟩
  · intro j d small theirs
    rw [reads] at small
    have apart : j ≠ k := by
      rintro rfl
      rw [Function.update_self] at theirs
      contradiction
    rw [Function.update_of_ne apart] at theirs
    have holds := tickets.holder j d small theirs
    have differ : d ≠ co := by
      rintro rfl
      exact apart (Option.some.inj (holds.symm.trans before))
    rw [others d differ]
    exact holds

theorem ticketsAtOnce (tickets : Tickets place s) {v : Value} (status : t.status = s.status)
    (reads : t.reads = s.reads+1) (done : t.readDone = s.readDone ++ [(s.reads,v)]) (writes : t.writes = s.writes)
    (value : s.writes[s.reads]? = some v) : Tickets (Function.update place s.reads .returned) t := by
  have old : ∀ k, k < s.reads → Function.update place s.reads .returned k = place k :=
    fun k less => Function.update_of_ne (by omega) _ _
  refine ⟨?_,?_,?_,?_,?_⟩
  · intro d k hk
    rw [status] at hk
    obtain ⟨less,at_⟩ := tickets.held d k hk
    rw [reads,old k less]
    exact ⟨by omega,at_⟩
  · intro k u hk
    rw [done] at hk
    rw [reads,writes]
    rcases List.mem_append.1 hk with earlier | last
    · obtain ⟨less,at_,read⟩ := tickets.matched k u earlier
      rw [old k less]
      exact ⟨by omega,at_,read⟩
    · cases List.mem_singleton.1 last
      exact ⟨by omega,Function.update_self ..,value⟩
  · rw [done,List.map_append]
    refine nodupPush tickets.once ?_
    intro hj
    obtain ⟨⟨_,u⟩,hu,same⟩ := List.mem_map.1 hj
    have less := (tickets.matched _ u hu).1
    simp only at same
    omega
  · intro k less at_
    rw [done]
    by_cases last : k = s.reads
    · exact ⟨v,by simp [last]⟩
    · have earlier : k < s.reads := by omega
      rw [old k earlier] at at_
      obtain ⟨u,hu⟩ := tickets.returned k earlier at_
      exact ⟨u,by simp [hu]⟩
  · intro k d less at_
    have apart : k ≠ s.reads := by
      rintro rfl
      rw [Function.update_self] at at_
      contradiction
    have earlier : k < s.reads := by omega
    rw [old k earlier] at at_
    rw [status]
    exact tickets.holder k d earlier at_

end Tickets

def Same (s t : State) (w : Nat) : Prop :=
  (t.heap.ctx w).co = (s.heap.ctx w).co ∧ t.status (s.heap.ctx w).co = s.status (s.heap.ctx w).co ∧
  t.heap.block (t.heap.ctx w).buf = s.heap.block (s.heap.ctx w).buf

section Values
variable {s t : State}

theorem settledSame (more : List Value) {w : Nat} (settled : Settled s w) (same : Same s t w)
    (writes : t.writes = s.writes ++ more) :
    Settled t w := by
  obtain ⟨owner,status,block⟩ := same
  unfold Settled
  rw [owner,status,block,writes]
  rcases settled with writer | ⟨k,reader,value⟩
  · exact Or.inl writer
  · exact Or.inr ⟨k,reader,getAppend value⟩

/- All but what the step does to its own coroutine carries over. -/
theorem valuesKeep (co : Nat) (more : List Value) (values : Values s) (others : ∀ d, d ≠ co → t.status d = s.status d)
    (carried : ∀ d w, d ≠ co → (s.status d).carries = some w → Same s t w)
    (writes : t.writes = s.writes ++ more)
    (handing : ∀ w v, t.status co = .handing w v →
      ∃ k, t.status (t.heap.ctx w).co = .reading w k ∧ t.writes[k]? = some v)
    (waking : ∀ w r, t.status co = .waking w r → Settled t w)
    (result : ∀ w k v, t.status co = .waking w (some (k,v)) → t.writes[k]? = some v)
    (ready : ∀ c w, c ∈ t.ready → (t.status c).sleeps = some w →
      (c ∈ s.ready ∧ (s.status c).sleeps = some w ∧ Same s t w) ∨ Settled t w) : Values t := by
  refine ⟨?_,?_,?_,?_⟩
  · intro d w v hd
    by_cases mine : d = co
    · subst d
      exact handing w v hd
    · rw [others d mine] at hd
      obtain ⟨owner,status,_⟩ := carried d w mine (by rw [hd]; rfl)
      obtain ⟨k,reader,value⟩ := values.handed d w v hd
      rw [owner,status,writes]
      exact ⟨k,reader,getAppend value⟩
  · intro d w r hd
    by_cases mine : d = co
    · subst d
      exact waking w r hd
    · rw [others d mine] at hd
      exact settledSame more (values.woken d w r hd) (carried d w mine (by rw [hd]; rfl)) writes
  · intro c w hc asleep
    rcases ready c w hc asleep with ⟨before,slept,same⟩ | settled
    · exact settledSame more (values.readied c w before slept) same writes
    · exact settled
  · intro d w k v hd
    by_cases mine : d = co
    · subst d
      exact result w k v hd
    · rw [others d mine] at hd
      rw [writes]
      exact getAppend (values.result d w k v hd)

end Values

section Sleepers
variable {stage : Nat → Stage} {h : Heap} {queue : List Nat} {status : Nat → Status} {ready : List Nat}

theorem bufApart (tokens : Tokens stage h queue status ready) {c d x y : Nat} (differ : c ≠ d)
    (first : (status c).sleeps = some x) (second : (status d).sleeps = some y) : (h.ctx x).buf ≠ (h.ctx y).buf := by
  obtain ⟨_,ownerX,bufX⟩ := tokens.made c x first
  obtain ⟨_,ownerY,bufY⟩ := tokens.made d y second
  have apart : x ≠ y := by
    rintro rfl
    exact differ (ownerX.symm.trans ownerY)
  rcases bufX with px | ox <;> rcases bufY with py | oy <;> simp_all

end Sleepers

section Steps
variable {cap : Nat} {s : State} {co : Nat}

theorem dropCons {α : Type} {xs rest : List α} {n : Nat} {v : α} (h : xs.drop n = v::rest) :
    xs[n]? = some v ∧ xs.drop (n+1) = rest := by
  constructor
  · have first := congrArg (fun l => l[0]?) h
    simpa [List.getElem?_drop] using first
  · rw [← List.tail_drop,h]
    rfl

theorem readTaken (inv : Inv cap s) {v : Value} {rest : List Value} {d : ChannelImpl}
    (drop : s.writes.drop s.reads = v::rest) (sound : Sound cap d s.heap rest) (unfilled : d.full = false)
    (empty : d.waitQueue = []) (count : s.reads + (rest.length + 1) = s.writes.length)
    (queue : s.chan.waitQueue = []) : Inv cap (s.afterRead co (d,s.heap,.taken v)) := by
  obtain ⟨vals,stage,place,accounts,tokens,values,tickets⟩ := inv
  obtain ⟨value,later⟩ := dropCons drop
  refine ⟨rest,stage,_,⟨sound,?_,?_,?_,?_,?_⟩,?_,?_,ticketsAtOnce tickets rfl rfl rfl rfl value⟩
  · simp only [State.queued,State.afterRead,unfilled,Bool.false_eq_true,if_false,List.append_nil]
    exact later.symm
  · intro full
    simp [State.afterRead,unfilled] at full
  · intro _
    simp only [State.afterRead,empty,List.length_nil]
    omega
  · intro _ i w hw
    simp [State.afterRead,empty] at hw
  · intro _ w hw
    simp [State.afterRead,empty] at hw
  · simp only [State.afterRead,empty]
    rw [queue] at tokens
    exact tokens
  · exact ⟨values.handed,values.woken,values.readied,values.result⟩

/- A caller that suspends: its fresh wait context is at the end of the queue. -/
structure Pushed (s t : State) (co : Nat) (st : Status) : Prop where
  idle : s.status co = .idle
  queue : t.chan.waitQueue = s.chan.waitQueue ++ [s.heap.next]
  status : t.status = Function.update s.status co st
  sleeps : st.sleeps = some s.heap.next
  carries : st.carries = none
  next : t.heap.next = s.heap.next+1
  old : ∀ w, w < s.heap.next → t.heap.ctx w = s.heap.ctx w
  owner : (t.heap.ctx s.heap.next).co = co
  state : (t.heap.ctx s.heap.next).state = kInit
  buf : (t.heap.ctx s.heap.next).buf = .priv s.heap.next ∨ (t.heap.ctx s.heap.next).buf = .own co
  block : ∀ l, l ≠ (t.heap.ctx s.heap.next).buf → t.heap.block l = s.heap.block l
  ready : t.ready = s.ready

section Pushed
variable {t : State} {st : Status} {stage : Nat → Stage}

theorem pushedTokens (pushed : Pushed s t co st)
    (tokens : Tokens stage s.heap s.chan.waitQueue s.status s.ready) :
    Tokens (Function.update stage s.heap.next .queued) t.heap t.chan.waitQueue t.status t.ready := by
  rw [pushed.queue,pushed.status,pushed.ready]
  exact tokensSuspend tokens pushed.idle pushed.sleeps pushed.carries pushed.next pushed.old pushed.owner pushed.buf

theorem pushedOther (pushed : Pushed s t co st) {d w : Nat} (asleep : (s.status d).sleeps = some w) : d ≠ co :=
  apartField (by rw [pushed.idle]; rfl) asleep

theorem pushedSame (pushed : Pushed s t co st)
    (tokens : Tokens stage s.heap s.chan.waitQueue s.status s.ready) {d w : Nat}
    (asleep : (s.status d).sleeps = some w) : Same s t w := by
  obtain ⟨less,owner,buf⟩ := tokens.made d w asleep
  have differ := pushedOther pushed asleep
  refine ⟨by rw [pushed.old w less],?_,?_⟩
  · rw [owner,pushed.status,Function.update_of_ne differ]
  · rw [pushed.old w less]
    apply pushed.block
    have apart : w ≠ s.heap.next := by omega
    rcases buf with mine | mine <;> rcases pushed.buf with new | new <;> simp_all

theorem pushedValues (more : List Value) (pushed : Pushed s t co st) (values : Values s)
    (tokens : Tokens stage s.heap s.chan.waitQueue s.status s.ready) (writes : t.writes = s.writes ++ more) :
    Values t := by
  have mine : t.status co = st := by rw [pushed.status,Function.update_self]
  have carries := pushed.carries
  apply valuesKeep co more values
  · intro d differ
    rw [pushed.status,Function.update_of_ne differ]
  · intro d w _ carried
    exact pushedSame pushed tokens (tokens.flight d w carried).2
  · exact writes
  · intro w v h
    rw [← mine,h] at carries
    contradiction
  · intro w r h
    rw [← mine,h] at carries
    contradiction
  · intro w k v h
    rw [← mine,h] at carries
    contradiction
  · intro c w hc asleep
    rw [pushed.ready] at hc
    obtain ⟨x,slept,_⟩ := tokens.due c hc
    rw [pushed.status,Function.update_of_ne (pushedOther pushed slept)] at asleep
    cases Option.some.inj (slept.symm.trans asleep)
    exact Or.inl ⟨hc,slept,pushedSame pushed tokens slept⟩

theorem pushedQueue (pushed : Pushed s t co st)
    (tokens : Tokens stage s.heap s.chan.waitQueue s.status s.ready) {w : Nat} (inside : w ∈ s.chan.waitQueue) :
    t.heap.ctx w = s.heap.ctx w ∧ Same s t w := by
  have asleep := (tokens.waiting w inside).2
  exact ⟨pushed.old w (tokens.made _ w asleep).1,pushedSame pushed tokens asleep⟩

theorem pushedSound {vals : List Value} (pushed : Pushed s t co st)
    (tokens : Tokens stage s.heap s.chan.waitQueue s.status s.ready)
    (chan : t.chan = {s.chan with waitQueue := s.chan.waitQueue ++ [s.heap.next]})
    (sound : Sound cap s.chan s.heap vals) (quiet : vals = [] ∨ vals.length = cap) :
    Sound cap t.chan t.heap vals := by
  obtain ⟨r,ring⟩ := sound.ring
  rw [chan]
  refine ⟨⟨r,ring.size,ring.small,ring.apart,ring.low,ring.read,ring.write,ring.fits,ring.holds⟩,
    sound.full,Or.inr quiet,?_⟩
  intro w hw
  rcases List.mem_append.1 hw with inside | last
  · rw [(pushedQueue pushed tokens inside).1]
    exact sound.live w inside
  · cases List.mem_singleton.1 last
    exact pushed.state

end Pushed

theorem readSuspended (inv : Inv cap s) (idle : s.status co = .idle) (onStack : Bool)
    (unfilled : s.chan.full = false) (sound : Sound cap s.chan s.heap [])
    (count : s.reads = s.writes.length + s.chan.waitQueue.length) :
    Inv cap (s.afterRead co ({s.chan with waitQueue := s.chan.waitQueue ++ [s.heap.next]},
      createWaitCtxInfo s.heap kInit co onStack,.suspended s.heap.next)) := by
  obtain ⟨vals,stage,place,accounts,tokens,values,tickets⟩ := inv
  generalize made : s.afterRead co ({s.chan with waitQueue := s.chan.waitQueue ++ [s.heap.next]},
    createWaitCtxInfo s.heap kInit co onStack,.suspended s.heap.next) = t
  have pushed : Pushed s t co (.reading s.heap.next s.reads) := by
    subst t
    refine ⟨idle,rfl,rfl,rfl,rfl,rfl,fun w less => Function.update_of_ne (by omega) _ _,?_,?_,?_,
      fun _ _ => rfl,rfl⟩ <;> simp only [State.afterRead,createWaitCtxInfo,Function.update_self]
    cases onStack <;> simp
  have chan : t.chan = {s.chan with waitQueue := s.chan.waitQueue ++ [s.heap.next]} := by rw [← made]; rfl
  have reads : t.reads = s.reads+1 := by rw [← made]; rfl
  have writes : t.writes = s.writes := by rw [← made]; rfl
  have done : t.readDone = s.readDone := by rw [← made]; rfl
  have open_ : t.chan.full = false := by rw [chan]; exact unfilled
  have mine : t.status co = .reading s.heap.next s.reads := by rw [pushed.status,Function.update_self]
  refine ⟨[],_,_,⟨pushedSound pushed tokens chan sound (Or.inl rfl),?_,?_,?_,?_,?_⟩,pushedTokens pushed tokens,
    pushedValues [] pushed values tokens (by simp [writes]),
    ticketsHold tickets (by rw [idle]; rfl) (by rw [mine]; rfl)
      (fun d differ => by rw [pushed.status,Function.update_of_ne differ]) reads done writes⟩
  · simp only [State.queued,open_,Bool.false_eq_true,if_false,List.append_nil]
    rw [writes,reads,List.drop_of_length_le (by omega)]
  · intro full
    simp [open_] at full
  · intro _
    rw [reads,writes,pushed.queue]
    simp only [List.length_append,List.length_cons,List.length_nil]
    omega
  · intro _ i w hw
    rw [pushed.queue] at hw
    rw [writes]
    by_cases last : i = s.chan.waitQueue.length
    · subst i
      simp only [List.getElem?_concat_length,Option.some.injEq] at hw
      subst w
      rw [pushed.owner,mine,count]
    · have bound := (List.getElem?_eq_some_iff.1 hw).1
      simp only [List.length_append,List.length_cons,List.length_nil] at bound
      rw [List.getElem?_append_left (by omega)] at hw
      obtain ⟨ctx,_,status,_⟩ := pushedQueue pushed tokens (List.mem_of_getElem? hw)
      rw [ctx,status]
      exact accounts.readers unfilled i w hw
  · intro full
    simp [open_] at full

theorem writeSuspended (inv : Inv cap s) (idle : s.status co = .idle) (onStack : Bool) {v : Value}
    (size : v.length = s.chan.blkSize) (full : s.chan.full = true) :
    Inv cap (s.afterWrite co v ({s.chan with waitQueue := s.chan.waitQueue ++ [s.heap.next]},
      (createWaitCtxInfo s.heap kInit co onStack).put
        ((createWaitCtxInfo s.heap kInit co onStack).ctx s.heap.next).buf v,.suspended s.heap.next)) := by
  obtain ⟨vals,stage,place,accounts,tokens,values,tickets⟩ := inv
  generalize made : s.afterWrite co v ({s.chan with waitQueue := s.chan.waitQueue ++ [s.heap.next]},
    (createWaitCtxInfo s.heap kInit co onStack).put
      ((createWaitCtxInfo s.heap kInit co onStack).ctx s.heap.next).buf v,.suspended s.heap.next) = t
  have pushed : Pushed s t co (.writing s.heap.next) := by
    subst t
    refine ⟨idle,rfl,rfl,rfl,rfl,rfl,fun w less => Function.update_of_ne (by omega) _ _,?_,?_,?_,
      fun l differ => Function.update_of_ne differ _ _,rfl⟩ <;>
      simp only [State.afterWrite,createWaitCtxInfo,Heap.put,Function.update_self]
    cases onStack <;> simp
  have stored : t.heap.block (t.heap.ctx s.heap.next).buf = v := by
    rw [← made]
    simp [State.afterWrite,Heap.put]
  have chan : t.chan = {s.chan with waitQueue := s.chan.waitQueue ++ [s.heap.next]} := by rw [← made]; rfl
  have reads : t.reads = s.reads := by rw [← made]; rfl
  have writes : t.writes = s.writes ++ [v] := by rw [← made]; rfl
  have done : t.readDone = s.readDone := by rw [← made]; rfl
  have filled : t.chan.full = true := by rw [chan]; exact full
  have mine : t.status co = .writing s.heap.next := by rw [pushed.status,Function.update_self]
  have whole := accounts.sound.full.1 full
  have behind := accounts.behind full
  refine ⟨vals,_,place,⟨pushedSound pushed tokens chan accounts.sound (Or.inr whole),?_,?_,?_,?_,?_⟩,
    pushedTokens pushed tokens,pushedValues [v] pushed values tokens writes,
    ticketsSame [v] tickets ?_ reads done writes⟩
  · have kept := accounts.kept
    simp only [State.queued,full,filled,if_true,pushed.queue,List.map_append,List.map_cons,List.map_nil,stored]
      at kept ⊢
    have same : s.chan.waitQueue.map (fun w => t.heap.block (t.heap.ctx w).buf) =
        s.chan.waitQueue.map (fun w => s.heap.block (s.heap.ctx w).buf) :=
      List.map_congr_left (fun w hw => (pushedQueue pushed tokens hw).2.2.2)
    rw [same,← List.append_assoc,kept,writes,reads,List.drop_append_of_le_length (by omega)]
  · intro _
    rw [reads,writes,pushed.queue]
    simp only [List.length_append,List.length_cons,List.length_nil]
    omega
  · intro unfilled
    simp [filled] at unfilled
  · intro unfilled
    simp [filled] at unfilled
  · intro _ w hw
    rw [pushed.queue] at hw
    rcases List.mem_append.1 hw with inside | last
    · obtain ⟨ctx,_,status,block⟩ := pushedQueue pushed tokens inside
      rw [block,ctx,status,chan]
      exact accounts.writers full w inside
    · cases List.mem_singleton.1 last
      rw [pushed.owner,mine,stored,chan]
      exact ⟨rfl,size⟩
  · intro d
    by_cases same : d = co
    · subst d
      rw [mine,idle]
      rfl
    · rw [pushed.status,Function.update_of_ne same]

/- A caller that claims the first wait context. -/
structure Claimed (s t : State) (co w : Nat) (ws : List Nat) (st : Status) : Prop where
  idle : s.status co = .idle
  before : s.chan.waitQueue = w::ws
  queue : t.chan.waitQueue = ws
  status : t.status = Function.update s.status co st
  sleeps : st.sleeps = none
  carries : st.carries = some w
  heap : t.heap = s.heap.setState w kReady
  ready : t.ready = s.ready

section Claimed
variable {t : State} {st : Status} {stage : Nat → Stage} {w : Nat} {ws : List Nat}

theorem claimedTokens (claimed : Claimed s t co w ws st)
    (tokens : Tokens stage s.heap s.chan.waitQueue s.status s.ready) :
    Tokens (Function.update stage w (.flying co)) t.heap t.chan.waitQueue t.status t.ready := by
  rw [claimed.before] at tokens
  rw [claimed.queue,claimed.status,claimed.ready,claimed.heap]
  exact tokensClaim tokens claimed.idle claimed.sleeps claimed.carries rfl
    (fun x => ⟨setStateOwner _ _ _ x,setStateBuf _ _ _ x⟩)

theorem claimedSame (claimed : Claimed s t co w ws st)
    (tokens : Tokens stage s.heap s.chan.waitQueue s.status s.ready) {d x : Nat}
    (asleep : (s.status d).sleeps = some x) : Same s t x := by
  have differ : d ≠ co := apartField (by rw [claimed.idle]; rfl) asleep
  have owner := setStateOwner s.heap w kReady x
  have buf := setStateBuf s.heap w kReady x
  refine ⟨by rw [claimed.heap,owner],?_,by rw [claimed.heap,buf]; rfl⟩
  rw [(tokens.made d x asleep).2.1,claimed.status,Function.update_of_ne differ]

theorem claimedQueue (claimed : Claimed s t co w ws st)
    (tokens : Tokens stage s.heap s.chan.waitQueue s.status s.ready) {x : Nat} (inside : x ∈ w::ws) :
    Same s t x :=
  claimedSame claimed tokens (tokens.waiting x (by rw [claimed.before]; exact inside)).2

theorem claimedLive (claimed : Claimed s t co w ws st)
    (tokens : Tokens stage s.heap s.chan.waitQueue s.status s.ready)
    (live : ∀ x ∈ s.chan.waitQueue, (s.heap.ctx x).state = kInit) : ∀ x ∈ ws, (t.heap.ctx x).state = kInit := by
  intro x hx
  have nodup := tokens.queueNodup
  rw [claimed.before] at nodup live
  have apart : x ≠ w := by
    rintro rfl
    exact (List.nodup_cons.1 nodup).1 hx
  simp only [claimed.heap,setStateOther apart]
  exact live x (by simp [hx])

theorem claimedValues (more : List Value) (claimed : Claimed s t co w ws st) (values : Values s)
    (tokens : Tokens stage s.heap s.chan.waitQueue s.status s.ready) (writes : t.writes = s.writes ++ more)
    (handing : ∀ x v, st = .handing x v → ∃ k, t.status (t.heap.ctx x).co = .reading x k ∧ t.writes[k]? = some v)
    (waking : ∀ x r, st = .waking x r → Settled t x)
    (result : ∀ x k v, st = .waking x (some (k,v)) → t.writes[k]? = some v) : Values t := by
  have mine : t.status co = st := by rw [claimed.status,Function.update_self]
  apply valuesKeep co more values
  · intro d differ
    rw [claimed.status,Function.update_of_ne differ]
  · intro d x _ carried
    exact claimedSame claimed tokens (tokens.flight d x carried).2
  · exact writes
  · intro x v h
    exact handing x v (mine.symm.trans h)
  · intro x r h
    exact waking x r (mine.symm.trans h)
  · intro x k v h
    exact result x k v (mine.symm.trans h)
  · intro c x hc asleep
    rw [claimed.ready] at hc
    obtain ⟨y,slept,_⟩ := tokens.due c hc
    have differ : c ≠ co := by
      rintro rfl
      rw [claimed.idle] at slept
      contradiction
    rw [claimed.status,Function.update_of_ne differ] at asleep
    cases Option.some.inj (slept.symm.trans asleep)
    exact Or.inl ⟨hc,slept,claimedSame claimed tokens slept⟩

end Claimed

theorem readWoke (inv : Inv cap s) (idle : s.status co = .idle) {v : Value} {rest : List Value} {w : Nat}
    {ws : List Nat} {d : ChannelImpl} (full : s.chan.full = true) (queue : s.chan.waitQueue = w::ws)
    (sound : Sound cap s.chan s.heap (v::rest)) (whole : (v::rest).length = cap)
    (kept : v::rest ++ s.queued = s.writes.drop s.reads)
    (count : s.reads + (v::rest).length + s.chan.waitQueue.length = s.writes.length)
    (ring : ∃ r, Ring cap d r (rest ++ [s.heap.block (s.heap.ctx w).buf])) (filled : d.full = true)
    (left : d.waitQueue = ws) (blk : d.blkSize = s.chan.blkSize) :
    Inv cap (s.afterRead co (d,s.heap.setState w kReady,.woke v w)) := by
  obtain ⟨vals,stage,place,accounts,tokens,values,tickets⟩ := inv
  generalize made : s.afterRead co (d,s.heap.setState w kReady,.woke v w) = t
  have claimed : Claimed s t co w ws (.waking w (some (s.reads,v))) := by
    subst t
    exact ⟨idle,queue,left,rfl,rfl,rfl,rfl,rfl⟩
  have chan : t.chan = d := by rw [← made]; rfl
  have reads : t.reads = s.reads+1 := by rw [← made]; rfl
  have writes : t.writes = s.writes := by rw [← made]; rfl
  have done : t.readDone = s.readDone := by rw [← made]; rfl
  have mine : t.status co = .waking w (some (s.reads,v)) := by rw [claimed.status,Function.update_self]
  obtain ⟨value,later⟩ := dropCons (by simpa using kept.symm)
  have promoted : t.heap.block (t.heap.ctx w).buf = s.heap.block (s.heap.ctx w).buf :=
    (claimedQueue claimed tokens (by simp)).2.2
  refine ⟨rest ++ [s.heap.block (s.heap.ctx w).buf],_,_,⟨?_,?_,?_,?_,?_,?_⟩,claimedTokens claimed tokens,?_,
    ticketsHold tickets (by rw [idle]; rfl) (by rw [mine]; rfl)
      (fun d differ => by rw [claimed.status,Function.update_of_ne differ]) reads done writes⟩
  · refine ⟨by rw [chan]; exact ring,?_,Or.inr (Or.inr (by simpa using whole)),?_⟩
    · rw [chan]
      exact ⟨fun _ => by simpa using whole,fun _ => filled⟩
    · rw [claimed.queue]
      exact claimedLive claimed tokens sound.live
  · have same : ws.map (fun x => t.heap.block (t.heap.ctx x).buf) =
        ws.map (fun x => s.heap.block (s.heap.ctx x).buf) :=
      List.map_congr_left (fun x hx => (claimedQueue claimed tokens (by simp [hx])).2.2)
    rw [State.queued,if_pos (by rw [chan]; exact filled),claimed.queue,same,writes,reads,later]
    simp [State.queued,full,queue]
  · intro _
    rw [reads,writes,claimed.queue]
    simp only [queue,List.length_cons,List.length_append,List.length_nil] at count ⊢
    omega
  · intro unfilled
    simp [chan,filled] at unfilled
  · intro unfilled
    simp [chan,filled] at unfilled
  · intro _ x hx
    rw [claimed.queue] at hx
    obtain ⟨owner,status,block⟩ := claimedQueue claimed tokens (x := x) (by simp [hx])
    rw [block,owner,status,chan,blk]
    exact accounts.writers full x (by simp [queue,hx])
  · apply claimedValues [] claimed values tokens (by simp [writes])
    · intro x u h
      contradiction
    · intro x r h
      cases h
      obtain ⟨owner,status,_⟩ := claimedQueue claimed tokens (x := w) (by simp)
      refine Or.inl ?_
      rw [owner,status]
      exact (accounts.writers full w (by simp [queue])).1
    · intro x k u h
      cases h
      rw [writes]
      exact value

theorem writeHandOff (inv : Inv cap s) (idle : s.status co = .idle) {v : Value} {w : Nat} {ws : List Nat}
    (unfilled : s.chan.full = false) (queue : s.chan.waitQueue = w::ws) (sound : Sound cap s.chan s.heap [])
    (count : s.reads = s.writes.length + s.chan.waitQueue.length) :
    Inv cap (s.afterWrite co v ({s.chan with waitQueue := ws},s.heap.setState w kReady,.handOff w)) := by
  obtain ⟨vals,stage,place,accounts,tokens,values,tickets⟩ := inv
  generalize made : s.afterWrite co v ({s.chan with waitQueue := ws},s.heap.setState w kReady,.handOff w) = t
  have claimed : Claimed s t co w ws (.handing w v) := by
    subst t
    exact ⟨idle,queue,rfl,rfl,rfl,rfl,rfl,rfl⟩
  have chan : t.chan = {s.chan with waitQueue := ws} := by rw [← made]; rfl
  have reads : t.reads = s.reads := by rw [← made]; rfl
  have writes : t.writes = s.writes ++ [v] := by rw [← made]; rfl
  have done : t.readDone = s.readDone := by rw [← made]; rfl
  have open_ : t.chan.full = false := by rw [chan]; exact unfilled
  rw [queue,List.length_cons] at count
  refine ⟨[],_,place,⟨?_,?_,?_,?_,?_,?_⟩,claimedTokens claimed tokens,?_,
    ticketsSame [v] tickets ?_ reads done writes⟩
  · obtain ⟨r,ring⟩ := sound.ring
    rw [chan]
    refine ⟨⟨r,ring.size,ring.small,ring.apart,ring.low,ring.read,ring.write,ring.fits,ring.holds⟩,
      sound.full,Or.inr (Or.inl rfl),claimedLive claimed tokens sound.live⟩
  · simp only [State.queued,open_,Bool.false_eq_true,if_false,List.append_nil]
    rw [writes,reads,List.drop_of_length_le]
    simp only [List.length_append,List.length_cons,List.length_nil]
    omega
  · intro full
    simp [open_] at full
  · intro _
    rw [reads,writes,claimed.queue]
    simp only [List.length_append,List.length_cons,List.length_nil]
    omega
  · intro _ i x hx
    rw [claimed.queue] at hx
    obtain ⟨owner,status,_⟩ := claimedQueue claimed tokens (List.mem_cons_of_mem w (List.mem_of_getElem? hx))
    have reader := accounts.readers unfilled (i+1) x (by rw [queue]; exact hx)
    rw [owner,status,reader,writes,List.length_append,List.length_singleton]
    congr 1
    omega
  · intro full
    simp [open_] at full
  · apply claimedValues [v] claimed values tokens writes
    · intro x u h
      cases h
      obtain ⟨owner,status,_⟩ := claimedQueue claimed tokens (x := w) (by simp)
      have reader := accounts.readers unfilled 0 w (by simp [queue])
      exact ⟨s.writes.length,by rw [owner,status,reader]; rfl,by simp [writes]⟩
    · intro x r h
      contradiction
    · intro x k u h
      contradiction
  · intro d
    by_cases same : d = co
    · subst d
      rw [claimed.status,Function.update_self,idle]
      rfl
    · rw [claimed.status,Function.update_of_ne same]

theorem writeStored (inv : Inv cap s) {v : Value} {vals : List Value} {d : ChannelImpl}
    (queue : s.chan.waitQueue = []) (sound : Sound cap d s.heap (vals ++ [v])) (empty : d.waitQueue = [])
    (kept : vals = s.writes.drop s.reads) (count : s.reads + vals.length = s.writes.length) :
    Inv cap (s.afterWrite co v (d,s.heap,.stored)) := by
  obtain ⟨old,stage,place,accounts,tokens,values,tickets⟩ := inv
  refine ⟨vals ++ [v],stage,place,⟨sound,?_,?_,?_,?_,?_⟩,?_,?_,
    ticketsSame [v] tickets (fun _ => rfl) rfl rfl rfl⟩
  · have none : (s.afterWrite co v (d,s.heap,.stored)).queued = [] := by simp [State.queued,State.afterWrite,empty]
    rw [none,List.append_nil]
    simp only [State.afterWrite]
    rw [List.drop_append_of_le_length (by omega),← kept]
  · intro _
    simp only [State.afterWrite,empty,List.length_append,List.length_cons,List.length_nil]
    omega
  · intro _
    simp only [State.afterWrite,empty,List.length_append,List.length_cons,List.length_nil]
    omega
  · intro _ i w hw
    simp [State.afterWrite,empty] at hw
  · intro _ w hw
    simp [State.afterWrite,empty] at hw
  · simp only [State.afterWrite,empty]
    rw [queue] at tokens
    exact tokens
  · have same : ∀ w, Same s (s.afterWrite co v (d,s.heap,.stored)) w := fun w => ⟨rfl,rfl,rfl⟩
    refine ⟨?_,?_,?_,?_⟩
    · intro e w u h
      obtain ⟨k,reader,value⟩ := values.handed e w u h
      exact ⟨k,reader,getAppend value⟩
    · intro e w r h
      exact settledSame [v] (values.woken e w r h) (same w) rfl
    · intro c w hc asleep
      exact settledSame [v] (values.readied c w hc asleep) (same w) rfl
    · intro e w k u h
      exact getAppend (values.result e w k u h)

theorem accountsKeep {t : State} {vals : List Value} (accounts : Accounts cap vals s) (chan : t.chan = s.chan)
    (state : ∀ w, (t.heap.ctx w).state = (s.heap.ctx w).state)
    (same : ∀ w ∈ s.chan.waitQueue, Same s t w) (reads : t.reads = s.reads) (writes : t.writes = s.writes) :
    Accounts cap vals t := by
  have queued : t.queued = s.queued := by
    simp only [State.queued,chan]
    rw [List.map_congr_left (fun w hw => (same w hw).2.2)]
  refine ⟨?_,?_,?_,?_,?_,?_⟩
  · rw [chan]
    refine ⟨accounts.sound.ring,accounts.sound.full,accounts.sound.quiet,?_⟩
    intro w hw
    rw [state w]
    exact accounts.sound.live w hw
  · rw [queued,writes,reads]
    exact accounts.kept
  · rw [chan,reads,writes]
    exact accounts.behind
  · rw [chan,reads,writes]
    exact accounts.ahead
  · rw [chan,writes]
    intro unfilled i w hw
    obtain ⟨owner,status,_⟩ := same w (List.mem_of_getElem? hw)
    rw [owner,status]
    exact accounts.readers unfilled i w hw
  · rw [chan]
    intro full w hw
    obtain ⟨owner,status,block⟩ := same w hw
    rw [block,owner,status]
    exact accounts.writers full w hw

theorem copyKeeps (inv : Inv cap s) {w : Nat} {v : Value} (handing : s.status co = .handing w v) :
    Inv cap (s.copied co w v) := by
  obtain ⟨vals,stage,place,accounts,tokens,values,tickets⟩ := inv
  obtain ⟨flying,asleep⟩ := tokens.flight co w (by rw [handing]; rfl)
  have awake : ∀ d x, (s.status d).sleeps = some x → d ≠ co :=
    fun d x hx => apartField (by rw [handing]; rfl) hx
  -- Every other sleeper keeps its status and its block.
  have same : ∀ d x, (s.status d).sleeps = some x → x ≠ w → Same s (s.copied co w v) x := by
    intro d x hx apart
    have owner := (tokens.made d x hx).2.1
    refine ⟨rfl,?_,?_⟩
    · rw [owner]
      exact Function.update_of_ne (awake d x hx) _ _
    · have differ : d ≠ (s.heap.ctx w).co := by
        rintro rfl
        exact apart (Option.some.inj (hx.symm.trans asleep))
      exact Function.update_of_ne (bufApart tokens differ hx asleep) _ _
  refine ⟨vals,stage,place,accountsKeep accounts rfl (fun _ => rfl) ?_ rfl rfl,tokensCopy tokens handing,?_,
    ticketsSame [] tickets ?_ rfl rfl (by simp [State.copied])⟩
  · intro x hx
    obtain ⟨waits,slept⟩ := tokens.waiting x hx
    refine same _ x slept ?_
    rintro rfl
    rw [flying] at waits
    contradiction
  · have mine : (s.copied co w v).status co = .waking w none := Function.update_self ..
    apply valuesKeep co [] values
    · intro d differ
      exact Function.update_of_ne differ _ _
    · intro d x differ carried
      obtain ⟨theirs,slept⟩ := tokens.flight d x carried
      refine same _ x slept ?_
      rintro rfl
      rw [flying] at theirs
      injection theirs with peer
      exact differ peer.symm
    · simp [State.copied]
    · intro x u h
      rw [mine] at h
      contradiction
    · intro x r h
      rw [mine] at h
      cases h
      obtain ⟨k,reader,value⟩ := values.handed co w v handing
      refine Or.inr ⟨k,?_,?_⟩
      · simp only [State.copied,Heap.put]
        rw [Function.update_of_ne (awake _ w asleep)]
        exact reader
      · simp only [State.copied,Heap.put,Function.update_self]
        exact value
    · intro x k u h
      rw [mine] at h
      cases h
    · intro c x hc slept
      obtain ⟨y,sleeps,due⟩ := tokens.due c hc
      simp only [State.copied,Function.update_of_ne (awake c y sleeps)] at slept
      cases Option.some.inj (sleeps.symm.trans slept)
      refine Or.inl ⟨hc,slept,same c x slept ?_⟩
      rintro rfl
      rw [flying] at due
      contradiction
  · intro d
    by_cases here : d = co
    · subst d
      simp only [State.copied,Function.update_self,handing]
      rfl
    · simp only [State.copied,Function.update_of_ne here]

theorem readyKeeps (inv : Inv cap s) {w : Nat} {result : Option (Nat × Value)}
    (waking : s.status co = .waking w result) : Inv cap (s.readied co w result) := by
  obtain ⟨vals,stage,place,accounts,tokens,values,tickets⟩ := inv
  have asleep := (tokens.flight co w (by rw [waking]; rfl)).2
  have awake : ∀ d x, (s.status d).sleeps = some x → d ≠ co :=
    fun d x hx => apartField (by rw [waking]; rfl) hx
  have same : ∀ d x, (s.status d).sleeps = some x → Same s (s.readied co w result) x := by
    intro d x hx
    refine ⟨rfl,?_,rfl⟩
    rw [(tokens.made d x hx).2.1]
    exact Function.update_of_ne (awake d x hx) _ _
  have mine : (s.readied co w result).status co = .idle := Function.update_self ..
  have others : ∀ d, d ≠ co → (s.readied co w result).status d = s.status d :=
    fun d differ => Function.update_of_ne differ _ _
  have kept : Values (s.readied co w result) := by
    apply valuesKeep co [] values others
    · intro d x _ carried
      exact same _ x (tokens.flight d x carried).2
    · simp [State.readied]
    · intro x u h
      rw [mine] at h
      contradiction
    · intro x r h
      rw [mine] at h
      contradiction
    · intro x k u h
      rw [mine] at h
      contradiction
    · intro c x hc slept
      rcases List.mem_append.1 hc with inside | last
      · obtain ⟨y,sleeps,_⟩ := tokens.due c inside
        rw [others c (awake c y sleeps)] at slept
        exact Or.inl ⟨inside,slept,same c x slept⟩
      · cases List.mem_singleton.1 last
        rw [others _ (awake _ w asleep)] at slept
        cases Option.some.inj (asleep.symm.trans slept)
        exact Or.inr (settledSame [] (values.woken co w result waking) (same _ w asleep)
          (by simp [State.readied]))
  have carries : (s.status co).carries = some w := by rw [waking]; rfl
  have tokens' := tokensReady tokens carries (by rw [waking]; rfl)
  have accounts' : Accounts cap vals (s.readied co w result) :=
    accountsKeep accounts rfl (fun _ => rfl) (fun x hx => same _ x (tokens.waiting x hx).2) rfl rfl
  cases result with
  | none =>
    refine ⟨vals,_,place,accounts',tokens',kept,ticketsSame [] tickets ?_ rfl ?_ ?_⟩
    · intro d
      by_cases here : d = co
      · subst d
        rw [mine,waking]
        rfl
      · rw [others d here]
    · simp [State.readied]
    · simp [State.readied]
  | some r =>
    exact ⟨vals,_,_,accounts',tokens',kept,ticketsReturn (k := r.1) (v := r.2) tickets (by rw [waking]; rfl)
      (by rw [mine]; rfl) others rfl rfl rfl (values.result co w r.1 r.2 waking)⟩

theorem resumeKeeps (inv : Inv cap s) {w : Nat} {result : Option (Nat × Value)} (ready : co ∈ s.ready)
    (asleep : (s.status co).sleeps = some w) (free : (s.status co).carries = none)
    (ticket : (s.status co).ticket = result.map Prod.fst)
    (value : ∀ r ∈ result, s.writes[r.1]? = some r.2) : Inv cap (s.resumed co result) := by
  obtain ⟨vals,stage,place,accounts,tokens,values,tickets⟩ := inv
  obtain ⟨y,sleeps,due⟩ := tokens.due co ready
  cases Option.some.inj (asleep.symm.trans sleeps)
  have owner := (tokens.made co w asleep).2.1
  have same : ∀ d x, (s.status d).sleeps = some x → x ≠ w → d ≠ co ∧ Same s (s.resumed co result) x := by
    intro d x hx apart
    have differ : d ≠ co := by
      rintro rfl
      exact apart (Option.some.inj (hx.symm.trans asleep))
    refine ⟨differ,rfl,?_,rfl⟩
    rw [(tokens.made d x hx).2.1]
    exact Function.update_of_ne differ _ _
  have mine : (s.resumed co result).status co = .idle := Function.update_self ..
  have others : ∀ d, d ≠ co → (s.resumed co result).status d = s.status d :=
    fun d differ => Function.update_of_ne differ _ _
  have kept : Values (s.resumed co result) := by
    apply valuesKeep co [] values others
    · intro d x _ carried
      obtain ⟨flying,slept⟩ := tokens.flight d x carried
      refine (same _ x slept ?_).2
      rintro rfl
      rw [due] at flying
      contradiction
    · simp [State.resumed]
    · intro x u h
      rw [mine] at h
      contradiction
    · intro x r h
      rw [mine] at h
      contradiction
    · intro x k u h
      rw [mine] at h
      contradiction
    · intro c x hc slept
      obtain ⟨differ,inside⟩ := (List.Nodup.mem_erase_iff tokens.readyNodup).1 hc
      rw [others c differ] at slept
      have apart : x ≠ w := by
        rintro rfl
        exact differ ((tokens.made c x slept).2.1.symm.trans owner)
      exact Or.inl ⟨inside,slept,(same c x slept apart).2⟩
  have tokens' := tokensResume tokens ready asleep free
  have accounts' : Accounts cap vals (s.resumed co result) := by
    refine accountsKeep accounts rfl (fun _ => rfl) ?_ rfl rfl
    intro x hx
    obtain ⟨waits,slept⟩ := tokens.waiting x hx
    refine (same _ x slept ?_).2
    rintro rfl
    rw [due] at waits
    contradiction
  cases result with
  | none =>
    refine ⟨vals,_,place,accounts',tokens',kept,ticketsSame [] tickets ?_ rfl ?_ ?_⟩
    · intro d
      by_cases here : d = co
      · subst d
        rw [mine,ticket]
        rfl
      · rw [others d here]
    · simp [State.resumed]
    · simp [State.resumed]
  | some r =>
    exact ⟨vals,_,_,accounts',tokens',kept,ticketsReturn (k := r.1) (v := r.2) tickets ticket
      (by rw [mine]; rfl) others rfl rfl rfl (value r rfl)⟩

theorem readKeeps (inv : Inv cap s) (idle : s.status co = .idle) (onStack : Bool) :
    Inv cap (s.afterRead co (readSection s.chan s.heap kInit co onStack)) := by
  obtain ⟨vals,_,_,accounts,_⟩ := id inv
  have kept := accounts.kept
  rcases readCases accounts.sound kInit co onStack with
    ⟨v,rest,d,shape,empty,result,sound,unfilled,left,blk⟩ | ⟨none,unfilled,result⟩ |
    ⟨v,rest,w,ws,d,shape,whole,full,queue,result,ring,filled,left,blk⟩
  · rw [result]
    have nobody : s.queued = [] := by simp [State.queued,empty]
    rw [nobody,shape,List.append_nil] at kept
    have count : s.reads + (rest.length + 1) = s.writes.length := by
      cases full : s.chan.full with
      | true => simpa [empty,shape] using accounts.behind full
      | false => simpa [empty,shape] using accounts.ahead full
    exact readTaken inv kept.symm sound unfilled left count empty
  · rw [result]
    subst vals
    exact readSuspended inv idle onStack unfilled accounts.sound (by simpa using accounts.ahead unfilled)
  · rw [result]
    subst vals
    exact readWoke inv idle full queue accounts.sound whole kept (accounts.behind full)
      (ring (accounts.writers full w (by simp [queue])).2) filled left blk

theorem writeKeeps (inv : Inv cap s) (idle : s.status co = .idle) (onStack : Bool) {v : Value}
    (size : v.length = s.chan.blkSize) :
    Inv cap (s.afterWrite co v (writeSection s.chan s.heap kInit co onStack v)) := by
  obtain ⟨vals,_,_,accounts,_⟩ := id inv
  rcases writeCases accounts.sound kInit co onStack size with
    ⟨d,empty,result,sound,left,blk,unfilled⟩ | ⟨w,ws,none,unfilled,queue,result⟩ | ⟨whole,full,result⟩
  · rw [result]
    have nobody : s.queued = [] := by simp [State.queued,unfilled]
    have kept := accounts.kept
    rw [nobody,List.append_nil] at kept
    exact writeStored inv empty sound left kept (by simpa [empty] using accounts.ahead unfilled)
  · rw [result]
    subst vals
    exact writeHandOff inv idle unfilled queue accounts.sound (by simpa using accounts.ahead unfilled)
  · rw [result]
    exact writeSuspended inv idle onStack size full

theorem stepKeeps {t : State} {e : Event} (inv : Inv cap s) (h : step s e = some t) : Inv cap t := by
  cases e with
  | read co onStack =>
    simp only [step] at h
    split at h <;> try contradiction
    cases Option.some.inj h
    exact readKeeps inv ‹_› onStack
  | write co onStack v =>
    simp only [step] at h
    split at h <;> try contradiction
    rename_i guard
    cases Option.some.inj h
    exact writeKeeps inv guard.1 onStack guard.2
  | copy co =>
    simp only [step] at h
    split at h <;> try contradiction
    cases Option.some.inj h
    exact copyKeeps inv ‹_›
  | addReadyTask co =>
    simp only [step] at h
    split at h <;> try contradiction
    cases Option.some.inj h
    exact readyKeeps inv ‹_›
  | resume co =>
    simp only [step] at h
    split at h <;> try contradiction
    rename_i ready
    obtain ⟨vals,stage,place,accounts,tokens,values,tickets⟩ := id inv
    split at h <;> try contradiction
    · rename_i w k reading
      cases Option.some.inj h
      have asleep : (s.status co).sleeps = some w := by rw [reading]; rfl
      have owner := (tokens.made co w asleep).2.1
      refine resumeKeeps inv ready asleep (by rw [reading]; rfl) (by rw [reading]; rfl) ?_
      intro r hr
      cases Option.some.inj hr
      rcases values.readied co w ready asleep with writer | ⟨j,reader,value⟩
      · rw [owner,reading] at writer
        contradiction
      · rw [owner,reading] at reader
        injection reader with _ same
        rw [← same] at value
        exact value
    · rename_i w writing
      cases Option.some.inj h
      exact resumeKeeps inv ready (w := w) (by rw [writing]; rfl) (by rw [writing]; rfl) (by rw [writing]; rfl)
        (by simp)

end Steps

theorem initialInv (raw : Memory) {cap blk : Nat} (positive : 1 ≤ cap) (small : cap * blk < 2^32) :
    Inv (slots cap blk) (initial raw cap blk) := by
  have ring := ringCreate raw uint32Max positive small
  have some := ring.low
  refine ⟨[],fun _ => .gone,fun _ => .returned,⟨⟨⟨0,ring⟩,?_,Or.inl rfl,?_⟩,?_,?_,?_,?_,?_⟩,
    ⟨?_,?_,?_,?_,?_,?_,?_⟩,⟨?_,?_,?_,?_⟩,⟨?_,?_,?_,?_,?_⟩⟩
  · simp only [initial,ChannelImpl.create,Bool.false_eq_true,List.length_nil,false_iff]
    omega
  all_goals simp [initial,ChannelImpl.create,State.queued,Status.sleeps,Status.carries,Status.ticket]

theorem ringContents {cap r : Nat} {c : ChannelImpl} {vals : List Value} (ring : Ring cap c r vals)
    (full : c.full = true ↔ vals.length = cap) : contents cap c = vals := by
  have low := ring.low
  have fits := ring.fits
  have first : c.rx / c.blkSize = r := by
    rw [ring.read]
    rcases ring.apart with some | single
    · exact Nat.mul_div_cancel _ some
    · have zero : r = 0 := by omega
      simp [zero]
  have count : (if c.full then cap else (c.wx / c.blkSize + cap - r) % cap) = vals.length := by
    cases filled : c.full with
    | true => simpa using (full.1 filled).symm
    | false =>
      have short : vals.length < cap := by
        have whole : vals.length ≠ cap := fun same => by simp [full.2 same] at filled
        omega
      have last : c.wx / c.blkSize = (r + vals.length) % cap := by
        rw [ring.write,slot]
        rcases ring.apart with some | single
        · exact Nat.mul_div_cancel _ some
        · have zero : (r + vals.length) % cap = 0 := by rw [single,Nat.mod_one]
          simp [zero]
      simp only [Bool.false_eq_true,if_false,last]
      by_cases wrap : r + vals.length < cap
      · rw [Nat.mod_eq_of_lt wrap,show r + vals.length + cap - r = vals.length + cap by omega,
          Nat.add_mod_right,Nat.mod_eq_of_lt short]
      · have wrapped : (r + vals.length) % cap = r + vals.length - cap := by
          rw [Nat.mod_eq_sub_mod (by omega),Nat.mod_eq_of_lt (by omega)]
        rw [wrapped,show r + vals.length - cap + cap - r = vals.length by omega,Nat.mod_eq_of_lt short]
  apply List.ext_getElem?
  intro i
  simp only [contents,first,count,List.getElem?_map]
  by_cases inside : i < vals.length
  · rw [List.getElem?_range inside,Option.map_some,List.getElem?_eq_getElem inside]
    exact congrArg some (ring.holds i _ (List.getElem?_eq_getElem inside))
  · rw [List.getElem?_eq_none (by simpa using inside),List.getElem?_eq_none (by simpa using inside)]
    rfl

theorem invFifo {cap : Nat} {s : State} (inv : Inv cap s) : Fifo cap s := by
  obtain ⟨vals,stage,place,accounts,tokens,values,tickets⟩ := inv
  refine ⟨fun k v hk => (tickets.matched k v hk).2.2,tickets.once,?_,?_,?_⟩
  · intro k less
    cases at_ : place k with
    | returned => exact Or.inl (tickets.returned k less at_)
    | held co => exact Or.inr ⟨co,tickets.holder k co less at_⟩
  · intro co w k reading less
    have asleep : (s.status co).sleeps = some w := by rw [reading]; rfl
    have owner := (tokens.made co w asleep).2.1
    have value : Settled s w → s.writes[k]? = some (s.heap.block (s.heap.ctx w).buf) := by
      rintro (writer | ⟨j,reader,value⟩)
      · rw [owner,reading] at writer
        contradiction
      · rw [owner,reading] at reader
        injection reader with _ same
        rw [same]
        exact value
    rcases tokens.placed co w asleep with ⟨_,inside⟩ | ⟨d,_,carried⟩ | ⟨_,ready⟩
    · -- A queued reader has a ticket beyond the last Write.
      cases full : s.chan.full with
      | true =>
        have writer := (accounts.writers full w inside).1
        rw [owner,reading] at writer
        contradiction
      | false =>
        obtain ⟨i,_,at_⟩ := List.mem_iff_getElem.1 inside
        have reader := accounts.readers full i w (by rw [← at_]; exact List.getElem?_eq_getElem _)
        rw [owner,reading] at reader
        injection reader with _ same
        omega
    · cases peer : s.status d with
      | handing x v =>
        rw [peer] at carried
        cases Option.some.inj carried
        obtain ⟨j,reader,given⟩ := values.handed d w v peer
        rw [owner,reading] at reader
        injection reader with _ same
        exact Or.inl ⟨d,v,peer,by rw [same]; exact given⟩
      | waking x r =>
        rw [peer] at carried
        cases Option.some.inj carried
        exact Or.inr ⟨value (values.woken d w r peer),Or.inl ⟨d,r,peer⟩⟩
      | idle | reading _ _ | writing _ =>
        rw [peer] at carried
        contradiction
    · exact Or.inr ⟨value (values.readied co w ready asleep),Or.inr ready⟩
  · obtain ⟨r,ring⟩ := accounts.sound.ring
    rw [ringContents ring accounts.sound.full]
    exact accounts.kept

/-- Over every interleaving of Reads and Writes the channel is one FIFO queue. -/
theorem channelFifo (raw : Memory) (cap blk : Nat) (positive : 1 ≤ cap) (small : cap * blk < 2^32)
    (es : List Event) (s : State) (reached : run step (initial raw cap blk) es = some s) :
    Fifo (slots cap blk) s :=
  invFifo (runInvariant (fun _ _ _ inv h => stepKeeps inv h) reached (initialInv raw positive small))

/- One slot of one byte: a value through the ring, one from a waiting writer, one handed
to a waiting reader. -/
theorem channelFifoPaths : ∃ s, run step (initial (fun _ => 0) 1 1)
    [.write 1 true [7],.write 2 false [8],.read 3 true,.addReadyTask 3,.resume 2,.read 4 true,.read 5 true,
      .write 1 true [9],.copy 1,.addReadyTask 1,.resume 5] = some s ∧
    s.readDone = [(0,[7]),(1,[8]),(2,[9])] ∧ Fifo (slots 1 1) s := by
  refine ⟨_,rfl,rfl,?_⟩
  exact channelFifo (fun _ => 0) 1 1 (by decide) (by decide) [.write 1 true [7],.write 2 false [8],.read 3 true,
    .addReadyTask 3,.resume 2,.read 4 true,.read 5 true,.write 1 true [9],.copy 1,.addReadyTask 1,.resume 5] _ rfl

end TitCo.ChannelFifo
