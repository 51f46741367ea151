import TitCo.ChannelFifo
import TitCo.ChannelRep
import TitCo.HandOff
import TitCo.RpcClient
import TitCo.RpcFrame

/-! RpcClient::SendLoop as a coroutine of the scheduler, which it shares with the coroutines
that write to send_channel_ and with any others. What it does with a request depends on
timeout(), the flag of the scheduler, not on what its own Read came to. -/
namespace TitCo.SendLoop
open Channel ChannelRep MachineInt RpcFrame Transition
open ChannelFifo (contents ringContents)
open Scheduler (Config Steps)
open Sock (Bytes)
open RpcClient (Params)

/-- send_channel_ is one of the channels; what it holds are pointers. -/
def sendChannel : Nat := 0
def pointerSize : Nat := 8

/-- The scheduler's channels, of which `c` tells those that are not send_channel_. -/
def config (p : Params) (c : Config) : Config where
  raw := c.raw
  cap := Function.update c.cap sendChannel p.sendChannelSize
  blk := Function.update c.blk sendChannel pointerSize
  ms := Function.update c.ms sendChannel p.sendTimeout

/-- Where SendLoop is: not started, about to read send_channel_, in the Yield of the Read
or just back from it, in SendProtocol, or past its loop. -/
inductive Place where
  | connected
  | reading (co : Nat)
  | suspended (co w : Nat)
  | sending (co : Nat) (protocol : Value)
  | broken (co : Nat)
  | finished
  deriving DecidableEq, Repr

def Place.co : Place → Option Nat
  | .reading co | .suspended co _ | .sending co _ | .broken co => some co
  | _ => none

/-- `accepted` is what has entered send_channel_, in channel order, and `handed` what
SendProtocol has been called with. -/
structure State where
  sched : Scheduler.State
  place : Place
  accepted : List Value
  handed : List Value

def initial (p : Params) (c : Config) : State := ⟨Scheduler.initial (config p c),.connected,[],[]⟩

/-- `sched` is a step of Loop or of another coroutine. `resumed` is SendLoop's return from
Yield, and `ioWait` the wait for the socket in SendProtocol. -/
inductive Event where
  | sched (e : Scheduler.Event)
  | start
  | read (freed : Nat)
  | resumed
  | ioWait
  | sendProtocol (ok : Bool)
  | finish
  deriving DecidableEq, Repr

section
variable (serializeAsString : BaseProtocolBuf → Bytes) (object : Value → Option Protocol)

/-- SendProtocol up to the Send: a null pointer and an empty Encode are refused. -/
def encodes (protocol : Value) : Bool :=
  match object protocol with
  | some p => encode serializeAsString p ≠ []
  | none => false

def fits (protocol : Value) : Bool :=
  match object protocol with
  | some p => ((serialize serializeAsString p).length : Int) ≤ kDataMaxLen
  | none => false

/-- The value that the step of another coroutine brings into send_channel_. -/
def admitted (s : Scheduler.State) : Scheduler.Event → List Value
  | .write ch onStack v _ =>
      if ch = sendChannel then
        match (writeSection (s.chan ch) s.heap kInit (s.running.getD 0) onStack v).2.2 with
        | .suspended _ => []
        | _ => [v]
      else []
  | _ => []

/-- Only SendLoop reads send_channel_, and its coroutine does nothing else. -/
def others (s : State) : Scheduler.Event → Bool
  | .go _ => true
  | .tick _ => true
  | .read ch _ _ => ch != sendChannel && s.sched.running != s.place.co
  | _ => s.sched.running.isNone || s.sched.running != s.place.co

/-- After the Read: the test of timeout(), and the call of SendProtocol. -/
def State.returned (s : State) (co : Nat) (protocol : Value) : State :=
  if s.sched.timeout then {s with place := .reading co}
  else {s with place := .sending co protocol, handed := s.handed ++ [protocol]}

def State.afterRead (s : State) (co : Nat) (t : Scheduler.State) : ReadOutcome → State
  | .taken v => State.returned {s with sched := t} co v
  | .woke v w =>
      State.returned {s with
        sched := t
        accepted := s.accepted ++ [s.sched.heap.block (s.sched.heap.ctx w).buf]} co v
  | .suspended w => {s with sched := t, place := .suspended co w}

def step (s : State) : Event → Option State
  | .sched e =>
      if others s e then do
        let t ← Scheduler.step s.sched e
        some {s with sched := t, accepted := s.accepted ++ admitted s.sched e}
      else none
  | .start =>
      match s.place with
      | .connected => do
          let t ← Scheduler.step s.sched .newTask
          let co ← t.running
          some {s with sched := t, place := .reading co}
      | _ => none
  | .read freed =>
      match s.place with
      | .reading co =>
          if s.sched.running = some co then do
            let t ← Scheduler.step s.sched (.read sendChannel true freed)
            some (s.afterRead co t (readSection (s.sched.chan sendChannel) s.sched.heap kInit co true).2.2)
          else none
      | _ => none
  | .resumed =>
      match s.place with
      | .suspended co w =>
          if s.sched.running = some co then some (s.returned co (s.sched.heap.block (s.sched.heap.ctx w).buf)) else none
      | _ => none
  | .ioWait =>
      match s.place with
      | .sending co _ =>
          if s.sched.running = some co then do
            let t ← Scheduler.step s.sched (.ioWait uint32Max 0)
            some {s with sched := t}
          else none
      | _ => none
  | .sendProtocol ok =>
      match s.place with
      | .sending co v =>
          if s.sched.running = some co then
            some {s with place := if encodes serializeAsString object v && ok then .reading co else .broken co}
          else none
      | _ => none
  | .finish =>
      match s.place with
      | .broken co =>
          if s.sched.running = some co then do
            let t ← Scheduler.step s.sched .finish
            some {s with sched := t, place := .finished}
          else none
      | _ => none

/-- The value that a writer has put into the wait context of SendLoop. -/
def inHand (h : Heap) : Place → List Value
  | .suspended _ w => if (h.ctx w).state = kReady then [h.block (h.ctx w).buf] else []
  | _ => []

/-- The requests that fit have been handed to SendProtocol, in channel order, up to those
still in the channel; SendLoop goes on, and sleeps with none of them before it. -/
structure Sent (cap : Nat) (s : State) : Prop where
  order : s.accepted.filter (fits serializeAsString object) = s.handed.filter (fits serializeAsString object) ++
    (inHand s.sched.heap s.place ++ contents cap (s.sched.chan sendChannel)).filter (fits serializeAsString object)
  goesOn : (∀ co, s.place ≠ .broken co) ∧ s.place ≠ .finished
  sleeps : ∀ co w, s.place = .suspended co w → (s.sched.heap.ctx w).state = kInit →
    contents cap (s.sched.chan sendChannel) = []
  wakes : ∀ co w, s.place = .suspended co w → (s.sched.heap.ctx w).state = kReady →
    s.sched.running = some co ∨ co ∈ HandOff.readyList s.sched

/-- No Read of SendLoop finds a value without suspending while timeout_ is still set, no
request that SendLoop comes to is too large, the socket writes succeed, and no entry expires
behind a wait context that is claimed. -/
def Undisturbed (s : State) : Event → Prop
  | .sched e => HandOff.Unclaimed s.sched e
  | .read _ => s.sched.timeout = true → buffered (s.sched.chan sendChannel) = false
  | .sendProtocol ok => ok = true ∧ ∀ co v, s.place = .sending co v → fits serializeAsString object v = true
  | _ => True

end

/- The wait context of SendLoop's Read. Its block is its own, and nobody else's claim is for
it; whoever ends the wait, timeout_ tells which. -/
structure Waits (s : Scheduler.State) (co w : Nat) : Prop where
  less : w < s.heap.next
  buf : (s.heap.ctx w).buf = .priv w
  queued : (s.heap.ctx w).state = kInit → w ∈ (s.chan sendChannel).waitQueue ∧
    (s.chan sendChannel).full = false ∧ (s.chan sendChannel).rx = (s.chan sendChannel).wx
  place : (∃ timer, (s.pool.co co).status = .suspended (.read w) timer) ∨
    (s.running = some co ∧ ((s.heap.ctx w).state = kReady ∧ s.timeout = false ∨
      (s.heap.ctx w).state = kTimeout ∧ s.timeout = true))

def Placed (s : Scheduler.State) : Place → Prop
  | .connected => True
  | .reading co => s.running = some co
  | .suspended co w => Waits s co w
  | .sending co _ => s.running = some co ∨ ∃ timer, (s.pool.co co).status = .suspended .io timer
  | .broken _ => False
  | .finished => False

/- The queues: no context is in two, and in that of send_channel_ the only live reader is
SendLoop and the live writers hold pointers. -/
structure Queues (s : Scheduler.State) (place : Place) : Prop where
  apart : ∀ ch, ch ≠ sendChannel → ∀ x ∈ (s.chan ch).waitQueue, x ∉ (s.chan sendChannel).waitQueue
  readers : (s.chan sendChannel).full = false → ∀ x ∈ (s.chan sendChannel).waitQueue,
    (s.heap.ctx x).state = kInit → ∃ co, place = .suspended co x
  writers : (s.chan sendChannel).full = true → ∀ x ∈ (s.chan sendChannel).waitQueue, (s.heap.ctx x).state = kInit →
    (s.heap.block (s.heap.ctx x).buf).length = (s.chan sendChannel).blkSize

structure Inv (cap : Nat) (s : State) : Prop where
  hand : HandOff.Inv s.sched
  kept : ∃ vals, Holding cap (s.sched.chan sendChannel) vals ∧ s.accepted = s.handed ++ inHand s.sched.heap s.place ++ vals
  queues : Queues s.sched s.place
  placed : Placed s.sched s.place

section Scheduler
variable {s t : Scheduler.State} {e : Scheduler.Event} {co w : Nat}

theorem suspendOther (s : Scheduler.State) {d : Nat} (differ : co ≠ d) (w : Nat) (wait : Scheduler.Wait)
    (ms freed : Nat) :
    (((s.setWaitCtx d w).suspend d wait ms freed).pool.co co).status = (s.pool.co co).status := by
  simp only [Scheduler.State.suspend]
  split <;>
    simp only [Scheduler.setStatusOther _ _ differ,Scheduler.State.setWaitCtx,Scheduler.Pool.set,Function.update_of_ne differ]

theorem afterReadOther (s : Scheduler.State) {d : Nat} (differ : co ≠ d) (ch freed : Nat)
    (r : ChannelImpl × Heap × ReadOutcome) :
    ((s.afterRead d ch freed r).pool.co co).status = (s.pool.co co).status := by
  refine Scheduler.afterReadRule (P := fun t => (t.pool.co co).status = (s.pool.co co).status) (fun _ _ _ _ => rfl) ?_ ch r
  intro chan heap w wait ms
  exact suspendOther _ differ w wait ms freed

theorem afterWriteOther (s : Scheduler.State) {d : Nat} (differ : co ≠ d) (ch freed : Nat) (v : Value)
    (r : ChannelImpl × Heap × WriteOutcome) : ((s.afterWrite d ch freed v r).pool.co co).status =
    (s.pool.co co).status := by
  refine Scheduler.afterWriteRule (P := fun t => (t.pool.co co).status = (s.pool.co co).status) (fun _ _ _ _ => rfl) ?_ ch v r
  intro chan heap w wait ms
  exact suspendOther _ differ w wait ms freed

def Resumed (s t : Scheduler.State) (co : Nat) : Prop :=
  t.running = some co ∧ t.heap = s.heap ∧ t.chan = s.chan ∧ t.timeout = s.timeout ∧
    ((co ∈ HandOff.readyList s ∧ ∃ new ready, s.phase = .tasks new ready) ∨
      (co ∈ HandOff.collectedOf s.phase ∧ ∃ tasks, s.phase = .timeouts tasks ∧ tasks ≠ []) ∨
      ∃ timer, (s.pool.co co).status = .suspended .io timer)

theorem suspendedStep (slots : Scheduler.Slots s.pool s.running) (h : Steps s e t)
    (asleep : HandOff.asleep (s.pool.co co).status = true) :
    (t.pool.co co).status = (s.pool.co co).status ∨ Resumed s t co := by
  have other : ∀ d, s.running = some d → co ≠ d := by
    rintro d run rfl
    rw [slots.runner co run] at asleep
    contradiction
  cases h with
  | ioResumed d timer free phase status =>
    by_cases same : co = d
    · subst d
      exact Or.inr ⟨rfl,rfl,rfl,rfl,Or.inr (Or.inr ⟨timer,status⟩)⟩
    · exact Or.inl (by rw [Scheduler.State.resumed,Scheduler.setStatusOther _ _ same])
  | readyResumed d cs wait timer free phase status =>
    by_cases same : co = d
    · subst d
      refine Or.inr ⟨rfl,rfl,rfl,rfl,Or.inl ⟨?_,_,_,phase⟩⟩
      simp [HandOff.readyList,phase,HandOff.readyOf]
    · exact Or.inl (by rw [Scheduler.State.resumed,Scheduler.setStatusOther _ _ same])
  | timeoutResumed d id rest wait timer free phase status =>
    by_cases same : co = d
    · subst d
      refine Or.inr ⟨rfl,rfl,rfl,rfl,Or.inr (Or.inl ⟨?_,_,phase,by simp⟩)⟩
      simp [phase,HandOff.collectedOf]
    · exact Or.inl (by rw [Scheduler.State.resumed,Scheduler.setStatusOther _ _ same])
  | started f fs rs free phase =>
    obtain ⟨spare,status,-⟩ := Scheduler.popSpare slots
    have differ : co ≠ s.pool.pop.1 := by
      intro same
      rw [same,spare] at asleep
      contradiction
    left
    rw [Scheduler.setStatusOther _ _ differ]
    exact status co
  | fellBack e es tasks erases w pool more free phase timer due ctx lost same pushed => exact Or.inl (same.2.2 co).1
  | slept d deadline freed wait ev run kind =>
    exact Or.inl (by rw [Scheduler.State.armed,Scheduler.setStatusOther _ _ (other d run)])
  | yielded d wait ev run kind =>
    exact Or.inl (by rw [Scheduler.State.yielded,Scheduler.setStatusOther _ _ (other d run)])
  | read d ch freed onStack run => exact Or.inl (afterReadOther s (other d run) _ _ _)
  | write d ch freed onStack v run size => exact Or.inl (afterWriteOther s (other d run) _ _ _ _)
  | queued d m run busy =>
    exact Or.inl (by rw [Scheduler.State.yielded,Scheduler.setStatusOther _ _ (other d run)])
  | finished d run =>
    left
    change ((s.pool.setStatus d .idle).co co).status = _
    rw [Scheduler.setStatusOther _ _ (other d run)]
  | _ => exact Or.inl rfl

theorem waitsStep (hand : HandOff.Inv s) (waits : Waits s co w) (run : s.running ≠ some co) (h : Steps s e t)
    (next : s.heap.next ≤ t.heap.next) (buf : (t.heap.ctx w).buf = (s.heap.ctx w).buf)
    (queued : (t.heap.ctx w).state = kInit → w ∈ (t.chan sendChannel).waitQueue ∧
      (t.chan sendChannel).full = false ∧ (t.chan sendChannel).rx = (t.chan sendChannel).wx) : Waits t co w := by
  refine ⟨Nat.lt_of_lt_of_le waits.less next,buf.trans waits.buf,queued,?_⟩
  obtain ⟨timer,status⟩ := waits.place.resolve_right (fun back => run back.1)
  rcases suspendedStep hand.slots h (by rw [status]; rfl) with same | ⟨running,heap,-,flag,list⟩
  · exact Or.inl ⟨timer,same.trans status⟩
  · refine Or.inr ⟨running,?_⟩
    have ctx : HandOff.ctxOf (s.pool.co co).status = some w := by rw [status]; rfl
    have phased := hand.flag
    rw [heap,flag]
    rcases list with ⟨inside,new,ready,phase⟩ | ⟨inside,tasks,phase,some⟩ | ⟨other,io⟩
    · rw [phase] at phased
      rcases hand.lists.ready co inside with ⟨x,theirs,won⟩ | ⟨m,mutex,-⟩
      · cases Option.some.inj (ctx.symm.trans theirs)
        exact Or.inl ⟨won,phased⟩
      · rw [status] at mutex
        contradiction
    · rw [phase] at phased
      rcases hand.lists.collected co inside with ⟨x,theirs,won⟩ | plain
      · cases Option.some.inj (ctx.symm.trans theirs)
        exact Or.inr ⟨won,phased some⟩
      · rw [status] at plain
        contradiction
    · rw [status] at io
      cases io

def onChannel : Scheduler.Event → Bool
  | .read _ _ _ | .write _ _ _ _ => true
  | _ => false

theorem quietStep (h : Steps s e t) (quiet : onChannel e = false) : t.chan = s.chan ∧
    (t.heap = s.heap ∨ ∃ x, (s.heap.ctx x).state = kInit ∧ t.heap = s.heap.setState x kTimeout) := by
  cases h with
  | timedOut e es tasks erases x free phase timer due ctx won => exact ⟨rfl,Or.inr ⟨x,won,rfl⟩⟩
  | read d ch freed onStack run => contradiction
  | write d ch freed onStack v run size => contradiction
  | _ => exact ⟨rfl,Or.inl rfl⟩

theorem quietHeap (heap : t.heap = s.heap ∨ ∃ x, (s.heap.ctx x).state = kInit ∧ t.heap = s.heap.setState x kTimeout)
    (y : Nat) :
    t.heap.next = s.heap.next ∧ t.heap.block = s.heap.block ∧ (t.heap.ctx y).buf = (s.heap.ctx y).buf ∧
    ((t.heap.ctx y).state = kInit → (s.heap.ctx y).state = kInit) ∧
    ((t.heap.ctx y).state = kReady ↔ (s.heap.ctx y).state = kReady) := by
  rcases heap with same | ⟨x,init,same⟩
  · rw [same]
    exact ⟨rfl,rfl,rfl,id,Iff.rfl⟩
  · rw [same]
    refine ⟨rfl,rfl,setStateBuf _ _ _ y,fun state => (setStateInit (by decide) state).2,?_⟩
    by_cases here : y = x
    · subst y
      rw [setStateSelf,init]
      decide
    · rw [setStateOther here]

/- A context that is not claimed, or whose block is its own, shares its block with nobody. -/
def Lives (h : Heap) (y : Nat) : Prop := y < h.next ∧ ((h.ctx y).state = kInit ∨ (h.ctx y).buf = .priv y)

theorem claimApart {x y : Nat} (hand : HandOff.Inv s) (init : (s.heap.ctx x).state = kInit) (less : x < s.heap.next)
    (lives : Lives s.heap y) (differ : y ≠ x) : (s.heap.ctx y).buf ≠ (s.heap.ctx x).buf := by
  intro same
  rcases hand.contexts.buf x less with own | own
  · rcases hand.contexts.buf y lives.1 with theirs | theirs
    · rw [own,theirs] at same
      exact differ (Loc.priv.inj same)
    · rw [own,theirs] at same
      contradiction
  · rcases lives.2 with alive | theirs
    · rcases hand.contexts.buf y lives.1 with theirs | theirs
      · rw [own,theirs] at same
        contradiction
      · -- Both coroutines would be the same one, asleep in two waits.
        rw [own,theirs] at same
        have asleep := hand.contexts.init y lives.1 alive
        rw [Loc.own.inj same,hand.contexts.init x less init] at asleep
        exact differ (Option.some.inj asleep).symm
    · rw [own,theirs] at same
      contradiction

theorem freshApart {y d : Nat} (hand : HandOff.Inv s) (run : s.running = some d) (lives : Lives s.heap y)
    (onStack : Bool) :
    (s.heap.ctx y).buf ≠ if onStack then .priv s.heap.next else .own d := by
  intro same
  rcases hand.contexts.buf y lives.1 with theirs | theirs
  · cases onStack with
    | true =>
      rw [theirs] at same
      exact absurd (Loc.priv.inj same) (Nat.ne_of_lt lives.1)
    | false =>
      rw [theirs] at same
      contradiction
  · cases onStack with
    | true =>
      rw [theirs] at same
      contradiction
    | false =>
      rcases lives.2 with alive | own
      · rw [theirs] at same
        have asleep := hand.contexts.init y lives.1 alive
        rw [Loc.own.inj same,hand.slots.runner d run] at asleep
        contradiction
      · rw [own] at same
        contradiction

def Untouched (h k : Heap) (y : Nat) : Prop := k.ctx y = h.ctx y ∧ k.block (h.ctx y).buf = h.block (h.ctx y).buf

theorem claimUntouched {x y : Nat} (hand : HandOff.Inv s) (init : (s.heap.ctx x).state = kInit) (less : x < s.heap.next)
    (lives : Lives s.heap y) (differ : y ≠ x) (v : Value) : Untouched s.heap (s.heap.setState x kReady) y ∧
    Untouched s.heap ((s.heap.setState x kReady).put ((s.heap.setState x kReady).ctx x).buf v) y := by
  have ctx := setStateOther (h := s.heap) differ kReady
  refine ⟨⟨ctx,rfl⟩,ctx,?_⟩
  have apart : (s.heap.ctx y).buf ≠ ((s.heap.setState x kReady).ctx x).buf := by
    rw [setStateBuf]
    exact claimApart hand init less lives differ
  exact Function.update_of_ne apart _ _

theorem freshUntouched {y d : Nat} (hand : HandOff.Inv s) (run : s.running = some d) (lives : Lives s.heap y)
    (onStack : Bool) (v : Value) : Untouched s.heap (createWaitCtxInfo s.heap kInit d onStack) y ∧
    Untouched s.heap ((createWaitCtxInfo s.heap kInit d onStack).put
      ((createWaitCtxInfo s.heap kInit d onStack).ctx s.heap.next).buf v) y := by
  have ctx := createOther (Nat.ne_of_lt lives.1) kInit d onStack
  refine ⟨⟨ctx,rfl⟩,ctx,?_⟩
  have apart := freshApart hand run lives onStack
  refine Function.update_of_ne ?_ _ _
  rw [createSelf]
  exact apart

theorem afterReadParts (s : Scheduler.State) (d ch freed : Nat) (r : ChannelImpl × Heap × ReadOutcome) :
    (s.afterRead d ch freed r).chan = Function.update s.chan ch r.1 ∧ (s.afterRead d ch freed r).heap = r.2.1 := by
  obtain ⟨c,h,outcome⟩ := r
  cases outcome with
  | taken v => exact ⟨rfl,rfl⟩
  | woke v w => exact ⟨rfl,rfl⟩
  | suspended w =>
    simp only [Scheduler.State.afterRead,Scheduler.State.suspend]
    split <;> exact ⟨rfl,rfl⟩

def copied (h : Heap) (v : Value) : WriteOutcome → Heap
  | .handOff w => h.put (h.ctx w).buf v
  | _ => h

theorem afterWriteParts (s : Scheduler.State) (d ch freed : Nat) (v : Value) (r : ChannelImpl × Heap × WriteOutcome) :
    (s.afterWrite d ch freed v r).chan = Function.update s.chan ch r.1 ∧
    (s.afterWrite d ch freed v r).heap = copied r.2.1 v r.2.2 := by
  obtain ⟨c,h,outcome⟩ := r
  cases outcome with
  | stored => exact ⟨rfl,rfl⟩
  | handOff w => exact ⟨rfl,rfl⟩
  | suspended w =>
    simp only [Scheduler.State.afterWrite,Scheduler.State.suspend]
    split <;> exact ⟨rfl,rfl⟩

theorem readStep {ch freed : Nat} {onStack : Bool} (h : Scheduler.step s (.read ch onStack freed) = some t) :
    ∃ d, s.running = some d ∧ t = s.afterRead d ch freed (readSection (s.chan ch) s.heap kInit d onStack) := by
  simp only [Scheduler.step] at h
  split at h
  · contradiction
  · exact ⟨_,‹_›,(Option.some.inj h).symm⟩

theorem writeStep {ch freed : Nat} {onStack : Bool} {v : Value}
    (h : Scheduler.step s (.write ch onStack v freed) = some t) :
    ∃ d, s.running = some d ∧ v.length = (s.chan ch).blkSize ∧
      t = s.afterWrite d ch freed v (writeSection (s.chan ch) s.heap kInit d onStack v) := by
  simp only [Scheduler.step] at h
  split at h
  · contradiction
  · simp only [Scheduler.runningStep] at h
    split at h <;> try contradiction
    exact ⟨_,‹_›,‹_›,(Option.some.inj h).symm⟩

/-- What a section on channel `ch` leaves alone. -/
structure Section (s t : Scheduler.State) (ch : Nat) : Prop where
  next : s.heap.next ≤ t.heap.next
  chan : ∀ g, g ≠ ch → t.chan g = s.chan g
  queue : ∀ x ∈ (t.chan ch).waitQueue, x ∈ (s.chan ch).waitQueue ∨ x = s.heap.next
  ctx : ∀ y, y < s.heap.next → (y ∈ (s.chan ch).waitQueue → (s.heap.ctx y).state ≠ kInit) → t.heap.ctx y = s.heap.ctx y
  heap : ∀ y, Lives s.heap y → (y ∈ (s.chan ch).waitQueue → (s.heap.ctx y).state ≠ kInit) → Untouched s.heap t.heap y

theorem sectionQuiet {ch : Nat} {c : ChannelImpl} (chan : t.chan = Function.update s.chan ch c) (heap : t.heap = s.heap)
    (queue : ∀ x ∈ c.waitQueue, x ∈ (s.chan ch).waitQueue) : Section s t ch := by
  refine ⟨by rw [heap],?_,?_,fun _ _ _ => by rw [heap],fun _ _ _ => by rw [heap]; exact ⟨rfl,rfl⟩⟩
  · intro g differ
    rw [chan,Function.update_of_ne differ]
  · rw [chan,Function.update_self]
    exact fun x inside => Or.inl (queue x inside)

theorem sectionClaim {ch x : Nat} {c : ChannelImpl} {v : Value} (hand : HandOff.Inv s)
    (chan : t.chan = Function.update s.chan ch c)
    (heap : t.heap = s.heap.setState x kReady ∨
      t.heap = (s.heap.setState x kReady).put ((s.heap.setState x kReady).ctx x).buf v)
    (inside : x ∈ (s.chan ch).waitQueue) (init : (s.heap.ctx x).state = kInit)
    (queue : ∀ y ∈ c.waitQueue, y ∈ (s.chan ch).waitQueue) : Section s t ch := by
  have other : ∀ y, (y ∈ (s.chan ch).waitQueue → (s.heap.ctx y).state ≠ kInit) → y ≠ x := by
    rintro y out rfl
    exact out inside init
  refine ⟨?_,?_,?_,?_,?_⟩
  · rcases heap with heap | heap <;> (rw [heap]; exact le_refl _)
  · intro g differ
    rw [chan,Function.update_of_ne differ]
  · rw [chan,Function.update_self]
    exact fun y inside => Or.inl (queue y inside)
  · intro y _ out
    have same := setStateOther (h := s.heap) (other y out) kReady
    rcases heap with heap | heap <;> (rw [heap]; exact same)
  · intro y lives out
    have untouched := claimUntouched hand init (hand.queues ch x inside) lives (other y out) v
    rcases heap with heap | heap
    · rw [heap]
      exact untouched.1
    · rw [heap]
      exact untouched.2

theorem sectionPush {ch d : Nat} {c : ChannelImpl} {v : Value} {onStack : Bool} (hand : HandOff.Inv s)
    (run : s.running = some d) (chan : t.chan = Function.update s.chan ch c)
    (heap : t.heap = createWaitCtxInfo s.heap kInit d onStack ∨ t.heap = (createWaitCtxInfo s.heap kInit d onStack).put
      ((createWaitCtxInfo s.heap kInit d onStack).ctx s.heap.next).buf v)
    (queue : c.waitQueue = (s.chan ch).waitQueue ++ [s.heap.next]) : Section s t ch := by
  refine ⟨?_,?_,?_,?_,?_⟩
  · rcases heap with heap | heap <;> (rw [heap]; exact Nat.le_succ _)
  · intro g differ
    rw [chan,Function.update_of_ne differ]
  · rw [chan,Function.update_self,queue]
    intro y inside
    simpa using inside
  · intro y less _
    have same := createOther (Nat.ne_of_lt less) kInit d onStack
    rcases heap with heap | heap <;> (rw [heap]; exact same)
  · intro y lives _
    have untouched := freshUntouched hand run lives onStack v
    rcases heap with heap | heap
    · rw [heap]
      exact untouched.1
    · rw [heap]
      exact untouched.2

theorem readSectionOf {ch freed : Nat} {onStack : Bool} (hand : HandOff.Inv s)
    (h : Scheduler.step s (.read ch onStack freed) = some t) : Section s t ch := by
  obtain ⟨d,run,rfl⟩ := readStep h
  obtain ⟨chan,heap⟩ := afterReadParts s d ch freed (readSection (s.chan ch) s.heap kInit d onStack)
  rcases readSource (s.chan ch) s.heap kInit d onStack with ⟨c,v,eq,part⟩ | ⟨c,v,x,eq,inside,init,part⟩ | eq
  · rw [eq] at chan heap ⊢
    exact sectionQuiet chan heap part
  · rw [eq] at chan heap ⊢
    exact sectionClaim (v := v) hand chan (Or.inl heap) inside init part
  · rw [eq] at chan heap ⊢
    exact sectionPush (v := []) hand run chan (Or.inl heap) rfl

theorem writeSectionOf {ch freed : Nat} {onStack : Bool} {v : Value} (hand : HandOff.Inv s)
    (h : Scheduler.step s (.write ch onStack v freed) = some t) : Section s t ch := by
  obtain ⟨d,run,-,rfl⟩ := writeStep h
  obtain ⟨chan,heap⟩ := afterWriteParts s d ch freed v (writeSection (s.chan ch) s.heap kInit d onStack v)
  rcases writeSource (s.chan ch) s.heap kInit d onStack v with ⟨c,eq,part⟩ | ⟨c,x,eq,inside,init,part⟩ | eq
  · rw [eq] at chan heap ⊢
    exact sectionQuiet chan heap part
  · rw [eq] at chan heap ⊢
    exact sectionClaim hand chan (Or.inr heap) inside init part
  · rw [eq] at chan heap ⊢
    exact sectionPush hand run chan (Or.inr heap) rfl

end Scheduler

section
variable {cap : Nat} {s : State} {t : Scheduler.State} {e : Scheduler.Event}

theorem othersRunning {co : Nat} (allowed : others s e = true) (run : s.sched.running = some co)
    (own : s.place.co = some co) :
    (∃ f, e = .go f) ∨ ∃ n, e = .tick n := by
  cases e <;> simp [others,run,own] at allowed ⊢

theorem besideStep {co : Nat} (h : Scheduler.step s.sched e = some t) (allowed : others s e = true)
    (run : s.sched.running = some co) (own : s.place.co = some co) :
    t.running = s.sched.running ∧ t.heap = s.sched.heap ∧ t.chan = s.sched.chan ∧ t.timeout = s.sched.timeout := by
  rcases othersRunning allowed run own with ⟨f,rfl⟩ | ⟨n,rfl⟩ <;>
    (cases Option.some.inj h; exact ⟨rfl,rfl,rfl,rfl⟩)

def Attended (s : State) (t : Scheduler.State) : Prop :=
  ∀ co w, s.place = .suspended co w → (t.heap.ctx w).buf = (s.sched.heap.ctx w).buf ∧
    ((t.heap.ctx w).state = kInit → w ∈ (t.chan sendChannel).waitQueue ∧
      (t.chan sendChannel).full = false ∧ (t.chan sendChannel).rx = (t.chan sendChannel).wx)

theorem placedStep (inv : Inv cap s) (h : Scheduler.step s.sched e = some t) (allowed : others s e = true)
    (next : s.sched.heap.next ≤ t.heap.next)
    (waits : Attended s t) :
    Placed t s.place := by
  have placed := inv.placed
  have source := Scheduler.stepSource h
  cases place : s.place with
  | connected => trivial
  | reading co =>
    rw [place] at placed
    exact (besideStep h allowed placed (by rw [place]; rfl)).1.trans placed
  | suspended co w =>
    rw [place] at placed
    obtain ⟨buf,queued⟩ := waits co w place
    by_cases run : s.sched.running = some co
    · obtain ⟨running,heap,-,flag⟩ := besideStep h allowed run (by rw [place]; rfl)
      have back := placed.place.resolve_left (fun ⟨timer,status⟩ => by
        rw [inv.hand.slots.runner co run] at status
        contradiction)
      refine ⟨Nat.lt_of_lt_of_le placed.less next,buf.trans placed.buf,queued,Or.inr ⟨running.trans run,?_⟩⟩
      rw [heap,flag]
      exact back.2
    · exact waitsStep inv.hand placed run source next buf queued
  | sending co v =>
    rw [place] at placed
    by_cases run : s.sched.running = some co
    · exact Or.inl ((besideStep h allowed run (by rw [place]; rfl)).1.trans run)
    · obtain ⟨timer,status⟩ := placed.resolve_left run
      rcases suspendedStep inv.hand.slots source (by rw [status]; rfl) with same | resumed
      · exact Or.inr ⟨timer,same.trans status⟩
      · exact Or.inl resumed.1
  | broken co =>
    rw [place] at placed
    exact placed
  | finished =>
    rw [place] at placed
    exact placed

theorem placedWaits {co w : Nat} (inv : Inv cap s) (place : s.place = .suspended co w) : Waits s.sched co w := by
  have placed := inv.placed
  rw [place] at placed
  exact placed

/- What is in hand depends on the wait context of SendLoop only. -/
theorem inHandKept {h k : Heap} {place : Place} (kept : ∀ co w, place = .suspended co w →
    ((k.ctx w).state = kReady ↔ (h.ctx w).state = kReady) ∧ k.block (k.ctx w).buf = h.block (h.ctx w).buf) :
    inHand k place = inHand h place := by
  cases place with
  | suspended co w =>
    obtain ⟨won,block⟩ := kept co w rfl
    simp only [inHand,won,block]
  | _ => rfl

theorem inHandUntouched {h k : Heap} {place : Place} (kept : ∀ co w, place = .suspended co w → Untouched h k w) :
    inHand k place = inHand h place := by
  refine inHandKept ?_
  intro co w here
  obtain ⟨ctx,block⟩ := kept co w here
  rw [ctx]
  exact ⟨Iff.rfl,block⟩

theorem quietKeeps (inv : Inv cap s) (unclaimed : HandOff.Unclaimed s.sched e) (h : Scheduler.step s.sched e = some t)
    (allowed : others s e = true) (quiet : onChannel e = false) : Inv cap {s with sched := t} := by
  obtain ⟨chan,heap⟩ := quietStep (Scheduler.stepSource h) quiet
  have facts := fun y => quietHeap heap y
  obtain ⟨vals,holding,accepted⟩ := inv.kept
  refine ⟨HandOff.stepKeeps inv.hand unclaimed h,⟨vals,?_,?_⟩,⟨?_,?_,?_⟩,?_⟩
  · rw [chan]
    exact holding
  · change s.accepted = s.handed ++ inHand t.heap s.place ++ vals
    rw [inHandKept (fun co w _ => ⟨(facts w).2.2.2.2,by rw [(facts w).2.1,(facts w).2.2.1]⟩)]
    exact accepted
  · rw [chan]
    exact inv.queues.apart
  · rw [chan]
    intro partly x inside init
    exact inv.queues.readers partly x inside ((facts x).2.2.2.1 init)
  · rw [chan]
    intro full x inside init
    rw [(facts x).2.1,(facts x).2.2.1]
    exact inv.queues.writers full x inside ((facts x).2.2.2.1 init)
  · have moved : Placed t s.place := by
      refine placedStep inv h allowed (le_of_eq (facts 0).1.symm) ?_
      intro co w place
      refine ⟨(facts w).2.2.1,fun init => ?_⟩
      rw [chan]
      exact (placedWaits inv place).queued ((facts w).2.2.2.1 init)
    exact moved

theorem foreignKeeps {ch : Nat} (inv : Inv cap s) (unclaimed : HandOff.Unclaimed s.sched e)
    (h : Scheduler.step s.sched e = some t) (allowed : others s e = true) (other : ch ≠ sendChannel)
    (part : Section s.sched t ch) : Inv cap {s with sched := t} := by
  have chan := part.chan sendChannel (Ne.symm other)
  have out : ∀ x ∈ (s.sched.chan sendChannel).waitQueue, x ∉ (s.sched.chan ch).waitQueue :=
    fun x inside again => inv.queues.apart ch other x again inside
  have ctx : ∀ x ∈ (s.sched.chan sendChannel).waitQueue, t.heap.ctx x = s.sched.heap.ctx x :=
    fun x inside => part.ctx x (inv.hand.queues sendChannel x inside) (fun again => absurd again (out x inside))
  have own : ∀ co w, s.place = .suspended co w → Untouched s.sched.heap t.heap w := by
    intro co w place
    have waits := placedWaits inv place
    refine part.heap w ⟨waits.less,Or.inr waits.buf⟩ ?_
    intro again init
    exact out w (waits.queued init).1 again
  obtain ⟨vals,holding,accepted⟩ := inv.kept
  refine ⟨HandOff.stepKeeps inv.hand unclaimed h,⟨vals,?_,?_⟩,⟨?_,?_,?_⟩,?_⟩
  · rw [chan]
    exact holding
  · change s.accepted = s.handed ++ inHand t.heap s.place ++ vals
    rw [inHandUntouched own]
    exact accepted
  · rw [chan]
    intro g differ x inside again
    by_cases here : g = ch
    · subst g
      rcases part.queue x inside with before | fresh
      · exact out x again before
      · have less := inv.hand.queues sendChannel x again
        omega
    · rw [part.chan g here] at inside
      exact inv.queues.apart g differ x inside again
  · rw [chan]
    intro partly x inside init
    rw [ctx x inside] at init
    exact inv.queues.readers partly x inside init
  · rw [chan]
    intro full x inside init
    rw [ctx x inside] at init ⊢
    have less := inv.hand.queues sendChannel x inside
    rw [(part.heap x ⟨less,Or.inl init⟩ (fun again => absurd again (out x inside))).2]
    exact inv.queues.writers full x inside init
  · have moved : Placed t s.place := by
      refine placedStep inv h allowed part.next ?_
      intro co w place
      obtain ⟨kept,-⟩ := own co w place
      rw [kept,chan]
      exact ⟨rfl,(placedWaits inv place).queued⟩
    exact moved

theorem holdingQueue {c : ChannelImpl} {vals : List Value} {ws : List Nat} (holding : Holding cap c vals)
    (quiet : ws = [] ∨ vals = [] ∨ vals.length = cap) : Holding cap {c with waitQueue := ws} vals := by
  obtain ⟨r,ring⟩ := holding.ring
  exact ⟨⟨r,ring.size,ring.small,ring.apart,ring.low,ring.read,ring.write,ring.fits,ring.holds⟩,holding.full,quiet⟩

theorem storeKeeps {v : Value} {c : ChannelImpl} {vals : List Value}
    (hand : HandOff.Inv t) (accepted : s.accepted = s.handed ++ inHand s.sched.heap s.place ++ vals)
    (holding : Holding cap c (vals ++ [v])) (empty : c.waitQueue = [])
    (chan : t.chan = Function.update s.sched.chan sendChannel c) (heap : t.heap = s.sched.heap)
    (placed : Placed t s.place) : Inv cap {s with sched := t, accepted := s.accepted ++ [v]} := by
  have here : t.chan sendChannel = c := by rw [chan,Function.update_self]
  refine ⟨hand,⟨vals ++ [v],?_,?_⟩,⟨?_,?_,?_⟩,placed⟩
  · rw [here]
    exact holding
  · change s.accepted ++ [v] = s.handed ++ inHand t.heap s.place ++ (vals ++ [v])
    rw [heap,accepted,List.append_assoc _ vals]
  · rw [here,empty]
    simp
  · rw [here,empty]
    simp
  · rw [here,empty]
    simp

theorem handOffKeeps {w : Nat} {v : Value} {ws : List Nat} (inv : Inv cap s) (hand : HandOff.Inv t)
    (accepted : s.accepted = s.handed ++ inHand s.sched.heap s.place)
    (holding : Holding cap (s.sched.chan sendChannel) []) (partly : (s.sched.chan sendChannel).full = false)
    (found : claim s.sched.heap (s.sched.chan sendChannel).waitQueue = (some w,ws))
    (chan : t.chan = Function.update s.sched.chan sendChannel {s.sched.chan sendChannel with waitQueue := ws})
    (heap : t.heap = (s.sched.heap.setState w kReady).put ((s.sched.heap.setState w kReady).ctx w).buf v)
    (moved : Attended s t → Placed t s.place) : Inv cap {s with sched := t, accepted := s.accepted ++ [v]} := by
  obtain ⟨inside,init,part⟩ := claimSome found
  obtain ⟨co,place⟩ := inv.queues.readers partly w inside init
  have here : t.chan sendChannel = {s.sched.chan sendChannel with waitQueue := ws} := by rw [chan,Function.update_self]
  have claimed : (t.heap.ctx w).state = kReady ∧ t.heap.block (t.heap.ctx w).buf = v := by
    rw [heap]
    simp [Heap.put,Heap.setState]
  have before : ∀ x, (t.heap.ctx x).state = kInit → x ≠ w ∧ (s.sched.heap.ctx x).state = kInit := by
    intro x alive
    rw [heap] at alive
    exact setStateInit (by decide) alive
  refine ⟨hand,⟨[],?_,?_⟩,⟨?_,?_,?_⟩,?_⟩
  · rw [here]
    exact holdingQueue holding (Or.inr (Or.inl rfl))
  · change s.accepted ++ [v] = s.handed ++ inHand t.heap s.place ++ []
    rw [accepted,place]
    simp only [inHand,init,claimed.1,claimed.2]
    simp [kInit,kReady]
  · rw [here]
    intro g differ x queued again
    rw [chan,Function.update_of_ne differ] at queued
    exact inv.queues.apart g differ x queued (part x again)
  · rw [here]
    intro _ x queued alive
    obtain ⟨differ,alive⟩ := before x alive
    obtain ⟨d,same⟩ := inv.queues.readers partly x (part x queued) alive
    rw [place] at same
    injection same with _ again
    exact absurd again.symm differ
  · rw [here]
    intro full
    exact absurd (partly.symm.trans full) (by decide)
  · refine moved ?_
    intro d x same
    rw [place] at same
    injection same with _ same
    subst x
    refine ⟨?_,fun alive => absurd rfl (before w alive).1⟩
    rw [heap]
    exact setStateBuf _ _ _ w

theorem freshQueue {s t : Scheduler.State} {c : ChannelImpl} (hand : HandOff.Inv s)
    (apart : ∀ ch, ch ≠ sendChannel → ∀ x ∈ (s.chan ch).waitQueue, x ∉ (s.chan sendChannel).waitQueue)
    (chan : t.chan = Function.update s.chan sendChannel c) : ∀ ch, ch ≠ sendChannel →
    ∀ x ∈ (t.chan ch).waitQueue, x ∉ (s.chan sendChannel).waitQueue ++ [s.heap.next] := by
  intro ch differ x queued again
  rw [chan,Function.update_of_ne differ] at queued
  rcases List.mem_append.1 again with before | fresh
  · exact apart ch differ x queued before
  · have less := hand.queues ch x queued
    rw [List.mem_singleton.1 fresh] at less
    omega

theorem writerKeeps {d : Nat} {onStack : Bool} {v : Value} {vals : List Value} (inv : Inv cap s) (hand : HandOff.Inv t)
    (size : v.length = (s.sched.chan sendChannel).blkSize)
    (accepted : s.accepted = s.handed ++ inHand s.sched.heap s.place ++ vals)
    (holding : Holding cap (s.sched.chan sendChannel) vals) (whole : vals.length = cap)
    (full : (s.sched.chan sendChannel).full = true)
    (chan : t.chan = Function.update s.sched.chan sendChannel
      {s.sched.chan sendChannel with waitQueue := (s.sched.chan sendChannel).waitQueue ++ [s.sched.heap.next]})
    (heap : t.heap = (createWaitCtxInfo s.sched.heap kInit d onStack).put
      ((createWaitCtxInfo s.sched.heap kInit d onStack).ctx s.sched.heap.next).buf v)
    (untouched : ∀ y, Lives s.sched.heap y → Untouched s.sched.heap t.heap y)
    (moved : Attended s t → Placed t s.place) : Inv cap {s with sched := t} := by
  have here : t.chan sendChannel = {s.sched.chan sendChannel with
      waitQueue := (s.sched.chan sendChannel).waitQueue ++ [s.sched.heap.next]} := by rw [chan,Function.update_self]
  have own : ∀ co w, s.place = .suspended co w → Waits s.sched co w ∧ Untouched s.sched.heap t.heap w := by
    intro co w place
    have waits := placedWaits inv place
    exact ⟨waits,untouched w ⟨waits.less,Or.inr waits.buf⟩⟩
  have old : ∀ x, x < s.sched.heap.next → t.heap.ctx x = s.sched.heap.ctx x := by
    intro x less
    rw [heap]
    exact createOther (Nat.ne_of_lt less) _ _ _
  refine ⟨hand,⟨vals,?_,?_⟩,⟨?_,?_,?_⟩,?_⟩
  · rw [here]
    exact holdingQueue holding (Or.inr (Or.inr whole))
  · change s.accepted = s.handed ++ inHand t.heap s.place ++ vals
    rw [inHandUntouched (fun co w place => (own co w place).2)]
    exact accepted
  · rw [here]
    exact freshQueue inv.hand inv.queues.apart chan
  · rw [here]
    intro partly
    exact absurd (full.symm.trans partly) (by decide)
  · rw [here]
    intro _ x queued alive
    rcases List.mem_append.1 queued with before | fresh
    · have less := inv.hand.queues sendChannel x before
      rw [old x less] at alive ⊢
      rw [(untouched x ⟨less,Or.inl alive⟩).2]
      exact inv.queues.writers full x before alive
    · rw [List.mem_singleton.1 fresh,heap]
      simp only [Heap.put,createWaitCtxInfo,Function.update_self]
      exact size
  · refine moved ?_
    intro co x place
    obtain ⟨waits,kept,-⟩ := own co x place
    rw [kept]
    refine ⟨rfl,fun alive => ?_⟩
    exact absurd ((waits.queued alive).2.1.symm.trans full) (by decide)

theorem sendKeeps {freed : Nat} {onStack : Bool} {v : Value} (inv : Inv cap s)
    (h : Scheduler.step s.sched (.write sendChannel onStack v freed) = some t)
    (allowed : others s (.write sendChannel onStack v freed) = true) : Inv cap {s with
      sched := t
      accepted := s.accepted ++ admitted s.sched (.write sendChannel onStack v freed)} := by
  have hand : HandOff.Inv t := HandOff.stepKeeps (e := .write sendChannel onStack v freed) inv.hand trivial h
  have next := (writeSectionOf inv.hand h).next
  obtain ⟨d,run,size,same⟩ := writeStep h
  obtain ⟨chan,heap⟩ := afterWriteParts s.sched d sendChannel freed v
    (writeSection (s.sched.chan sendChannel) s.sched.heap kInit d onStack v)
  rw [← same] at chan heap
  obtain ⟨vals,holding,accepted⟩ := inv.kept
  have moved := placedStep inv h allowed next
  simp only [admitted,run,Option.getD_some,if_true]
  rcases writeHolding (h := s.sched.heap) holding kInit d onStack size with
    ⟨c,eq,stored,partly,empty,dead⟩ | ⟨w,ws,rfl,partly,found,eq⟩ | ⟨whole,full,eq⟩
  · rw [eq] at chan heap ⊢
    refine storeKeeps hand accepted stored empty chan heap (moved ?_)
    intro co w place
    rw [show t.heap = s.sched.heap from heap]
    exact ⟨rfl,fun alive => absurd alive (dead w ((placedWaits inv place).queued alive).1)⟩
  · rw [eq] at chan heap ⊢
    rw [List.append_nil] at accepted
    exact handOffKeeps inv hand accepted holding partly found chan heap moved
  · rw [eq] at chan heap ⊢
    simp only [List.append_nil]
    have untouched : ∀ y, Lives s.sched.heap y → Untouched s.sched.heap t.heap y := by
      intro y lives
      rw [show t.heap = _ from heap]
      exact (freshUntouched inv.hand run lives onStack v).2
    exact writerKeeps inv hand size accepted holding whole full chan heap untouched moved

theorem noReader (inv : Inv cap s) (out : ∀ co w, s.place ≠ .suspended co w)
    (partly : (s.sched.chan sendChannel).full = false) :
    ∀ x ∈ (s.sched.chan sendChannel).waitQueue, (s.sched.heap.ctx x).state ≠ kInit := by
  intro x inside alive
  obtain ⟨co,place⟩ := inv.queues.readers partly x inside alive
  exact out co x place

theorem inHandOut {place : Place} (h : Heap) (out : ∀ co w, place ≠ .suspended co w) : inHand h place = [] := by
  cases place with
  | suspended co w => exact absurd rfl (out co w)
  | _ => rfl

theorem moveKeeps {place : Place} (inv : Inv cap s) (out : ∀ co w, s.place ≠ .suspended co w)
    (away : ∀ co w, place ≠ .suspended co w) (hand : HandOff.Inv t) (chan : t.chan = s.sched.chan)
    (heap : t.heap = s.sched.heap) (placed : Placed t place) : Inv cap {s with sched := t, place := place} := by
  obtain ⟨vals,holding,accepted⟩ := inv.kept
  refine ⟨hand,⟨vals,?_,?_⟩,⟨?_,?_,?_⟩,placed⟩
  · rw [chan]
    exact holding
  · change s.accepted = s.handed ++ inHand t.heap place ++ vals
    rw [inHandOut _ away,← inHandOut s.sched.heap out]
    exact accepted
  · rw [chan]
    exact inv.queues.apart
  · rw [chan,heap]
    intro partly x inside alive
    exact absurd alive (noReader inv out partly x inside)
  · rw [chan,heap]
    exact inv.queues.writers

theorem startKeeps {co : Nat} (inv : Inv cap s) (place : s.place = .connected)
    (h : Scheduler.step s.sched .newTask = some t) (running : t.running = some co) :
    Inv cap {s with sched := t, place := .reading co} := by
  have hand : HandOff.Inv t := HandOff.stepKeeps (e := .newTask) inv.hand trivial h
  have out : ∀ co w, s.place ≠ .suspended co w := by simp [place]
  have quiet : t.chan = s.sched.chan ∧ t.heap = s.sched.heap := by
    cases Scheduler.stepSource h <;> exact ⟨rfl,rfl⟩
  exact moveKeeps inv out (by simp) hand quiet.1 quiet.2 running

theorem ioWaitKeeps {co : Nat} {v : Value} (inv : Inv cap s) (place : s.place = .sending co v)
    (run : s.sched.running = some co) (h : Scheduler.step s.sched (.ioWait uint32Max 0) = some t) :
    Inv cap {s with sched := t} := by
  have hand : HandOff.Inv t := HandOff.stepKeeps (e := .ioWait uint32Max 0) inv.hand trivial h
  have out : ∀ co w, s.place ≠ .suspended co w := by simp [place]
  have source : t = s.sched.yielded co .io := by
    simp only [Scheduler.step,run,Scheduler.runningStep,Scheduler.State.suspend,if_true] at h
    exact (Option.some.inj h).symm
  have placed : Placed t s.place := by
    rw [place,source]
    exact Or.inr ⟨none,Scheduler.setStatusSelf _ _ _⟩
  refine moveKeeps inv out out hand ?_ ?_ placed <;> rw [source] <;> rfl

theorem resumedKeeps {co w : Nat} (inv : Inv cap s) (place : s.place = .suspended co w)
    (run : s.sched.running = some co) :
    Inv cap (s.returned co (s.sched.heap.block (s.sched.heap.ctx w).buf)) := by
  have ended := (placedWaits inv place).place.resolve_left (fun ⟨timer,status⟩ => by
    rw [inv.hand.slots.runner co run] at status
    contradiction)
  have claimed : (s.sched.heap.ctx w).state ≠ kInit := by
    rcases ended.2 with ⟨won,-⟩ | ⟨won,-⟩ <;> (rw [won]; decide)
  have none : (s.sched.chan sendChannel).full = false →
      ∀ x ∈ (s.sched.chan sendChannel).waitQueue, (s.sched.heap.ctx x).state ≠ kInit := by
    intro partly x inside alive
    obtain ⟨d,same⟩ := inv.queues.readers partly x inside alive
    rw [place] at same
    injection same with _ same
    subst x
    exact claimed alive
  have queues : ∀ next, Queues s.sched next :=
    fun next => ⟨inv.queues.apart,fun partly x inside alive => absurd alive (none partly x inside),inv.queues.writers⟩
  obtain ⟨vals,holding,accepted⟩ := inv.kept
  rw [place] at accepted
  rcases ended.2 with ⟨won,flag⟩ | ⟨won,flag⟩
  · simp only [inHand,won,if_true] at accepted
    simp only [State.returned,flag,Bool.false_eq_true,if_false]
    refine ⟨inv.hand,⟨vals,holding,?_⟩,queues _,?_⟩
    · simp only [inHand,List.append_nil]
      exact accepted
    · exact Or.inl run
  · have lost : (s.sched.heap.ctx w).state ≠ kReady := by
      rw [won]
      decide
    simp only [inHand,if_neg lost] at accepted
    simp only [State.returned,flag,if_true]
    exact ⟨inv.hand,⟨vals,holding,accepted⟩,queues _,run⟩

theorem afterReadRunning (s : Scheduler.State) (d ch freed : Nat) (r : ChannelImpl × Heap × ReadOutcome) :
    (s.afterRead d ch freed r).timeout = s.timeout ∧
    ((∀ w, r.2.2 ≠ .suspended w) → (s.afterRead d ch freed r).running = s.running) ∧
    ∀ w, r.2.2 = .suspended w → ∃ timer, ((s.afterRead d ch freed r).pool.co d).status = .suspended (.read w) timer := by
  obtain ⟨c,h,outcome⟩ := r
  cases outcome with
  | taken v => exact ⟨rfl,fun _ => rfl,by simp⟩
  | woke v w => exact ⟨rfl,fun _ => rfl,by simp⟩
  | suspended w =>
    simp only [Scheduler.State.afterRead,Scheduler.State.suspend]
    split
    · refine ⟨rfl,fun no => absurd rfl (no w),?_⟩
      rintro x ⟨⟩
      exact ⟨none,Scheduler.setStatusSelf _ _ _⟩
    · refine ⟨rfl,fun no => absurd rfl (no w),?_⟩
      rintro x ⟨⟩
      exact ⟨_,Scheduler.setStatusSelf _ _ _⟩

theorem holdingBuffered {c : ChannelImpl} {v : Value} {rest : List Value} (holding : Holding cap c (v::rest)) :
    buffered c = true := by
  obtain ⟨r,ring⟩ := holding.ring
  by_cases met : c.rx = c.wx
  · have whole := ((ringMeet ring).1 met).resolve_left (by simp)
    simp [buffered,holding.full.2 whole]
  · simp [buffered,met]

/- SendLoop takes the oldest request from the ring, outside the timeout phase. -/
theorem takeKeeps {co : Nat} {v : Value} {rest vals : List Value} {c : ChannelImpl} (more : List Value)
    (hand : HandOff.Inv t) (run : t.running = some co)
    (accepted : s.accepted = s.handed ++ v::rest) (left : vals = rest ++ more)
    (here : t.chan sendChannel = c) (holding : Holding cap c vals) (queues : Queues t (.sending co v)) :
    Inv cap ⟨t,.sending co v,s.accepted ++ more,s.handed ++ [v]⟩ := by
  refine ⟨hand,⟨vals,?_,?_⟩,queues,Or.inl run⟩
  · rw [here]
    exact holding
  · change s.accepted ++ more = s.handed ++ [v] ++ [] ++ vals
    rw [accepted,left]
    simp

theorem readKeeps {co freed : Nat} (inv : Inv cap s) (place : s.place = .reading co) (run : s.sched.running = some co)
    (calm : s.sched.timeout = true → buffered (s.sched.chan sendChannel) = false)
    (h : Scheduler.step s.sched (.read sendChannel true freed) = some t) :
    Inv cap (s.afterRead co t (readSection (s.sched.chan sendChannel) s.sched.heap kInit co true).2.2) := by
  have hand : HandOff.Inv t := HandOff.stepKeeps (e := .read sendChannel true freed) inv.hand trivial h
  have part := readSectionOf inv.hand h
  have out : ∀ co w, s.place ≠ .suspended co w := by simp [place]
  obtain ⟨d,run',same⟩ := readStep h
  cases Option.some.inj (run.symm.trans run')
  obtain ⟨chan,heap⟩ := afterReadParts s.sched co sendChannel freed
    (readSection (s.sched.chan sendChannel) s.sched.heap kInit co true)
  obtain ⟨flag,running,asleep⟩ := afterReadRunning s.sched co sendChannel freed
    (readSection (s.sched.chan sendChannel) s.sched.heap kInit co true)
  rw [← same] at chan heap flag running asleep
  obtain ⟨vals,holding,accepted⟩ := inv.kept
  rw [inHandOut s.sched.heap out,List.append_nil] at accepted
  -- A request at hand means that the timeout phase is over.
  have past : ∀ v rest, vals = v::rest → t.timeout = false := by
    rintro v rest rfl
    rw [flag]
    by_contra set
    have quiet := calm (by simpa using set)
    rw [holdingBuffered holding] at quiet
    contradiction
  rcases readHolding (h := s.sched.heap) holding kInit co true with
    ⟨v,rest,c,some,eq,next,partly,empty,-⟩ | ⟨none,partly,met,eq⟩ | ⟨v,rest,w,ws,some,full,found,eq,next⟩
  · rw [eq] at chan heap running ⊢
    have here : t.chan sendChannel = c := by rw [chan,Function.update_self]
    have queues : Queues t (.sending co v) := by
      refine ⟨?_,?_,?_⟩ <;> rw [here,empty] <;> simp
    have taken := takeKeeps [] hand ((running (by simp)).trans run) (some ▸ accepted)
      (List.append_nil _).symm here next queues
    simp only [State.afterRead,State.returned,past v rest some,Bool.false_eq_true,if_false]
    rw [List.append_nil] at taken
    exact taken
  · rw [eq] at chan heap asleep ⊢
    have here : t.chan sendChannel = {s.sched.chan sendChannel with
        waitQueue := (s.sched.chan sendChannel).waitQueue ++ [s.sched.heap.next]} := by rw [chan,Function.update_self]
    have made : t.heap.ctx s.sched.heap.next = ⟨co,kInit,.priv s.sched.heap.next⟩ := by
      rw [heap]
      exact createSelf _ _ _ _
    subst vals
    simp only [State.afterRead]
    refine ⟨hand,⟨[],?_,?_⟩,⟨?_,?_,?_⟩,?_,?_,?_,Or.inl (asleep _ rfl)⟩
    · rw [here]
      exact holdingQueue holding (Or.inr (Or.inl rfl))
    · simp only [inHand,made]
      rw [if_neg (by decide),List.append_nil,List.append_nil]
      simpa using accepted
    · rw [here]
      exact freshQueue inv.hand inv.queues.apart chan
    · rw [here]
      intro _ x queued alive
      rcases List.mem_append.1 queued with before | fresh
      · have dead := noReader inv out partly x before
        rw [part.ctx x (inv.hand.queues sendChannel x before) (fun _ => dead)] at alive
        exact absurd alive dead
      · rw [List.mem_singleton.1 fresh]
        exact ⟨co,rfl⟩
    · rw [here]
      intro full
      exact absurd (partly.symm.trans full) (by decide)
    · rw [heap]
      exact Nat.lt_succ_self _
    · rw [made]
    · rw [here]
      exact fun _ => ⟨by simp,partly,met⟩
  · rw [eq] at chan heap running ⊢
    obtain ⟨inside,init,ahead⟩ := claimSome found
    have size := inv.queues.writers full w inside init
    have here : t.chan sendChannel = {(s.sched.chan sendChannel).take.put (s.sched.heap.block (s.sched.heap.ctx w).buf) with
        waitQueue := ws} := by rw [chan,Function.update_self]
    have queues : Queues t (.sending co v) := by
      refine ⟨?_,?_,?_⟩ <;> rw [here]
      · intro g differ x queued again
        rw [chan,Function.update_of_ne differ] at queued
        exact inv.queues.apart g differ x queued (ahead x again)
      · intro partly
        exact absurd (full.symm.trans partly) (by decide)
      · intro _ x queued alive
        rw [heap] at alive ⊢
        obtain ⟨differ,alive⟩ := setStateInit (by decide) alive
        rw [setStateOther differ]
        exact inv.queues.writers full x (ahead x queued) alive
    have taken := takeKeeps [s.sched.heap.block (s.sched.heap.ctx w).buf] hand
      ((running (by simp)).trans run) (some ▸ accepted) rfl here (next size) queues
    simp only [State.afterRead,State.returned,past v rest some,Bool.false_eq_true,if_false]
    exact taken

end

section
variable {serializeAsString : BaseProtocolBuf → Bytes} {object : Value → Option Protocol} {cap : Nat} {s t : State}

theorem fitsEncodes {protocol : Value} (small : fits serializeAsString object protocol = true) :
    encodes serializeAsString object protocol = true := by
  simp only [fits] at small
  simp only [encodes]
  split at small <;> try contradiction
  rename_i q _
  have small : ((serialize serializeAsString q).length : Int) ≤ kDataMaxLen := by simpa using small
  have narrow : toInt32 (serialize serializeAsString q).length = (serialize serializeAsString q).length := by
    unfold kDataMaxLen at small
    exact toInt32Small (by omega) (by omega)
  have accepted : encode serializeAsString q ≠ [] := by
    have filled := Decimal.paddedIntFull 4 (toInt32 (serialize serializeAsString q).length)
    unfold encode
    rw [if_neg (by rw [narrow]; omega)]
    intro none
    have short := congrArg List.length none
    simp only [header,List.length_append,List.length_take,List.length_nil,kDataLen] at short
    omega
  simp [accepted]

theorem sendProtocolKeeps {co : Nat} {v : Value} (inv : Inv cap s)
    (place : s.place = .sending co v) (run : s.sched.running = some co)
    (small : fits serializeAsString object v = true) :
    Inv cap
      {s with place := if encodes serializeAsString object v && true then .reading co else .broken co} := by
  have out : ∀ co w, s.place ≠ .suspended co w := by simp [place]
  rw [fitsEncodes small]
  exact moveKeeps inv out (by simp) inv.hand rfl rfl run

theorem schedKeeps {e : Scheduler.Event} {u : Scheduler.State} (inv : Inv cap s)
    (ok : HandOff.Unclaimed s.sched e) (allowed : others s e = true)
    (h : Scheduler.step s.sched e = some u) :
    Inv cap {s with sched := u, accepted := s.accepted ++ admitted s.sched e} := by
  have same : admitted s.sched e = [] → Inv cap {s with sched := u} →
      Inv cap {s with sched := u, accepted := s.accepted ++ admitted s.sched e} := by
    intro none kept
    rw [none,List.append_nil]
    exact kept
  cases e with
  | read ch onStack freed =>
    have other : ch ≠ sendChannel := by
      intro here
      simp [others,here] at allowed
    exact same rfl (foreignKeeps inv ok h allowed other (readSectionOf inv.hand h))
  | write ch onStack v freed =>
    by_cases here : ch = sendChannel
    · subst ch
      exact sendKeeps inv h allowed
    · exact same (if_neg here) (foreignKeeps inv ok h allowed here (writeSectionOf inv.hand h))
  | _ => exact same rfl (quietKeeps inv ok h allowed rfl)

theorem stepKeeps {e : Event} (inv : Inv cap s)
    (ok : Undisturbed serializeAsString object s e) (h : step serializeAsString object s e = some t) :
    Inv cap t := by
  cases e with
  | sched e =>
    simp only [step] at h
    split at h <;> try contradiction
    simp only [bind,Option.bind_eq_some_iff] at h
    obtain ⟨u,hu,last⟩ := h
    cases Option.some.inj last
    exact schedKeeps inv ok ‹_› hu
  | start =>
    simp only [step] at h
    split at h <;> try contradiction
    simp only [bind,Option.bind_eq_some_iff] at h
    obtain ⟨u,hu,co,running,last⟩ := h
    cases Option.some.inj last
    exact startKeeps inv ‹_› hu running
  | read freed =>
    simp only [step] at h
    split at h <;> try contradiction
    split at h <;> try contradiction
    simp only [bind,Option.bind_eq_some_iff] at h
    obtain ⟨u,hu,last⟩ := h
    cases Option.some.inj last
    exact readKeeps inv ‹_› ‹_› ok hu
  | resumed =>
    simp only [step] at h
    split at h <;> try contradiction
    split at h <;> try contradiction
    cases Option.some.inj h
    exact resumedKeeps inv ‹_› ‹_›
  | ioWait =>
    simp only [step] at h
    split at h <;> try contradiction
    split at h <;> try contradiction
    simp only [bind,Option.bind_eq_some_iff] at h
    obtain ⟨u,hu,last⟩ := h
    cases Option.some.inj last
    exact ioWaitKeeps inv ‹_› ‹_› hu
  | sendProtocol ok' =>
    simp only [step] at h
    split at h <;> try contradiction
    split at h <;> try contradiction
    cases Option.some.inj h
    rw [show ok' = true from ok.1]
    exact sendProtocolKeeps inv ‹_› ‹_› (ok.2 _ _ ‹_›)
  | finish =>
    simp only [step] at h
    split at h <;> try contradiction
    rename_i place
    have placed := inv.placed
    rw [place] at placed
    exact placed.elim

theorem initialInv (p : Params) (byte : p.sendChannelSize < 2^7) (c : Config) :
    Inv p.sendChannelSize (initial p c) := by
  have small : p.sendChannelSize * pointerSize < 2^32 := by
    unfold pointerSize
    omega
  have ring := ringCreate (c.raw sendChannel) p.sendTimeout p.positive small
  have chan : (initial p c).sched.chan sendChannel =
      .create (c.raw sendChannel) p.sendChannelSize pointerSize p.sendTimeout := by
    simp [initial,Scheduler.initial,config]
  have positive := p.positive
  refine ⟨HandOff.initialInv _,⟨[],?_,rfl⟩,⟨?_,?_,?_⟩,trivial⟩
  · rw [chan]
    refine ⟨⟨0,ring⟩,?_,Or.inl rfl⟩
    simp only [ChannelImpl.create,Bool.false_eq_true,List.length_nil,false_iff]
    omega
  all_goals simp [initial,Scheduler.initial,ChannelImpl.create]

theorem invSent (inv : Inv cap s) : Sent serializeAsString object cap s := by
  obtain ⟨vals,holding,accepted⟩ := inv.kept
  obtain ⟨r,ring⟩ := holding.ring
  have whole := ringContents ring holding.full
  have placed := inv.placed
  refine ⟨?_,⟨?_,?_⟩,?_,?_⟩
  · rw [whole,accepted,List.append_assoc,List.filter_append]
  · intro co place
    rw [place] at placed
    exact placed
  · intro place
    rw [place] at placed
    exact placed
  · intro co w place alive
    rw [place] at placed
    obtain ⟨-,partly,met⟩ := placed.queued alive
    rw [whole]
    rcases (ringMeet ring).1 met with none | full
    · exact List.length_eq_zero_iff.1 none
    · exact absurd (partly.symm.trans (holding.full.2 full)) (by decide)
  · intro co w place won
    rw [place] at placed
    rcases placed.place with ⟨timer,status⟩ | ⟨running,-⟩
    · have ctx : HandOff.ctxOf (s.sched.pool.co co).status = some w := by rw [status]; rfl
      have owner := (inv.hand.contexts.sleeps co w ctx).2
      rcases inv.hand.log.passed w placed.less won with ⟨back,logged,same⟩ | ⟨-,ready,-⟩
      · exact absurd (same ▸ ctx) ((inv.hand.log.winner back logged).2.1 co)
      · exact Or.inr (owner ▸ ready)
    · exact Or.inl running

end

def greeting (v : Value) : Option Protocol :=
  if v = List.replicate pointerSize 0 then none else some (create .requestCall 1 [104,105])

def oneSlot : Params := ⟨uint32Max,20,1,by decide⟩

end TitCo.SendLoop
