import TitCo.Interest

/-! The IO phase of Loop: which coroutines an epoll event resumes, and whether the one that has just
registered is among them. The ids are read before the first of the two Resumes. -/
namespace TitCo.IoDispatch
open Epoll Interest MachineInt Transition

def EPOLLIN : UInt32 := 1
def EPOLLOUT : UInt32 := 4

/-- The coroutines that Loop resumes for an event, in their order; `id` is the scheduler's. -/
def dispatch (id : Nat) (ctx : SockCtx) (events : UInt32) : List Nat :=
  let readCo := if events ||| EPOLLIN ≠ 0 then ctx.getCoId .evRead id else 0
  let writeCo := if events ||| EPOLLOUT ≠ 0 then ctx.getCoId .evWrite id else 0
  (if readCo ≠ uint32Max then [readCo] else []) ++ (if writeCo ≠ uint32Max then [writeCo] else [])

/-- The loop over what epoll_wait has returned; an event of the wakeup fd resumes nobody. -/
def ioPhase (id : Nat) (wakeUpFd : Int) (sock : Int → SockCtx) (evs : List (Int × UInt32)) : List Nat :=
  evs.flatMap (fun ev => if ev.1 = wakeUpFd then [] else dispatch id (sock ev.1) ev.2)

def has (events bit : UInt32) : Bool := events &&& bit != 0

/-- A direction is concerned by its own bit, and by an event with neither bit or with both. -/
def concerns (events : UInt32) : IoEvent → Bool
  | .evRead => has events EPOLLIN || !has events EPOLLOUT
  | .evWrite => has events EPOLLOUT || !has events EPOLLIN

/-- Whom get_sock_ctx names for a direction on this scheduler. -/
def waiting (id : Nat) (ctx : SockCtx) (e : IoEvent) : List Nat :=
  if ctx.getCoId e id ≠ uint32Max then [ctx.getCoId e id] else []

def concerned (id : Nat) (ctx : SockCtx) (events : UInt32) : List Nat :=
  (if concerns events .evRead then waiting id ctx .evRead else []) ++
  (if concerns events .evWrite then waiting id ctx .evWrite else [])

inductive Connected where
  | done
  | inProgress
  | interrupted
  | failed
  deriving DecidableEq, Repr

/-- co::connect over what ::connect answers. `woken` is what the wait returns, none as long as it
lasts, and `soError` what getsockopt then gives, none if it fails. -/
def connect (woken : Option Bool) (soError : Option Int) : List Connected → Option Int
  | [] => none
  | .done :: _ => some 0
  | .inProgress :: _ =>
      match woken,soError with
      | none,_ => none
      | some false,_ => some (-1)
      | some true,none => some (-1)
      | some true,some err => if err = 0 then some 0 else some (-1)
  | .interrupted :: rest => connect woken soError rest
  | .failed :: _ => some (-1)

/-- A connect that is in progress when the event is handled, and is woken by nothing else. -/
def connectAt (id : Nat) (ctx : SockCtx) (events : UInt32) (co : Nat) (soError : Option Int) : Option Int :=
  connect (if co ∈ dispatch id ctx events then some true else none) soError [.inProgress]

/-- The event resumes whom it concerns and nobody else, and a connect comes back with 0 only for an
event that concerns writing. -/
structure Accurate (id : Nat) (ctx : SockCtx) (events : UInt32) : Prop where
  resumed : dispatch id ctx events = concerned id ctx events
  connects : ∀ co soError, co ≠ uint32Max → ctx.get .evWrite = ⟨co,id⟩ →
    connectAt id ctx events co soError = some 0 → concerns events .evWrite = true

/-- Nobody waits for a direction that the event does not concern. -/
def Apt (id : Nat) (ctx : SockCtx) (events : UInt32) : Prop :=
  ∀ e, waiting id ctx e ≠ [] → concerns events e = true

section
variable {id : Nat} {ctx : SockCtx} {events : UInt32}

/- The tests of the event mask are always true. -/
theorem dispatchBoth (id : Nat) (ctx : SockCtx) (events : UInt32) :
    dispatch id ctx events = waiting id ctx .evRead ++ waiting id ctx .evWrite := by
  have reads : events ||| EPOLLIN ≠ 0 := by simp [EPOLLIN]
  have writes : events ||| EPOLLOUT ≠ 0 := by simp [EPOLLOUT]
  simp only [dispatch,if_pos reads,if_pos writes,waiting]

theorem waitingSome {e : IoEvent} {co : Nat} (named : co ≠ uint32Max) (record : ctx.get e = ⟨co,id⟩) :
    waiting id ctx e = [co] := by
  simp [waiting,SockCtx.getCoId,record,named]

/-- An event is dispatched to those it concerns exactly when nobody else waits for its fd. -/
theorem dispatchAccurate (id : Nat) (ctx : SockCtx) (events : UInt32) : Accurate id ctx events ↔ Apt id ctx events := by
  constructor
  · intro accurate e someone
    have length := congrArg List.length accurate.resumed
    rw [dispatchBoth,concerned,List.length_append,List.length_append] at length
    have positive := List.length_pos_iff.2 someone
    by_contra unconcerned
    cases e with
    | evRead =>
      rw [if_neg unconcerned] at length
      split at length <;> simp only [List.length_nil] at length <;> omega
    | evWrite =>
      rw [if_neg unconcerned] at length
      split at length <;> simp only [List.length_nil] at length <;> omega
  · intro apt
    have kept : ∀ e, (if concerns events e then waiting id ctx e else []) = waiting id ctx e := by
      intro e
      split
      · rfl
      · rename_i unconcerned
        by_contra differ
        exact unconcerned (apt e (Ne.symm differ))
    refine ⟨?_,?_⟩
    · rw [dispatchBoth,concerned,kept,kept]
    · intro co soError named record _
      exact apt .evWrite (by simp [waitingSome named record])

end

/-- A connect is in progress on an fd that another coroutine reads; data comes in, SO_ERROR is still
0, and connect returns 0. -/
theorem readableConnects : ¬ ∀ (id : Nat) (ctx : SockCtx) (events : UInt32), Accurate id ctx events := by
  intro claim
  have concerns_ := (claim 0 ⟨⟨1,0⟩,⟨2,0⟩⟩ EPOLLIN).connects 2 (some 0) (by decide) rfl rfl
  exact absurd concerns_ (by decide)

/-- What a registration that succeeds is meant to come to. -/
structure Registered (sched : Nat) (t : Tables) (fd : Int) (event : IoEvent) (coId : Nat) (r : Tables × Bool) : Prop where
  recorded : r.2 = true → (r.1.sock fd).get event = ⟨coId,sched⟩
  resumed : r.2 = true → coId ≠ uint32Max → ∀ events, coId ∈ dispatch sched (r.1.sock fd) events
  refused : r.2 = false → r.1.sock = t.sock

/-- A first registration comes to that; a later one for the same direction succeeds as well and
leaves the first one where it is. -/
structure RegisteredOnce (sched : Nat) (t : Tables) (fd : Int) (event : IoEvent) (coId : Nat) (r : Tables × Bool) :
    Prop where
  first : (t.sock fd).hasEv event = false → Registered sched t fd event coId r
  later : (t.sock fd).hasEv event = true → r.1.sock = t.sock

theorem dispatchRecorded {sched coId : Nat} {ctx : SockCtx} {e : IoEvent} (named : coId ≠ uint32Max)
    (record : ctx.get e = ⟨coId,sched⟩) (events : UInt32) : coId ∈ dispatch sched ctx events := by
  rw [dispatchBoth,List.mem_append]
  cases e with
  | evRead => exact Or.inl (by simp [waitingSome named record])
  | evWrite => exact Or.inr (by simp [waitingSome named record])

end TitCo.IoDispatch
