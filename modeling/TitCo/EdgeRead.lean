import TitCo.Epoll
import TitCo.Transition

/-! One coroutine reading one stream socket through recv and recvn with ms = -1, the kernel's side
of an edge-triggered registration, and the part of Loop that handles the fd's events. Adding the
fd while it has unread bytes queues an event, so does every arrival while it is registered, and
deleting it drops what is queued. Each syscall is a step of its own. -/
namespace TitCo.EdgeRead
open Epoll MachineInt Transition

structure Config where
  sched : Nat
  fd : Int
  co : Nat

/-- Outside of both calls the coroutine runs or sleeps elsewhere; `blocked` has got EAGAIN and is
about to call IOEvent::wait; `leaving` is about to destroy the IOEvent. -/
inductive Pc where
  | outside
  | calling
  | blocked
  | suspended
  | leaving
  deriving DecidableEq, Repr

/-- `whole` tells recvn from recv, `remain` is what is still asked for, `hasEv` is has_ev_. An event
is first `queued` in the kernel, then `fetched` by epoll_wait with its data.fd. -/
structure State where
  tables : Tables
  unread : Nat
  queued : Bool
  fetched : Option Int
  pc : Pc
  whole : Bool
  remain : Nat
  hasEv : Bool

inductive Received where
  | bytes (n : Nat)
  | again
  | interrupted
  | closed
  | error
  deriving DecidableEq, Repr

/-- `others` is what is done to other fds. epoll_wait leaves out an event whose fd has nothing to
read any more, or reports it all the same. `resume` is Loop resuming the coroutine for any
other reason. -/
inductive Event where
  | arrive (n : Nat)
  | call (whole : Bool) (n : Nat)
  | recv (r : Received)
  | wait (refuse : Bool)
  | destroy (refuse : Bool)
  | epollWait (report : Bool)
  | handle
  | resume
  | others (tables : Tables)

def initial (tables : Tables) (unread : Nat) : State := ⟨tables,unread,false,none,.outside,false,0,false⟩

def registered (c : Config) (t : Tables) : Option EpollEvent := t.interest c.sched c.fd

def wantsIn (ev : Option EpollEvent) : Bool := ev.any EpollEvent.epollIn

/- The thread is Loop's while the coroutine is neither running nor on its way to suspend. -/
def Pc.away : Pc → Bool
  | .outside | .suspended => true
  | _ => false

def recvStep (s : State) : Received → Option State
  | .bytes n =>
      if 0 < n ∧ n ≤ s.remain ∧ n ≤ s.unread then
        let rest := {s with unread := s.unread - n, remain := s.remain - n}
        some (if s.whole ∧ n ≠ s.remain then rest else {rest with pc := .leaving})
      else none
  | .again => if s.unread = 0 then some {s with pc := .blocked} else none
  | .interrupted => some s
  | .closed => if s.unread = 0 ∨ s.remain = 0 then some {s with pc := .leaving} else none
  | .error => some {s with pc := .leaving}

/-- IOEvent::wait up to its Yield. The registration of a readable fd queues an event. -/
def waitStep (c : Config) (s : State) (refuse : Bool) : State :=
  if s.hasEv then {s with pc := .suspended}
  else match addIoEvent c.sched s.tables c.fd .evRead c.co refuse with
    | (t,true) =>
        {s with
          tables := t, hasEv := true, pc := .suspended
          queued := s.queued ||
            (registered c s.tables).isNone && wantsIn (registered c t) && decide (0 < s.unread)}
    | (t,false) => {s with tables := t, pc := .leaving}

def destroyStep (c : Config) (s : State) (refuse : Bool) : State :=
  let t := if s.hasEv then delIoEvent c.sched s.tables c.fd .evRead refuse else s.tables
  {s with tables := t, hasEv := false, pc := .outside, queued := s.queued && (registered c t).isSome}

/-- Loop looks up both directions of the fd that the event names. -/
def resumes (c : Config) (s : State) (fd : Int) : Bool :=
  (s.tables.sock fd).getCoId .evRead c.sched == c.co || (s.tables.sock fd).getCoId .evWrite c.sched == c.co

def step (c : Config) (s : State) : Event → Option State
  | .arrive n => some {s with unread := s.unread + n, queued := s.queued || wantsIn (registered c s.tables) && decide (0 < n)}
  | .call whole n => if s.pc = .outside then some {s with pc := .calling, whole := whole, remain := n} else none
  | .recv r => if s.pc = .calling then recvStep s r else none
  | .wait refuse => if s.pc = .blocked then some (waitStep c s refuse) else none
  | .destroy refuse => if s.pc = .leaving then some (destroyStep c s refuse) else none
  | .epollWait report =>
      match registered c s.tables with
      | some ev =>
          if s.pc.away ∧ s.fetched = none ∧ s.queued then
            if report then some {s with queued := false, fetched := some ev.dataFd}
            else if s.unread = 0 then some {s with queued := false} else none
          else none
      | none => none
  | .handle =>
      match s.fetched with
      | some fd =>
          if s.pc.away then
            some {s with fetched := none, pc := if s.pc = .suspended ∧ resumes c s fd then .calling else s.pc}
          else none
      | none => none
  | .resume => if s.pc = .suspended then some {s with pc := .calling} else none
  | .others t =>
      if t.sock c.fd = s.tables.sock c.fd ∧ registered c t = registered c s.tables then some {s with tables := t} else none

/-- A coroutine that sleeps in IOEvent::wait while there is something to read has an event on its
way, and that event will resume it. -/
def NoHang (c : Config) (s : State) : Prop :=
  s.pc = .suspended → 0 < s.unread →
    (s.queued = true ∧ wantsIn (registered c s.tables) = true ∨ s.fetched = some c.fd) ∧ resumes c s c.fd = true

structure Inv (c : Config) (s : State) : Prop where
  write : (s.tables.sock c.fd).get .evWrite = unregistered
  read : (s.tables.sock c.fd).get .evRead = if s.hasEv then ⟨c.co,c.sched⟩ else unregistered
  entry : ∀ ev, registered c s.tables = some ev → ev = .only .evRead c.fd
  held : s.hasEv = true → 0 ≤ c.fd ∧ registered c s.tables = some (.only .evRead c.fd)
  outside : s.pc = .outside → s.hasEv = false
  asleep : s.pc = .suspended → s.hasEv = true
  fetched : ∀ fd, s.fetched = some fd → fd = c.fd
  event : s.pc = .suspended ∨ s.pc = .blocked → s.hasEv = true → 0 < s.unread →
    s.queued = true ∨ s.fetched = some c.fd

section
variable {c : Config} {s t : State}

theorem addRead {tables u : Tables} {refuse ok : Bool} (write : (tables.sock c.fd).get .evWrite = unregistered)
    (read : (tables.sock c.fd).get .evRead = unregistered)
    (h : addIoEvent c.sched tables c.fd .evRead c.co refuse = (u,ok)) :
    (u = tables ∧ ok = false) ∨ (ok = true ∧ 0 ≤ c.fd ∧ registered c tables = none ∧
      registered c u = some (.only .evRead c.fd) ∧ (u.sock c.fd).get .evWrite = unregistered ∧
      (u.sock c.fd).get .evRead = ⟨c.co,c.sched⟩) := by
  rw [addIoEventEq] at h
  have none : (tables.sock c.fd).hasEv .evRead = false := by simp [SockCtx.hasEv,read,unregistered]
  have other : (tables.sock c.fd).hasEvOf .evWrite c.sched = false := by simp [SockCtx.hasEvOf,write,unregistered]
  simp only [addEv,none,IoEvent.opposite,other,Bool.false_eq_true,if_false] at h
  split at h
  · cases h
    exact Or.inl ⟨rfl,rfl⟩
  · rename_i valid
    split at h
    · rename_i v taken
      cases h
      simp only [epollCtl] at taken
      split at taken <;> try contradiction
      split at taken <;> try contradiction
      rename_i ev same vacant
      cases same
      cases Option.some.inj taken
      refine Or.inr ⟨rfl,Int.not_lt.1 valid,vacant,by simp [registered],?_,by simp⟩
      simp only [Function.update_self]
      rw [SockCtx.getPutOther _ _ (by decide)]
      exact write
    · cases h
      exact Or.inl ⟨rfl,rfl⟩

theorem delRead {tables : Tables} (refuse : Bool) (write : (tables.sock c.fd).get .evWrite = unregistered)
    (read : (tables.sock c.fd).get .evRead = ⟨c.co,c.sched⟩) (valid : 0 ≤ c.fd) (named : c.co ≠ uint32Max) :
    ((delIoEvent c.sched tables c.fd .evRead refuse).sock c.fd).get .evWrite = unregistered ∧
    ((delIoEvent c.sched tables c.fd .evRead refuse).sock c.fd).get .evRead = unregistered ∧
    ∀ ev, registered c (delIoEvent c.sched tables c.fd .evRead refuse) = some ev → registered c tables = some ev := by
  have present : (tables.sock c.fd).hasEv .evRead = true := by simp [SockCtx.hasEv,read,named]
  have absent : ∀ ctx : SockCtx, ctx.get .evWrite = unregistered → ctx.hasEv .evWrite = false := by
    intro ctx none
    simp [SockCtx.hasEv,none,unregistered]
  have cleared : ((tables.sock c.fd).put unregistered .evRead).get .evWrite = unregistered := by
    rw [SockCtx.getPutOther _ _ (by decide)]
    exact write
  generalize whole : delEvRead c.sched tables c.fd refuse = u
  have sock : u.sock c.fd = (tables.sock c.fd).put unregistered .evRead := by
    rw [← whole,delEvRead,delEvSock,if_pos ⟨valid,present⟩,Function.update_self]
  have entry : ∀ ev, registered c u = some ev → registered c tables = some ev := by
    intro ev found
    rw [← whole] at found
    simp only [delEvRead,delEv,if_neg (Int.not_lt.2 valid),present,Bool.true_eq_false,if_false,Function.update_self,
      IoEvent.opposite,absent _ cleared,Bool.false_eq_true,epollCtl] at found
    split at found
    · exact found
    · split at found
      · contradiction
      · contradiction
      · simp [registered] at found
      · exact found
  have last : delIoEvent c.sched tables c.fd .evRead refuse = u := by
    have none : (u.sock c.fd).hasEv .evWrite = false := absent _ (by rw [sock]; exact cleared)
    simp only [delIoEvent,if_true,whole,delEvWrite,delEv,if_neg (Int.not_lt.2 valid),none]
  rw [last,sock]
  exact ⟨cleared,by simp,entry⟩

theorem recvKeeps (inv : Inv c s) {r : Received} (pc : s.pc = .calling) (h : recvStep s r = some t) : Inv c t := by
  cases r with
  | bytes n =>
    simp only [recvStep] at h
    split at h <;> try contradiction
    cases Option.some.inj h
    split
    · exact ⟨inv.write,inv.read,inv.entry,inv.held,by simp [pc],by simp [pc],inv.fetched,by simp [pc]⟩
    · exact ⟨inv.write,inv.read,inv.entry,inv.held,by simp,by simp,inv.fetched,by simp⟩
  | again =>
    simp only [recvStep] at h
    split at h <;> try contradiction
    rename_i none
    cases Option.some.inj h
    exact ⟨inv.write,inv.read,inv.entry,inv.held,by simp,by simp,inv.fetched,fun _ _ some => by simp [none] at some⟩
  | interrupted =>
    cases Option.some.inj h
    exact inv
  | closed =>
    simp only [recvStep] at h
    split at h <;> try contradiction
    cases Option.some.inj h
    exact ⟨inv.write,inv.read,inv.entry,inv.held,by simp,by simp,inv.fetched,by simp⟩
  | error =>
    cases Option.some.inj h
    exact ⟨inv.write,inv.read,inv.entry,inv.held,by simp,by simp,inv.fetched,by simp⟩

theorem waitKeeps (inv : Inv c s) (refuse : Bool) (pc : s.pc = .blocked) : Inv c (waitStep c s refuse) := by
  unfold waitStep
  by_cases has : s.hasEv = true
  · rw [if_pos has]
    exact ⟨inv.write,inv.read,inv.entry,inv.held,by simp,fun _ => has,inv.fetched,fun _ => inv.event (Or.inr pc)⟩
  · rw [if_neg has]
    have read := inv.read
    rw [if_neg has] at read
    cases made : addIoEvent c.sched s.tables c.fd .evRead c.co refuse with
    | mk u ok =>
      rcases addRead inv.write read made with ⟨rfl,rfl⟩ | ⟨rfl,valid,vacant,entry,write,mine⟩
      · exact ⟨inv.write,inv.read,inv.entry,inv.held,by simp,by simp,inv.fetched,by simp⟩
      · refine ⟨write,by simpa using mine,?_,fun _ => ⟨valid,entry⟩,by simp,fun _ => rfl,inv.fetched,?_⟩
        · intro ev found
          simp only [entry,Option.some.injEq] at found
          exact found.symm
        · -- The fd has unread bytes, so the ADD itself queues an event.
          intro _ _ some
          refine Or.inl ?_
          simp only [vacant,entry,wantsIn,EpollEvent.only,Option.isNone_none,Option.any_some,beq_self_eq_true,
            Bool.true_and,Bool.or_eq_true,decide_eq_true_eq]
          exact Or.inr some

theorem destroyKeeps (inv : Inv c s) (refuse : Bool) (named : c.co ≠ uint32Max) : Inv c (destroyStep c s refuse) := by
  unfold destroyStep
  by_cases has : s.hasEv = true
  · have read := inv.read
    rw [if_pos has] at read
    obtain ⟨write,cleared,entry⟩ := delRead refuse inv.write read (inv.held has).1 named
    simp only [if_pos has]
    exact ⟨write,by simpa using cleared,fun ev found => inv.entry ev (entry ev found),by simp,by simp,by simp,
      inv.fetched,by simp⟩
  · have read := inv.read
    rw [if_neg has] at read
    simp only [if_neg has]
    exact ⟨inv.write,by simpa using read,inv.entry,by simp,by simp,by simp,inv.fetched,by simp⟩

theorem epollWaitKeeps (inv : Inv c s) {report : Bool} (h : step c s (.epollWait report) = some t) : Inv c t := by
  simp only [step] at h
  split at h <;> try contradiction
  rename_i ev found
  split at h <;> try contradiction
  have data : ev.dataFd = c.fd := by
    rw [inv.entry ev found]
    rfl
  split at h
  · cases Option.some.inj h
    refine ⟨inv.write,inv.read,inv.entry,inv.held,inv.outside,inv.asleep,?_,fun _ _ _ => Or.inr (by simp [data])⟩
    intro fd same
    rw [← Option.some.inj same]
    exact data
  · split at h <;> try contradiction
    rename_i none
    cases Option.some.inj h
    exact ⟨inv.write,inv.read,inv.entry,inv.held,inv.outside,inv.asleep,inv.fetched,
      fun _ _ some => by simp [none] at some⟩

theorem handleKeeps (inv : Inv c s) (h : step c s .handle = some t) : Inv c t := by
  simp only [step] at h
  split at h <;> try contradiction
  rename_i fd fetched
  split at h <;> try contradiction
  rename_i away
  cases Option.some.inj h
  have here := inv.fetched fd fetched
  subst here
  by_cases asleep : s.pc = .suspended
  · have read := inv.read
    rw [if_pos (inv.asleep asleep)] at read
    have wakes : resumes c s c.fd = true := by simp [resumes,SockCtx.getCoId,read]
    simp only [asleep,wakes,and_self,if_true]
    exact ⟨inv.write,inv.read,inv.entry,inv.held,by simp,by simp,by simp,by simp⟩
  · have stays : ¬ (s.pc = .suspended ∧ resumes c s c.fd = true) := fun both => asleep both.1
    have out : s.pc = .outside := by
      cases place : s.pc <;> simp_all [Pc.away]
    simp only [if_neg stays]
    refine ⟨inv.write,inv.read,inv.entry,inv.held,inv.outside,fun same => absurd same asleep,by simp,?_⟩
    simp [out]

theorem stepKeeps (named : c.co ≠ uint32Max) (s : State) (e : Event) (t : State) (inv : Inv c s)
    (h : step c s e = some t) : Inv c t := by
  cases e with
  | arrive n =>
    cases Option.some.inj h
    refine ⟨inv.write,inv.read,inv.entry,inv.held,inv.outside,inv.asleep,inv.fetched,?_⟩
    intro place has some
    have wants : wantsIn (registered c s.tables) = true := by rw [(inv.held has).2]; rfl
    by_cases old : 0 < s.unread
    · exact (inv.event place has old).imp_left (fun queued => by simp [queued])
    · have new : 0 < n := by
        simp only at some
        omega
      exact Or.inl (by simp [wants,new])
  | call whole n =>
    simp only [step] at h
    split at h <;> try contradiction
    cases Option.some.inj h
    exact ⟨inv.write,inv.read,inv.entry,inv.held,by simp,by simp,inv.fetched,by simp⟩
  | recv r =>
    simp only [step] at h
    split at h <;> try contradiction
    exact recvKeeps inv ‹_› h
  | wait refuse =>
    simp only [step] at h
    split at h <;> try contradiction
    cases Option.some.inj h
    exact waitKeeps inv refuse ‹_›
  | destroy refuse =>
    simp only [step] at h
    split at h <;> try contradiction
    cases Option.some.inj h
    exact destroyKeeps inv refuse named
  | epollWait report => exact epollWaitKeeps inv h
  | handle => exact handleKeeps inv h
  | resume =>
    simp only [step] at h
    split at h <;> try contradiction
    cases Option.some.inj h
    exact ⟨inv.write,inv.read,inv.entry,inv.held,by simp,by simp,inv.fetched,by simp⟩
  | others tables =>
    simp only [step] at h
    split at h <;> try contradiction
    rename_i same
    cases Option.some.inj h
    refine ⟨by simp only [same.1]; exact inv.write,by simp only [same.1]; exact inv.read,?_,?_,inv.outside,inv.asleep,
      inv.fetched,inv.event⟩
    · simp only [same.2]
      exact inv.entry
    · simp only [same.2]
      exact inv.held

theorem invNoHang (inv : Inv c s) : NoHang c s := by
  intro asleep some
  have has := inv.asleep asleep
  have read := inv.read
  rw [if_pos has] at read
  refine ⟨(inv.event (Or.inl asleep) has some).imp_left fun queued => ⟨queued,?_⟩,?_⟩
  · rw [(inv.held has).2]
    rfl
  · simp [resumes,SockCtx.getCoId,read]

end

/-- In every run, a coroutine that sleeps in IOEvent::wait for an fd with unread bytes has an event
queued or fetched that will resume it. -/
theorem noReadHangs (c : Config) (tables : Tables) (unread : Nat) (es : List Event) (s : State) (named : c.co ≠ uint32Max)
    (unused : tables.sock c.fd = .create ∧ registered c tables = none)
    (reached : run (step c) (initial tables unread) es = some s) : NoHang c s := by
  refine invNoHang (runInvariant (fun s e t inv h => stepKeeps named s e t inv h) reached ?_)
  refine ⟨?_,?_,?_,by simp [initial],by simp [initial],by simp [initial],by simp [initial],by simp [initial]⟩
  · simp only [initial,unused.1]
    rfl
  · simp only [initial,unused.1]
    rfl
  · intro ev found
    simp only [initial,unused.2] at found
    contradiction

/- EAGAIN, an arrival before the registration, and the event of the ADD. -/
theorem lateArrivalWakes : ∃ s, run (step ⟨1,5,3⟩) (initial .create 0)
    [.call true 4,.recv .again,.arrive 2,.wait false] = some s ∧ s.pc = .suspended ∧ s.unread = 2 ∧ NoHang ⟨1,5,3⟩ s := by
  refine ⟨_,rfl,rfl,rfl,noReadHangs ⟨1,5,3⟩ .create 0 [.call true 4,.recv .again,.arrive 2,.wait false] _ (by decide)
    ⟨rfl,rfl⟩ rfl⟩

end TitCo.EdgeRead
