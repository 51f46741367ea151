import TitCo.MachineInt
import TitCo.Transition

/-! The ms of recv, recvn, recvfrom, send, sendto and connect: an int that IOEvent::wait takes
as a uint32 and compares with -1 alone. A run of a call is the list of what the kernel answers
to it and of how its waits end. -/
namespace TitCo.NegativeTimeout
open MachineInt Transition

/-- EAGAIN is also EWOULDBLOCK. -/
inductive Errno where
  | eagain | eintr | einprogress | etimedout
  | other (code : Nat)
  deriving DecidableEq, Repr

/-- `waiting` is IOEvent::wait before its Yield, `checking` the getsockopt of connect. -/
inductive Pc where
  | calling | waiting | suspended | checking
  | returned (r : Int)
  deriving DecidableEq, Repr

/-- `errno` is what the call has left there, `timers` the ms of its AddTimers. -/
structure State where
  pc : Pc
  remain : Int
  hasEv : Bool
  errno : Option Errno
  timers : List Nat
  deriving DecidableEq, Repr

/-- `refused` is an AddIoEvent that fails, `yields` one that succeeds, or is not needed any
more, and the Yield; `resumed` says what is_timeout() is. `sockError` is what getsockopt reads. -/
inductive Event where
  | moved (k : Nat)
  | failed (e : Errno)
  | refused (e : Errno)
  | yields
  | resumed (expired : Bool)
  | sockError (err : Option Errno)
  deriving DecidableEq, Repr

def fail (s : State) (e : Errno) : State := {s with pc := .returned (-1), errno := some e}

/-- IOEvent::wait up to its Yield. -/
def wait (ms : Nat) (s : State) : Event → Option State
  | .refused e => if s.hasEv then none else some (fail s e)
  | .yields =>
      some {s with
        pc := .suspended
        hasEv := true
        timers := if ms ≠ uint32Max then s.timers ++ [ms] else s.timers}
  | _ => none

/-- The rest of it; the callers return -1 for false. -/
def resume (ms : Nat) (after : Pc) (s : State) (expired : Bool) : State :=
  if ms ≠ uint32Max ∧ expired then fail s .etimedout else {s with pc := after}

/-- What the five loops differ in: `finish remain r` is what a system call that returns `r`
makes the caller return before it looks at errno. -/
structure Call where
  ms : Int
  n : Int
  finish : Int → Int → Option Int

def recv (n ms : Int) : Call := ⟨ms,n,fun _ r => if r ≠ -1 then some r else none⟩
def recvn (n ms : Int) : Call := ⟨ms,n,fun remain r => if r = remain then some n else if r = 0 then some 0 else none⟩
def recvfrom (n ms : Int) : Call := ⟨ms,n,fun _ r => if r ≠ -1 then some r else none⟩
def send (n ms : Int) : Call := ⟨ms,n,fun remain r => if r = remain then some n else none⟩
def sendto (n ms : Int) : Call := ⟨ms,n,fun remain r => if r = remain then some n else none⟩

/-- The kernel moves no more bytes than it is asked to. -/
def ioStep (c : Call) (s : State) (e : Event) : Option State :=
  match s.pc, e with
  | .calling, .moved k =>
      if s.remain < 0 ∨ k ≤ s.remain then
        match c.finish s.remain k with
        | some r => some {s with pc := .returned r}
        | none => some {s with remain := s.remain - k}
      else none
  | .calling, .failed err =>
      match c.finish s.remain (-1) with
      | some r => some {s with pc := .returned r, errno := some err}
      | none =>
          if err = .eagain then some {s with pc := .waiting, errno := some err}
          else if err ≠ .eintr then some (fail s err)
          else some {s with errno := some err}
  | .waiting, e => wait (toUint32 c.ms) s e
  | .suspended, .resumed expired => some (resume (toUint32 c.ms) .calling s expired)
  | _, _ => none

def connectStep (ms : Int) (s : State) (e : Event) : Option State :=
  match s.pc, e with
  | .calling, .moved 0 => some {s with pc := .returned 0}
  | .calling, .failed err =>
      if err = .einprogress then some {s with pc := .waiting, hasEv := false, errno := some err}
      else if err ≠ .eintr then some (fail s err)
      else some {s with errno := some err}
  | .waiting, e => wait (toUint32 ms) s e
  | .suspended, .resumed expired => some (resume (toUint32 ms) .checking s expired)
  | .checking, .failed err => some (fail s err)
  | .checking, .sockError none => some {s with pc := .returned 0}
  | .checking, .sockError (some err) => some (fail s err)
  | _, _ => none

inductive Caller where
  | recv (n : Int)
  | recvn (n : Int)
  | recvfrom (n : Int)
  | send (n : Int)
  | sendto (n : Int)
  | connect
  deriving DecidableEq, Repr

def Caller.step (ms : Int) : Caller → State → Event → Option State
  | .recv n => ioStep (NegativeTimeout.recv n ms)
  | .recvn n => ioStep (NegativeTimeout.recvn n ms)
  | .recvfrom n => ioStep (NegativeTimeout.recvfrom n ms)
  | .send n => ioStep (NegativeTimeout.send n ms)
  | .sendto n => ioStep (NegativeTimeout.sendto n ms)
  | .connect => connectStep ms

def Caller.size : Caller → Int
  | .recv n | .recvn n | .recvfrom n | .send n | .sendto n => n
  | .connect => 0

def Caller.start (c : Caller) : State := ⟨.calling,c.size,false,none,[]⟩

/-- No timer has been armed, and the call has not returned -1 with ETIMEDOUT. -/
def Untimed (s : State) : Prop := s.timers = [] ∧ ¬(s.pc = .returned (-1) ∧ s.errno = some .etimedout)

/-- A wait that gets as far as its Yield is one with -1, and the kernel itself reports no ETIMEDOUT. -/
def Clean (ms : Int) : Event → Prop
  | .yields => ms = -1
  | .failed e | .refused e => e ≠ .etimedout
  | .sockError err => err ≠ some .etimedout
  | .moved _ | .resumed _ => True

instance (ms : Int) (e : Event) : Decidable (Clean ms e) := by
  cases e <;> unfold Clean <;> infer_instance

/-- A call that sees ETIMEDOUT returns -1, and one that is suspended with a timer has armed it. -/
structure Inv (ms n : Int) (s : State) : Prop where
  remain : (0 ≤ n ∧ 0 ≤ s.remain) ∨ (n < 0 ∧ s.remain ≤ n)
  errno : s.errno = some .etimedout → s.pc = .returned (-1)
  armed : s.pc = .suspended → ms ≠ -1 → s.timers ≠ []

section
variable {ms n : Int} {s t : State} {e : Event}

theorem sentinel (int : -2^31 ≤ ms) (negative : ms < 0) : toUint32 ms = uint32Max ↔ ms = -1 := by
  have most : uint32Max = 2^32 - 1 := rfl
  rw [most]
  unfold toUint32
  omega

structure Step (ms n : Int) (s t : State) (e : Event) : Prop where
  inv : Inv ms n t
  grows : ∃ more, t.timers = s.timers ++ more
  exact : Untimed s → (Untimed t ↔ Clean ms e)

theorem failStep (inv : Inv ms n s) {err : Errno} (clean : Clean ms e ↔ err ≠ .etimedout) :
    Step ms n s (fail s err) e := by
  refine ⟨⟨inv.remain,fun _ => rfl,fun other => by simp [fail] at other⟩,⟨[],(List.append_nil _).symm⟩,?_⟩
  rintro ⟨none,_⟩
  rw [clean]
  simp [Untimed,fail,none]

/- Steps that neither arm a timer nor set ETIMEDOUT. -/
theorem quietStep (inv : Inv ms n s) (running : ∀ r, s.pc ≠ .returned r) (clean : Clean ms e)
    (timers : t.timers = s.timers) (errno : t.errno = some .etimedout → s.errno = some .etimedout)
    (remain : (0 ≤ n ∧ 0 ≤ t.remain) ∨ (n < 0 ∧ t.remain ≤ n)) (awake : t.pc ≠ .suspended) : Step ms n s t e := by
  have quiet : t.errno ≠ some .etimedout := fun late => running _ (inv.errno (errno late))
  refine ⟨⟨remain,fun late => absurd late quiet,fun other => absurd other awake⟩,⟨[],by rw [timers,List.append_nil]⟩,?_⟩
  rintro ⟨none,_⟩
  refine ⟨fun _ => clean,fun _ => ⟨timers.trans none,?_⟩⟩
  rintro ⟨_,late⟩
  exact quiet late

/- A system call that fails in a way the callers wait for or try again. -/
theorem retryStep (inv : Inv ms n s) (running : ∀ r, s.pc ≠ .returned r) {err : Errno} (other : err ≠ .etimedout)
    {pc : Pc} (hasEv : Bool) (awake : pc ≠ .suspended) :
    Step ms n s {s with pc := pc, hasEv := hasEv, errno := some err} (.failed err) :=
  quietStep inv running other rfl (fun same => absurd (Option.some.inj same) other) inv.remain awake

theorem waitStep (int : -2^31 ≤ ms) (negative : ms < 0) (inv : Inv ms n s) (at_ : s.pc = .waiting)
    (h : wait (toUint32 ms) s e = some t) : Step ms n s t e := by
  have quiet : s.errno ≠ some .etimedout := by
    intro late
    have ended := inv.errno late
    rw [at_] at ended
    contradiction
  have only := sentinel int negative
  cases e with
  | refused err =>
    simp only [wait] at h
    split at h <;> try contradiction
    cases Option.some.inj h
    exact failStep inv Iff.rfl
  | yields =>
    cases Option.some.inj h
    by_cases forever : ms = -1
    · have same := only.2 forever
      refine ⟨⟨inv.remain,fun late => absurd late quiet,fun _ other => absurd forever other⟩,⟨[],?_⟩,?_⟩
      · simp [same]
      · rintro ⟨none,_⟩
        simp only [Untimed,Clean,same]
        simp [none,forever]
    · have finite : toUint32 ms ≠ uint32Max := fun same => forever (only.1 same)
      refine ⟨⟨inv.remain,fun late => absurd late quiet,fun _ _ => by simp [finite]⟩,⟨[toUint32 ms],?_⟩,?_⟩
      · simp [finite]
      · rintro ⟨none,_⟩
        simp [Untimed,Clean,forever,finite]
  | _ => simp [wait] at h

theorem resumeStep (int : -2^31 ≤ ms) (negative : ms < 0) (inv : Inv ms n s) (at_ : s.pc = .suspended)
    {after : Pc} (running : after ≠ .suspended) (expired : Bool) :
    Step ms n s (resume (toUint32 ms) after s expired) (.resumed expired) := by
  have only := sentinel int negative
  unfold resume
  split
  · rename_i late
    have armed : s.timers ≠ [] := inv.armed at_ (fun forever => late.1 (only.2 forever))
    refine ⟨⟨inv.remain,fun _ => rfl,fun other => by simp [fail] at other⟩,⟨[],(List.append_nil _).symm⟩,?_⟩
    rintro ⟨none,_⟩
    exact absurd none armed
  · refine quietStep inv (fun r => by simp [at_]) trivial rfl id inv.remain running

/-- What `finish` does with -1 matters only to a call with n = -1, whose first system call
"moves" all that remains. -/
def FinishesLast (c : Call) : Prop := ∀ remain r, c.finish remain (-1) = some r → r = c.n ∧ remain = -1

theorem ioStepExact {c : Call} (last : FinishesLast c) (int : -2^31 ≤ c.ms) (negative : c.ms < 0)
    (inv : Inv c.ms c.n s) (h : ioStep c s e = some t) : Step c.ms c.n s t e := by
  unfold ioStep at h
  cases at_ : s.pc with
  | calling =>
    have running : ∀ r, s.pc ≠ .returned r := fun r => by simp [at_]
    cases e with
    | moved k =>
      simp only [at_] at h
      split at h <;> try contradiction
      rename_i asked
      split at h
      · cases Option.some.inj h
        exact quietStep inv running trivial rfl id inv.remain (by simp)
      · cases Option.some.inj h
        have left := inv.remain
        exact quietStep inv running trivial rfl id (by simp only; omega) (by simp)
    | failed err =>
      simp only [at_] at h
      cases result : c.finish s.remain (-1) with
      | some r =>
        simp only [result] at h
        cases Option.some.inj h
        obtain ⟨size,remain⟩ := last _ _ result
        have whole : r = -1 := by
          have left := inv.remain
          omega
        subst whole
        exact failStep inv Iff.rfl
      | none =>
        simp only [result] at h
        split at h
        · rename_i again
          cases Option.some.inj h
          have other : err ≠ .etimedout := by rw [again]; decide
          exact retryStep inv running other _ (by simp)
        · split at h
          · cases Option.some.inj h
            exact failStep inv Iff.rfl
          · rename_i signal
            cases Option.some.inj h
            have other : err ≠ .etimedout := by rw [not_not.1 signal]; decide
            exact retryStep inv running other _ (by simp)
    | _ => simp [at_] at h
  | waiting =>
    simp only [at_] at h
    exact waitStep int negative inv at_ h
  | suspended =>
    cases e with
    | resumed expired =>
      simp only [at_] at h
      cases Option.some.inj h
      exact resumeStep int negative inv at_ (by decide) expired
    | _ => simp [at_] at h
  | checking => simp [at_] at h
  | returned r => simp [at_] at h

theorem connectStepExact (int : -2^31 ≤ ms) (negative : ms < 0) (inv : Inv ms n s)
    (h : connectStep ms s e = some t) : Step ms n s t e := by
  unfold connectStep at h
  cases at_ : s.pc with
  | calling =>
    have running : ∀ r, s.pc ≠ .returned r := fun r => by simp [at_]
    cases e with
    | moved k =>
      cases k with
      | zero =>
        simp only [at_] at h
        cases Option.some.inj h
        exact quietStep inv running trivial rfl id inv.remain (by simp)
      | succ k => simp [at_] at h
    | failed err =>
      simp only [at_] at h
      split at h
      · rename_i progress
        cases Option.some.inj h
        have other : err ≠ .etimedout := by rw [progress]; decide
        exact retryStep inv running other _ (by simp)
      · split at h
        · cases Option.some.inj h
          exact failStep inv Iff.rfl
        · rename_i signal
          cases Option.some.inj h
          have other : err ≠ .etimedout := by rw [not_not.1 signal]; decide
          exact retryStep inv running other _ (by simp)
    | _ => simp [at_] at h
  | waiting =>
    simp only [at_] at h
    exact waitStep int negative inv at_ h
  | suspended =>
    cases e with
    | resumed expired =>
      simp only [at_] at h
      cases Option.some.inj h
      exact resumeStep int negative inv at_ (by decide) expired
    | _ => simp [at_] at h
  | checking =>
    have running : ∀ r, s.pc ≠ .returned r := fun r => by simp [at_]
    cases e with
    | failed err =>
      simp only [at_] at h
      cases Option.some.inj h
      exact failStep inv Iff.rfl
    | sockError err =>
      cases err with
      | none =>
        simp only [at_] at h
        cases Option.some.inj h
        exact quietStep inv running (by simp [Clean]) rfl id inv.remain (by simp)
      | some err =>
        simp only [at_] at h
        cases Option.some.inj h
        exact failStep inv (by simp [Clean])
    | _ => simp [at_] at h
  | returned r => simp [at_] at h

theorem recvLast (n ms : Int) : FinishesLast (recv n ms) := by
  intro remain r h
  simp [recv] at h

theorem recvnLast (n ms : Int) : FinishesLast (recvn n ms) := by
  intro remain r h
  simp only [recvn] at h
  split at h
  · rename_i all
    exact ⟨(Option.some.inj h).symm,all.symm⟩
  · simp at h

theorem sendLast (n ms : Int) : FinishesLast (send n ms) := by
  intro remain r h
  simp only [send] at h
  split at h <;> try contradiction
  rename_i all
  exact ⟨(Option.some.inj h).symm,all.symm⟩

theorem callerStep (c : Caller) (int : -2^31 ≤ ms) (negative : ms < 0) (inv : Inv ms c.size s)
    (h : c.step ms s e = some t) : Step ms c.size s t e := by
  cases c with
  | recv n => exact ioStepExact (recvLast n ms) int negative inv h
  | recvn n => exact ioStepExact (recvnLast n ms) int negative inv h
  | recvfrom n => exact ioStepExact (recvLast n ms) int negative inv h
  | send n => exact ioStepExact (sendLast n ms) int negative inv h
  | sendto n => exact ioStepExact (sendLast n ms) int negative inv h
  | connect => exact connectStepExact int negative inv h

/- A call that has returned takes no more steps. -/
theorem callerRunning {c : Caller} (h : c.step ms s e = some t) (r : Int) : s.pc ≠ .returned r := by
  intro ended
  cases c <;> simp [Caller.step,ioStep,connectStep,ended] at h

theorem callerRun (c : Caller) (int : -2^31 ≤ ms) (negative : ms < 0) {es : List Event} (inv : Inv ms c.size s)
    (reached : run (c.step ms) s es = some t) :
    (Untimed t → Untimed s) ∧ (Untimed s → (Untimed t ↔ ∀ e ∈ es, Clean ms e)) := by
  induction es generalizing s with
  | nil =>
    cases Option.some.inj reached
    exact ⟨id,fun good => by simp [good]⟩
  | cons e es ih =>
    obtain ⟨m,hm,rest⟩ := runCons reached
    have here := callerStep c int negative inv hm
    obtain ⟨back,later⟩ := ih here.inv rest
    have earlier : Untimed m → Untimed s := by
      rintro ⟨none,_⟩
      obtain ⟨more,timers⟩ := here.grows
      rw [none] at timers
      refine ⟨(List.append_eq_nil_iff.1 timers.symm).1,?_⟩
      rintro ⟨ended,_⟩
      exact callerRunning hm _ ended
    refine ⟨fun last => earlier (back last),?_⟩
    intro good
    rw [List.forall_mem_cons,← here.exact good]
    constructor
    · intro last
      exact ⟨back last,(later (back last)).1 last⟩
    · rintro ⟨next,clean⟩
      exact (later next).2 clean

/-- A call with a negative ms arms no timer and does not return ETIMEDOUT exactly when it
waits with -1 only and the kernel reports no ETIMEDOUT to it. -/
theorem negativeNeverExpires (c : Caller) (int : -2^31 ≤ ms) (negative : ms < 0) {es : List Event}
    (reached : run (c.step ms) c.start es = some t) : Untimed t ↔ ∀ e ∈ es, Clean ms e := by
  have inv : Inv ms c.size c.start := by
    refine ⟨?_,by simp [Caller.start],by simp [Caller.start]⟩
    simp only [Caller.start]
    omega
  exact (callerRun c int negative inv reached).2 ⟨rfl,by simp [Caller.start]⟩

end

/- A recvn of four bytes that waits once with -1. -/
theorem recvnNeverExpires : Untimed ⟨.returned 4,1,true,some .eagain,[]⟩ := by
  have reached : run (Caller.step (-1) (.recvn 4)) (Caller.start (.recvn 4))
      [.moved 3,.failed .eagain,.yields,.resumed true,.moved 1] = some ⟨.returned 4,1,true,some .eagain,[]⟩ := by
    decide
  exact (negativeNeverExpires (.recvn 4) (by decide) (by decide) reached).2 (by decide)

/-- With ms = -2 the first EAGAIN arms a timer of 4294967294 ms. -/
theorem minusTwoArmed : ¬ ∀ (c : Caller) (ms : Int) (es : List Event) (s : State), -2^31 ≤ ms → ms < 0 →
    run (c.step ms) c.start es = some s → Untimed s := by
  intro claim
  have untimed := claim (.recv 16) (-2) [.failed .eagain,.yields]
    ⟨.suspended,16,true,some .eagain,[4294967294]⟩ (by decide) (by decide) (by decide)
  have none : [4294967294] = ([] : List Nat) := untimed.1
  contradiction

end TitCo.NegativeTimeout
