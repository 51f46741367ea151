import TitCo.Epoll

/-! co::shutdown: the registrations of the socket are dropped through the scheduler of the
thread, or straight in the SockCtx on a thread that has none. -/
namespace TitCo.Shutdown
open Epoll MachineInt

inductive How where
  | rd | wr | rdWr
  deriving DecidableEq, Repr

def charR : UInt8 := 114
def charW : UInt8 := 119

/-- get_sock_ctx(fd).DelEv..() -/
def update (t : Tables) (fd : Int) (change : SockCtx → SockCtx) : Tables :=
  {t with sock := Function.update t.sock fd (change (t.sock fd))}

/-- `gSched` is the scheduler of the calling thread; `how` is what ::shutdown is called with. -/
def shutdown (gSched : Option Nat) (t : Tables) (fd : Int) (c : UInt8) (refuse : Bool) : Tables × How :=
  if fd < 0 then (t,.rdWr)
  else match gSched with
    | some sched =>
        if c = charR then (delIoEvent sched t fd .evRead refuse,.rd)
        else if c = charW then (delIoEvent sched t fd .evWrite refuse,.wr)
        else (delEvent sched t fd refuse,.rdWr)
    | none =>
        if c = charR then (update t fd SockCtx.delEvRead,.rd)
        else if c = charW then (update t fd SockCtx.delEvWrite,.wr)
        else (update t fd SockCtx.delEvRead,.rdWr)

/-- What anyone can find out about one direction: who is registered, if anyone is. -/
def registration (ctx : SockCtx) (e : IoEvent) : Option Registration :=
  if ctx.hasEv e then some (ctx.get e) else none

/-- 'r' is for the read side, 'w' for the write side, any other char for both. -/
def clears (c : UInt8) : IoEvent → Bool
  | .evRead => c != charW
  | .evWrite => c != charR

def wanted (ctx : SockCtx) (c : UInt8) (e : IoEvent) : Option Registration :=
  if clears c e then none else registration ctx e

section
variable (t : Tables) (fd : Int) (c : UInt8)

/-- Either path leaves of each direction what the char asks for. -/
def Alike (sched : Nat) (refuse : Bool) : Prop :=
  ∀ gSched ∈ [some sched,none], ∀ e,
    registration ((shutdown gSched t fd c refuse).1.sock fd) e = wanted (t.sock fd) c e

end

section
variable {t : Tables} {fd : Int} {ctx : SockCtx} {sched : Nat} {refuse : Bool}

theorem registrationPut (ctx : SockCtx) (e f : IoEvent) :
    registration (ctx.put unregistered e) f = if f = e then none else registration ctx f := by
  by_cases same : f = e
  · subst f
    rw [if_pos rfl]
    simp [registration,SockCtx.hasEv,unregistered]
  · rw [if_neg same]
    simp [registration,SockCtx.hasEv,SockCtx.getPutOther _ _ same]

theorem registrationNone {e : IoEvent} : registration ctx e = none ↔ ctx.hasEv e = false := by
  simp [registration]

/- Epoll returns early when there is nothing to drop, which leaves the same registrations. -/
theorem delEvRegistration (valid : 0 ≤ fd) (e f : IoEvent) :
    registration ((delEv e sched t fd refuse).sock fd) f =
      if f = e then none else registration (t.sock fd) f := by
  rw [delEvSock]
  split
  · rw [Function.update_self,registrationPut]
  · rename_i absent
    by_cases same : f = e
    · subst f
      rw [if_pos rfl]
      refine registrationNone.2 ?_
      by_contra present
      exact absent ⟨valid,by simpa using present⟩
    · rw [if_neg same]

theorem delEventSock (sched : Nat) (t : Tables) (fd : Int) (refuse : Bool) :
    (delEvent sched t fd refuse).sock =
      if 0 ≤ fd ∧ (t.sock fd).hasEvent = true
      then Function.update t.sock fd (t.sock fd).delEvent else t.sock := by
  simp only [delEvent]
  split
  · rw [if_neg (by omega)]
  · rename_i valid
    split
    · rename_i present
      rw [if_pos ⟨by omega,present⟩]
      cases h : epollCtl _ _ _ _ _ with
      | none => rfl
      | some u => exact ctlSock h
    · rename_i absent
      rw [if_neg (by simp [absent])]

theorem delEventRegistration (valid : 0 ≤ fd) (e : IoEvent) :
    registration ((delEvent sched t fd refuse).sock fd) e = none := by
  rw [delEventSock]
  split
  · rw [Function.update_self,SockCtx.delEvent,SockCtx.delEvRead,SockCtx.delEvWrite,registrationPut,registrationPut]
    cases e <;> rfl
  · rename_i absent
    have none : (t.sock fd).hasEvent = false := by
      by_contra present
      exact absent ⟨valid,by simpa using present⟩
    have both : (t.sock fd).hasEv .evRead = false ∧ (t.sock fd).hasEv .evWrite = false := by
      simpa [SockCtx.hasEvent] using none
    cases e with
    | evRead => exact registrationNone.2 both.1
    | evWrite => exact registrationNone.2 both.2

/- What each branch leaves of the direction `e`; only 'w' treats both paths the same. -/
theorem shutdownScheduler (valid : 0 ≤ fd) (c : UInt8) (e : IoEvent) :
    registration ((shutdown (some sched) t fd c refuse).1.sock fd) e =
      if c = charW ∧ e = .evRead then registration (t.sock fd) e else none := by
  unfold shutdown
  rw [if_neg (by omega)]
  simp only
  by_cases read : c = charR
  · have other : c ≠ charW := by rw [read]; decide
    rw [if_pos read,if_neg (by simp [other])]
    simp only [delIoEvent,if_true,delEvRead,delEvWrite]
    rw [delEvRegistration valid,delEvRegistration valid]
    cases e <;> rfl
  · rw [if_neg read]
    by_cases write : c = charW
    · rw [if_pos write]
      simp only [delIoEvent,delEvWrite]
      rw [if_neg (by decide),delEvRegistration valid]
      cases e <;> simp [write]
    · rw [if_neg write,if_neg (by simp [write])]
      exact delEventRegistration valid e

theorem shutdownBare (valid : 0 ≤ fd) (c : UInt8) (e : IoEvent) :
    registration ((shutdown none t fd c refuse).1.sock fd) e =
      if (c = charW ↔ e = .evRead) then registration (t.sock fd) e else none := by
  have updated : ∀ change, (update t fd change).sock fd = change (t.sock fd) :=
    fun _ => Function.update_self _ _ _
  unfold shutdown
  rw [if_neg (by omega)]
  simp only
  by_cases write : c = charW
  · have other : c ≠ charR := by rw [write]; decide
    rw [if_neg other,if_pos write]
    simp only [updated,SockCtx.delEvWrite,registrationPut]
    cases e <;> simp [write]
  · rw [if_neg write]
    split
    · simp only [updated,SockCtx.delEvRead,registrationPut]
      cases e <;> simp [write]
    · simp only [updated,SockCtx.delEvRead,registrationPut]
      cases e <;> simp [write]

/-- Both paths leave of each direction what the char asks for exactly when it is 'w', or no
one is registered for writing. -/
theorem shutdownAlike (valid : 0 ≤ fd) (c : UInt8) :
    Alike t fd c sched refuse ↔ c = charW ∨ (t.sock fd).hasEv .evWrite = false := by
  have differ : charR ≠ charW := by decide
  constructor
  · intro alike
    by_contra neither
    obtain ⟨notWrite,present⟩ := not_or.1 neither
    refine present (registrationNone.1 ?_)
    by_cases read : c = charR
    · have through := alike (some sched) (by simp) .evWrite
      rw [shutdownScheduler valid,if_neg (by simp)] at through
      simpa [wanted,clears,read] using through.symm
    · have bare := alike none (by simp) .evWrite
      rw [shutdownBare valid,if_pos (by simp [notWrite])] at bare
      simpa [wanted,clears,read] using bare
  · intro possible gSched path e
    have silent : c ≠ charW → registration (t.sock fd) .evWrite = none :=
      fun other => registrationNone.2 (possible.resolve_left other)
    have write : wanted (t.sock fd) c .evWrite = none := by
      by_cases read : c = charR
      · rw [wanted,silent (by rw [read]; decide)]
        split <;> rfl
      · simp [wanted,clears,read]
    rcases List.mem_cons.1 path with through | bare
    · rw [through,shutdownScheduler valid]
      cases e with
      | evRead => by_cases w : c = charW <;> simp [wanted,clears,w]
      | evWrite => rw [write,if_neg (by simp)]
    · rw [List.mem_singleton.1 bare,shutdownBare valid]
      cases e with
      | evRead => by_cases w : c = charW <;> simp [wanted,clears,w]
      | evWrite =>
        rw [write]
        by_cases w : c = charW
        · simp [w]
        · simp [w,silent w]

/- A reader and no writer, and 'b'. -/
theorem readerAlike : Alike ⟨fun _ => ⟨⟨3,1⟩,unregistered⟩,fun _ _ => none⟩ 5 98 1 false :=
  (shutdownAlike (by decide) 98).2 (by decide)

end

/-- 'b' with a writer registered: without a scheduler its registration stays. -/
theorem writerStranded : ¬ ∀ (t : Tables) (fd : Int) (c : UInt8) (sched : Nat) (refuse : Bool), 0 ≤ fd →
    Alike t fd c sched refuse := by
  intro claim
  have alike := claim ⟨fun _ => ⟨unregistered,⟨4,1⟩⟩,fun _ _ => none⟩ 5 98 1 false (by decide)
  have stays := alike none (by simp) .evWrite
  rw [shutdownBare (by decide)] at stays
  exact absurd stays (by decide)

end TitCo.Shutdown
