import TitCo.MachineInt
import Mathlib.Logic.Function.Basic

/-! Registration of sockets: SockCtx, the Epoll methods on top of epoll_ctl, and the
two SchedulerImpl methods that call them. Reading and writing are mirror images, so
each method is written once for a direction `io_event_t` and named for both. The map
of get_sock_ctx is shared by all schedulers; each scheduler has its own epoll instance.
Every event the code passes has EPOLLET set, which is therefore not recorded. -/
namespace TitCo.Epoll
open MachineInt

inductive IoEvent where
  | evRead
  | evWrite
  deriving DecidableEq, Repr

def IoEvent.opposite : IoEvent → IoEvent
  | .evRead => .evWrite
  | .evWrite => .evRead

/-- event_t, with -1 in both fields when nothing is registered. -/
structure Registration where
  coId : Nat
  schedId : Nat
  deriving DecidableEq, Repr

def unregistered : Registration := ⟨uint32Max,uint32Max⟩

structure SockCtx where
  readEv : Registration
  writeEv : Registration
  deriving DecidableEq, Repr

namespace SockCtx

def get (ctx : SockCtx) : IoEvent → Registration
  | .evRead => ctx.readEv
  | .evWrite => ctx.writeEv

def put (ctx : SockCtx) (r : Registration) : IoEvent → SockCtx
  | .evRead => {ctx with readEv := r}
  | .evWrite => {ctx with writeEv := r}

def addEvRead (ctx : SockCtx) (schedId coId : Nat) : SockCtx := ctx.put ⟨coId,schedId⟩ .evRead
def addEvWrite (ctx : SockCtx) (schedId coId : Nat) : SockCtx := ctx.put ⟨coId,schedId⟩ .evWrite
def delEvRead (ctx : SockCtx) : SockCtx := ctx.put unregistered .evRead
def delEvWrite (ctx : SockCtx) : SockCtx := ctx.put unregistered .evWrite
def delEvent (ctx : SockCtx) : SockCtx := ctx.delEvRead.delEvWrite

def hasEv (ctx : SockCtx) (e : IoEvent) : Bool := (ctx.get e).coId != uint32Max
def hasEvOf (ctx : SockCtx) (e : IoEvent) (schedId : Nat) : Bool :=
  schedId == (ctx.get e).schedId && (ctx.get e).coId != uint32Max
def hasEvent (ctx : SockCtx) : Bool := ctx.hasEv .evRead || ctx.hasEv .evWrite

def getCoId (ctx : SockCtx) (e : IoEvent) (schedId : Nat) : Nat :=
  if schedId = (ctx.get e).schedId then (ctx.get e).coId else uint32Max

def create : SockCtx := ⟨unregistered,unregistered⟩

@[simp] theorem getPutSame (ctx : SockCtx) (r : Registration) (e : IoEvent) : (ctx.put r e).get e = r := by
  cases e <;> rfl

theorem getPutOther (ctx : SockCtx) (r : Registration) {e f : IoEvent} (other : f ≠ e) :
    (ctx.put r e).get f = ctx.get f := by
  cases e <;> cases f <;> first | rfl | contradiction

theorem getStored (sock : Int → SockCtx) (fd : Int) (r : Registration) (e : IoEvent) (g : Int) (f : IoEvent) :
    (Function.update sock fd ((sock fd).put r e) g).get f =
      if g = fd ∧ f = e then r else (sock g).get f := by
  by_cases here : g = fd
  · subst g
    by_cases same : f = e
    · subst f; simp
    · simp [same,getPutOther _ _ same]
  · simp [here]

end SockCtx

structure EpollEvent where
  epollIn : Bool
  epollOut : Bool
  dataFd : Int
  deriving DecidableEq, Repr

def EpollEvent.only (e : IoEvent) (dataFd : Int) : EpollEvent := ⟨e == .evRead,e == .evWrite,dataFd⟩
def EpollEvent.both (dataFd : Int) : EpollEvent := ⟨true,true,dataFd⟩

structure Tables where
  sock : Int → SockCtx
  interest : Nat → Int → Option EpollEvent

inductive CtlOp where
  | add (ev : EpollEvent)
  | mod (ev : EpollEvent)
  | del
  deriving DecidableEq, Repr

/-- EEXIST for ADD, ENOENT for MOD and DEL; `refuse` is any other error of the kernel. -/
def epollCtl (t : Tables) (sched : Nat) (op : CtlOp) (fd : Int) (refuse : Bool) : Option Tables :=
  let put (v : Option EpollEvent) : Tables :=
    {t with interest := Function.update t.interest sched (Function.update (t.interest sched) fd v)}
  if refuse then none else
    match op,t.interest sched fd with
    | .add ev,none => some (put (some ev))
    | .mod ev,some _ => some (put (some ev))
    | .del,some _ => some (put none)
    | _,_ => none

/-- Epoll::AddEvRead and Epoll::AddEvWrite of scheduler `sched`. -/
def addEv (e : IoEvent) (sched : Nat) (t : Tables) (fd : Int) (coId : Nat) (refuse : Bool) : Tables × Bool :=
  if fd < 0 then (t,false)
  else if (t.sock fd).hasEv e then (t,true)
  else
    let op := if (t.sock fd).hasEvOf e.opposite sched then CtlOp.mod (.both fd) else .add (.only e fd)
    match epollCtl t sched op fd refuse with
    | some u => ({u with sock := Function.update u.sock fd ((u.sock fd).put ⟨coId,sched⟩ e)},true)
    | none => (t,false)

def addEvRead := addEv .evRead
def addEvWrite := addEv .evWrite

theorem ctlSock {t u : Tables} {sched : Nat} {op : CtlOp} {fd : Int} {refuse : Bool}
    (h : epollCtl t sched op fd refuse = some u) : u.sock = t.sock := by
  simp only [epollCtl] at h
  split at h <;> try contradiction
  split at h <;> first | contradiction | (cases Option.some.inj h; rfl)

/- A refused registration changes nothing; an accepted one was there before, under
whatever id, or is the caller's from now on. -/
theorem addEvSource {e : IoEvent} {sched : Nat} {t u : Tables} {fd : Int} {coId : Nat} {refuse ok : Bool}
    (h : addEv e sched t fd coId refuse = (u,ok)) :
    (u = t ∧ ok = false) ∨ (u = t ∧ ok = true ∧ (t.sock fd).hasEv e = true) ∨
    (ok = true ∧ 0 ≤ fd ∧ (t.sock fd).hasEv e = false ∧
      u.sock = Function.update t.sock fd ((t.sock fd).put ⟨coId,sched⟩ e)) := by
  simp only [addEv] at h
  split at h
  · cases h; exact .inl ⟨rfl,rfl⟩
  · rename_i valid
    split at h
    · cases h; exact .inr (.inl ⟨rfl,rfl,‹_›⟩)
    · rename_i absent
      split at h
      · rename_i v hv
        cases h
        exact .inr (.inr ⟨rfl,by omega,by simpa using absent,by simp only [ctlSock hv]⟩)
      · cases h; exact .inl ⟨rfl,rfl⟩

/-- Epoll::DelEvRead and Epoll::DelEvWrite. The event of the MOD is zero but for its
mask, so its data.fd is 0. A failed epoll_ctl is only logged. -/
def delEv (e : IoEvent) (sched : Nat) (t : Tables) (fd : Int) (refuse : Bool) : Tables :=
  if fd < 0 then t
  else if (t.sock fd).hasEv e = false then t
  else
    let u := {t with sock := Function.update t.sock fd ((t.sock fd).put unregistered e)}
    let op := if (u.sock fd).hasEv e.opposite then CtlOp.mod (.only e.opposite 0) else .del
    (epollCtl u sched op fd refuse).getD u

def delEvRead := delEv .evRead
def delEvWrite := delEv .evWrite

theorem delEvSock (e : IoEvent) (sched : Nat) (t : Tables) (fd : Int) (refuse : Bool) :
    (delEv e sched t fd refuse).sock =
      if 0 ≤ fd ∧ (t.sock fd).hasEv e = true
      then Function.update t.sock fd ((t.sock fd).put unregistered e) else t.sock := by
  simp only [delEv]
  split
  · rw [if_neg (by omega)]
  · rename_i valid
    split
    · rename_i absent
      rw [if_neg (by simp [absent])]
    · rename_i present
      have both : 0 ≤ fd ∧ (t.sock fd).hasEv e = true := ⟨by omega,by simpa using present⟩
      rw [if_pos both]
      cases h : epollCtl _ _ _ _ _ with
      | none => rfl
      | some u => exact ctlSock h

def delEvent (sched : Nat) (t : Tables) (fd : Int) (refuse : Bool) : Tables :=
  if fd < 0 then t
  else if (t.sock fd).hasEvent then
    let u := {t with sock := Function.update t.sock fd (t.sock fd).delEvent}
    (epollCtl u sched .del fd refuse).getD u
  else t

/-- SchedulerImpl::AddIoEvent; `coId` is running_co_->id_. -/
def addIoEvent (sched : Nat) (t : Tables) (fd : Int) (event : IoEvent) (coId : Nat) (refuse : Bool) :
    Tables × Bool :=
  if event = .evRead then addEvRead sched t fd coId refuse else addEvWrite sched t fd coId refuse

theorem addIoEventEq (sched : Nat) (t : Tables) (fd : Int) (event : IoEvent) (coId : Nat) (refuse : Bool) :
    addIoEvent sched t fd event coId refuse = addEv event sched t fd coId refuse := by
  cases event <;> rfl

/-- SchedulerImpl::DelIoEvent(fd, event): the read branch runs on into the write one. -/
def delIoEvent (sched : Nat) (t : Tables) (fd : Int) (event : IoEvent) (refuse : Bool) : Tables :=
  let u := if event = .evRead then delEvRead sched t fd refuse else t
  delEvWrite sched u fd refuse

def Tables.create : Tables := ⟨fun _ => .create,fun _ _ => none⟩

/-- After the constructor of Epoll, which registers its eventfd for coroutine 0. -/
def Tables.start (sched : Nat) (wakeUpFd : Int) : Tables :=
  (addEvRead sched .create wakeUpFd 0 false).1

end TitCo.Epoll
