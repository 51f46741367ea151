import TitCo.Interest
import TitCo.Shutdown
import TitCo.Transition

/-! co::close, and what the next socket with the same descriptor finds. Any number of schedulers and
of other threads register, drop and close; ::close gives the descriptor back to the kernel, which
takes it out of every epoll instance and may hand it out again at once. -/
namespace TitCo.Close
open Epoll MachineInt Shutdown Transition

/-- Calls of co::close that have dropped the registrations of a descriptor and not called ::close yet:
on a thread with a scheduler they may sleep in between. -/
structure State where
  tables : Tables
  isOpen : Int → Bool
  closing : Int → Nat

def initial : State := ⟨.create,fun _ => false,fun _ => 0⟩

/-- `socket` is any call that makes a descriptor; the others are called for `fd` by a scheduler or,
where `gSched` is none, by a thread that has none. -/
inductive Event where
  | socket (fd : Int)
  | addIoEvent (sched : Nat) (fd : Int) (e : IoEvent) (coId : Nat) (refuse : Bool)
  | delIoEvent (sched : Nat) (fd : Int) (e : IoEvent) (refuse : Bool)
  | shutdown (gSched : Option Nat) (fd : Int) (c : UInt8) (refuse : Bool)
  | close (gSched : Option Nat) (fd : Int) (refuse : Bool)
  | closed (fd : Int)
  deriving DecidableEq, Repr

def Event.fd : Event → Int
  | .socket fd | .addIoEvent _ fd _ _ _ | .delIoEvent _ fd _ _ | .shutdown _ fd _ _ | .close _ fd _ | .closed fd => fd

/-- The first half of co::close. -/
def dropEvents (gSched : Option Nat) (t : Tables) (fd : Int) (refuse : Bool) : Tables :=
  match gSched with
  | some sched => delEvent sched t fd refuse
  | none => update t fd SockCtx.delEvent

/-- The kernel's side of ::close. -/
def forget (t : Tables) (fd : Int) : Tables :=
  {t with interest := fun sched => Function.update (t.interest sched) fd none}

/-- epoll_ctl refuses a descriptor that is not open. -/
def step (s : State) : Event → Option State
  | .socket fd =>
      if 0 ≤ fd ∧ s.isOpen fd = false then some {s with isOpen := Function.update s.isOpen fd true} else none
  | .addIoEvent sched fd e coId refuse =>
      some {s with tables := (addIoEvent sched s.tables fd e coId (refuse || !s.isOpen fd)).1}
  | .delIoEvent sched fd e refuse => some {s with tables := delIoEvent sched s.tables fd e (refuse || !s.isOpen fd)}
  | .shutdown gSched fd c refuse =>
      some {s with tables := (Shutdown.shutdown gSched s.tables fd c (refuse || !s.isOpen fd)).1}
  | .close gSched fd refuse =>
      if fd < 0 then some s
      else some {s with
        tables := dropEvents gSched s.tables fd (refuse || !s.isOpen fd)
        closing := Function.update s.closing fd (s.closing fd + 1)}
  | .closed fd =>
      if s.closing fd = 0 then none
      else some {s with
        tables := if s.isOpen fd then forget s.tables fd else s.tables
        isOpen := Function.update s.isOpen fd false
        closing := Function.update s.closing fd (s.closing fd - 1)}

/-- Nobody registers for a descriptor that somebody is closing. -/
def Clean (s : State) : Event → Prop
  | .addIoEvent _ fd _ _ _ => s.closing fd = 0
  | _ => True

/-- Nobody is registered for the descriptor. -/
def Silent (t : Tables) (fd : Int) : Prop := ∀ e, (t.sock fd).hasEv e = false

structure Inv (s : State) : Prop where
  silent : ∀ fd, s.isOpen fd = false ∨ 0 < s.closing fd → Silent s.tables fd
  absent : ∀ fd, s.isOpen fd = false → ∀ sched, s.tables.interest sched fd = none

/-- Nothing happens to another descriptor. -/
structure Elsewhere (fd : Int) (t u : Tables) : Prop where
  sock : ∀ g, g ≠ fd → u.sock g = t.sock g
  interest : ∀ g, g ≠ fd → ∀ sched, u.interest sched g = t.interest sched g

/-- Nor to the descriptor itself, where nobody is registered. -/
structure Drops (fd : Int) (t u : Tables) : Prop where
  elsewhere : Elsewhere fd t u
  here : Silent t fd → Silent u fd ∧ ∀ sched, u.interest sched fd = t.interest sched fd

section
variable {t u v : Tables} {sched coId : Nat} {fd : Int} {e : IoEvent} {op : CtlOp} {refuse : Bool}

theorem elsewhereSame (t : Tables) : Elsewhere fd t t := ⟨fun _ _ => rfl,fun _ _ _ => rfl⟩

theorem dropsSame (t : Tables) : Drops fd t t := ⟨elsewhereSame t,fun none => ⟨none,fun _ => rfl⟩⟩

theorem elsewhereThen (first : Elsewhere fd t u) (second : Elsewhere fd u v) : Elsewhere fd t v :=
  ⟨fun g other => (second.sock g other).trans (first.sock g other),
    fun g other sched => (second.interest g other sched).trans (first.interest g other sched)⟩

theorem dropsThen (first : Drops fd t u) (second : Drops fd u v) : Drops fd t v := by
  refine ⟨elsewhereThen first.elsewhere second.elsewhere,?_⟩
  intro none
  obtain ⟨quiet,kept⟩ := first.here none
  obtain ⟨still,again⟩ := second.here quiet
  exact ⟨still,fun sched => (again sched).trans (kept sched)⟩

theorem ctlElsewhere (h : epollCtl t sched op fd refuse = some u) : Elsewhere fd t u := by
  refine ⟨fun g _ => by rw [ctlSock h],?_⟩
  intro g other s
  simp only [epollCtl] at h
  split at h <;> try contradiction
  split at h <;> try contradiction
  all_goals
    cases Option.some.inj h
    by_cases same : s = sched
    · subst s
      simp [other]
    · simp [same]

theorem storeElsewhere (t : Tables) (fd : Int) (ctx : SockCtx) :
    Elsewhere fd t {t with sock := Function.update t.sock fd ctx} :=
  ⟨fun _ other => Function.update_of_ne other _ _,fun _ _ _ => rfl⟩

theorem addElsewhere (e : IoEvent) (sched : Nat) (t : Tables) (fd : Int) (coId : Nat) (refuse : Bool) :
    Elsewhere fd t (addEv e sched t fd coId refuse).1 := by
  simp only [addEv]
  split
  · exact elsewhereSame t
  · split
    · exact elsewhereSame t
    · split
      · rename_i v taken
        exact elsewhereThen (ctlElsewhere taken) (storeElsewhere v fd _)
      · exact elsewhereSame t

theorem delElsewhere {op : CtlOp} (ctx : SockCtx) :
    Elsewhere fd t ((epollCtl {t with sock := Function.update t.sock fd ctx} sched op fd refuse).getD
      {t with sock := Function.update t.sock fd ctx}) := by
  refine elsewhereThen (storeElsewhere t fd ctx) ?_
  cases taken : epollCtl _ sched op fd refuse with
  | none => exact elsewhereSame _
  | some v => exact ctlElsewhere taken

/- DelEvRead, DelEvWrite and DelEvent return at once where nobody is registered. -/
theorem delEvDrops (e : IoEvent) (sched : Nat) (t : Tables) (fd : Int) (refuse : Bool) :
    Drops fd t (delEv e sched t fd refuse) := by
  by_cases none : Silent t fd
  · have same : delEv e sched t fd refuse = t := by simp [delEv,none e]
    rw [same]
    exact dropsSame t
  · refine ⟨?_,fun quiet => absurd quiet none⟩
    simp only [delEv]
    split
    · exact elsewhereSame t
    · split
      · exact elsewhereSame t
      · exact delElsewhere _

theorem delEventDrops (sched : Nat) (t : Tables) (fd : Int) (refuse : Bool) :
    Drops fd t (delEvent sched t fd refuse) := by
  by_cases none : Silent t fd
  · have same : delEvent sched t fd refuse = t := by simp [delEvent,SockCtx.hasEvent,none .evRead,none .evWrite]
    rw [same]
    exact dropsSame t
  · refine ⟨?_,fun quiet => absurd quiet none⟩
    simp only [delEvent]
    split
    · exact elsewhereSame t
    · split
      · exact delElsewhere _
      · exact elsewhereSame t

theorem updateDrops {change : SockCtx → SockCtx}
    (clears : ∀ ctx : SockCtx, (∀ e, ctx.hasEv e = false) → ∀ e, (change ctx).hasEv e = false) :
    Drops fd t (update t fd change) := by
  refine ⟨storeElsewhere t fd _,fun none => ⟨?_,fun _ => rfl⟩⟩
  intro e
  simp only [update,Function.update_self]
  exact clears _ none e

theorem delIoEventDrops (sched : Nat) (t : Tables) (fd : Int) (e : IoEvent) (refuse : Bool) :
    Drops fd t (delIoEvent sched t fd e refuse) := by
  refine dropsThen ?_ (delEvDrops .evWrite sched _ fd refuse)
  split
  · exact delEvDrops .evRead sched t fd refuse
  · exact dropsSame t

theorem putClears (f : IoEvent) (ctx : SockCtx) (none : ∀ e, ctx.hasEv e = false) (e : IoEvent) :
    (ctx.put unregistered f).hasEv e = false := by
  rw [← registrationNone,registrationPut]
  split
  · rfl
  · exact registrationNone.2 (none e)

theorem shutdownDrops (gSched : Option Nat) (t : Tables) (fd : Int) (c : UInt8) (refuse : Bool) :
    Drops fd t (Shutdown.shutdown gSched t fd c refuse).1 := by
  unfold Shutdown.shutdown
  split
  · exact dropsSame t
  · cases gSched with
    | some sched =>
      simp only
      split
      · exact delIoEventDrops sched t fd .evRead refuse
      · split
        · exact delIoEventDrops sched t fd .evWrite refuse
        · exact delEventDrops sched t fd refuse
    | none =>
      simp only
      split
      · exact updateDrops (putClears .evRead)
      · split
        · exact updateDrops (putClears .evWrite)
        · exact updateDrops (putClears .evRead)

theorem dropEventsDrops (gSched : Option Nat) (t : Tables) (fd : Int) (refuse : Bool) :
    Drops fd t (dropEvents gSched t fd refuse) := by
  cases gSched with
  | some sched => exact delEventDrops sched t fd refuse
  | none => exact updateDrops (fun ctx none e => putClears .evWrite _ (putClears .evRead ctx none) e)

/- On either path nobody is registered any more. -/
theorem dropEventsSilent (gSched : Option Nat) (t : Tables) (valid : 0 ≤ fd) (refuse : Bool) :
    Silent (dropEvents gSched t fd refuse) fd := by
  intro e
  cases gSched with
  | some sched => exact registrationNone.1 (delEventRegistration valid e)
  | none =>
    have stored : ((dropEvents none t fd refuse).sock fd) = (t.sock fd).delEvent := Function.update_self _ _ _
    rw [stored,← registrationNone,SockCtx.delEvent,SockCtx.delEvWrite,SockCtx.delEvRead,registrationPut,registrationPut]
    cases e <;> rfl

/- What epoll_ctl refuses is not registered. -/
theorem addRefused (e : IoEvent) (sched : Nat) (t : Tables) (fd : Int) (coId : Nat) :
    (addEv e sched t fd coId true).1 = t := by
  simp only [addEv,epollCtl,if_true]
  split
  · rfl
  · split <;> rfl

/- Where nobody is registered and the kernel has no entry, the caller is registered. -/
theorem addRegisters (valid : 0 ≤ fd) (quiet : Silent t fd) (absent : ∀ s, t.interest s fd = none) (e : IoEvent)
    (sched coId : Nat) : (addEv e sched t fd coId false).2 = true ∧
      ((addEv e sched t fd coId false).1.sock fd).get e = ⟨coId,sched⟩ ∧
      (addEv e sched t fd coId false).1.interest sched fd = some (.only e fd) := by
  have own : (t.sock fd).hasEvOf e.opposite sched = false := Interest.hasEvNone (quiet e.opposite)
  have taken : addEv e sched t fd coId false =
      (⟨Function.update t.sock fd ((t.sock fd).put ⟨coId,sched⟩ e),
        Function.update t.interest sched (Function.update (t.interest sched) fd (some (.only e fd)))⟩,true) := by
    simp only [addEv,epollCtl,if_neg (by omega : ¬fd < 0),quiet e,own,Bool.false_eq_true,if_false,absent]
  rw [taken]
  simp

end

section
variable {s t : State} {e : Event} {fd : Int}

theorem forgetElsewhere (t : Tables) (fd : Int) : Elsewhere fd t (forget t fd) :=
  ⟨fun _ _ => rfl,fun _ other _ => Function.update_of_ne other _ _⟩

/- A step about one descriptor leaves the others alone. -/
theorem stepElsewhere (h : step s e = some t) : Elsewhere e.fd s.tables t.tables ∧
    (∀ g, g ≠ e.fd → t.isOpen g = s.isOpen g ∧ t.closing g = s.closing g) := by
  cases e with
  | socket fd =>
    simp only [step] at h
    split at h <;> try contradiction
    cases Option.some.inj h
    exact ⟨elsewhereSame _,fun g other => ⟨Function.update_of_ne other _ _,rfl⟩⟩
  | addIoEvent sched fd e coId refuse =>
    cases Option.some.inj h
    refine ⟨?_,fun _ _ => ⟨rfl,rfl⟩⟩
    simp only [addIoEventEq]
    exact addElsewhere e sched s.tables fd coId _
  | delIoEvent sched fd e refuse =>
    cases Option.some.inj h
    exact ⟨(delIoEventDrops sched s.tables fd e _).elsewhere,fun _ _ => ⟨rfl,rfl⟩⟩
  | shutdown gSched fd c refuse =>
    cases Option.some.inj h
    exact ⟨(shutdownDrops gSched s.tables fd c _).elsewhere,fun _ _ => ⟨rfl,rfl⟩⟩
  | close gSched fd refuse =>
    simp only [step] at h
    split at h <;> cases Option.some.inj h
    · exact ⟨elsewhereSame _,fun _ _ => ⟨rfl,rfl⟩⟩
    · refine ⟨(dropEventsDrops gSched s.tables fd _).elsewhere,?_⟩
      exact fun g other => ⟨rfl,Function.update_of_ne other _ _⟩
  | closed fd =>
    simp only [step] at h
    split at h <;> try contradiction
    cases Option.some.inj h
    refine ⟨?_,fun g other => ⟨Function.update_of_ne other _ _,Function.update_of_ne other _ _⟩⟩
    simp only
    split
    · exact forgetElsewhere s.tables fd
    · exact elsewhereSame _

/- With the other descriptors as they were, only the step's own is left to look at. -/
theorem invHere (inv : Inv s) (h : step s e = some t)
    (quiet : t.isOpen e.fd = false ∨ 0 < t.closing e.fd → Silent t.tables e.fd)
    (absent : t.isOpen e.fd = false → ∀ sched, t.tables.interest sched e.fd = none) : Inv t := by
  obtain ⟨elsewhere,flags⟩ := stepElsewhere h
  constructor
  · intro g
    by_cases here : g = e.fd
    · rw [here]
      exact quiet
    · rw [(flags g here).1,(flags g here).2]
      intro gone f
      rw [elsewhere.sock g here]
      exact inv.silent g gone f
  · intro g
    by_cases here : g = e.fd
    · rw [here]
      exact absent
    · rw [(flags g here).1]
      intro gone sched
      rw [elsewhere.interest g here]
      exact inv.absent g gone sched

/- A deletion keeps what is silent so. -/
theorem invDrops (inv : Inv s) {u : Tables} (h : step s e = some {s with tables := u}) (drops : Drops e.fd s.tables u) :
    Inv {s with tables := u} :=
  invHere inv h (fun gone => (drops.here (inv.silent _ gone)).1) (fun gone sched =>
    ((drops.here (inv.silent _ (.inl gone))).2 sched).trans (inv.absent _ gone sched))

theorem stepKept (inv : Inv s) (clean : Clean s e) (h : step s e = some t) : Inv t := by
  have source := h
  cases e with
  | socket fd =>
    simp only [step] at h
    split at h <;> try contradiction
    rename_i free
    cases Option.some.inj h
    exact invHere inv source (fun _ => inv.silent fd (.inl free.2)) (by simp [Event.fd])
  | addIoEvent sched fd e coId refuse =>
    cases Option.some.inj h
    by_cases opened : s.isOpen fd = true
    · have none : s.closing fd = 0 := clean
      exact invHere inv source (fun gone => by simp [Event.fd,opened,none] at gone)
        (fun gone => by simp [Event.fd,opened] at gone)
    · have closed : s.isOpen fd = false := by simpa using opened
      have same : (addIoEvent sched s.tables fd e coId (refuse || !s.isOpen fd)).1 = s.tables := by
        rw [closed,addIoEventEq,Bool.not_false,Bool.or_true,addRefused]
      rw [same]
      exact inv
  | delIoEvent sched fd e refuse =>
    cases Option.some.inj h
    exact invDrops inv source (delIoEventDrops sched s.tables fd e _)
  | shutdown gSched fd c refuse =>
    cases Option.some.inj h
    exact invDrops inv source (shutdownDrops gSched s.tables fd c _)
  | close gSched fd refuse =>
    simp only [step] at h
    split at h <;> cases Option.some.inj h
    · exact inv
    · rename_i valid
      have drops := dropEventsDrops gSched s.tables fd (refuse || !s.isOpen fd)
      refine invHere inv source (fun _ => dropEventsSilent gSched s.tables (by omega) _) ?_
      intro gone sched
      have closed : s.isOpen fd = false := gone
      exact ((drops.here (inv.silent fd (.inl closed))).2 sched).trans (inv.absent fd closed sched)
  | closed fd =>
    simp only [step] at h
    split at h <;> try contradiction
    rename_i begun
    cases Option.some.inj h
    have quiet := inv.silent fd (.inr (by omega))
    cases isOpen : s.isOpen fd with
    | true =>
      rw [isOpen] at source
      exact invHere inv source (fun _ => quiet) (fun _ _ => by simp [Event.fd,forget])
    | false =>
      rw [isOpen] at source
      exact invHere inv source (fun _ => quiet) (fun _ sched => inv.absent fd isOpen sched)

theorem initialInv : Inv initial := ⟨fun _ _ e => by cases e <;> rfl,fun _ _ _ => rfl⟩

theorem runElsewhere {es : List Event} (h : run step s es = some t) (others : ∀ e ∈ es, e.fd ≠ fd) :
    t.tables.sock fd = s.tables.sock fd ∧ (∀ sched, t.tables.interest sched fd = s.tables.interest sched fd) ∧
    t.isOpen fd = s.isOpen fd := by
  induction es generalizing s with
  | nil => cases Option.some.inj h; exact ⟨rfl,fun _ => rfl,rfl⟩
  | cons e es ih =>
    obtain ⟨m,first,rest⟩ := runCons h
    obtain ⟨elsewhere,flags⟩ := stepElsewhere first
    have other := (others e List.mem_cons_self).symm
    obtain ⟨sock,interest,isOpen⟩ := ih rest (fun f inRest => others f (List.mem_cons_of_mem _ inRest))
    exact ⟨sock.trans (elsewhere.sock fd other),fun sched => (interest sched).trans (elsewhere.interest fd other sched),
      isOpen.trans (flags fd other).1⟩

end

/-- In every run in which nobody registers for a descriptor between the two halves of a co::close of
it: a descriptor that is not open is registered nowhere, so the first coroutine that waits for it once
it is handed out again is registered, for it alone, and the kernel told. -/
theorem reusedRegisters (es : List Event) (s : State) (ok : Guarded step Clean initial es)
    (reached : run step initial es = some s) :
    (∀ fd, s.isOpen fd = false → Silent s.tables fd ∧ ∀ sched, s.tables.interest sched fd = none) ∧
    ∀ fd t fs u, step s (.socket fd) = some t → (∀ f ∈ fs, Event.fd f ≠ fd) → run step t fs = some u →
      ∀ sched e coId, (addIoEvent sched u.tables fd e coId (!u.isOpen fd)).2 = true ∧
        ∃ v, step u (.addIoEvent sched fd e coId false) = some v ∧ (v.tables.sock fd).get e = ⟨coId,sched⟩ ∧
          v.tables.interest sched fd = some (.only e fd) := by
  have inv := guardedInvariant (fun _ _ _ inv clean h => stepKept inv clean h) ok reached initialInv
  refine ⟨fun fd closed => ⟨inv.silent fd (.inl closed),inv.absent fd closed⟩,?_⟩
  intro fd t fs u made others after sched e coId
  simp only [step] at made
  split at made <;> try contradiction
  rename_i free
  cases Option.some.inj made
  obtain ⟨sock,interest,isOpen⟩ := runElsewhere after others
  have opened : u.isOpen fd = true := by simpa using isOpen
  have quiet : Silent u.tables fd := by
    intro f
    rw [sock]
    exact inv.silent fd (.inl free.2) f
  obtain ⟨told,recorded,known⟩ := addRegisters free.1 quiet
    (fun sched => (interest sched).trans (inv.absent fd free.2 sched)) e sched coId
  simp only [step,addIoEventEq,opened,Bool.not_true,Bool.or_false]
  exact ⟨told,_,rfl,recorded,known⟩

theorem readerReregisters : ∃ s t, run step initial [.socket 5,.addIoEvent 0 5 .evRead 7 false,.close (some 0) 5 false,
      .closed 5] = some s ∧ step s (.socket 5) = some t ∧
    ∃ v, step t (.addIoEvent 1 5 .evWrite 8 false) = some v ∧ (v.tables.sock 5).get .evWrite = ⟨8,1⟩ ∧
      v.tables.interest 1 5 = some (.only .evWrite 5) := by
  refine ⟨_,_,rfl,rfl,?_⟩
  exact ((reusedRegisters [.socket 5,.addIoEvent 0 5 .evRead 7 false,.close (some 0) 5 false,.closed 5] _
    ⟨trivial,fun _ h => by cases h; exact ⟨rfl,fun _ h => by cases h; exact ⟨trivial,fun _ h => by
      cases h; exact ⟨trivial,fun _ _ => trivial⟩⟩⟩⟩ rfl).2 5 _ [] _ rfl (by simp) rfl 1 .evWrite 8).2

/- Registered while co::close sleeps: the next owner of 5 believes that it waits for it. -/
example : (run step initial [.socket 5,.close (some 0) 5 false,.addIoEvent 1 5 .evRead 7 false,.closed 5,.socket 5,
    .addIoEvent 0 5 .evRead 9 false]).map (fun s => ((s.tables.sock 5).readEv,s.tables.interest 0 5)) =
    some (⟨7,1⟩,none) := by decide

end TitCo.Close
