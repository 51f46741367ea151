import TitCo.Epoll
import TitCo.Transition

/-! The process-wide SockCtx map against the epoll instances of the schedulers, over any
sequence of the five Epoll methods. Adding looks at the caller's own registration of the
other direction; deleting looks at anybody's. -/
namespace TitCo.Interest
open Epoll MachineInt Transition

inductive Method where
  | addEv (e : IoEvent) (coId : Nat)
  | delEv (e : IoEvent)
  | delEvent
  deriving DecidableEq, Repr

structure Call where
  sched : Nat
  fd : Int
  method : Method
  deriving DecidableEq, Repr

def call (t : Tables) (c : Call) (refuse : Bool) : Tables :=
  match c.method with
  | .addEv e coId => (addEv e c.sched t c.fd coId refuse).1
  | .delEv e => delEv e c.sched t c.fd refuse
  | .delEvent => delEvent c.sched t c.fd refuse

/-- With every fd open epoll_ctl fails only on EEXIST and ENOENT. -/
def openStep (t : Tables) (c : Call) : Option Tables := some (call t c false)

def wants (ev : Option EpollEvent) : IoEvent → Bool
  | .evRead => ev.elim false EpollEvent.epollIn
  | .evWrite => ev.elim false EpollEvent.epollOut

/-- The interest of each scheduler in each fd is what SockCtx says. -/
structure Agrees (t : Tables) (sched : Nat) (fd : Int) : Prop where
  mask : ∀ e, wants (t.interest sched fd) e = (t.sock fd).hasEvOf e sched
  absent : t.interest sched fd = none ↔
    (t.sock fd).hasEvOf .evRead sched = false ∧ (t.sock fd).hasEvOf .evWrite sched = false

def Agree (t : Tables) : Prop := ∀ sched fd, Agrees t sched fd

/-- Whoever deletes owns what is registered for the fd, and no coroutine has the id -1. -/
def Owner (t : Tables) (c : Call) : Prop :=
  match c.method with
  | .addEv _ coId => coId ≠ uint32Max
  | .delEv e => (t.sock c.fd).hasEv e = true → ∀ f, (t.sock c.fd).hasEv f = true → (t.sock c.fd).hasEvOf f c.sched = true
  | .delEvent => ∀ f, (t.sock c.fd).hasEv f = true → (t.sock c.fd).hasEvOf f c.sched = true

section
variable {t u : Tables} {sched : Nat} {fd : Int} {e : IoEvent}

theorem hasEvOfSome {ctx : SockCtx} (own : ctx.hasEvOf e sched = true) : ctx.hasEv e = true := by
  simp only [SockCtx.hasEvOf,Bool.and_eq_true] at own
  exact own.2

theorem hasEvOfOther {ctx : SockCtx} {s : Nat} (own : ctx.hasEvOf e sched = true) (differ : s ≠ sched) :
    ctx.hasEvOf e s = false := by
  simp only [SockCtx.hasEvOf,Bool.and_eq_true,beq_iff_eq] at own
  simp only [SockCtx.hasEvOf,Bool.and_eq_false_iff,beq_eq_false_iff_ne]
  exact Or.inl (fun same => differ (same.trans own.1.symm))

theorem hasEvNone {ctx : SockCtx} (none : ctx.hasEv e = false) : ctx.hasEvOf e sched = false := by
  cases own : ctx.hasEvOf e sched with
  | false => rfl
  | true =>
    rw [hasEvOfSome own] at none
    contradiction

theorem oppositeNe (e : IoEvent) : e.opposite ≠ e := by cases e <;> decide

theorem directions (e f : IoEvent) : f = e ∨ f = e.opposite := by cases e <;> cases f <;> decide

theorem hasEvOfPut (ctx : SockCtx) (r : Registration) (s : Nat) :
    (ctx.put r e).hasEvOf e s = (s == r.schedId && r.coId != uint32Max) ∧
    (ctx.put r e).hasEvOf e.opposite s = ctx.hasEvOf e.opposite s := by
  constructor
  · simp [SockCtx.hasEvOf]
  · simp [SockCtx.hasEvOf,SockCtx.getPutOther _ _ (oppositeNe e)]

theorem agreesOf (mask : ∀ e, wants (t.interest sched fd) e = (t.sock fd).hasEvOf e sched)
    (some : ∀ ev, t.interest sched fd = some ev → ev.epollIn = true ∨ ev.epollOut = true) : Agrees t sched fd := by
  refine ⟨mask,?_⟩
  rw [← mask .evRead,← mask .evWrite]
  cases entry : t.interest sched fd with
  | none => simp [wants]
  | some ev =>
    rcases some ev entry with reads | writes
    · simp [wants,reads]
    · simp [wants,writes]

theorem agreesOther (agrees : Agrees t sched fd) (entry : u.interest sched fd = t.interest sched fd)
    (own : ∀ e, (u.sock fd).hasEvOf e sched = (t.sock fd).hasEvOf e sched) : Agrees u sched fd := by
  refine ⟨?_,?_⟩
  · intro e
    rw [entry,own]
    exact agrees.mask e
  · rw [entry,own,own]
    exact agrees.absent

theorem wantsBoth (fd : Int) (f : IoEvent) : wants (some (.both fd)) f = true := by cases f <;> rfl

theorem wantsOnly (e : IoEvent) (fd : Int) (f : IoEvent) : wants (some (.only e fd)) f = decide (f = e) := by
  cases e <;> cases f <;> rfl

theorem wantsNone (f : IoEvent) : wants none f = false := by cases f <;> rfl

theorem onlyNonempty (e : IoEvent) (fd : Int) :
    (EpollEvent.only e fd).epollIn = true ∨ (EpollEvent.only e fd).epollOut = true := by
  cases e with
  | evRead => exact Or.inl rfl
  | evWrite => exact Or.inr rfl

def put (t : Tables) (sched : Nat) (fd : Int) (entry : Option EpollEvent) (ctx : SockCtx) : Tables :=
  ⟨Function.update t.sock fd ctx,Function.update t.interest sched (Function.update (t.interest sched) fd entry)⟩

theorem putAgree {entry : Option EpollEvent} {ctx : SockCtx} (agree : Agree t)
    (mask : ∀ e, wants entry e = ctx.hasEvOf e sched)
    (nonempty : ∀ ev, entry = some ev → ev.epollIn = true ∨ ev.epollOut = true)
    (others : ∀ e s, s ≠ sched → ctx.hasEvOf e s = (t.sock fd).hasEvOf e s) : Agree (put t sched fd entry ctx) := by
  intro s g
  by_cases here : g = fd
  · subst g
    by_cases same : s = sched
    · subst s
      refine agreesOf ?_ ?_
      · intro e
        simp only [put,Function.update_self]
        exact mask e
      · intro ev found
        simp only [put,Function.update_self] at found
        exact nonempty ev found
    · refine agreesOther (agree s fd) ?_ ?_
      · simp only [put,Function.update_of_ne same]
      · intro e
        simp only [put,Function.update_self]
        exact others e s same
  · refine agreesOther (agree s g) ?_ ?_
    · by_cases same : s = sched
      · subst s
        simp only [put,Function.update_self,Function.update_of_ne here]
      · simp only [put,Function.update_of_ne same]
    · intro e
      simp only [put,Function.update_of_ne here]

theorem present (agrees : Agrees t sched fd) (own : (t.sock fd).hasEvOf e sched = true) :
    ∃ ev, t.interest sched fd = some ev := by
  cases entry : t.interest sched fd with
  | some ev => exact ⟨ev,rfl⟩
  | none =>
    have neither := agrees.absent.1 entry
    cases e with
    | evRead => simp [neither.1] at own
    | evWrite => simp [neither.2] at own

theorem absentBoth (agrees : Agrees t sched fd) (none : (t.sock fd).hasEvOf e sched = false)
    (other : (t.sock fd).hasEvOf e.opposite sched = false) : t.interest sched fd = .none := by
  apply agrees.absent.2
  cases e with
  | evRead => exact ⟨none,other⟩
  | evWrite => exact ⟨other,none⟩

theorem addAgree {coId : Nat} (agree : Agree t) (id : coId ≠ uint32Max) : Agree (addEv e sched t fd coId false).1 := by
  simp only [addEv]
  split
  · exact agree
  · split
    · exact agree
    · rename_i free
      have free : (t.sock fd).hasEv e = false := by simpa using free
      -- The entry is there exactly when the other direction is the caller's own.
      have taken : (epollCtl t sched (if (t.sock fd).hasEvOf e.opposite sched then .mod (.both fd) else .add (.only e fd))
          fd false) = some {t with interest := Function.update t.interest sched (Function.update (t.interest sched) fd
            (some (if (t.sock fd).hasEvOf e.opposite sched then .both fd else .only e fd)))} := by
        cases other : (t.sock fd).hasEvOf e.opposite sched with
        | true =>
          obtain ⟨ev,entry⟩ := present (agree sched fd) other
          simp [epollCtl,entry]
        | false =>
          have entry := absentBoth (agree sched fd) (hasEvNone free) other
          simp [epollCtl,entry]
      rw [taken]
      have kept : Agree (put t sched fd (some (if (t.sock fd).hasEvOf e.opposite sched then .both fd else .only e fd))
          ((t.sock fd).put ⟨coId,sched⟩ e)) := by
        refine putAgree agree ?_ ?_ ?_
        · intro f
          rcases directions e f with rfl | rfl
          · rw [(hasEvOfPut _ _ _).1]
            split <;> simp [wantsBoth,wantsOnly,id]
          · rw [(hasEvOfPut _ _ _).2]
            cases other : (t.sock fd).hasEvOf e.opposite sched
            · simp [wantsOnly,oppositeNe]
            · simp [wantsBoth]
        · intro ev found
          cases Option.some.inj found
          split
          · exact Or.inl rfl
          · exact onlyNonempty e fd
        · intro f s differ
          rcases directions e f with rfl | rfl
          · rw [(hasEvOfPut _ _ _).1,hasEvNone free]
            simp [differ]
          · exact (hasEvOfPut _ _ _).2
      exact kept

theorem deleteAgree (agree : Agree t) (owner : ∀ f, (t.sock fd).hasEv f = true → (t.sock fd).hasEvOf f sched = true) :
    Agree (delEv e sched t fd false) := by
  simp only [delEv]
  split
  · exact agree
  · split
    · exact agree
    · rename_i set
      have set : (t.sock fd).hasEv e = true := by simpa using set
      obtain ⟨ev,entry⟩ := present (agree sched fd) (owner e set)
      have other : ((t.sock fd).put unregistered e).hasEv e.opposite = (t.sock fd).hasEv e.opposite := by
        simp [SockCtx.hasEv,SockCtx.getPutOther _ _ (oppositeNe e)]
      -- The entry is there, so MOD and DEL go through.
      have taken : ∀ op : CtlOp, (op = .mod (.only e.opposite 0) ∨ op = .del) →
          (epollCtl {t with sock := Function.update t.sock fd ((t.sock fd).put unregistered e)} sched op fd false).getD
            {t with sock := Function.update t.sock fd ((t.sock fd).put unregistered e)} =
          put t sched fd (if op = .del then none else some (.only e.opposite 0)) ((t.sock fd).put unregistered e) := by
        rintro op (rfl | rfl) <;> simp [epollCtl,entry,put]
      simp only [Function.update_self,other]
      rw [taken _ (by split <;> simp)]
      refine putAgree agree ?_ ?_ ?_
      · intro f
        rcases directions e f with rfl | rfl
        · rw [(hasEvOfPut _ _ _).1]
          cases registered : (t.sock fd).hasEv f.opposite
          · simp [wantsNone,unregistered]
          · simp [wantsOnly,unregistered,(oppositeNe f).symm]
        · rw [(hasEvOfPut _ _ _).2]
          cases registered : (t.sock fd).hasEv e.opposite
          · simp [wantsNone,hasEvNone registered]
          · simp [wantsOnly,owner _ registered]
      · intro ev found
        cases registered : (t.sock fd).hasEv e.opposite
        · simp [registered] at found
        · simp only [registered,if_true,reduceCtorEq,if_false,Option.some.injEq] at found
          rw [← found]
          exact onlyNonempty _ _
      · intro f s differ
        rcases directions e f with rfl | rfl
        · rw [(hasEvOfPut _ _ _).1,hasEvOfOther (owner _ set) differ]
          simp [unregistered]
        · exact (hasEvOfPut _ _ _).2

theorem deleteAllAgree (agree : Agree t)
    (owner : ∀ f, (t.sock fd).hasEv f = true → (t.sock fd).hasEvOf f sched = true) :
    Agree (delEvent sched t fd false) := by
  simp only [delEvent]
  split
  · exact agree
  · split
    · rename_i set
      have some : ∃ f, (t.sock fd).hasEv f = true := by
        simp only [SockCtx.hasEvent,Bool.or_eq_true] at set
        rcases set with reads | writes
        · exact ⟨_,reads⟩
        · exact ⟨_,writes⟩
      obtain ⟨f,mine⟩ := some
      obtain ⟨ev,entry⟩ := present (agree sched fd) (owner f mine)
      have clear : ∀ e s, (t.sock fd).delEvent.hasEvOf e s = false := by
        intro e s
        cases e <;>
          simp [SockCtx.hasEvOf,SockCtx.get,SockCtx.delEvent,SockCtx.delEvRead,SockCtx.delEvWrite,SockCtx.put,unregistered]
      have kept : Agree (put t sched fd none (t.sock fd).delEvent) := by
        refine putAgree agree ?_ (by simp) ?_
        · intro e
          rw [clear]
          cases e <;> rfl
        · intro e s differ
          rw [clear]
          cases registered : (t.sock fd).hasEv e with
          | false => exact (hasEvNone registered).symm
          | true => exact (hasEvOfOther (owner e registered) differ).symm
      simpa [epollCtl,entry,put] using kept
    · exact agree

theorem callAgree {c : Call} (agree : Agree t) (owner : Owner t c) (h : openStep t c = some u) : Agree u := by
  cases Option.some.inj h
  obtain ⟨sched,fd,method⟩ := c
  cases method with
  | addEv e coId => exact addAgree agree owner
  | delEv e =>
    by_cases set : (t.sock fd).hasEv e = true
    · exact deleteAgree agree (owner set)
    · have same : delEv e sched t fd false = t := by
        simp only [delEv]
        split
        · rfl
        · rw [if_pos (by simpa using set)]
      simp only [call,same]
      exact agree
  | delEvent => exact deleteAllAgree agree owner

end

/-- Over any calls of any schedulers of which the deleting ones own what they delete, the
kernel's tables say what SockCtx says. -/
theorem interestAgrees (calls : List Call) (t : Tables) (ok : Guarded openStep Owner .create calls)
    (reached : run openStep .create calls = some t) : Agree t := by
  refine guardedInvariant (fun _ _ _ agree owner h => callAgree agree owner h) ok reached ?_
  intro sched fd
  refine ⟨?_,?_⟩
  · intro e
    cases e <;> simp [wants,Tables.create,SockCtx.create,SockCtx.hasEvOf,SockCtx.get,unregistered]
  · simp [Tables.create,SockCtx.create,SockCtx.hasEvOf,SockCtx.get,unregistered]

def sharedCalls : List Call :=
  [⟨1,5,.addEv .evRead 10⟩,⟨2,6,.addEv .evWrite 11⟩,⟨1,5,.addEv .evWrite 12⟩,⟨1,5,.delEv .evRead⟩,⟨2,6,.delEvent⟩]

theorem interestAgreesShared : ∃ t, run openStep .create sharedCalls = some t ∧
    t.interest 1 5 = some ⟨false,true,0⟩ ∧ t.interest 2 6 = none ∧ Agree t := by
  have guarded : Guarded openStep Owner .create sharedCalls := by
    have id : ∀ coId, coId < 20 → coId ≠ uint32Max := by
      simp only [uint32Max]
      omega
    refine guardedCons (id 10 (by omega)) rfl (guardedCons (id 11 (by omega)) rfl (guardedCons (id 12 (by omega)) rfl
      (guardedCons ?_ rfl (guardedCons ?_ rfl trivial))))
    · rintro set (_ | _) <;> decide
    · rintro (_ | _) <;> decide
  exact ⟨_,rfl,rfl,rfl,interestAgrees sharedCalls _ guarded rfl⟩

/- Scheduler 2 deletes what scheduler 1 registered: SockCtx forgets it, the epoll of
scheduler 1 does not. -/
theorem foreignDelete : ¬ ∀ (calls : List Call) (t : Tables), run openStep .create calls = some t → Agree t := by
  intro all
  have mask := (all [⟨1,5,.addEv .evRead 10⟩,⟨2,5,.delEv .evRead⟩] _ rfl 1 5).mask .evRead
  exact absurd mask (by decide)

structure Attempt where
  fd : Int
  method : Method
  refuse : Bool
  deriving DecidableEq, Repr

def soloStep (sched : Nat) (t : Tables) (a : Attempt) : Option Tables := some (call t ⟨sched,a.fd,a.method⟩ a.refuse)

/-- Epoll::user_data of every entry is its fd, so that Loop finds the SockCtx of that fd. -/
def Tagged (sched : Nat) (t : Tables) : Prop := ∀ fd ev, t.interest sched fd = some ev → ev.dataFd = fd

/-- No direction is dropped while both are registered: that is the MOD without data.fd. -/
def Whole (t : Tables) (a : Attempt) : Prop :=
  ∀ e, a.method = .delEv e → a.refuse = false → (∀ f, (t.sock a.fd).hasEv f = true) → a.fd = 0

def Held (sched : Nat) (t : Tables) : Prop :=
  ∀ fd e, (t.sock fd).hasEv e = true → 0 ≤ fd ∧ t.interest sched fd ≠ none

def CtlOp.entry : CtlOp → Option EpollEvent
  | .add ev => some ev
  | .mod ev => some ev
  | .del => none

section
variable {t u : Tables} {sched : Nat} {fd : Int} {e : IoEvent} {op : CtlOp} {refuse : Bool}

theorem ctlInterest (h : epollCtl t sched op fd refuse = some u) (g : Int) :
    u.interest sched g = if g = fd then CtlOp.entry op else t.interest sched g := by
  simp only [epollCtl] at h
  split at h <;> try contradiction
  split at h <;> try contradiction
  all_goals
    cases Option.some.inj h
    by_cases here : g = fd
    · subst g
      simp [CtlOp.entry]
    · simp [here]

theorem ctlTagged (tagged : Tagged sched t) (names : ∀ ev, CtlOp.entry op = some ev → ev.dataFd = fd)
    (h : epollCtl t sched op fd refuse = some u) : Tagged sched u := by
  intro g ev entry
  rw [ctlInterest h] at entry
  split at entry
  · rename_i here
    rw [here]
    exact names ev entry
  · exact tagged g ev entry

theorem addTagged {coId : Nat} (tagged : Tagged sched t) : Tagged sched (addEv e sched t fd coId refuse).1 := by
  simp only [addEv]
  split
  · exact tagged
  · split
    · exact tagged
    · split
      · rename_i v taken
        have named : Tagged sched v := by
          refine ctlTagged tagged ?_ taken
          intro ev entry
          split at entry
          · cases Option.some.inj entry
            rfl
          · cases Option.some.inj entry
            rfl
        exact named
      · exact tagged

theorem deleteAllTagged (tagged : Tagged sched t) : Tagged sched (delEvent sched t fd refuse) := by
  simp only [delEvent]
  split
  · exact tagged
  · split
    · cases taken : epollCtl _ _ _ _ _ with
      | none => exact tagged
      | some v =>
        refine ctlTagged ?_ ?_ taken
        · exact tagged
        · simp [CtlOp.entry]
    · exact tagged

/- The MOD of the deletion finds its entry and leaves data.fd at 0. -/
theorem deleteTagged (held : Held sched t) (tagged : Tagged sched t) :
    Tagged sched (delEv e sched t fd refuse) ↔ (refuse = false → (∀ f, (t.sock fd).hasEv f = true) → fd = 0) := by
  simp only [delEv]
  split
  · rename_i negative
    refine iff_of_true tagged ?_
    intro _ both
    have valid := (held fd e (both e)).1
    omega
  · split
    · rename_i none
      refine iff_of_true tagged ?_
      intro _ both
      rw [both e] at none
      contradiction
    · rename_i set
      have set : (t.sock fd).hasEv e = true := by simpa using set
      have other : ((t.sock fd).put unregistered e).hasEv e.opposite = (t.sock fd).hasEv e.opposite := by
        simp [SockCtx.hasEv,SockCtx.getPutOther _ _ (oppositeNe e)]
      simp only [Function.update_self,other]
      cases registered : (t.sock fd).hasEv e.opposite with
      | false =>
        refine iff_of_true ?_ ?_
        · cases taken : epollCtl _ _ _ _ _ with
          | none => exact tagged
          | some v =>
            refine ctlTagged ?_ ?_ taken
            · exact tagged
            · simp [CtlOp.entry]
        · intro _ both
          rw [both] at registered
          contradiction
      | true =>
        have both : ∀ f, (t.sock fd).hasEv f = true := by
          intro f
          rcases directions e f with rfl | rfl
          · exact set
          · exact registered
        cases refuse with
        | true => exact iff_of_true tagged (by simp)
        | false =>
          cases entry : t.interest sched fd with
          | none => exact absurd entry (held fd e set).2
          | some ev =>
            simp only [if_true,epollCtl,Bool.false_eq_true,if_false,entry,Option.getD_some]
            constructor
            · intro after _ _
              have zero := after fd (.only e.opposite 0) (by simp)
              exact zero.symm
            · intro zero g ev found
              have zero := zero trivial both
              by_cases here : g = fd
              · subst g
                simp only [Function.update_self,Option.some.injEq] at found
                rw [← found,zero]
                rfl
              · simp only [Function.update_self,Function.update_of_ne here] at found
                exact tagged g ev found

theorem heldOf {ctx : SockCtx} (held : Held sched t) (sock : u.sock = Function.update t.sock fd ctx)
    (others : ∀ g, g ≠ fd → u.interest sched g = t.interest sched g)
    (here : ∀ f, ctx.hasEv f = true → 0 ≤ fd ∧ u.interest sched fd ≠ none) : Held sched u := by
  intro g f set
  rw [sock] at set
  by_cases same : g = fd
  · subst g
    rw [Function.update_self] at set
    exact here f set
  · rw [Function.update_of_ne same] at set
    rw [others g same]
    exact held g f set

theorem addHeld {coId : Nat} (held : Held sched t) : Held sched (addEv e sched t fd coId refuse).1 := by
  simp only [addEv]
  split
  · exact held
  · rename_i valid
    split
    · exact held
    · split
      · rename_i v taken
        have interest := ctlInterest taken
        have sock : Function.update v.sock fd ((v.sock fd).put ⟨coId,sched⟩ e) =
            Function.update t.sock fd ((t.sock fd).put ⟨coId,sched⟩ e) := by rw [ctlSock taken]
        refine heldOf held sock ?_ ?_
        · intro g other
          simp only [interest,if_neg other]
        · intro f _
          refine ⟨by omega,?_⟩
          simp only [interest,if_true]
          split <;> simp [CtlOp.entry]
      · exact held

theorem deleteHeld (held : Held sched t) : Held sched (delEv e sched t fd refuse) := by
  simp only [delEv]
  split
  · exact held
  · rename_i valid
    split
    · exact held
    · rename_i set
      have set : (t.sock fd).hasEv e = true := by simpa using set
      have gone : ((t.sock fd).put unregistered e).hasEv e = false := by simp [SockCtx.hasEv,unregistered]
      cases taken : epollCtl _ _ _ _ _ with
      | none =>
        refine heldOf held rfl (fun _ _ => rfl) ?_
        intro f _
        exact held fd e set
      | some v =>
        have interest := ctlInterest taken
        refine heldOf held (ctlSock taken) ?_ ?_
        · intro g other
          simp only [Option.getD_some,interest,if_neg other]
        · intro f left
          refine ⟨by omega,?_⟩
          -- What is left is the other direction, so the operation was the MOD.
          have opposite : f = e.opposite := by
            rcases directions e f with rfl | rfl
            · rw [gone] at left
              contradiction
            · rfl
          subst f
          simp only [Option.getD_some,interest,Function.update_self,left,if_true]
          simp [CtlOp.entry]

theorem deleteAllHeld (held : Held sched t) : Held sched (delEvent sched t fd refuse) := by
  simp only [delEvent]
  split
  · exact held
  · split
    · have clear : ∀ f, (t.sock fd).delEvent.hasEv f = false := by
        intro f
        cases f <;>
          simp [SockCtx.hasEv,SockCtx.get,SockCtx.delEvent,SockCtx.delEvRead,SockCtx.delEvWrite,SockCtx.put,unregistered]
      have none : ∀ {P : Prop} f, (t.sock fd).delEvent.hasEv f = true → P := by
        intro P f set
        rw [clear] at set
        contradiction
      cases taken : epollCtl _ _ _ _ _ with
      | none => exact heldOf held rfl (fun _ _ => rfl) none
      | some v =>
        refine heldOf held (ctlSock taken) ?_ none
        intro g other
        simp only [Option.getD_some,ctlInterest taken,if_neg other]
    · exact held

theorem soloHeld (t : Tables) (a : Attempt) (u : Tables) (held : Held sched t) (h : soloStep sched t a = some u) :
    Held sched u := by
  cases Option.some.inj h
  obtain ⟨fd,method,refuse⟩ := a
  cases method with
  | addEv e coId => exact addHeld held
  | delEv e => exact deleteHeld held
  | delEvent => exact deleteAllHeld held

theorem soloTagged (t : Tables) (a : Attempt) (u : Tables) (held : Held sched t) (tagged : Tagged sched t)
    (h : soloStep sched t a = some u) : Tagged sched u ↔ Whole t a := by
  cases Option.some.inj h
  obtain ⟨fd,method,refuse⟩ := a
  cases method with
  | addEv e coId => exact iff_of_true (addTagged tagged) (by simp [Whole])
  | delEv e =>
    refine (deleteTagged held tagged).trans ?_
    simp [Whole]
  | delEvent => exact iff_of_true (deleteAllTagged tagged) (by simp [Whole])

end

/-- Every entry names its fd in every state of a run exactly when no call of the run drops
one direction of an fd, other than 0, of which both are registered. -/
theorem eventsNameTheirFd (sched : Nat) (calls : List Attempt) :
    (∀ before after t, calls = before ++ after → run (soloStep sched) .create before = some t → Tagged sched t) ↔
      Guarded (soloStep sched) Whole .create calls := by
  refine alwaysIffGuarded (fun t a => ⟨_,rfl⟩) soloHeld soloTagged calls ?_ ?_
  · intro fd e set
    cases e <;> simp [Tables.create,SockCtx.create,SockCtx.hasEv,SockCtx.get,unregistered] at set
  · intro fd ev entry
    simp [Tables.create] at entry

/- A reader and a writer wait on fd 5 and the reader gives up: the writer's event names fd 0. -/
theorem droppedReader : ¬ ∀ (sched : Nat) (calls : List Attempt) (t : Tables),
    run (soloStep sched) .create calls = some t → Tagged sched t := by
  intro all
  have named := all 1 [⟨5,.addEv .evRead 10,false⟩,⟨5,.addEv .evWrite 11,false⟩,⟨5,.delEv .evRead,false⟩] _ rfl 5
    ⟨false,true,0⟩ rfl
  exact absurd named (by decide)

end TitCo.Interest
