import TitCo.Transition
import TitCo.Epoll

/-! The coroutines of one scheduler inside recv, recvn, recvfrom, send, sendto, accept
and connect, seen through their IOEvent: constructed, waited on any number of times,
destroyed before the call returns. One coroutine runs at a time and is exchanged only
where it suspends. Each fd has at most one reading and one writing coroutine and is
neither closed nor shut down; the eventfd of the scheduler is not handed out. -/
namespace TitCo.IoWait
open Transition Epoll MachineInt

structure IOEvent where
  fd : Int
  ev : IoEvent
  hasEv : Bool
  deriving DecidableEq, Repr

structure State where
  tables : Tables
  running : Option Nat
  io : Nat → Option IOEvent
  asleep : Nat → Bool

structure Config where
  sched : Nat
  wakeUpFd : Int

def initial (c : Config) : State := ⟨.start c.sched c.wakeUpFd,none,fun _ => none,fun _ => false⟩

/- `resume` is Loop giving the thread to a coroutine, new or suspended anywhere, for
whatever reason; `leave` is the running one suspending outside an IO call or
finishing. `wait` is IOEvent::wait up to its Yield. -/
inductive Event where
  | resume (co : Nat)
  | leave
  | construct (fd : Int) (ev : IoEvent)
  | wait (refuse : Bool)
  | destroy (refuse : Bool)
  deriving DecidableEq, Repr

def suspend (s : State) (co : Nat) (e : IOEvent) (tables : Tables) : State :=
  {s with
    tables := tables
    running := none
    io := Function.update s.io co (some {e with hasEv := true})
    asleep := Function.update s.asleep co true}

def waitStep (c : Config) (s : State) (co : Nat) (e : IOEvent) (refuse : Bool) : State :=
  if e.hasEv then suspend s co e s.tables
  else match addIoEvent c.sched s.tables e.fd e.ev co refuse with
    | (t,true) => suspend s co e t
    | (t,false) => {s with tables := t}

def destroyStep (c : Config) (s : State) (co : Nat) (e : IOEvent) (refuse : Bool) : State :=
  {s with
    tables := if e.hasEv then delIoEvent c.sched s.tables e.fd e.ev refuse else s.tables
    io := Function.update s.io co none}

def State.current (s : State) : Option (Nat × IOEvent) := do
  let co ← s.running
  let e ← s.io co
  some (co,e)

def step (c : Config) (s : State) : Event → Option State
  | .resume co =>
      if s.running = none then
        some {s with running := some co, asleep := Function.update s.asleep co false}
      else none
  | .leave => do
      let co ← s.running
      if s.io co = none then some {s with running := none} else none
  | .construct fd ev => do
      let co ← s.running
      if s.io co = none then some {s with io := Function.update s.io co (some ⟨fd,ev,false⟩)} else none
  | .wait refuse => do
      let (co,e) ← s.current
      some (waitStep c s co e refuse)
  | .destroy refuse => do
      let (co,e) ← s.current
      some (destroyStep c s co e refuse)

/-- The use that SockCtx documents, and ids that are not the -1 of an empty record. -/
def Documented (c : Config) (s : State) : Event → Prop
  | .resume co => co < uint32Max
  | .construct fd ev => fd ≠ c.wakeUpFd ∧ ∀ co e, s.io co = some e → ¬ (e.fd = fd ∧ e.ev = ev)
  | _ => True

/-- No reading IOEvent that registered ends while a coroutine sleeps in a wait for
writing on the same fd. -/
def Clean (s : State) : Event → Prop
  | .destroy _ => ∀ co e, s.current = some (co,e) → e.ev = .evRead → e.hasEv = true →
      ∀ d f, s.asleep d = true → s.io d = some f → ¬ (f.fd = e.fd ∧ f.ev = .evWrite)
  | _ => True

/-- What get_sock_ctx has to say about a coroutine that sleeps in IOEvent::wait. -/
def Recorded (c : Config) (s : State) : Prop :=
  ∀ co, s.asleep co = true → ∃ e, s.io co = some e ∧ (s.tables.sock e.fd).get e.ev = ⟨co,c.sched⟩

structure Inv (c : Config) (s : State) : Prop where
  awake : ∀ co, s.running = some co → s.asleep co = false ∧ co < uint32Max
  inside : ∀ co e, s.io co = some e → s.running = some co ∨ s.asleep co = true
  waits : ∀ co, s.asleep co = true → ∃ e, s.io co = some e ∧ e.hasEv = true
  sole : ∀ co d e f, s.io co = some e → s.io d = some f → e.fd = f.fd → e.ev = f.ev → co = d
  foreign : ∀ co e, s.io co = some e → e.fd ≠ c.wakeUpFd
  mine : ∀ co e, s.io co = some e → e.hasEv = true →
    co < uint32Max ∧ 0 ≤ e.fd ∧ (s.tables.sock e.fd).get e.ev = ⟨co,c.sched⟩
  known : ∀ fd ev, fd ≠ c.wakeUpFd → (s.tables.sock fd).hasEv ev = true →
    ∃ co e, s.io co = some e ∧ e.fd = fd ∧ e.ev = ev ∧ e.hasEv = true

theorem currentSource {s : State} {co : Nat} {e : IOEvent} (h : s.current = some (co,e)) :
    s.running = some co ∧ s.io co = some e := by
  simp only [State.current,bind,Option.bind_eq_some_iff] at h
  obtain ⟨c,run,f,inside,last⟩ := h
  cases Option.some.inj last
  exact ⟨run,inside⟩

theorem startSock (c : Config) {fd : Int} (other : fd ≠ c.wakeUpFd) :
    (Tables.start c.sched c.wakeUpFd).sock fd = .create := by
  have made : addEv .evRead c.sched .create c.wakeUpFd 0 false =
    ((addEv .evRead c.sched .create c.wakeUpFd 0 false).1,(addEv .evRead c.sched .create c.wakeUpFd 0 false).2) := rfl
  rcases addEvSource made with ⟨same,_⟩ | ⟨same,_⟩ | ⟨_,_,_,same⟩
  · simp only [Tables.start,addEvRead,same]; rfl
  · simp only [Tables.start,addEvRead,same]; rfl
  · simp only [Tables.start,addEvRead,same,Function.update_of_ne other]; rfl

theorem initialInv (c : Config) : Inv c (initial c) := by
  refine ⟨by simp [initial],by simp [initial],by simp [initial],by simp [initial],by simp [initial],
    by simp [initial],?_⟩
  intro fd ev other present
  simp only [initial,startSock c other] at present
  cases ev <;> simp [SockCtx.hasEv,SockCtx.create,SockCtx.get,unregistered] at present

section Keeps
variable {c : Config} {s : State}

theorem resumeKeeps (inv : Inv c s) {co : Nat} (free : s.running = none) (id : co < uint32Max) :
    Inv c {s with running := some co, asleep := Function.update s.asleep co false} := by
  refine {inv with awake := ?_, inside := ?_, waits := ?_}
  · intro d run
    cases Option.some.inj run
    exact ⟨by simp,id⟩
  · intro d e h
    by_cases same : d = co
    · subst d; exact .inl rfl
    · rcases inv.inside d e h with run | asleep
      · simp [free] at run
      · exact .inr (by simpa [Function.update_of_ne same] using asleep)
  · intro d asleep
    by_cases same : d = co
    · subst d; simp at asleep
    · exact inv.waits d (by simpa [Function.update_of_ne same] using asleep)

theorem leaveKeeps (inv : Inv c s) {co : Nat} (run : s.running = some co) (outside : s.io co = none) :
    Inv c {s with running := none} := by
  refine {inv with awake := by simp, inside := ?_}
  intro d e h
  rcases inv.inside d e h with here | asleep
  · cases Option.some.inj (run.symm.trans here)
    simp [outside] at h
  · exact .inr asleep

theorem constructKeeps (inv : Inv c s) {co : Nat} {fd : Int} {ev : IoEvent} (run : s.running = some co)
    (outside : s.io co = none) (documented : Documented c s (.construct fd ev)) :
    Inv c {s with io := Function.update s.io co (some ⟨fd,ev,false⟩)} := by
  obtain ⟨foreign,unused⟩ := documented
  have awake := (inv.awake co run).1
  have old : ∀ d e, Function.update s.io co (some ⟨fd,ev,false⟩) d = some e →
      (d = co ∧ e = ⟨fd,ev,false⟩) ∨ (d ≠ co ∧ s.io d = some e) := by
    intro d e h
    by_cases same : d = co
    · subst d; simp at h; exact .inl ⟨rfl,h.symm⟩
    · exact .inr ⟨same,by simpa [Function.update_of_ne same] using h⟩
  have stays : ∀ d e, s.io d = some e → Function.update s.io co (some ⟨fd,ev,false⟩) d = some e := by
    intro d e h
    have other : d ≠ co := by
      rintro rfl
      simp [outside] at h
    simpa [Function.update_of_ne other] using h
  refine ⟨inv.awake,?_,?_,?_,?_,?_,?_⟩
  · intro d e h
    rcases old d e h with ⟨rfl,_⟩ | ⟨_,was⟩
    · exact .inl run
    · exact inv.inside d e was
  · intro d asleep
    obtain ⟨e,h,has⟩ := inv.waits d asleep
    exact ⟨e,stays d e h,has⟩
  · intro a b e f ha hb sameFd sameEv
    rcases old a e ha with ⟨rfl,rfl⟩ | ⟨_,wasA⟩
    · rcases old b f hb with ⟨rfl,_⟩ | ⟨_,wasB⟩
      · rfl
      · exact absurd ⟨sameFd.symm,sameEv.symm⟩ (unused b f wasB)
    · rcases old b f hb with ⟨rfl,rfl⟩ | ⟨_,wasB⟩
      · exact absurd ⟨sameFd,sameEv⟩ (unused a e wasA)
      · exact inv.sole a b e f wasA wasB sameFd sameEv
  · intro d e h
    rcases old d e h with ⟨_,rfl⟩ | ⟨_,was⟩
    · exact foreign
    · exact inv.foreign d e was
  · intro d e h has
    rcases old d e h with ⟨_,rfl⟩ | ⟨_,was⟩
    · simp at has
    · exact inv.mine d e was has
  · intro g f other present
    obtain ⟨d,e,h,rest⟩ := inv.known g f other present
    exact ⟨d,e,stays d e h,rest⟩

theorem suspendKeeps (inv : Inv c s) {co : Nat} {e : IOEvent} {t : Tables} (run : s.running = some co)
    (inside : s.io co = some e) (valid : 0 ≤ e.fd)
    (stored : ∀ fd ev, (t.sock fd).get ev =
      if fd = e.fd ∧ ev = e.ev then ⟨co,c.sched⟩ else (s.tables.sock fd).get ev) :
    Inv c (suspend s co e t) := by
  have id := (inv.awake co run).2
  have old : ∀ d f, Function.update s.io co (some {e with hasEv := true}) d = some f →
      (d = co ∧ f = {e with hasEv := true}) ∨ (d ≠ co ∧ s.io d = some f) := by
    intro d f h
    by_cases same : d = co
    · subst d; simp at h; exact .inl ⟨rfl,h.symm⟩
    · exact .inr ⟨same,by simpa [Function.update_of_ne same] using h⟩
  refine ⟨by simp [suspend],?_,?_,?_,?_,?_,?_⟩
  · intro d f h
    refine .inr ?_
    rcases old d f h with ⟨rfl,_⟩ | ⟨other,was⟩
    · simp [suspend]
    · rcases inv.inside d f was with here | asleep
      · exact absurd (Option.some.inj (here.symm.trans run)) other
      · simpa [suspend,Function.update_of_ne other] using asleep
  · intro d asleep
    by_cases same : d = co
    · subst d; exact ⟨{e with hasEv := true},by simp [suspend],rfl⟩
    · obtain ⟨f,h,has⟩ := inv.waits d (by simpa [suspend,Function.update_of_ne same] using asleep)
      exact ⟨f,by simpa [suspend,Function.update_of_ne same] using h,has⟩
  · intro a b f g ha hb sameFd sameEv
    rcases old a f ha with ⟨rfl,rfl⟩ | ⟨_,wasA⟩
    · rcases old b g hb with ⟨rfl,_⟩ | ⟨_,wasB⟩
      · rfl
      · exact inv.sole a b e g inside wasB sameFd sameEv
    · rcases old b g hb with ⟨rfl,rfl⟩ | ⟨_,wasB⟩
      · exact inv.sole a b f e wasA inside sameFd sameEv
      · exact inv.sole a b f g wasA wasB sameFd sameEv
  · intro d f h
    rcases old d f h with ⟨_,rfl⟩ | ⟨_,was⟩
    · exact inv.foreign co e inside
    · exact inv.foreign d f was
  · intro d f h has
    change d < uint32Max ∧ 0 ≤ f.fd ∧ (t.sock f.fd).get f.ev = _
    rcases old d f h with ⟨rfl,rfl⟩ | ⟨other,was⟩
    · exact ⟨id,valid,by simp [stored]⟩
    · obtain ⟨less,pos,record⟩ := inv.mine d f was has
      refine ⟨less,pos,?_⟩
      rw [stored,if_neg,record]
      rintro ⟨sameFd,sameEv⟩
      exact other (inv.sole d co f e was inside sameFd sameEv)
  · intro g f other present
    by_cases here : g = e.fd ∧ f = e.ev
    · exact ⟨co,{e with hasEv := true},by simp [suspend],here.1.symm,here.2.symm,rfl⟩
    · have before : (s.tables.sock g).hasEv f = true := by
        simpa [suspend,SockCtx.hasEv,stored,here] using present
      obtain ⟨d,h,hd,fd,ev,has⟩ := inv.known g f other before
      have different : d ≠ co := by
        rintro rfl
        cases Option.some.inj (inside.symm.trans hd)
        exact here ⟨fd.symm,ev.symm⟩
      exact ⟨d,h,by simpa [suspend,Function.update_of_ne different] using hd,fd,ev,has⟩

theorem waitKeeps (inv : Inv c s) {co : Nat} {e : IOEvent} (run : s.running = some co)
    (inside : s.io co = some e) (refuse : Bool) : Inv c (waitStep c s co e refuse) := by
  simp only [waitStep]
  split
  · rename_i has
    obtain ⟨_,valid,record⟩ := inv.mine co e inside has
    apply suspendKeeps inv run inside valid
    intro fd ev
    by_cases here : fd = e.fd ∧ ev = e.ev
    · rw [if_pos here,here.1,here.2,record]
    · rw [if_neg here]
  · rename_i missing
    rw [addIoEventEq]
    split
    · rename_i t h
      rcases addEvSource h with ⟨_,no⟩ | ⟨_,_,present⟩ | ⟨_,valid,_,stored⟩
      · contradiction
      · -- Somebody is already registered: that could only be the caller itself.
        obtain ⟨d,f,hd,fd,ev,has⟩ := inv.known e.fd e.ev (inv.foreign co e inside) present
        cases inv.sole d co f e hd inside fd ev
        cases Option.some.inj (inside.symm.trans hd)
        exact absurd has missing
      · apply suspendKeeps inv run inside valid
        intro fd ev
        rw [stored,SockCtx.getStored]
    · rename_i t h
      rcases addEvSource h with ⟨rfl,_⟩ | ⟨_,yes,_⟩ | ⟨yes,_⟩
      · exact inv
      · contradiction
      · contradiction

theorem hasEvUnregistered {ctx : SockCtx} {ev : IoEvent} (h : ctx.get ev = unregistered) :
    ctx.hasEv ev = false := by
  simp [SockCtx.hasEv,h,unregistered]

theorem delIoEventStored {sched : Nat} {t : Tables} {fd : Int} {event : IoEvent} {refuse : Bool}
    (valid : 0 ≤ fd) (present : (t.sock fd).hasEv event = true)
    (lone : event = .evRead → (t.sock fd).hasEv .evWrite = false) (g : Int) (f : IoEvent) :
    ((delIoEvent sched t fd event refuse).sock g).get f =
      if g = fd ∧ f = event then unregistered else (t.sock g).get f := by
  cases event with
  | evWrite =>
    simp only [delIoEvent,delEvWrite,delEvSock]
    simp [valid,present,SockCtx.getStored]
  | evRead =>
    have quiet : ((delEv .evRead sched t fd refuse).sock fd).hasEv .evWrite = false := by
      rw [delEvSock,if_pos ⟨valid,present⟩]
      simpa [SockCtx.hasEv,SockCtx.getPutOther] using lone rfl
    simp only [delIoEvent,delEvWrite,delEvRead,if_true]
    rw [delEvSock,if_neg (by simp [quiet]),delEvSock,if_pos ⟨valid,present⟩,SockCtx.getStored]

theorem removeKeeps (inv : Inv c s) {co : Nat} {e : IOEvent} {t : Tables} (run : s.running = some co)
    (inside : s.io co = some e)
    (cleared : ∀ fd ev, (t.sock fd).get ev =
      if e.hasEv = true ∧ fd = e.fd ∧ ev = e.ev then unregistered else (s.tables.sock fd).get ev) :
    Inv c {s with tables := t, io := Function.update s.io co none} := by
  have old : ∀ d f, Function.update s.io co none d = some f → d ≠ co ∧ s.io d = some f := by
    intro d f h
    have other : d ≠ co := by
      rintro rfl
      simp at h
    exact ⟨other,by simpa [Function.update_of_ne other] using h⟩
  refine ⟨inv.awake,fun d f h => inv.inside d f (old d f h).2,?_,?_,fun d f h => inv.foreign d f (old d f h).2,
    ?_,?_⟩
  · intro d asleep
    have other : d ≠ co := by
      rintro rfl
      simp [(inv.awake d run).1] at asleep
    simpa [Function.update_of_ne other] using inv.waits d asleep
  · intro a b f g ha hb
    exact inv.sole a b f g (old a f ha).2 (old b g hb).2
  · intro d f h has
    obtain ⟨other,was⟩ := old d f h
    obtain ⟨less,pos,record⟩ := inv.mine d f was has
    refine ⟨less,pos,?_⟩
    change (t.sock f.fd).get f.ev = _
    rw [cleared,if_neg,record]
    rintro ⟨_,sameFd,sameEv⟩
    exact other (inv.sole d co f e was inside sameFd sameEv)
  · intro g f other present
    by_cases here : e.hasEv = true ∧ g = e.fd ∧ f = e.ev
    · have gone : (t.sock g).get f = unregistered := by rw [cleared,if_pos here]
      simp [hasEvUnregistered gone] at present
    · have before : (s.tables.sock g).hasEv f = true := by
        simpa [SockCtx.hasEv,cleared,here] using present
      obtain ⟨d,h,hd,fd,ev,has⟩ := inv.known g f other before
      have different : d ≠ co := by
        rintro rfl
        cases Option.some.inj (inside.symm.trans hd)
        exact here ⟨has,fd.symm,ev.symm⟩
      exact ⟨d,h,by simpa [Function.update_of_ne different] using hd,fd,ev,has⟩

theorem destroyKeeps (inv : Inv c s) {co : Nat} {e : IOEvent} (run : s.running = some co)
    (inside : s.io co = some e) (refuse : Bool) (clean : Clean s (.destroy refuse)) :
    Inv c (destroyStep c s co e refuse) := by
  have current : s.current = some (co,e) := by simp [State.current,run,inside]
  apply removeKeeps inv run inside
  intro fd ev
  by_cases has : e.hasEv = true
  · obtain ⟨less,valid,record⟩ := inv.mine co e inside has
    have present : (s.tables.sock e.fd).hasEv e.ev = true := by
      simp only [SockCtx.hasEv,record,bne_iff_ne]
      omega
    have lone : e.ev = .evRead → (s.tables.sock e.fd).hasEv .evWrite = false := by
      intro reads
      by_contra writer
      obtain ⟨d,f,hd,sameFd,writes,_⟩ :=
        inv.known e.fd .evWrite (inv.foreign co e inside) (by simpa using writer)
      rcases inv.inside d f hd with here | asleep
      · cases Option.some.inj (run.symm.trans here)
        cases Option.some.inj (inside.symm.trans hd)
        simp [reads] at writes
      · exact clean co e current reads has d f asleep hd ⟨sameFd,writes⟩
    rw [if_pos has,delIoEventStored valid present lone]
    simp [has]
  · simp [has]

end Keeps

theorem stepKeeps {c s e t} (inv : Inv c s) (documented : Documented c s e) (clean : Clean s e)
    (h : step c s e = some t) : Inv c t := by
  cases e with
  | resume co =>
    simp only [step] at h
    split at h <;> try contradiction
    cases Option.some.inj h
    exact resumeKeeps inv ‹_› documented
  | leave =>
    simp only [step,bind,Option.bind_eq_some_iff] at h
    obtain ⟨co,run,last⟩ := h
    split at last <;> try contradiction
    cases Option.some.inj last
    exact leaveKeeps inv run ‹_›
  | construct fd ev =>
    simp only [step,bind,Option.bind_eq_some_iff] at h
    obtain ⟨co,run,last⟩ := h
    split at last <;> try contradiction
    cases Option.some.inj last
    exact constructKeeps inv run ‹_› documented
  | wait refuse =>
    simp only [step,bind,Option.bind_eq_some_iff] at h
    obtain ⟨⟨co,e⟩,current,last⟩ := h
    cases Option.some.inj last
    obtain ⟨run,inside⟩ := currentSource current
    exact waitKeeps inv run inside refuse
  | destroy refuse =>
    simp only [step,bind,Option.bind_eq_some_iff] at h
    obtain ⟨⟨co,e⟩,current,last⟩ := h
    cases Option.some.inj last
    obtain ⟨run,inside⟩ := currentSource current
    exact destroyKeeps inv run inside refuse clean

/-- In every documented run in which no reading IOEvent ends beside a sleeping writer of
the same fd, each coroutine that sleeps in IOEvent::wait is the one get_sock_ctx
records, for this scheduler, in its direction. -/
theorem waiterStaysRecorded (c : Config) (es : List Event) (s : State)
    (ok : Guarded (step c) (fun s e => Documented c s e ∧ Clean s e) (initial c) es)
    (reached : run (step c) (initial c) es = some s) : Recorded c s := by
  have inv := guardedInvariant (fun _ _ _ inv ok h => stepKeeps inv ok.1 ok.2 h) ok reached (initialInv c)
  intro co asleep
  obtain ⟨e,inside,has⟩ := inv.waits co asleep
  exact ⟨e,inside,(inv.mine co e inside has).2.2⟩

theorem readerStaysRecorded : ∃ s, run (step ⟨0,3⟩) (initial ⟨0,3⟩)
    [.resume 1,.construct 5 .evRead,.wait false,.resume 2,.construct 5 .evWrite,.wait false,.resume 2,
      .destroy false] = some s ∧ s.asleep 1 = true ∧ Recorded ⟨0,3⟩ s := by
  refine ⟨_,rfl,rfl,waiterStaysRecorded ⟨0,3⟩ [.resume 1,.construct 5 .evRead,.wait false,.resume 2,
    .construct 5 .evWrite,.wait false,.resume 2,.destroy false] _ ?_ rfl⟩
  refine guardedCons ⟨show 1 < uint32Max by decide,trivial⟩ rfl (guardedCons ⟨⟨by decide,?_⟩,trivial⟩ rfl
    (guardedCons ⟨trivial,trivial⟩ rfl (guardedCons ⟨show 2 < uint32Max by decide,trivial⟩ rfl
    (guardedCons ⟨⟨by decide,?_⟩,trivial⟩ rfl (guardedCons ⟨trivial,trivial⟩ rfl
    (guardedCons ⟨show 2 < uint32Max by decide,trivial⟩ rfl (guardedCons ⟨trivial,?_⟩ rfl trivial)))))))
  · intro co e h
    cases h
  · intro co e h
    by_cases first : co = 1
    · subst co
      cases Option.some.inj h
      decide
    · change Function.update (Function.update (fun _ => none) 1 _) 1 _ co = some e at h
      simp [Function.update_of_ne first] at h
  · intro co e h reads
    cases Option.some.inj h
    contradiction

/-- The reader ends while the writer sleeps: the writer is no longer recorded. -/
theorem writerForgotten : ¬ ∀ (c : Config) (es : List Event) (s : State),
    Guarded (step c) (Documented c) (initial c) es → run (step c) (initial c) es = some s →
    Recorded c s := by
  intro claim
  have recorded := claim ⟨0,3⟩ [.resume 1,.construct 5 .evRead,.wait false,.resume 2,
    .construct 5 .evWrite,.wait false,.resume 1,.destroy false] _ ?_ rfl
  · obtain ⟨e,inside,record⟩ := recorded 2 rfl
    cases Option.some.inj inside
    exact absurd record (by decide)
  refine guardedCons (show 1 < uint32Max by decide) rfl (guardedCons ⟨by decide,?_⟩ rfl
    (guardedCons trivial rfl (guardedCons (show 2 < uint32Max by decide) rfl
    (guardedCons ⟨by decide,?_⟩ rfl (guardedCons trivial rfl
    (guardedCons (show 1 < uint32Max by decide) rfl (guardedCons trivial rfl trivial)))))))
  · intro co e h
    cases h
  · intro co e h
    by_cases first : co = 1
    · subst co
      cases Option.some.inj h
      decide
    · change Function.update (Function.update (fun _ => none) 1 _) 1 _ co = some e at h
      simp [Function.update_of_ne first] at h

end TitCo.IoWait
