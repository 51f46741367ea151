import TitCo.ChannelFifo
import TitCo.Settling

/-! What a channel without timeouts comes to when no further Read or Write is begun: the copies, the
AddReadyTasks and the resumptions that are under way end, and who is suspended then follows from the
Reads and Writes so far. -/
namespace TitCo.ChannelBalance
open ByteMemory Channel ChannelFifo Settling Transition

def Pending : Event → Prop
  | .read .. => False
  | .write .. => False
  | _ => True

/-- A channel with nothing under way. -/
structure Balanced (cap : Nat) (s : State) : Prop where
  returned : ∀ k, k < s.reads → ((∃ v, (k,v) ∈ s.readDone) ↔ k < s.writes.length)
  stored : contents cap s.chan = (s.writes.drop s.reads).take cap
  readers : ∃ waiting : List Nat, waiting.Nodup ∧ (∀ co, co ∈ waiting ↔ ∃ w k, s.status co = .reading w k) ∧
    waiting.length = s.reads - s.writes.length
  writers : ∃ waiting : List Nat, waiting.Nodup ∧ (∀ co, co ∈ waiting ↔ ∃ w, s.status co = .writing w) ∧
    waiting.length = s.writes.length - (s.reads + cap)

def weight : Status → Nat
  | .handing _ _ => 3
  | .waking _ _ => 2
  | _ => 0

def rank (n : Nat) (s : State) : Nat := ∑ co ∈ Finset.range n, weight (s.status co) + s.ready.length

/-- The coroutines that have used the channel are below `n`. -/
def Users (n : Nat) (s : State) : Prop := ∀ co, n ≤ co → s.status co = .idle

section
variable {cap n : Nat} {s t : State}

theorem usersMoved (users : Users n s) {co : Nat} {st : Status} (less : co < n)
    (status : t.status = Function.update s.status co st) : Users n t := by
  intro d above
  rw [status,Function.update_of_ne (by omega)]
  exact users d above

theorem userBelow (users : Users n s) {co : Nat} (busy : s.status co ≠ .idle) : co < n := by
  by_contra above
  exact busy (users co (by omega))

theorem someUsers (used : ∃ n, Users n s) {e : Event} (h : step s e = some t) : ∃ n, Users n t := by
  obtain ⟨n,users⟩ := used
  have moved : ∀ co st, t.status = Function.update s.status co st → ∃ n, Users n t := by
    intro co st status
    refine ⟨max n (co+1),?_⟩
    exact usersMoved (fun d above => users d (by omega)) (show co < max n (co+1) by omega) status
  cases e with
  | read co onStack =>
    simp only [step] at h
    split at h <;> try contradiction
    generalize readSection s.chan s.heap kInit co onStack = sect at h
    obtain ⟨c,k,out⟩ := sect
    cases out with
    | taken v =>
      cases Option.some.inj h
      exact ⟨n,users⟩
    | woke v w | suspended w =>
      cases Option.some.inj h
      exact moved co _ rfl
  | write co onStack v =>
    simp only [step] at h
    split at h <;> try contradiction
    generalize writeSection s.chan s.heap kInit co onStack v = sect at h
    obtain ⟨c,k,out⟩ := sect
    cases out with
    | stored =>
      cases Option.some.inj h
      exact ⟨n,users⟩
    | handOff w | suspended w =>
      cases Option.some.inj h
      exact moved co _ rfl
  | copy co =>
    simp only [step] at h
    split at h <;> try contradiction
    cases Option.some.inj h
    exact moved co _ rfl
  | addReadyTask co =>
    simp only [step] at h
    split at h <;> try contradiction
    cases Option.some.inj h
    exact moved co _ rfl
  | resume co =>
    simp only [step] at h
    split at h <;> try contradiction
    split at h <;> try contradiction
    all_goals
      cases Option.some.inj h
      exact moved co _ rfl

/- Each step that ends something weighs less than what it ends. -/
theorem pendingFalls (cap n : Nat) : Falls step Pending (fun s => Inv cap s ∧ Users n s) (rank n) := by
  rintro s e t ⟨inv,users⟩ pending h
  have kept := stepKeeps inv h
  have moved : ∀ {co st}, s.status co ≠ .idle → t.status = Function.update s.status co st →
      weight st + t.ready.length < weight (s.status co) + s.ready.length →
      (Inv cap t ∧ Users n t) ∧ rank n t < rank n s := by
    intro co st busy status less
    have below := userBelow users busy
    refine ⟨⟨kept,usersMoved users below status⟩,?_⟩
    have sum := sumMoved weight s.status below st
    rw [rank,rank,status]
    omega
  cases e with
  | read co onStack => exact pending.elim
  | write co onStack v => exact pending.elim
  | copy co =>
    simp only [step] at h
    split at h <;> try contradiction
    rename_i handing
    cases Option.some.inj h
    refine moved (by simp [handing]) rfl ?_
    simp [handing,weight,State.copied]
  | addReadyTask co =>
    simp only [step] at h
    split at h <;> try contradiction
    rename_i waking
    cases Option.some.inj h
    refine moved (by simp [waking]) rfl ?_
    simp only [waking,weight,State.readied,List.length_append,List.length_singleton]
    omega
  | resume co =>
    simp only [step] at h
    split at h <;> try contradiction
    rename_i ready
    have some := List.length_pos_of_mem ready
    have fewer := List.length_erase_of_mem ready
    split at h <;> try contradiction
    all_goals
      rename_i asleep
      cases Option.some.inj h
      refine moved (by simp [asleep]) rfl ?_
      simp only [asleep,weight,State.resumed,fewer]
      omega

theorem quietIdle (inv : Inv cap s) (quiet : Quiet step Pending s) :
    s.ready = [] ∧ ∀ co, (s.status co).carries = none := by
  obtain ⟨vals,stage,place,-,tokens,-,-⟩ := inv
  refine ⟨List.eq_nil_iff_forall_not_mem.2 ?_,?_⟩
  · intro co ready
    obtain ⟨w,asleep,-⟩ := tokens.due co ready
    have stuck := quiet (.resume co) trivial
    simp only [step,if_pos ready] at stuck
    cases st : s.status co <;> simp [st,Status.sleeps] at asleep stuck
  · intro co
    have copied := quiet (.copy co) trivial
    have readied := quiet (.addReadyTask co) trivial
    simp only [step] at copied readied
    cases st : s.status co <;> simp [st,Status.carries] at copied readied ⊢

/- The coroutines of the wait queue. -/
def sleepers (s : State) : List Nat := s.chan.waitQueue.map (fun w => (s.heap.ctx w).co)

theorem sleepersLength : (sleepers s).length = s.chan.waitQueue.length := List.length_map ..

section
variable {vals : List Value} {stage : Nat → Stage}
  (tokens : Tokens stage s.heap s.chan.waitQueue s.status s.ready) (ready : s.ready = [])
  (carries : ∀ co, (s.status co).carries = none)
include tokens

theorem sleepersOnce : (sleepers s).Nodup := by
  refine List.Nodup.map_on ?_ tokens.queueNodup
  intro w inside x other same
  have first := (tokens.waiting w inside).2
  rw [same,(tokens.waiting x other).2] at first
  exact (Option.some.inj first).symm

include ready carries

/- Nobody is on the way, so who sleeps is in the queue. -/
theorem sleeperQueued {co w : Nat} (asleep : (s.status co).sleeps = some w) :
    w ∈ s.chan.waitQueue ∧ (s.heap.ctx w).co = co := by
  refine ⟨?_,(tokens.made co w asleep).2.1⟩
  rcases tokens.placed co w asleep with ⟨-,inside⟩ | ⟨d,-,carried⟩ | ⟨-,due⟩
  · exact inside
  · rw [carries d] at carried
    contradiction
  · simp [ready] at due

theorem memSleepers {co : Nat} : co ∈ sleepers s ↔ ∃ w, (s.status co).sleeps = some w := by
  constructor
  · intro mine
    obtain ⟨w,inside,rfl⟩ := List.mem_map.1 mine
    exact ⟨w,(tokens.waiting w inside).2⟩
  · rintro ⟨w,asleep⟩
    obtain ⟨inside,owner⟩ := sleeperQueued tokens ready carries asleep
    exact List.mem_map.2 ⟨w,inside,owner⟩

variable (accounts : Accounts cap vals s) {co w : Nat} (asleep : (s.status co).sleeps = some w)
include accounts asleep

theorem sleeperReads (full : s.chan.full = false) : ∃ k, s.status co = .reading w k ∧ s.writes.length ≤ k := by
  obtain ⟨inside,owner⟩ := sleeperQueued tokens ready carries asleep
  obtain ⟨i,_,at_⟩ := List.mem_iff_getElem.1 inside
  have mine := accounts.readers full i w (by rw [← at_]; exact List.getElem?_eq_getElem _)
  rw [owner] at mine
  exact ⟨_,mine,Nat.le_add_right ..⟩

theorem sleeperWrites (full : s.chan.full = true) : s.status co = .writing w := by
  obtain ⟨inside,owner⟩ := sleeperQueued tokens ready carries asleep
  have mine := (accounts.writers full w inside).1
  rwa [owner] at mine

end

/- A ring that is not full has no waiters or nothing to read. -/
theorem quietReaders {vals : List Value} (accounts : Accounts cap vals s) (full : s.chan.full = false) :
    s.chan.waitQueue.length = s.reads - s.writes.length ∧ s.writes.length ≤ s.reads + cap := by
  have count := accounts.ahead full
  obtain ⟨r,ring⟩ := accounts.sound.ring
  have fits := ring.fits
  rcases accounts.sound.quiet with none | none | whole
  · rw [none] at count ⊢
    simp only [List.length_nil] at count ⊢
    omega
  · rw [none] at count
    simp only [List.length_nil] at count
    omega
  · rw [accounts.sound.full.2 whole] at full
    contradiction

theorem quietStored {vals : List Value} (accounts : Accounts cap vals s) :
    contents cap s.chan = (s.writes.drop s.reads).take cap := by
  obtain ⟨r,ring⟩ := accounts.sound.ring
  have fits := ring.fits
  rw [ringContents ring accounts.sound.full,← accounts.kept]
  cases full : s.chan.full with
  | true =>
    have whole := accounts.sound.full.1 full
    rw [List.take_append_of_le_length (by omega),List.take_of_length_le (by omega)]
  | false =>
    rw [State.queued,full,if_neg (by simp),List.append_nil,List.take_of_length_le fits]

theorem quietReturned {place : Nat → Place} (tickets : Tickets place s) (carries : ∀ co, (s.status co).carries = none)
    (late : ∀ co w k, s.status co = .reading w k → s.writes.length ≤ k) :
    ∀ k, k < s.reads → ((∃ v, (k,v) ∈ s.readDone) ↔ k < s.writes.length) := by
  intro k less
  constructor
  · rintro ⟨v,done⟩
    exact (List.getElem?_eq_some_iff.1 (tickets.matched k v done).2.2).1
  · intro written
    cases at_ : place k with
    | returned => exact tickets.returned k less at_
    | held co =>
      have ticket := tickets.holder k co less at_
      have idle := carries co
      cases st : s.status co <;> simp [st,Status.ticket,Status.carries] at ticket idle
      have behind := late co _ _ st
      omega

theorem quietBalanced (inv : Inv cap s) (quiet : Quiet step Pending s) : Balanced cap s := by
  obtain ⟨ready,carries⟩ := quietIdle inv quiet
  obtain ⟨vals,stage,place,accounts,tokens,-,tickets⟩ := inv
  have once := sleepersOnce tokens
  have members := fun co => @memSleepers _ _ tokens ready carries co
  cases full : s.chan.full with
  | false =>
    have reads := fun {co w} asleep => @sleeperReads _ _ _ _ tokens ready carries accounts co w asleep full
    obtain ⟨size,room⟩ := quietReaders accounts full
    refine ⟨quietReturned tickets carries ?_,quietStored accounts,⟨sleepers s,once,?_,sleepersLength.trans size⟩,
      ⟨[],List.nodup_nil,?_,by simp only [List.length_nil]; omega⟩⟩
    · intro co w k reading
      obtain ⟨_,same,late⟩ := @reads co w (by rw [reading]; rfl)
      rw [reading] at same
      injection same with _ same
      omega
    · intro co
      rw [members]
      constructor
      · rintro ⟨w,asleep⟩
        obtain ⟨k,mine,-⟩ := reads asleep
        exact ⟨w,k,mine⟩
      · rintro ⟨w,k,reading⟩
        exact ⟨w,by rw [reading]; rfl⟩
    · intro co
      simp only [List.not_mem_nil,false_iff,not_exists]
      intro w writing
      obtain ⟨k,mine,-⟩ := @reads co w (by rw [writing]; rfl)
      rw [writing] at mine
      contradiction
  | true =>
    have writes := fun {co w} asleep => @sleeperWrites _ _ _ _ tokens ready carries accounts co w asleep full
    have count := accounts.behind full
    have whole := accounts.sound.full.1 full
    have noReader : ∀ co w k, s.status co ≠ .reading w k := by
      intro co w k reading
      have mine := @writes co w (by rw [reading]; rfl)
      rw [reading] at mine
      contradiction
    refine ⟨quietReturned tickets carries (fun co w k reading => absurd reading (noReader co w k)),quietStored accounts,
      ⟨[],List.nodup_nil,?_,by simp only [List.length_nil]; omega⟩,⟨sleepers s,once,?_,by rw [sleepersLength]; omega⟩⟩
    · intro co
      simp [noReader]
    · intro co
      rw [members]
      constructor
      · rintro ⟨w,asleep⟩
        exact ⟨w,writes asleep⟩
      · rintro ⟨w,writing⟩
        exact ⟨w,by rw [writing]; rfl⟩

end

end TitCo.ChannelBalance
