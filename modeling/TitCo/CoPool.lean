import TitCo.StreamBuffer
import TitCo.Channel
import TitCo.Queue
import TitCo.Transition
import Mathlib.Data.Fin.Basic

/-! Copoll of co_poll.cc over the coroutine records themselves: a vector of kPoolSize of them, the
ids of the idle ones, and the number of records handed out so far. The pointers that Pop returns
and Push takes are indices into the vector. -/
namespace TitCo.CoPool
open ByteMemory Queue StreamBuffer Transition
open Channel (kInit)

def kPoolSize : Nat := 256

/-- `ctx` is ctx_, with none for nullptr. -/
structure Coroutine where
  id : Nat
  stackId : Nat
  state : Nat
  stack : FixedBuffer
  waitCtx : Option Nat
  ctx : Option Nat

structure Copoll where
  id : Nat
  idleCoIds : List Nat
  pool : Fin kPoolSize → Coroutine

/-- What the constructor of Coroutine makes; `raw` is what its Stream finds in memory. -/
def Coroutine.create (raw : Memory) : Coroutine := ⟨0,0,kInit,⟨raw,0⟩,none,none⟩

/-- Coroutine::Init leaves id_, stack_id_ and wait_ctx_ alone. -/
def Coroutine.init (co : Coroutine) : Coroutine :=
  {co with state := kInit, ctx := none, stack := reset co.stack}

def Copoll.create (raw : Fin kPoolSize → Memory) : Copoll := ⟨0,[],fun slot => .create (raw slot)⟩

/-- `none` when pool_ has no record at the index. -/
def pop (p : Copoll) : Option (Fin kPoolSize × Copoll) :=
  match p.idleCoIds.getLast? with
  | none =>
      if fits : p.id < kPoolSize then
        let co := {p.pool ⟨p.id,fits⟩ with id := p.id, stackId := (p.id &&& 7) % 256}
        some (⟨p.id,fits⟩,⟨p.id+1,p.idleCoIds,Function.update p.pool ⟨p.id,fits⟩ co⟩)
      else none
  | some last =>
      if fits : last < kPoolSize then
        some (⟨last,fits⟩,{p with
          idleCoIds := p.idleCoIds.dropLast
          pool := Function.update p.pool ⟨last,fits⟩ (p.pool ⟨last,fits⟩).init})
      else none

def push (p : Copoll) (co : Fin kPoolSize) : Copoll := {p with idleCoIds := p.idleCoIds ++ [(p.pool co).id]}

/-- `out` lists the coroutines that were popped and have not been given back. -/
structure State where
  poll : Copoll
  out : List (Fin kPoolSize)

/-- `use` is what happens to a coroutine that is out: its task runs, yields, is saved. -/
inductive Event where
  | pop
  | push (co : Fin kPoolSize)
  | use (co : Fin kPoolSize) (state : Nat) (stack : FixedBuffer) (waitCtx ctx : Option Nat)

def initial (raw : Fin kPoolSize → Memory) : State := ⟨.create raw,[]⟩

def Coroutine.used (co : Coroutine) (state : Nat) (stack : FixedBuffer) (waitCtx ctx : Option Nat) : Coroutine :=
  {co with state := state, stack := stack, waitCtx := waitCtx, ctx := ctx}

def step (s : State) : Event → Option State
  | .pop =>
      if s.out.length < kPoolSize then (pop s.poll).map fun r => ⟨r.2,r.1::s.out⟩ else none
  | .push co => if co ∈ s.out then some ⟨push s.poll co,s.out.erase co⟩ else none
  | .use co state stack waitCtx ctx =>
      if co ∈ s.out then
        let pool := Function.update s.poll.pool co ((s.poll.pool co).used state stack waitCtx ctx)
        some ⟨{s.poll with pool := pool},s.out⟩
      else none

def outIds (s : State) : List Nat := s.out.map fun co => (s.poll.pool co).id

/-- Every id below id_ is in use or idle, and only one of the two, once. -/
structure Accounted (s : State) : Prop where
  out : (outIds s).Nodup
  idle : s.poll.idleCoIds.Nodup
  apart : ∀ i ∈ outIds s, i ∉ s.poll.idleCoIds
  whole : ∀ i, i < s.poll.id ↔ i ∈ outIds s ∨ i ∈ s.poll.idleCoIds

def Fresh (co : Coroutine) : Prop := co.ctx = none ∧ co.state = kInit ∧ co.stack.cur = 0

def PopsFresh (s : State) : Prop :=
  s.out.length < kPoolSize → ∃ co p, pop s.poll = some (co,p) ∧ co ∉ s.out ∧ Fresh (p.pool co)

/-- A record that has been handed out keeps its place as its id. -/
def Named (s : State) : Prop :=
  ∀ co : Fin kPoolSize, co.val < s.poll.id → (s.poll.pool co).id = co ∧ (s.poll.pool co).stackId = co % 8

structure Inv (s : State) : Prop where
  out : s.out.Nodup
  idle : s.poll.idleCoIds.Nodup
  apart : ∀ co ∈ s.out, co.val ∉ s.poll.idleCoIds
  whole : ∀ i, i < s.poll.id ↔ (∃ co ∈ s.out, co.val = i) ∨ i ∈ s.poll.idleCoIds
  bound : s.poll.id ≤ kPoolSize
  named : Named s
  made : ∀ co : Fin kPoolSize, s.poll.id ≤ co → Fresh (s.poll.pool co)

section
variable {s t : State}

theorem invIds (inv : Inv s) : outIds s = s.out.map Fin.val := by
  refine List.map_congr_left ?_
  intro co inside
  exact (inv.named co ((inv.whole co).2 (Or.inl ⟨co,inside,rfl⟩))).1

theorem invAccounted (inv : Inv s) : Accounted s := by
  refine ⟨?_,inv.idle,?_,?_⟩
  · rw [invIds inv]
    exact List.Nodup.map Fin.val_injective inv.out
  · rw [invIds inv]
    intro i inside
    obtain ⟨co,hco,rfl⟩ := List.mem_map.1 inside
    exact inv.apart co hco
  · intro i
    rw [invIds inv,List.mem_map]
    exact inv.whole i

theorem popSource (inv : Inv s) : (s.poll.idleCoIds = [] ∧ pop s.poll = (if fits : s.poll.id < kPoolSize then
      some (⟨s.poll.id,fits⟩,⟨s.poll.id+1,[],Function.update s.poll.pool ⟨s.poll.id,fits⟩
        {s.poll.pool ⟨s.poll.id,fits⟩ with id := s.poll.id, stackId := s.poll.id % 8}⟩) else none)) ∨
    ∃ (co : Fin kPoolSize) (rest : List Nat), s.poll.idleCoIds = rest ++ [co.val] ∧
      pop s.poll = some (co,⟨s.poll.id,rest,Function.update s.poll.pool co (s.poll.pool co).init⟩) := by
  have byte : (s.poll.id &&& 7) % 256 = s.poll.id % 8 := by
    rw [show (7 : Nat) = 2^3 - 1 from rfl,Nat.and_two_pow_sub_one_eq_mod]
    omega
  unfold pop
  cases last : s.poll.idleCoIds.getLast? with
  | none =>
    have empty : s.poll.idleCoIds = [] := List.getLast?_eq_none_iff.1 last
    refine Or.inl ⟨empty,?_⟩
    simp only [byte,empty]
  | some x =>
    have shape := List.dropLast_append_getLast? x last
    have inside : x ∈ s.poll.idleCoIds := by rw [← shape]; simp
    have low : x < kPoolSize := Nat.lt_of_lt_of_le ((inv.whole x).2 (Or.inr inside)) inv.bound
    refine Or.inr ⟨⟨x,low⟩,s.poll.idleCoIds.dropLast,shape.symm,?_⟩
    simp only [dif_pos low]

/- With room for one more there is a record for it: fewer than kPoolSize are out and none is idle. -/
theorem roomLeft (inv : Inv s) (room : s.out.length < kPoolSize) (empty : s.poll.idleCoIds = []) :
    s.poll.id < kPoolSize := by
  by_contra full
  have all : ∀ co : Fin kPoolSize, co ∈ s.out := by
    intro co
    have low : co.val < s.poll.id := by omega
    rcases (inv.whole co).1 low with ⟨d,hd,same⟩ | idle
    · exact Fin.val_injective same ▸ hd
    · simp [empty] at idle
  have many : (List.finRange kPoolSize).length ≤ s.out.length :=
    (List.nodup_finRange _).length_le_of_subset (fun co _ => all co)
  rw [List.length_finRange] at many
  omega

theorem newKeeps (inv : Inv s) (empty : s.poll.idleCoIds = []) (fits : s.poll.id < kPoolSize) {co : Coroutine}
    (named : co.id = s.poll.id ∧ co.stackId = s.poll.id % 8) :
    Inv ⟨⟨s.poll.id+1,[],Function.update s.poll.pool ⟨s.poll.id,fits⟩ co⟩,⟨s.poll.id,fits⟩::s.out⟩ := by
  have whole := inv.whole
  simp only [empty,List.not_mem_nil,or_false] at whole
  have unused : (⟨s.poll.id,fits⟩ : Fin kPoolSize) ∉ s.out := by
    intro inside
    exact absurd ((whole s.poll.id).2 ⟨_,inside,rfl⟩) (Nat.lt_irrefl _)
  have other : ∀ d : Fin kPoolSize, d.val ≠ s.poll.id →
      Function.update s.poll.pool ⟨s.poll.id,fits⟩ co d = s.poll.pool d := by
    intro d differ
    exact Function.update_of_ne (fun same => differ (congrArg Fin.val same)) _ _
  refine ⟨List.nodup_cons.2 ⟨unused,inv.out⟩,List.nodup_nil,by simp,?_,fits,?_,?_⟩
  · intro i
    simp only [List.mem_cons,exists_eq_or_imp,List.not_mem_nil,or_false,← whole i]
    omega
  · intro d low
    simp only at low ⊢
    by_cases same : d.val = s.poll.id
    · have here : d = ⟨s.poll.id,fits⟩ := Fin.ext same
      subst here
      rw [Function.update_self]
      exact named
    · rw [other d same]
      exact inv.named d (by omega)
  · intro d high
    simp only at high ⊢
    rw [other d (by omega)]
    exact inv.made d (by omega)

/- A record changes in nothing that the pool goes by. -/
theorem recordKeeps (inv : Inv s) {co : Fin kPoolSize} {d : Coroutine} (low : co.val < s.poll.id)
    (id : d.id = (s.poll.pool co).id) (stackId : d.stackId = (s.poll.pool co).stackId) :
    Inv ⟨{s.poll with pool := Function.update s.poll.pool co d},s.out⟩ := by
  refine ⟨inv.out,inv.idle,inv.apart,inv.whole,inv.bound,?_,?_⟩
  · intro x below
    by_cases same : x = co
    · subst x
      simp only [Function.update_self,id,stackId]
      exact inv.named co low
    · simp only [Function.update_of_ne same]
      exact inv.named x below
  · intro x high
    have differ : x ≠ co := by
      rintro rfl
      simp only at high
      omega
    simp only [Function.update_of_ne differ]
    exact inv.made x high

theorem reuseKeeps (inv : Inv s) {co : Fin kPoolSize} {rest : List Nat} (shape : s.poll.idleCoIds = rest ++ [co.val]) :
    Inv ⟨⟨s.poll.id,rest,Function.update s.poll.pool co (s.poll.pool co).init⟩,co::s.out⟩ := by
  have inside : co.val ∈ s.poll.idleCoIds := by simp [shape]
  have low := (inv.whole co).2 (Or.inr inside)
  have kept := recordKeeps inv low (d := (s.poll.pool co).init) rfl rfl
  have nodup := inv.idle
  rw [shape,List.nodup_append] at nodup
  refine ⟨List.nodup_cons.2 ⟨fun out => inv.apart co out inside,inv.out⟩,nodup.1,?_,?_,inv.bound,kept.named,kept.made⟩
  · intro d hd again
    rcases List.mem_cons.1 hd with rfl | out
    · exact nodup.2.2 d.val again d.val (by simp) rfl
    · exact inv.apart d out (by simp [shape,again])
  · intro i
    rw [inv.whole i,shape]
    simp only [List.mem_append,List.mem_cons,exists_eq_or_imp,List.not_mem_nil,or_false]
    constructor
    · rintro (out | idle | rfl)
      · exact Or.inl (Or.inr out)
      · exact Or.inr idle
      · exact Or.inl (Or.inl rfl)
    · rintro ((rfl | out) | idle)
      · exact Or.inr (Or.inr rfl)
      · exact Or.inl out
      · exact Or.inr (Or.inl idle)

theorem pushKeeps (inv : Inv s) {co : Fin kPoolSize} (out : co ∈ s.out) :
    Inv ⟨push s.poll co,s.out.erase co⟩ := by
  have low := (inv.whole co).2 (Or.inl ⟨co,out,rfl⟩)
  have name := (inv.named co low).1
  refine ⟨inv.out.erase co,?_,?_,?_,inv.bound,inv.named,inv.made⟩
  · simp only [push,name]
    refine nodupPush inv.idle ?_
    intro hi
    exact inv.apart co out hi
  · intro d hd inside
    obtain ⟨differ,old⟩ := inv.out.mem_erase_iff.1 hd
    simp only [push,name,List.mem_append,List.mem_singleton] at inside
    rcases inside with idle | same
    · exact inv.apart d old idle
    · exact differ (Fin.ext same)
  · intro i
    simp only [push,name,List.mem_append,List.mem_singleton,inv.out.mem_erase_iff]
    rw [inv.whole i]
    constructor
    · rintro (⟨d,hd,rfl⟩ | idle)
      · by_cases same : d = co
        · exact Or.inr (Or.inr (congrArg Fin.val same))
        · exact Or.inl ⟨d,⟨same,hd⟩,rfl⟩
      · exact Or.inr (Or.inl idle)
    · rintro (⟨d,⟨_,hd⟩,rfl⟩ | idle | rfl)
      · exact Or.inl ⟨d,hd,rfl⟩
      · exact Or.inr idle
      · exact Or.inl ⟨co,out,rfl⟩

theorem stepKeeps (s : State) (e : Event) (t : State) (inv : Inv s) (h : step s e = some t) : Inv t := by
  cases e with
  | pop =>
    simp only [step] at h
    split at h <;> try contradiction
    rcases popSource inv with ⟨empty,pops⟩ | ⟨co,rest,shape,pops⟩
    · rw [pops] at h
      split at h <;> try contradiction
      cases Option.some.inj h
      exact newKeeps inv empty ‹_› ⟨rfl,rfl⟩
    · rw [pops] at h
      cases Option.some.inj h
      exact reuseKeeps inv shape
  | push co =>
    simp only [step] at h
    split at h <;> try contradiction
    cases Option.some.inj h
    exact pushKeeps inv ‹_›
  | use co state stack waitCtx ctx =>
    simp only [step] at h
    split at h <;> try contradiction
    rename_i out
    cases Option.some.inj h
    exact recordKeeps inv ((inv.whole co).2 (Or.inl ⟨co,out,rfl⟩)) rfl rfl

theorem invPops (inv : Inv s) : PopsFresh s := by
  intro room
  rcases popSource inv with ⟨empty,pops⟩ | ⟨co,rest,shape,pops⟩
  · have fits := roomLeft inv room empty
    rw [dif_pos fits] at pops
    refine ⟨_,_,pops,?_,?_⟩
    · intro out
      exact absurd ((inv.whole s.poll.id).2 (Or.inl ⟨_,out,rfl⟩)) (Nat.lt_irrefl _)
    · simp only [Function.update_self]
      exact inv.made ⟨s.poll.id,fits⟩ (Nat.le_refl _)
  · refine ⟨co,_,pops,fun out => inv.apart co out (by simp [shape]),?_⟩
    simp only [Function.update_self]
    exact ⟨rfl,rfl,rfl⟩

theorem initialInv (raw : Fin kPoolSize → Memory) : Inv (initial raw) :=
  ⟨List.nodup_nil,List.nodup_nil,by simp [initial],by simp [initial,Copoll.create],Nat.zero_le _,
    fun co low => absurd low (Nat.not_lt_zero _),fun _ _ => ⟨rfl,rfl,rfl⟩⟩

end

/-- In every run in which coroutines that are out are given back, and at most kPoolSize are out, the
ids in use and the idle ones partition those below id_, Pop finds a record that is not in use and
that looks new, and every record keeps its id and its shared stack. -/
theorem poolSound (raw : Fin kPoolSize → Memory) (es : List Event) (s : State)
    (reached : run step (initial raw) es = some s) : Accounted s ∧ PopsFresh s ∧ Named s := by
  have inv := runInvariant stepKeeps reached (initialInv raw)
  exact ⟨invAccounted inv,invPops inv,inv.named⟩

theorem reusedSound : ∃ s, run step (initial fun _ _ => 0) [.pop,.use ⟨0,by decide⟩ 1 ⟨fun _ => 7,12⟩ none (some 64),.pop,
    .push ⟨0,by decide⟩,.pop] = some s ∧ outIds s = [0,1] ∧ Accounted s ∧ PopsFresh s ∧ Named s :=
  ⟨_,rfl,by decide,poolSound _ [.pop,.use ⟨0,by decide⟩ 1 ⟨fun _ => 7,12⟩ none (some 64),.pop,
    .push ⟨0,by decide⟩,.pop] _ rfl⟩

end TitCo.CoPool
