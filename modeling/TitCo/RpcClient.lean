import Mathlib.Data.List.Perm.Basic
import TitCo.MachineInt
import TitCo.Queue
import TitCo.Transition

/-! RpcClient: the Calls that share req_id_, send_channel_ and request_map_, its SendLoop and
RecvLoop, and a server that answers what it gets, in any order. Calls may run on different
schedulers, so each access to what they share is a step of its own. -/
namespace TitCo.RpcClient
open MachineInt Queue Transition

structure Params where
  recvTimeout : Nat
  sendTimeout : Nat
  sendChannelSize : Nat
  positive : 0 < sendChannelSize

def kDefaultParams : Params := ⟨uint32Max,uint32Max,10,by decide⟩

/-- How far a Call has come; `writing` is suspended in the Write on send_channel_. -/
inductive Pc where
  | fresh
  | made
  | writing
  | written
  | locked
  | registered
  | reading
  | done (reqId : Nat)
  | timedOut
  deriving DecidableEq, Repr

/-- `id` is what base_proto carries, `channel` what lies in recv_channel_. -/
structure Call where
  id : Nat
  pc : Pc
  channel : List Nat
  deriving DecidableEq, Repr

/-- A request on its way, with the Call that made it. -/
structure Request where
  call : Nat
  id : Nat
  deriving DecidableEq, Repr

/-- `waiting` is suspended in the Read of send_channel_, where a Write hands over directly. -/
inductive SendLoop where
  | reading
  | waiting
  | sending (r : Request)
  | broken
  deriving DecidableEq, Repr

/-- The channel in hand is that of a Call, or the one operator[] has made up. -/
inductive RecvLoop where
  | receiving
  | received (reqId : Nat)
  | delivering (reqId : Nat) (target : Option Nat)
  | broken
  deriving DecidableEq, Repr

/-- `awaited` says that the Call had its Read of the channel still before it or in progress. -/
structure Delivery where
  reqId : Nat
  target : Option Nat
  awaited : Bool
  deriving DecidableEq, Repr

structure State where
  reqId : Nat
  mutex : Option Nat
  count : Nat
  call : Nat → Call
  sendChannel : List Request
  writers : List Request
  sendLoop : SendLoop
  requestMap : Nat → Option Nat
  wire : List Request
  pending : List Nat
  inbox : List Nat
  recvLoop : RecvLoop
  delivered : List Delivery

def initial : State where
  reqId := 1
  mutex := none
  count := 0
  call := fun _ => ⟨0,.fresh,[]⟩
  sendChannel := []
  writers := []
  sendLoop := .reading
  requestMap := fun _ => none
  wire := []
  pending := []
  inbox := []
  recvLoop := .receiving
  delivered := []

/-- `call` is the start of the next Call, up to the id in its base_proto. -/
inductive Event where
  | call
  | write (n : Nat)
  | sendTimeout (n : Nat)
  | lock (n : Nat)
  | register (n : Nat)
  | increment (n : Nat)
  | read (n : Nat)
  | recvTimeout (n : Nat)
  | sendRead
  | sendReadTimeout
  | sendProtocol (ok : Bool)
  | answer (k : Nat)
  | recvProtocol (ok : Bool)
  | lookup
  | deliver
  deriving DecidableEq, Repr

def State.setPc (s : State) (n : Nat) (pc : Pc) : State :=
  {s with call := Function.update s.call n {s.call n with pc := pc}}

def Pc.passed : Pc → Bool
  | .reading | .done _ | .timedOut => true
  | _ => false

def Pc.entered : Pc → Bool
  | .registered => true
  | pc => pc.passed

def Pc.awaits : Pc → Bool
  | .registered | .reading => true
  | _ => false

def writeStep (p : Params) (s : State) (r : Request) : State :=
  if s.sendLoop = .waiting then {s.setPc r.call .written with sendLoop := .sending r}
  else if s.sendChannel.length < p.sendChannelSize then
    {s.setPc r.call .written with sendChannel := s.sendChannel ++ [r]}
  else {s.setPc r.call .writing with writers := s.writers ++ [r]}

/-- SendLoop's Read. A writer that waits finds the channel full and fills the slot. -/
def sendReadStep (s : State) : Option State :=
  match s.sendLoop, s.sendChannel, s.writers with
  | .reading, [], _ => some {s with sendLoop := .waiting}
  | .reading, r::rest, [] => some {s with sendLoop := .sending r, sendChannel := rest}
  | .reading, r::rest, w::ws =>
      some {s.setPc w.call .written with sendLoop := .sending r, sendChannel := rest ++ [w], writers := ws}
  | _, _, _ => none

def callStep (p : Params) (s : State) : Event → Option State
  | .call =>
      some {s with
        count := s.count+1
        call := Function.update s.call s.count ⟨s.reqId,.made,[]⟩}
  | .write n => if (s.call n).pc = .made then some (writeStep p s ⟨n,(s.call n).id⟩) else none
  | .sendTimeout n =>
      if (s.call n).pc = .writing ∧ p.sendTimeout ≠ uint32Max then
        some {s.setPc n .written with writers := s.writers.filter (fun r => r.call ≠ n)}
      else none
  | .lock n =>
      if (s.call n).pc = .written ∧ s.mutex = none then some {s.setPc n .locked with mutex := some n} else none
  | .register n =>
      if (s.call n).pc = .locked then
        some {s.setPc n .registered with requestMap := Function.update s.requestMap s.reqId (some n)}
      else none
  | .increment n =>
      if (s.call n).pc = .registered then
        some {s.setPc n .reading with reqId := (s.reqId+1) % 2^32, mutex := none}
      else none
  | .read n =>
      match (s.call n).pc, (s.call n).channel with
      | .reading, x::rest => some {s with call := Function.update s.call n ⟨(s.call n).id,.done x,rest⟩}
      | _, _ => none
  | .recvTimeout n =>
      if (s.call n).pc = .reading ∧ p.recvTimeout ≠ uint32Max then some (s.setPc n .timedOut) else none
  | _ => none

def loopStep (p : Params) (s : State) : Event → Option State
  | .sendRead => sendReadStep s
  | .sendReadTimeout =>
      if p.sendTimeout = uint32Max then none
      else match s.sendLoop with
        | .waiting | .sending _ => some {s with sendLoop := .reading}
        | _ => none
  | .sendProtocol ok =>
      match s.sendLoop with
      | .sending r =>
          if ok then some {s with sendLoop := .reading, wire := s.wire ++ [r], pending := s.pending ++ [r.id]}
          else some {s with sendLoop := .broken}
      | _ => none
  | .answer k =>
      match s.pending[k]? with
      | some x => some {s with pending := s.pending.eraseIdx k, inbox := s.inbox ++ [x]}
      | none => none
  | .recvProtocol ok =>
      if s.recvLoop = .receiving then
        if ok then match s.inbox with
          | x::rest => some {s with recvLoop := .received x, inbox := rest}
          | [] => none
        else some {s with recvLoop := .broken}
      else none
  | .lookup =>
      match s.recvLoop, s.mutex with
      | .received x, none =>
          some {s with
            recvLoop := .delivering x (s.requestMap x)
            requestMap := Function.update s.requestMap x none}
      | _, _ => none
  | .deliver =>
      match s.recvLoop with
      | .delivering x (some n) =>
          -- recv_channel_ holds one value; a second Write suspends.
          if (s.call n).channel = [] then
            some {s with
              recvLoop := .receiving
              call := Function.update s.call n {s.call n with channel := [x]}
              delivered := s.delivered ++ [⟨x,some n,(s.call n).pc.awaits⟩]}
          else none
      | .delivering x none => some {s with recvLoop := .receiving, delivered := s.delivered ++ [⟨x,none,false⟩]}
      | _ => none
  | _ => none

def step (p : Params) (s : State) (e : Event) : Option State :=
  match callStep p s e with
  | some t => some t
  | none => loopStep p s e

/-- The ids on the wire are distinct, each response went to the Call whose request carried
its id, while that Call awaited it, and no Call returns another one's response. -/
structure Matched (s : State) : Prop where
  distinct : (s.wire.map Request.id).Nodup
  routed : ∀ d ∈ s.delivered, ∃ n, d.target = some n ∧ d.awaited = true ∧ ⟨n,d.reqId⟩ ∈ s.wire
  own : ∀ n x, (s.call n).pc = .done x → x = (s.call n).id

/-- No Call reads req_id_ while another is between its read and its increment, nor once all
ids are used; RecvLoop looks an id up when the Call that carries it has registered and not
timed out, and no Call times out while RecvLoop has its channel in hand. -/
def Orderly (s : State) : Event → Prop
  | .call => (∀ n, n < s.count → (s.call n).pc.passed = true) ∧ s.count < 2^32
  | .lookup => ∀ x n, s.recvLoop = .received x → n < s.count → (s.call n).id = x →
      (s.call n).pc.entered = true ∧ (s.call n).pc ≠ .timedOut
  | .recvTimeout n => ∀ x, s.recvLoop ≠ .delivering x (some n)
  | _ => True

def sendingOf : SendLoop → List Request
  | .sending r => [r]
  | _ => []

def receivedOf : RecvLoop → List Nat
  | .received x => [x]
  | _ => []

def before (s : State) : List Request := sendingOf s.sendLoop ++ s.sendChannel ++ s.writers

def after (s : State) : List Nat := s.pending ++ s.inbox ++ receivedOf s.recvLoop

/- Calls take turns: the n-th one carries and registers under the n-th id. -/
structure Turn (count reqId : Nat) (call : Nat → Call) : Prop where
  small : count ≤ 2^32
  fresh : ∀ n, count ≤ n → (call n).pc = .fresh
  id : ∀ n, n < count → (call n).id = (n+1) % 2^32
  turn : ((∀ n, n < count → (call n).pc.passed = true) ∧ reqId = (count+1) % 2^32) ∨
    ∃ m, count = m+1 ∧ (∀ n, n < m → (call n).pc.passed = true) ∧ (call m).pc.passed = false ∧ reqId = (m+1) % 2^32

structure Sent (count : Nat) (call : Nat → Call) (before wire : List Request) : Prop where
  once : ((before ++ wire).map Request.call).Nodup
  sound : ∀ r ∈ before ++ wire, r.call < count ∧ r.id = (call r.call).id ∧ (call r.call).pc ≠ .made

/- Up to the lookup of its response, a Call that has registered is found in the map. -/
structure Answers (count : Nat) (call : Nat → Call) (before wire : List Request) (after : List Nat)
    (map : Nat → Option Nat) : Prop where
  once : after.Nodup
  sound : ∀ x ∈ after, x ∈ wire.map Request.id
  held : ∀ n, n < count → (call n).pc.entered = true →
    (call n).id ∈ after ∨ n ∈ before.map Request.call → map (call n).id = some n
  gone : ∀ n, (call n).channel ≠ [] ∨ (∃ x, (call n).pc = .done x) →
    n < count ∧ (call n).pc.entered = true ∧ (call n).id ∉ after ∧ n ∉ before.map Request.call
  own : ∀ n x, x ∈ (call n).channel ∨ (call n).pc = .done x → x = (call n).id

def Hand (count : Nat) (call : Nat → Call) (before wire : List Request) (after : List Nat) (loop : RecvLoop) : Prop :=
  ∀ x target, loop = .delivering x target → ∃ n, n < count ∧ target = some n ∧ (call n).id = x ∧
    (call n).pc.awaits = true ∧ (call n).channel = [] ∧ x ∉ after ∧ n ∉ before.map Request.call ∧ ⟨n,x⟩ ∈ wire

structure Inv (s : State) : Prop where
  turn : Turn s.count s.reqId s.call
  sent : Sent s.count s.call (before s) s.wire
  writers : ∀ r ∈ s.writers, (s.call r.call).pc = .writing
  answers : Answers s.count s.call (before s) s.wire (after s) s.requestMap
  hand : Hand s.count s.call (before s) s.wire (after s) s.recvLoop
  routed : ∀ d ∈ s.delivered, ∃ n, d.target = some n ∧ d.awaited = true ∧ ⟨n,d.reqId⟩ ∈ s.wire

section Parts
variable {count reqId n : Nat} {call next : Nat → Call} {waiting left wire : List Request} {answers rest : List Nat}
  {r : Request} {map : Nat → Option Nat} {loop : RecvLoop}

theorem idInjective (turn : Turn count reqId call) {n m : Nat} (hn : n < count) (hm : m < count)
    (same : (call n).id = (call m).id) : n = m := by
  have small := turn.small
  rw [turn.id n hn,turn.id m hm] at same
  omega

theorem activeId (turn : Turn count reqId call) (less : n < count) (active : (call n).pc.passed = false) :
    reqId = (call n).id := by
  rw [turn.id n less]
  rcases turn.turn with ⟨all,_⟩ | ⟨m,last,others,_,key⟩
  · rw [all n less] at active
    contradiction
  · have here : n = m := by
      by_contra differ
      rw [others n (by omega)] at active
      contradiction
    rw [here]
    exact key

theorem bornLess (turn : Turn count reqId call) (born : (call n).pc ≠ .fresh) : n < count := by
  by_contra high
  exact born (turn.fresh n (by omega))

theorem turnKeep (turn : Turn count reqId call) (other : ∀ m, m ≠ n → next m = call m)
    (id : (next n).id = (call n).id) (born : (call n).pc ≠ .fresh)
    (passed : (next n).pc.passed = (call n).pc.passed) : Turn count reqId next := by
  have less := bornLess turn born
  have same : ∀ m, (next m).pc.passed = (call m).pc.passed := by
    intro m
    by_cases here : m = n
    · rw [here]
      exact passed
    · rw [other m here]
  refine ⟨turn.small,?_,?_,?_⟩
  · intro m high
    rw [other m (by omega)]
    exact turn.fresh m high
  · intro m low
    by_cases here : m = n
    · rw [here,id]
      exact turn.id n less
    · rw [other m here]
      exact turn.id m low
  · simp only [same]
    exact turn.turn

theorem turnCall (turn : Turn count reqId call) (all : ∀ n, n < count → (call n).pc.passed = true)
    (small : count < 2^32) : Turn (count+1) reqId (Function.update call count ⟨reqId,.made,[]⟩) := by
  have key : reqId = (count+1) % 2^32 := by
    rcases turn.turn with ⟨_,key⟩ | ⟨m,last,_,active,_⟩
    · exact key
    · rw [all m (by omega)] at active
      contradiction
  refine ⟨small,?_,?_,Or.inr ⟨count,rfl,?_,by simp [Pc.passed],key⟩⟩
  · intro n high
    rw [Function.update_of_ne (by omega)]
    exact turn.fresh n (by omega)
  · intro n low
    by_cases here : n = count
    · subst n
      rw [Function.update_self]
      exact key
    · rw [Function.update_of_ne here]
      exact turn.id n (by omega)
  · intro n low
    rw [Function.update_of_ne (by omega)]
    exact all n low

theorem turnIncrement (turn : Turn count reqId call) (pc : (call n).pc = .registered)
    (other : ∀ m, m ≠ n → next m = call m) (id : (next n).id = (call n).id) (after : (next n).pc = .reading) :
    Turn count ((reqId+1) % 2^32) next := by
  have less := bornLess turn (n := n) (by rw [pc]; simp)
  have key := activeId turn less (by rw [pc]; rfl)
  rw [turn.id n less] at key
  refine ⟨turn.small,?_,?_,Or.inl ?_⟩
  · intro m high
    rw [other m (by omega)]
    exact turn.fresh m high
  · intro m low
    by_cases here : m = n
    · rw [here,id]
      exact turn.id n less
    · rw [other m here]
      exact turn.id m low
  · rcases turn.turn with ⟨all,_⟩ | ⟨m,last,others,active,_⟩
    · have absurd := all n less
      rw [pc] at absurd
      contradiction
    · have here : n = m := by
        by_contra differ
        have absurd := others n (by omega)
        rw [pc] at absurd
        contradiction
      refine ⟨?_,by omega⟩
      intro k low
      by_cases mine : k = n
      · rw [mine,after]
        rfl
      · rw [other k mine]
        exact others k (by omega)

theorem sentKeep (sent : Sent count call waiting wire) (other : ∀ m, m ≠ n → next m = call m)
    (id : (next n).id = (call n).id) (unmade : (next n).pc ≠ .made) : Sent count next waiting wire := by
  refine ⟨sent.once,?_⟩
  intro r hr
  obtain ⟨less,carries,pc⟩ := sent.sound r hr
  by_cases here : r.call = n
  · rw [here] at carries less ⊢
    exact ⟨less,by rw [id]; exact carries,unmade⟩
  · rw [other _ here]
    exact ⟨less,carries,pc⟩

theorem sentPart (sent : Sent count call waiting wire) (part : left.Sublist waiting) : Sent count call left wire :=
  ⟨sent.once.sublist ((part.append_right wire).map _),fun r hr => sent.sound r ((part.append_right wire).subset hr)⟩

theorem sentPerm (sent : Sent count call waiting wire) {more : List Request}
    (perm : (left ++ more).Perm (waiting ++ wire)) : Sent count call left more :=
  ⟨(perm.map _).nodup_iff.2 sent.once,fun r hr => sent.sound r (perm.subset hr)⟩

theorem sentWrite (sent : Sent count call waiting wire) (less : n < count) (made : (call n).pc = .made)
    (other : ∀ m, m ≠ n → next m = call m) (id : (next n).id = (call n).id) (unmade : (next n).pc ≠ .made) :
    Sent count next (⟨n,(call n).id⟩::waiting) wire := by
  have kept := sentKeep sent other id unmade
  refine ⟨?_,?_⟩
  · refine List.nodup_cons.2 ⟨?_,sent.once⟩
    intro inside
    obtain ⟨r,hr,here⟩ := List.mem_map.1 inside
    exact (sent.sound r hr).2.2 (by rw [here]; exact made)
  · intro r hr
    rcases List.mem_cons.1 hr with rfl | old
    · exact ⟨less,id.symm,unmade⟩
    · exact kept.sound r old

theorem answersKeep (a : Answers count call waiting wire answers map) (other : ∀ m, m ≠ n → next m = call m)
    (id : (next n).id = (call n).id) (channel : (next n).channel = (call n).channel)
    (entered : (next n).pc.entered = (call n).pc.entered) (undone : ∀ x, (next n).pc ≠ .done x) :
    Answers count next waiting wire answers map := by
  refine ⟨a.once,a.sound,?_,?_,?_⟩
  · intro m less
    by_cases here : m = n
    · subst m
      rw [id,entered]
      exact a.held n less
    · rw [other m here]
      exact a.held m less
  · intro m busy
    by_cases here : m = n
    · subst m
      rw [id,entered]
      rw [channel] at busy
      rcases busy with full | ⟨x,finished⟩
      · exact a.gone n (Or.inl full)
      · exact absurd finished (undone x)
    · rw [other m here] at busy ⊢
      exact a.gone m busy
  · intro m x holds
    by_cases here : m = n
    · subst m
      rw [id]
      rw [channel] at holds
      rcases holds with inside | finished
      · exact a.own n x (Or.inl inside)
      · exact absurd finished (undone x)
    · rw [other m here] at holds ⊢
      exact a.own m x holds

theorem answersPart (a : Answers count call waiting wire answers map)
    (part : ∀ m ∈ left.map Request.call, m ∈ waiting.map Request.call) : Answers count call left wire answers map := by
  refine ⟨a.once,a.sound,?_,?_,a.own⟩
  · intro n less entered inside
    exact a.held n less entered (inside.imp id (part n))
  · intro n busy
    obtain ⟨less,entered,out,none⟩ := a.gone n busy
    exact ⟨less,entered,out,fun inside => none (part n inside)⟩

theorem answersPerm (a : Answers count call waiting wire answers map) (perm : rest.Perm answers) :
    Answers count call waiting wire rest map := by
  refine ⟨perm.nodup_iff.2 a.once,fun x hx => a.sound x (perm.subset hx),?_,?_,a.own⟩
  · intro n less entered inside
    exact a.held n less entered (inside.imp (fun hx => perm.subset hx) (fun hx => hx))
  · intro n busy
    obtain ⟨less,entered,out,none⟩ := a.gone n busy
    exact ⟨less,entered,fun inside => out (perm.subset inside),none⟩

theorem answersWrite (a : Answers count call waiting wire answers map) {r : Request}
    (early : (call r.call).pc.entered = false) : Answers count call (r::waiting) wire answers map := by
  refine ⟨a.once,a.sound,?_,?_,a.own⟩
  · intro n less entered inside
    have differ : n ≠ r.call := by
      rintro rfl
      rw [early] at entered
      contradiction
    refine a.held n less entered (inside.imp id ?_)
    simp [differ]
  · intro n busy
    obtain ⟨less,entered,out,none⟩ := a.gone n busy
    refine ⟨less,entered,out,?_⟩
    simp only [List.map_cons,List.mem_cons,not_or]
    refine ⟨?_,none⟩
    rintro rfl
    rw [early] at entered
    contradiction

theorem answersCall (a : Answers count call waiting wire answers map) (id : Nat) :
    Answers (count+1) (Function.update call count ⟨id,.made,[]⟩) waiting wire answers map := by
  refine ⟨a.once,a.sound,?_,?_,?_⟩
  · intro n less entered inside
    by_cases here : n = count
    · subst n
      rw [Function.update_self] at entered
      contradiction
    · rw [Function.update_of_ne here] at entered inside ⊢
      exact a.held n (by omega) entered inside
  · intro n busy
    by_cases here : n = count
    · subst n
      rw [Function.update_self] at busy
      simp at busy
    · rw [Function.update_of_ne here] at busy ⊢
      obtain ⟨less,rest⟩ := a.gone n busy
      exact ⟨by omega,rest⟩
  · intro n x holds
    by_cases here : n = count
    · subst n
      rw [Function.update_self] at holds
      simp at holds
    · rw [Function.update_of_ne here] at holds ⊢
      exact a.own n x holds

/- request_map_[req_id_] = recv_channel_, with req_id_ still the id that the Call carries. -/
theorem answersRegister (a : Answers count call waiting wire answers map) (turn : Turn count reqId call)
    (less : n < count) (key : reqId = (call n).id) (other : ∀ m, m ≠ n → next m = call m)
    (id : (next n).id = (call n).id) (channel : (next n).channel = (call n).channel)
    (pc : (call n).pc = .locked) (after : (next n).pc = .registered) :
    Answers count next waiting wire answers (Function.update map reqId (some n)) := by
  have empty : ¬ ((call n).channel ≠ [] ∨ ∃ x, (call n).pc = .done x) := by
    intro busy
    have entered := (a.gone n busy).2.1
    rw [pc] at entered
    contradiction
  refine ⟨a.once,a.sound,?_,?_,?_⟩
  · intro m low entered inside
    by_cases here : m = n
    · subst m
      rw [id,← key,Function.update_self]
    · rw [other m here] at entered inside ⊢
      have apart : (call m).id ≠ reqId := by
        rw [key]
        intro same
        exact here (idInjective turn low less same)
      rw [Function.update_of_ne apart]
      exact a.held m low entered inside
  · intro m busy
    by_cases here : m = n
    · subst m
      rw [channel,after] at busy
      exact absurd (busy.imp (fun full => full) (by simp)) empty
    · rw [other m here] at busy ⊢
      exact a.gone m busy
  · intro m x holds
    by_cases here : m = n
    · subst m
      rw [channel,after] at holds
      rcases holds with inside | finished
      · rw [id]
        exact a.own n x (Or.inl inside)
      · contradiction
    · rw [other m here] at holds ⊢
      exact a.own m x holds

theorem sentFresh (sent : Sent count call (r::left) wire) (turn : Turn count reqId call) {x : Request}
    (inside : x ∈ left ++ wire) : x.id ≠ r.id := by
  intro same
  have once := sent.once
  rw [List.cons_append,List.map_cons,List.nodup_cons] at once
  obtain ⟨less,carries,_⟩ := sent.sound x (List.mem_cons_of_mem r inside)
  obtain ⟨first,mine,_⟩ := sent.sound r (by simp)
  have equal := idInjective turn less first (by rw [← carries,← mine]; exact same)
  exact once.1 (by rw [← equal]; exact List.mem_map_of_mem inside)

theorem answersSend (a : Answers count call (r::left) wire answers map) (turn : Turn count reqId call)
    (sent : Sent count call (r::left) wire) : Answers count call left (wire ++ [r]) (answers ++ [r.id]) map := by
  obtain ⟨first,mine,_⟩ := sent.sound r (by simp)
  refine ⟨?_,?_,?_,?_,a.own⟩
  · refine nodupPush a.once ?_
    intro hx
    obtain ⟨y,inside,same⟩ := List.mem_map.1 (a.sound _ hx)
    exact sentFresh sent turn (List.mem_append_right left inside) same
  · intro x hx
    rw [List.map_append]
    rcases List.mem_append.1 hx with old | last
    · exact List.mem_append_left _ (a.sound x old)
    · exact List.mem_append_right _ (by simpa using last)
  · intro n less entered inside
    refine a.held n less entered ?_
    rcases inside with listed | waits
    · rcases List.mem_append.1 listed with old | last
      · exact Or.inl old
      · have same := idInjective turn less first (by rw [← mine]; exact List.mem_singleton.1 last)
        exact Or.inr (by simp [same])
    · exact Or.inr (List.mem_cons_of_mem _ waits)
  · intro n busy
    obtain ⟨less,entered,out,none⟩ := a.gone n busy
    rw [List.map_cons,List.mem_cons,not_or] at none
    refine ⟨less,entered,?_,none.2⟩
    intro listed
    rcases List.mem_append.1 listed with old | last
    · exact out old
    · exact none.1 (idInjective turn less first (by rw [← mine]; exact List.mem_singleton.1 last))

theorem answersLookup {x : Nat} (a : Answers count call waiting wire (x::rest) map) (turn : Turn count reqId call)
    (less : n < count) (carries : (call n).id = x) (out : n ∉ waiting.map Request.call) :
    Answers count call waiting wire rest (Function.update map x none) := by
  have once := List.nodup_cons.1 a.once
  refine ⟨once.2,fun y hy => a.sound y (List.mem_cons_of_mem x hy),?_,?_,a.own⟩
  · intro m low entered inside
    have apart : (call m).id ≠ x := by
      intro same
      have equal := idInjective turn low less (same.trans carries.symm)
      subst m
      rcases inside with listed | waits
      · rw [carries] at listed
        exact once.1 listed
      · exact out waits
    rw [Function.update_of_ne apart]
    exact a.held m low entered (inside.imp (fun hx => List.mem_cons_of_mem x hx) (fun hx => hx))
  · intro m busy
    obtain ⟨low,entered,gone,none⟩ := a.gone m busy
    exact ⟨low,entered,fun listed => gone (List.mem_cons_of_mem x listed),none⟩

theorem handLookup {x : Nat} (a : Answers count call waiting wire (x::rest) map) (sent : Sent count call waiting wire)
    (guard : ∀ n, n < count → (call n).id = x → (call n).pc.entered = true ∧ (call n).pc ≠ .timedOut) :
    ∃ n, n < count ∧ map x = some n ∧ (call n).id = x ∧ (call n).pc.awaits = true ∧ (call n).channel = [] ∧
      x ∉ rest ∧ n ∉ waiting.map Request.call ∧ ⟨n,x⟩ ∈ wire := by
  obtain ⟨r,inside,same⟩ := List.mem_map.1 (a.sound x (by simp))
  obtain ⟨less,carries,_⟩ := sent.sound r (List.mem_append_right waiting inside)
  have mine : (call r.call).id = x := carries.symm.trans same
  obtain ⟨entered,live⟩ := guard r.call less mine
  have open_ : ¬ ((call r.call).channel ≠ [] ∨ ∃ y, (call r.call).pc = .done y) := by
    intro busy
    exact (a.gone r.call busy).2.2.1 (by rw [mine]; simp)
  have out : r.call ∉ waiting.map Request.call := by
    intro waits
    have once := sent.once
    rw [List.map_append,List.nodup_append] at once
    exact once.2.2 r.call waits r.call (List.mem_map_of_mem inside) rfl
  have found := a.held r.call less entered (Or.inl (by rw [mine]; simp))
  rw [mine] at found
  refine ⟨r.call,less,found,mine,?_,?_,(List.nodup_cons.1 a.once).1,out,by rw [← same]; exact inside⟩
  · cases pc : (call r.call).pc with
    | registered | reading => rfl
    | done y => exact absurd (Or.inr ⟨y,pc⟩) open_
    | timedOut => exact absurd pc live
    | _ =>
      rw [pc] at entered
      contradiction
  · by_contra full
    exact open_ (Or.inl full)

theorem answersFill (a : Answers count call waiting wire answers map) (less : n < count)
    (other : ∀ m, m ≠ n → next m = call m) (id : (next n).id = (call n).id)
    (entered : (call n).pc.entered = true) (again : (next n).pc.entered = true)
    (out : (call n).id ∉ answers) (none : n ∉ waiting.map Request.call)
    (own : ∀ x, x ∈ (next n).channel ∨ (next n).pc = .done x → x = (call n).id) :
    Answers count next waiting wire answers map := by
  refine ⟨a.once,a.sound,?_,?_,?_⟩
  · intro m low
    by_cases here : m = n
    · subst m
      rw [id]
      exact fun _ inside => a.held n less entered inside
    · rw [other m here]
      exact a.held m low
  · intro m busy
    by_cases here : m = n
    · subst m
      rw [id]
      exact ⟨less,again,out,none⟩
    · rw [other m here] at busy ⊢
      exact a.gone m busy
  · intro m x holds
    by_cases here : m = n
    · subst m
      rw [id]
      exact own x holds
    · rw [other m here] at holds ⊢
      exact a.own m x holds

theorem handKeep (hand : Hand count call waiting wire answers loop) (other : ∀ m, m ≠ n → next m = call m)
    (id : (next n).id = (call n).id) (channel : (next n).channel = (call n).channel)
    (awaits : (∃ x, loop = .delivering x (some n)) → (call n).pc.awaits = true → (next n).pc.awaits = true) :
    Hand count next waiting wire answers loop := by
  intro x target here
  obtain ⟨m,less,rfl,carries,pc,empty,rest⟩ := hand x target here
  by_cases mine : m = n
  · subst m
    exact ⟨n,less,rfl,id.trans carries,awaits ⟨x,here⟩ pc,channel.trans empty,rest⟩
  · exact ⟨m,less,rfl,by rw [other m mine]; exact carries,by rw [other m mine]; exact pc,
      by rw [other m mine]; exact empty,rest⟩

theorem handPart (hand : Hand count call waiting wire answers loop)
    (part : ∀ m ∈ left.map Request.call, m ∈ waiting.map Request.call) (fewer : ∀ x ∈ rest, x ∈ answers) :
    Hand count call left wire rest loop := by
  intro x target here
  obtain ⟨m,less,found,carries,pc,empty,out,none,sent⟩ := hand x target here
  exact ⟨m,less,found,carries,pc,empty,fun inside => out (fewer x inside),fun waits => none (part m waits),sent⟩

end Parts

section Steps
variable {p : Params} {s t : State} {n : Nat}

theorem setPcSelf (s : State) (n : Nat) (pc : Pc) : (s.setPc n pc).call n = {s.call n with pc := pc} := by
  simp [State.setPc]

theorem setPcOther (s : State) (pc : Pc) {n m : Nat} (differ : m ≠ n) : (s.setPc n pc).call m = s.call m := by
  simp [State.setPc,Function.update_of_ne differ]

theorem listsKeep (inv : Inv s) (count : t.count = s.count) (reqId : t.reqId = s.reqId) (call : t.call = s.call)
    (wire : t.wire = s.wire) (map : t.requestMap = s.requestMap) (delivered : t.delivered = s.delivered)
    (part : (before t).Sublist (before s)) (perm : (after t).Perm (after s)) (writers : ∀ r ∈ t.writers, r ∈ s.writers)
    (loop : ∀ x target, t.recvLoop = .delivering x target → s.recvLoop = .delivering x target) : Inv t := by
  have calls : ∀ m ∈ (before t).map Request.call, m ∈ (before s).map Request.call :=
    fun m hm => (part.map Request.call).subset hm
  refine ⟨?_,?_,?_,?_,?_,?_⟩
  · rw [count,reqId,call]
    exact inv.turn
  · rw [count,call,wire]
    exact sentPart inv.sent part
  · intro r hr
    rw [call]
    exact inv.writers r (writers r hr)
  · rw [count,call,wire,map]
    exact answersPerm (answersPart inv.answers calls) perm
  · rw [count,call,wire]
    have hand := handPart inv.hand calls (fun x hx => perm.subset hx)
    exact fun x target here => hand x target (loop x target here)
  · rw [delivered,wire]
    exact inv.routed

theorem moveKeeps (inv : Inv s) {pc : Pc} (born : (s.call n).pc ≠ .fresh)
    (passed : pc.passed = (s.call n).pc.passed) (entered : pc.entered = (s.call n).pc.entered) (unmade : pc ≠ .made)
    (undone : ∀ x, pc ≠ .done x) (writers : ∀ r ∈ s.writers, r.call ≠ n)
    (awaits : (∃ x, s.recvLoop = .delivering x (some n)) → (s.call n).pc.awaits = true → pc.awaits = true) :
    Inv (s.setPc n pc) := by
  have self := setPcSelf s n pc
  have other : ∀ m, m ≠ n → (s.setPc n pc).call m = s.call m := fun m differ => setPcOther s pc differ
  refine ⟨?_,?_,?_,?_,?_,inv.routed⟩
  · exact turnKeep inv.turn other (by rw [self]) born (by rw [self]; exact passed)
  · exact sentKeep inv.sent other (by rw [self]) (by rw [self]; exact unmade)
  · intro r hr
    rw [other _ (writers r hr)]
    exact inv.writers r hr
  · exact answersKeep inv.answers other (by rw [self]) (by rw [self]) (by rw [self]; exact entered)
      (by rw [self]; exact undone)
  · exact handKeep inv.hand other (by rw [self]) (by rw [self]) (by rw [self]; exact awaits)

theorem callKeeps (inv : Inv s) (all : ∀ n, n < s.count → (s.call n).pc.passed = true) (small : s.count < 2^32) :
    Inv {s with
      count := s.count+1
      call := Function.update s.call s.count ⟨s.reqId,.made,[]⟩} := by
  have older : ∀ m, m < s.count → Function.update s.call s.count ⟨s.reqId,.made,[]⟩ m = s.call m :=
    fun m less => Function.update_of_ne (by omega) _ _
  refine ⟨turnCall inv.turn all small,⟨inv.sent.once,?_⟩,?_,answersCall inv.answers s.reqId,?_,inv.routed⟩
  · intro r hr
    obtain ⟨less,rest⟩ := inv.sent.sound r hr
    simp only [older r.call less]
    exact ⟨Nat.lt_succ_of_lt less,rest⟩
  · intro r hr
    have waits := inv.writers r hr
    have less := bornLess inv.turn (n := r.call) (by rw [waits]; simp)
    simp only [older r.call less]
    exact waits
  · intro x target here
    obtain ⟨m,less,rest⟩ := inv.hand x target here
    refine ⟨m,Nat.lt_succ_of_lt less,?_⟩
    simp only [older m less]
    exact rest

theorem pushKeeps (inv : Inv s) (made : (s.call n).pc = .made) (pc : Pc) (early : pc.entered = false)
    (unmade : pc ≠ .made) (call : t.call = (s.setPc n pc).call) (count : t.count = s.count) (reqId : t.reqId = s.reqId)
    (wire : t.wire = s.wire) (map : t.requestMap = s.requestMap) (recv : t.recvLoop = s.recvLoop)
    (pending : t.pending = s.pending) (inbox : t.inbox = s.inbox) (delivered : t.delivered = s.delivered)
    (perm : (before t).Perm (⟨n,(s.call n).id⟩::before s))
    (writers : ∀ r ∈ t.writers, r ∈ s.writers ∨ (r.call = n ∧ pc = .writing)) : Inv t := by
  have self := setPcSelf s n pc
  have other : ∀ m, m ≠ n → (s.setPc n pc).call m = s.call m := fun m differ => setPcOther s pc differ
  have less := bornLess inv.turn (n := n) (by rw [made]; simp)
  have undone : ∀ x, pc ≠ .done x := by
    rintro x rfl
    simp [Pc.entered,Pc.passed] at early
  have passed : pc.passed = false := by cases pc <;> simp_all [Pc.entered,Pc.passed]
  have same : after t = after s := by simp only [after,pending,inbox,recv]
  have out : ∀ x, s.recvLoop ≠ .delivering x (some n) := by
    intro x here
    obtain ⟨m,_,found,_,awaits,_⟩ := inv.hand x (some n) here
    cases Option.some.inj found
    rw [made] at awaits
    contradiction
  refine ⟨?_,?_,?_,?_,?_,by rw [delivered,wire]; exact inv.routed⟩
  · rw [count,reqId,call]
    exact turnKeep inv.turn other (by rw [self]) (by rw [made]; simp) (by rw [self,made]; exact passed)
  · rw [count,call,wire]
    exact sentPerm (sentWrite inv.sent less made other (by rw [self]) (by rw [self]; exact unmade))
      (perm.append_right _)
  · intro r hr
    rw [call]
    rcases writers r hr with old | ⟨rfl,rfl⟩
    · have waits := inv.writers r old
      have differ : r.call ≠ n := by
        rintro rfl
        rw [waits] at made
        contradiction
      rw [other _ differ]
      exact waits
    · rw [self]
  · rw [count,call,wire,map,same]
    have kept := answersKeep inv.answers other (by rw [self]) (by rw [self])
      (by rw [self,made]; exact early) (by rw [self]; exact undone)
    exact answersPart (answersWrite (r := ⟨n,(s.call n).id⟩) kept (by rw [self]; exact early))
      (fun m hm => (perm.map Request.call).subset hm)
  · rw [count,call,wire,same,recv]
    have kept := handKeep inv.hand other (by rw [self]) (by rw [self])
      (by rintro ⟨x,here⟩; exact absurd here (out x))
    intro x target here
    obtain ⟨m,low,found,carries,awaits,empty,gone,none,sent⟩ := kept x target here
    refine ⟨m,low,found,carries,awaits,empty,gone,?_,sent⟩
    intro waits
    rcases List.mem_cons.1 ((perm.map Request.call).subset waits) with mine | old
    · rw [found,mine] at here
      exact out x here
    · exact none old

theorem writeKeeps (inv : Inv s) (made : (s.call n).pc = .made) : Inv (writeStep p s ⟨n,(s.call n).id⟩) := by
  unfold writeStep
  split
  · rename_i waiting
    refine pushKeeps inv made .written rfl (by simp) rfl rfl rfl rfl rfl rfl rfl rfl rfl ?_ (fun r hr => Or.inl hr)
    simp [before,sendingOf,State.setPc,waiting]
  · split
    · refine pushKeeps inv made .written rfl (by simp) rfl rfl rfl rfl rfl rfl rfl rfl rfl ?_ (fun r hr => Or.inl hr)
      simp only [before,State.setPc,List.append_assoc,List.singleton_append]
      exact (List.Perm.append_left _ List.perm_middle).trans List.perm_middle
    · refine pushKeeps inv made .writing rfl (by simp) rfl rfl rfl rfl rfl rfl rfl rfl rfl ?_ ?_
      · simp only [before,State.setPc,← List.append_assoc]
        exact List.perm_append_singleton _ _
      · refine allPush (fun r old => ?_) ?_
        · exact Or.inl old
        · exact Or.inr ⟨rfl,rfl⟩

theorem writersOther (inv : Inv s) (pc : (s.call n).pc ≠ .writing) : ∀ r ∈ s.writers, r.call ≠ n := by
  rintro r hr rfl
  exact pc (inv.writers r hr)

theorem sendTimeoutKeeps (inv : Inv s) (pc : (s.call n).pc = .writing) :
    Inv {s.setPc n .written with writers := s.writers.filter (fun r => r.call ≠ n)} := by
  have filtered : Inv {s with writers := s.writers.filter (fun r => r.call ≠ n)} :=
    listsKeep inv rfl rfl rfl rfl rfl rfl (List.Sublist.append_left List.filter_sublist _) (List.Perm.refl _)
      (fun r hr => (List.mem_filter.1 hr).1) (fun _ _ here => here)
  refine moveKeeps filtered ?_ ?_ ?_ (by simp) (by simp) (fun r hr => by simpa using (List.mem_filter.1 hr).2) ?_
  · simp [pc]
  · simp [pc,Pc.passed]
  · simp [pc,Pc.entered,Pc.passed]
  · simp [pc,Pc.awaits]

theorem lockKeeps (inv : Inv s) (pc : (s.call n).pc = .written) (mutex : Option Nat) :
    Inv {s.setPc n .locked with mutex := mutex} := by
  have moved : Inv (s.setPc n .locked) := by
    refine moveKeeps inv ?_ ?_ ?_ (by simp) (by simp) (writersOther inv (by simp [pc])) ?_
    · simp [pc]
    · simp [pc,Pc.passed]
    · simp [pc,Pc.entered,Pc.passed]
    · simp [pc,Pc.awaits]
  exact ⟨moved.turn,moved.sent,moved.writers,moved.answers,moved.hand,moved.routed⟩

theorem registerKeeps (inv : Inv s) (pc : (s.call n).pc = .locked) :
    Inv {s.setPc n .registered with requestMap := Function.update s.requestMap s.reqId (some n)} := by
  have self := setPcSelf s n .registered
  have other : ∀ m, m ≠ n → (s.setPc n .registered).call m = s.call m := fun m differ => setPcOther s _ differ
  have born : (s.call n).pc ≠ .fresh := by simp [pc]
  have less := bornLess inv.turn born
  have key := activeId inv.turn less (by simp [pc,Pc.passed])
  refine ⟨?_,?_,?_,?_,?_,inv.routed⟩
  · exact turnKeep inv.turn other (by rw [self]) born (by rw [self,pc]; rfl)
  · exact sentKeep inv.sent other (by rw [self]) (by rw [self]; simp)
  · intro r hr
    have differ := writersOther inv (n := n) (by simp [pc]) r hr
    exact (congrArg Call.pc (other _ differ)).trans (inv.writers r hr)
  · exact answersRegister inv.answers inv.turn less key other (by rw [self]) (by rw [self]) pc (by rw [self])
  · exact handKeep inv.hand other (by rw [self]) (by rw [self]) (by simp [pc,Pc.awaits])

theorem incrementKeeps (inv : Inv s) (pc : (s.call n).pc = .registered) (mutex : Option Nat) :
    Inv {s.setPc n .reading with reqId := (s.reqId+1) % 2^32, mutex := mutex} := by
  have self := setPcSelf s n .reading
  have other : ∀ m, m ≠ n → (s.setPc n .reading).call m = s.call m := fun m differ => setPcOther s _ differ
  refine ⟨?_,?_,?_,?_,?_,inv.routed⟩
  · exact turnIncrement inv.turn pc other (by rw [self]) (by rw [self])
  · exact sentKeep inv.sent other (by rw [self]) (by rw [self]; simp)
  · intro r hr
    have differ := writersOther inv (n := n) (by simp [pc]) r hr
    exact (congrArg Call.pc (other _ differ)).trans (inv.writers r hr)
  · exact answersKeep inv.answers other (by rw [self]) (by rw [self]) (by rw [self,pc]; rfl) (by rw [self]; simp)
  · exact handKeep inv.hand other (by rw [self]) (by rw [self]) (fun _ _ => by rw [self]; rfl)

theorem readKeeps (inv : Inv s) {x : Nat} {rest : List Nat} (pc : (s.call n).pc = .reading)
    (channel : (s.call n).channel = x::rest) :
    Inv {s with call := Function.update s.call n ⟨(s.call n).id,.done x,rest⟩} := by
  have full : (s.call n).channel ≠ [] := by simp [channel]
  have other : ∀ m, m ≠ n → Function.update s.call n ⟨(s.call n).id,.done x,rest⟩ m = s.call m :=
    fun m differ => Function.update_of_ne differ _ _
  have self : Function.update s.call n ⟨(s.call n).id,.done x,rest⟩ n = ⟨(s.call n).id,.done x,rest⟩ :=
    Function.update_self ..
  obtain ⟨less,entered,out,none⟩ := inv.answers.gone n (Or.inl full)
  have turn := turnKeep inv.turn other (by rw [self]) (by simp [pc]) (by rw [self,pc]; rfl)
  have sent := sentKeep inv.sent other (by rw [self]) (by rw [self]; simp)
  have answers := answersFill inv.answers less other (by rw [self]) entered (by rw [self]; rfl) out none (by
    rw [self]
    intro y holds
    apply inv.answers.own n y
    rw [channel]
    rcases holds with inside | finished
    · exact Or.inl (List.mem_cons_of_mem x inside)
    · cases finished
      exact Or.inl (by simp))
  refine ⟨turn,sent,?_,answers,?_,inv.routed⟩
  · intro r hr
    have differ := writersOther inv (n := n) (by simp [pc]) r hr
    exact (congrArg Call.pc (other _ differ)).trans (inv.writers r hr)
  · intro y target here
    obtain ⟨m,low,found,carries,awaits,empty,last⟩ := inv.hand y target here
    have differ : m ≠ n := by
      rintro rfl
      exact full empty
    refine ⟨m,low,found,?_⟩
    simp only [other m differ]
    exact ⟨carries,awaits,empty,last⟩

theorem recvTimeoutKeeps (inv : Inv s) (pc : (s.call n).pc = .reading)
    (free : ∀ x, s.recvLoop ≠ .delivering x (some n)) : Inv (s.setPc n .timedOut) := by
  refine moveKeeps inv ?_ ?_ ?_ (by simp) (by simp) (writersOther inv (by simp [pc])) ?_
  · simp [pc]
  · simp [pc,Pc.passed]
  · simp [pc,Pc.entered,Pc.passed]
  · rintro ⟨x,here⟩
    exact absurd here (free x)

theorem sendReadKeeps (inv : Inv s) (h : sendReadStep s = some t) : Inv t := by
  unfold sendReadStep at h
  split at h <;> try contradiction
  · rename_i loop channel
    cases Option.some.inj h
    exact listsKeep inv rfl rfl rfl rfl rfl rfl (by simp [before,sendingOf,loop]) (List.Perm.refl _)
      (fun _ hr => hr) (fun _ _ here => here)
  · rename_i r rest loop channel writers
    cases Option.some.inj h
    exact listsKeep inv rfl rfl rfl rfl rfl rfl (by simp [before,sendingOf,loop,channel,writers]) (List.Perm.refl _)
      (fun _ hr => hr) (fun _ _ here => here)
  · rename_i r rest w ws loop channel writers
    cases Option.some.inj h
    have moved : Inv {s with sendLoop := .sending r, sendChannel := rest ++ [w], writers := ws} :=
      listsKeep inv rfl rfl rfl rfl rfl rfl (by simp [before,sendingOf,loop,channel,writers]) (List.Perm.refl _)
        (fun x hx => by simp [writers,hx]) (fun _ _ here => here)
    have waits := inv.writers w (by simp [writers])
    have once := inv.sent.once
    simp only [before,sendingOf,loop,channel,writers] at once
    refine moveKeeps moved ?_ ?_ ?_ (by simp) (by simp) ?_ ?_
    · simp [waits]
    · simp [waits,Pc.passed]
    · simp [waits,Pc.entered,Pc.passed]
    · intro x hx same
      simp only [List.nil_append,List.append_assoc,List.map_append,List.map_cons,List.cons_append,
        List.nodup_cons,List.nodup_append,List.mem_append,List.mem_cons] at once
      grind
    · simp [waits,Pc.awaits]

theorem sendKeeps (inv : Inv s) {r : Request} (loop : s.sendLoop = .sending r) :
    Inv {s with sendLoop := .reading, wire := s.wire ++ [r], pending := s.pending ++ [r.id]} := by
  have shape : before s = r::(s.sendChannel ++ s.writers) := by simp [before,sendingOf,loop]
  have left : before {s with sendLoop := .reading, wire := s.wire ++ [r], pending := s.pending ++ [r.id]} =
      s.sendChannel ++ s.writers := by simp [before,sendingOf]
  have perm : (after {s with sendLoop := .reading, wire := s.wire ++ [r], pending := s.pending ++ [r.id]}).Perm
      (after s ++ [r.id]) := by
    simp only [after,List.append_assoc,List.singleton_append]
    refine List.Perm.append_left _ ?_
    rw [← List.append_assoc]
    exact List.perm_append_singleton r.id _ |>.symm
  have sent := inv.sent
  have answers := inv.answers
  have hand := inv.hand
  rw [shape] at sent answers hand
  refine ⟨inv.turn,?_,inv.writers,?_,?_,?_⟩
  · rw [left]
    refine sentPerm sent ?_
    rw [← List.append_assoc]
    exact List.perm_append_singleton r _
  · rw [left]
    exact answersPerm (answersSend answers inv.turn sent) perm
  · rw [left]
    intro x target here
    obtain ⟨m,less,found,carries,awaits,empty,out,none,inside⟩ := hand x target here
    rw [List.map_cons,List.mem_cons,not_or] at none
    refine ⟨m,less,found,carries,awaits,empty,?_,none.2,List.mem_append_left _ inside⟩
    intro listed
    rcases List.mem_append.1 (perm.subset listed) with old | last
    · exact out old
    · exact sentFresh sent inv.turn (List.mem_append_right _ inside) (List.mem_singleton.1 last)
  · intro d hd
    obtain ⟨m,found,awaited,inside⟩ := inv.routed d hd
    exact ⟨m,found,awaited,List.mem_append_left _ inside⟩

theorem lookupKeeps (inv : Inv s) {x : Nat} (loop : s.recvLoop = .received x)
    (guard : ∀ n, n < s.count → (s.call n).id = x → (s.call n).pc.entered = true ∧ (s.call n).pc ≠ .timedOut) :
    Inv {s with
      recvLoop := .delivering x (s.requestMap x)
      requestMap := Function.update s.requestMap x none} := by
  have perm : (x::(s.pending ++ s.inbox)).Perm (after s) := by
    simp only [after,receivedOf,loop]
    exact (List.perm_append_singleton x _).symm
  have rest : after {s with
      recvLoop := .delivering x (s.requestMap x)
      requestMap := Function.update s.requestMap x none} = s.pending ++ s.inbox := by simp [after,receivedOf]
  have answers := answersPerm inv.answers perm
  obtain ⟨n,less,found,carries,awaits,empty,out,none,sent⟩ := handLookup answers inv.sent guard
  refine ⟨inv.turn,inv.sent,inv.writers,?_,?_,inv.routed⟩
  · rw [rest]
    exact answersLookup answers inv.turn less carries none
  · rw [rest]
    intro y target here
    cases here
    exact ⟨n,less,found,carries,awaits,empty,out,none,sent⟩

theorem deliverKeeps (inv : Inv s) {x : Nat} (loop : s.recvLoop = .delivering x (some n)) :
    Inv {s with
      recvLoop := .receiving
      call := Function.update s.call n {s.call n with channel := [x]}
      delivered := s.delivered ++ [⟨x,some n,(s.call n).pc.awaits⟩]} := by
  obtain ⟨m,less,found,carries,awaits,_,out,none,sent⟩ := inv.hand x (some n) loop
  cases Option.some.inj found
  have other : ∀ m, m ≠ n → Function.update s.call n {s.call n with channel := [x]} m = s.call m :=
    fun m differ => Function.update_of_ne differ _ _
  have self : Function.update s.call n {s.call n with channel := [x]} n = {s.call n with channel := [x]} :=
    Function.update_self ..
  have entered : (s.call n).pc.entered = true := by
    cases pc : (s.call n).pc <;> simp_all [Pc.awaits,Pc.entered,Pc.passed]
  have early : (s.call n).pc ≠ .made ∧ (s.call n).pc ≠ .fresh := by
    constructor <;> intro pc <;> rw [pc] at awaits <;> contradiction
  have same : after {s with
      recvLoop := .receiving
      call := Function.update s.call n {s.call n with channel := [x]}
      delivered := s.delivered ++ [⟨x,some n,(s.call n).pc.awaits⟩]} = after s := by simp [after,receivedOf,loop]
  have turn := turnKeep inv.turn other (by rw [self]) early.2 (by rw [self])
  have kept := sentKeep inv.sent other (by rw [self]) (by rw [self]; exact early.1)
  have answers := answersFill inv.answers less other (by rw [self]) entered (by rw [self]; exact entered)
    (by rw [carries]; exact out) none (by
    rw [self]
    intro y holds
    rcases holds with inside | finished
    · rw [carries]
      exact List.mem_singleton.1 inside
    · exact inv.answers.own n y (Or.inr finished))
  refine ⟨turn,kept,?_,by rw [same]; exact answers,?_,?_⟩
  · intro r hr
    have waits := inv.writers r hr
    by_cases here : r.call = n
    · rw [here] at waits
      rw [waits] at awaits
      contradiction
    · exact (congrArg Call.pc (other _ here)).trans waits
  · intro y target here
    contradiction
  · refine allPush (fun d old => ?_) ?_
    · exact inv.routed d old
    · exact ⟨n,rfl,awaits,sent⟩

theorem callStepKeeps {e : Event} (inv : Inv s) (orderly : Orderly s e) (h : callStep p s e = some t) : Inv t := by
  cases e with
  | call =>
    cases Option.some.inj h
    exact callKeeps inv orderly.1 orderly.2
  | write n =>
    simp only [callStep] at h
    split at h <;> try contradiction
    cases Option.some.inj h
    exact writeKeeps inv ‹_›
  | sendTimeout n =>
    simp only [callStep] at h
    split at h <;> try contradiction
    rename_i guard
    cases Option.some.inj h
    exact sendTimeoutKeeps inv guard.1
  | lock n =>
    simp only [callStep] at h
    split at h <;> try contradiction
    rename_i guard
    cases Option.some.inj h
    exact lockKeeps inv guard.1 (some n)
  | register n =>
    simp only [callStep] at h
    split at h <;> try contradiction
    cases Option.some.inj h
    exact registerKeeps inv ‹_›
  | increment n =>
    simp only [callStep] at h
    split at h <;> try contradiction
    cases Option.some.inj h
    exact incrementKeeps inv ‹_› none
  | read n =>
    simp only [callStep] at h
    split at h <;> try contradiction
    rename_i pc channel
    cases Option.some.inj h
    exact readKeeps inv pc channel
  | recvTimeout n =>
    simp only [callStep] at h
    split at h <;> try contradiction
    rename_i guard
    cases Option.some.inj h
    exact recvTimeoutKeeps inv guard.1 orderly
  | _ => simp [callStep] at h

theorem loopStepKeeps {e : Event} (inv : Inv s) (orderly : Orderly s e) (h : loopStep p s e = some t) : Inv t := by
  cases e with
  | sendRead => exact sendReadKeeps inv h
  | sendReadTimeout =>
    simp only [loopStep] at h
    split at h <;> try contradiction
    split at h <;> try contradiction
    all_goals
      rename_i loop
      cases Option.some.inj h
      exact listsKeep inv rfl rfl rfl rfl rfl rfl (by simp [before,sendingOf,loop]) (List.Perm.refl _)
        (fun _ hr => hr) (fun _ _ here => here)
  | sendProtocol ok =>
    simp only [loopStep] at h
    split at h <;> try contradiction
    rename_i r loop
    split at h
    · cases Option.some.inj h
      exact sendKeeps inv loop
    · cases Option.some.inj h
      exact listsKeep inv rfl rfl rfl rfl rfl rfl (by simp [before,sendingOf,loop]) (List.Perm.refl _)
        (fun _ hr => hr) (fun _ _ here => here)
  | answer k =>
    simp only [loopStep] at h
    split at h <;> try contradiction
    rename_i x found
    cases Option.some.inj h
    obtain ⟨low,rfl⟩ := List.getElem?_eq_some_iff.1 found
    refine listsKeep inv rfl rfl rfl rfl rfl rfl (List.Sublist.refl _) ?_ (fun _ hr => hr) (fun _ _ here => here)
    simp only [after]
    refine List.Perm.append_right _ ?_
    rw [← List.append_assoc]
    refine (List.perm_append_singleton _ _).trans ?_
    rw [← List.cons_append]
    exact List.Perm.append_right _ (List.getElem_cons_eraseIdx_perm low)
  | recvProtocol ok =>
    simp only [loopStep] at h
    split at h <;> try contradiction
    rename_i loop
    split at h
    · split at h <;> try contradiction
      rename_i x rest inbox
      cases Option.some.inj h
      refine listsKeep inv rfl rfl rfl rfl rfl rfl (List.Sublist.refl _) ?_ (fun _ hr => hr) (by simp)
      simp only [after,receivedOf,loop,inbox,List.append_nil,List.append_assoc]
      exact List.Perm.append_left _ (List.perm_append_singleton x rest)
    · cases Option.some.inj h
      exact listsKeep inv rfl rfl rfl rfl rfl rfl (List.Sublist.refl _) (by simp [after,receivedOf,loop])
        (fun _ hr => hr) (by simp)
  | lookup =>
    simp only [loopStep] at h
    split at h <;> try contradiction
    rename_i x loop free
    cases Option.some.inj h
    exact lookupKeeps inv loop (fun n less carries => orderly x n loop less carries)
  | deliver =>
    simp only [loopStep] at h
    split at h <;> try contradiction
    · rename_i x n loop
      split at h <;> try contradiction
      cases Option.some.inj h
      exact deliverKeeps inv loop
    · rename_i x loop
      obtain ⟨n,_,found,_⟩ := inv.hand x none loop
      contradiction
  | _ => simp [loopStep] at h

theorem stepKeeps {e : Event} (inv : Inv s) (orderly : Orderly s e) (h : step p s e = some t) : Inv t := by
  unfold step at h
  split at h
  · rename_i mine
    cases Option.some.inj h
    exact callStepKeeps inv orderly mine
  · exact loopStepKeeps inv orderly h

theorem initialInv : Inv initial := by
  refine ⟨⟨?_,?_,?_,?_⟩,⟨?_,?_⟩,?_,⟨?_,?_,?_,?_,?_⟩,?_,?_⟩ <;>
    simp [initial,before,after,sendingOf,receivedOf,Hand]

theorem invMatched (inv : Inv s) : Matched s := by
  refine ⟨?_,inv.routed,fun n x finished => inv.answers.own n x (Or.inr finished)⟩
  have once : (s.wire.map Request.call).Nodup := by
    have both := inv.sent.once
    rw [List.map_append,List.nodup_append] at both
    exact both.2.1
  rw [List.nodup_iff_pairwise_ne,List.pairwise_map] at once ⊢
  refine once.imp_of_mem ?_
  intro a b ha hb differ same
  obtain ⟨lessA,carriesA,_⟩ := inv.sent.sound a (List.mem_append_right _ ha)
  obtain ⟨lessB,carriesB,_⟩ := inv.sent.sound b (List.mem_append_right _ hb)
  exact differ (idInjective inv.turn lessA lessB (by rw [← carriesA,← carriesB]; exact same))

end Steps

/-- In every run in which the Calls take turns between their read of req_id_ and its
increment, and RecvLoop meets only Calls that have registered and still wait, responses and
Calls match. -/
theorem responsesMatched (p : Params) (es : List Event) (s : State) (ok : Guarded (step p) Orderly initial es)
    (reached : run (step p) initial es = some s) : Matched s :=
  invMatched (guardedInvariant (fun _ _ _ inv ok h => stepKeeps inv ok h) ok reached initialInv)

theorem secondLookup {s : State} {x : Nat} (count : s.count = 2) (loop : s.recvLoop = .received x)
    (first : (s.call 0).id ≠ x) (second : (s.call 1).pc = .reading) : Orderly s .lookup := by
  intro y n taken less carries
  cases RecvLoop.received.inj (loop.symm.trans taken)
  have which : n = 0 ∨ n = 1 := by omega
  rcases which with rfl | rfl
  · exact absurd carries first
  · simp [second,Pc.entered,Pc.passed]

theorem twoCallsMatched : ∃ s, run (step kDefaultParams) initial
    [.call,.write 0,.lock 0,.register 0,.increment 0,.call,.write 1,.lock 1,.register 1,.increment 1,.sendRead,
      .sendProtocol true,.sendRead,.sendProtocol true,.answer 1,.answer 0,.recvProtocol true,.lookup,.deliver,.read 1]
      = some s ∧ (s.call 1).pc = .done 2 ∧ s.delivered = [⟨2,some 1,true⟩] ∧ Matched s := by
  refine ⟨_,rfl,rfl,rfl,responsesMatched kDefaultParams [.call,.write 0,.lock 0,.register 0,.increment 0,.call,.write 1,
    .lock 1,.register 1,.increment 1,.sendRead,.sendProtocol true,.sendRead,.sendProtocol true,.answer 1,.answer 0,
    .recvProtocol true,.lookup,.deliver,.read 1] _ ?_ rfl⟩
  have apart : 1 ≠ 2 := by decide
  have small : 0 < 2^32 ∧ 1 < 2^32 := by omega
  refine guardedCons ⟨?_,small.1⟩ rfl (guardedCons trivial rfl (guardedCons trivial rfl (guardedCons trivial rfl
    (guardedCons trivial rfl (guardedCons ⟨?_,small.2⟩ rfl (guardedCons trivial rfl (guardedCons trivial rfl
    (guardedCons trivial rfl (guardedCons trivial rfl (guardedCons trivial rfl (guardedCons trivial rfl
    (guardedCons trivial rfl (guardedCons trivial rfl (guardedCons trivial rfl (guardedCons trivial rfl
    (guardedCons trivial rfl (guardedCons (secondLookup rfl rfl apart rfl) rfl (guardedCons trivial rfl
    (guardedCons trivial rfl trivial)))))))))))))))))))
  · intro n less
    exact absurd less (by simp [initial])
  · intro n less
    cases Nat.lt_one_iff.1 less
    rfl

/-- A channel of one slot: the first Call's request fills it, and the two Calls that follow
read the same id before the send loop makes room. -/
theorem fullChannelRepeatsId : ¬ ∀ (p : Params) (es : List Event) (s : State),
    run (step p) initial es = some s → Matched s := by
  intro claim
  have matched := claim ⟨uint32Max,uint32Max,1,by decide⟩ [.call,.write 0,.lock 0,.register 0,.increment 0,
    .call,.write 1,.call,.write 2,.sendRead,.sendProtocol true,.sendRead,.sendProtocol true,.sendRead,
    .sendProtocol true] _ rfl
  have distinct : [1,2,2].Nodup := matched.distinct
  simp at distinct

end TitCo.RpcClient
