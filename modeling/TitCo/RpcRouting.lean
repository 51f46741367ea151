import TitCo.RpcServer
import TitCo.Transition

/-! The coroutines of the accepted connections over one NetworkServer. Each runs OnNewConn
again and again; they interleave where Recvn or Send suspends, and all of them go through
the socket_ of the one req_ and the one resp_. -/
namespace TitCo.RpcRouting
open Decimal RpcFrame RpcServer Sock Transition

/-- Where the coroutine of a connection is suspended. A Recvn keeps the socket that it was
called on. -/
inductive Pc where
  | idle
  | header (got : Bytes)
  | body (socket len : Nat) (got : Bytes)
  | sending
  deriving DecidableEq, Repr

structure Read where
  conn : Nat
  socket : Nat
  deriving DecidableEq, Repr

structure Sent where
  conn : Nat
  socket : Nat
  request : Option Protocol
  response : Protocol
  deriving DecidableEq, Repr

/-- Connections and their sockets are named alike; `input` is what has arrived unread. -/
structure State (δ : Type) where
  server : Server δ
  reqSocket : Nat
  respSocket : Nat
  connected : Nat → Bool
  input : Nat → Bytes
  pc : Nat → Pc
  reads : List Read
  sends : List Sent

inductive Event where
  | arrive (conn : Nat) (bytes : Bytes)
  | onNewConn (conn : Nat)
  | recv (conn n : Nat)
  | recvFails (conn : Nat) (closed : Bool)
  | sent (conn : Nat)
  deriving DecidableEq, Repr

section
variable {δ : Type}

def initial (raw : Option Protocol) : State δ where
  server := RpcServer.start raw
  reqSocket := 0
  respSocket := 0
  connected := fun _ => true
  input := fun _ => []
  pc := fun _ => .idle
  reads := []
  sends := []

def State.setPc (s : State δ) (c : Nat) (pc : Pc) : State δ := {s with pc := Function.update s.pc c pc}

def State.take (s : State δ) (c socket n : Nat) : State δ :=
  {s with
    input := Function.update s.input socket ((s.input socket).drop n)
    reads := s.reads ++ [⟨c,socket⟩]}

variable (services : Bytes → Option (Service δ)) (decode : Bytes → Protocol)

/-- From the end of RecvProtocol to the end of OnNewConn or the suspension in Send. -/
def finish (s : State δ) (c : Nat) (received : Option Protocol) : Option (State δ) := do
  let (t,out) ← RpcServer.onNewConn services s.server received
  some {s with
    server := t
    pc := Function.update s.pc c (if out.sent = [] then .idle else .sending)
    sends := s.sends ++ out.sent.map (fun p => ⟨c,s.respSocket,received,p⟩)}

/-- The header is complete: the body is read from what socket_ is now. -/
def afterHeader (s : State δ) (c : Nat) (got : Bytes) : Option (State δ) :=
  let dataLen := atoi got
  if dataLen = 0 then finish services s c none
  else if dataLen < 0 ∨ s.connected s.reqSocket = false then none
  else some (s.setPc c (.body s.reqSocket dataLen.toNat []))

def step (s : State δ) : Event → Option (State δ)
  | .arrive c bytes => some {s with input := Function.update s.input c (s.input c ++ bytes)}
  | .onNewConn c =>
      if s.pc c = .idle ∧ s.connected c = true then
        some {s.setPc c (.header []) with reqSocket := c, respSocket := c}
      else none
  | .recv c n =>
      match s.pc c with
      | .header got =>
          if 0 < n ∧ got.length + n ≤ kDataLen ∧ n ≤ (s.input c).length then
            let more := got ++ (s.input c).take n
            if more.length < kDataLen then some ((s.take c c n).setPc c (.header more))
            else afterHeader services (s.take c c n) c more
          else none
      | .body d len got =>
          if 0 < n ∧ got.length + n ≤ len ∧ n ≤ (s.input d).length then
            let more := got ++ (s.input d).take n
            if more.length < len then some ((s.take c d n).setPc c (.body d len more))
            else finish services (s.take c d n) c (some (decode more))
          else none
      | _ => none
  | .recvFails c closed =>
      match s.pc c with
      | .header _ =>
          -- Only a return of 0 closes, and it closes what socket_ is now.
          if closed then finish services {s with connected := Function.update s.connected s.reqSocket false} c none
          else finish services s c none
      | .body _ _ _ => finish services s c none
      | _ => none
  | .sent c => if s.pc c = .sending then some (s.setPc c .idle) else none

/-- What the message of a connection alone makes the server answer. -/
def respond (p : Protocol) : Option Protocol := (callService services (RpcServer.start none) p).bind Server.respProtocol

/-- Every byte is read from the own socket, and every response goes there and is the one
that the own message alone makes. -/
structure Routed (s : State δ) : Prop where
  reads : ∀ r ∈ s.reads, r.socket = r.conn
  sends : ∀ x ∈ s.sends, x.socket = x.conn ∧ ∃ p, x.request = some p ∧ respond services p = some x.response

def Pc.reading : Pc → Bool
  | .header _ | .body _ _ _ => true
  | _ => false

/-- No OnNewConn starts while another connection's is in one of its Recvns, and every
message received is a call whose handler sets a result. -/
def Alone (s : State δ) : Event → Prop
  | .onNewConn c => ∀ d, d ≠ c → (s.pc d).reading = false
  | .recv c n => ∀ d len got, s.pc c = .body d len got → got.length + n = len →
      Answers services (decode (got ++ (s.input d).take n))
  | _ => True

structure Inv (s : State δ) : Prop where
  turn : ∀ c, (s.pc c).reading = true → s.reqSocket = c ∧ s.respSocket = c
  body : ∀ c d len got, s.pc c = .body d len got → d = c
  routed : Routed services s

variable {services} {decode} {s t : State δ} {c : Nat}

theorem respondAnswers {p : Protocol} (answers : Answers services p) {u v : Server δ} {out : Outcome}
    (h : RpcServer.onNewConn services u (some p) = some (v,out)) : ∀ q ∈ out.sent, respond services p = some q := by
  intro q inside
  by_cases poisoned : u.error = 1
  · rw [onNewConnPoisoned _ poisoned] at h
    cases h
    simp at inside
  · rw [onNewConnCall poisoned answers.1] at h
    obtain ⟨w,called,same⟩ := Option.map_eq_some_iff.1 h
    cases same
    have alone := callServiceAnswers answers (RpcServer.start none) {u with reqProtocol := some p}
    rw [called] at alone
    obtain ⟨x,fresh,equal⟩ := Option.map_eq_some_iff.1 alone
    simp only [respond,fresh,Option.bind_some,equal]
    simpa using inside

theorem failedSilent {u v : Server δ} {out : Outcome} (h : RpcServer.onNewConn services u none = some (v,out)) :
    out.sent = [] := by
  simp only [RpcServer.onNewConn,dispatch,RpcServer.recv,if_true] at h
  cases h
  simp

theorem pcKeeps (inv : Inv services s) {pc : Pc} (reads : pc.reading = true → (s.pc c).reading = true)
    (body : ∀ d len got, pc = .body d len got → d = c) : Inv services (s.setPc c pc) := by
  refine ⟨?_,?_,⟨inv.routed.reads,inv.routed.sends⟩⟩
  · intro d reading
    by_cases here : d = c
    · subst d
      simp only [State.setPc,Function.update_self] at reading
      exact inv.turn c (reads reading)
    · simp only [State.setPc,Function.update_of_ne here] at reading
      exact inv.turn d reading
  · intro d e len got at_
    by_cases here : d = c
    · subst d
      simp only [State.setPc,Function.update_self] at at_
      exact body e len got at_
    · simp only [State.setPc,Function.update_of_ne here] at at_
      exact inv.body d e len got at_

theorem takeKeeps (inv : Inv services s) {n : Nat} : Inv services (s.take c c n) := by
  refine ⟨inv.turn,inv.body,⟨?_,inv.routed.sends⟩⟩
  intro r hr
  rcases List.mem_append.1 hr with old | last
  · exact inv.routed.reads r old
  · cases List.mem_singleton.1 last
    rfl

theorem finishKeeps {received : Option Protocol} (inv : Inv services s) (reading : (s.pc c).reading = true)
    (answers : ∀ p, received = some p → Answers services p) (h : finish services s c received = some t) :
    Inv services t := by
  simp only [finish,bind,Option.bind_eq_some_iff] at h
  obtain ⟨⟨u,out⟩,served,last⟩ := h
  cases Option.some.inj last
  have moved : Inv services (s.setPc c (if out.sent = [] then .idle else .sending)) := by
    refine pcKeeps inv ?_ ?_ <;> split <;> simp [Pc.reading]
  refine ⟨moved.turn,moved.body,⟨inv.routed.reads,?_⟩⟩
  intro x hx
  rcases List.mem_append.1 hx with old | new
  · exact inv.routed.sends x old
  · obtain ⟨q,inside,rfl⟩ := List.mem_map.1 new
    refine ⟨(inv.turn c reading).2,?_⟩
    cases received with
    | none =>
      rw [failedSilent served] at inside
      simp at inside
    | some p => exact ⟨p,rfl,respondAnswers (answers p rfl) served q inside⟩

theorem afterHeaderKeeps {got : Bytes} (inv : Inv services s) (reading : (s.pc c).reading = true)
    (h : afterHeader services s c got = some t) : Inv services t := by
  simp only [afterHeader] at h
  split at h
  · exact finishKeeps inv reading (by simp) h
  · split at h <;> try contradiction
    cases Option.some.inj h
    refine pcKeeps inv (fun _ => reading) ?_
    intro d len got same
    cases same
    exact (inv.turn c reading).1

theorem stepKeeps {e : Event} (inv : Inv services s) (alone : Alone services decode s e)
    (h : step services decode s e = some t) : Inv services t := by
  cases e with
  | arrive c bytes =>
    cases Option.some.inj h
    exact ⟨inv.turn,inv.body,⟨inv.routed.reads,inv.routed.sends⟩⟩
  | onNewConn c =>
    simp only [step] at h
    split at h <;> try contradiction
    cases Option.some.inj h
    refine ⟨?_,?_,⟨inv.routed.reads,inv.routed.sends⟩⟩
    · intro d reading
      by_cases here : d = c
      · exact ⟨here.symm,here.symm⟩
      · simp only [State.setPc,Function.update_of_ne here] at reading
        rw [alone d here] at reading
        contradiction
    · intro d e len got at_
      by_cases here : d = c
      · subst d
        simp [State.setPc] at at_
      · simp only [State.setPc,Function.update_of_ne here] at at_
        exact inv.body d e len got at_
  | recv c n =>
    simp only [step] at h
    split at h <;> try contradiction
    · rename_i got pc
      have reading : (s.pc c).reading = true := by rw [pc]; rfl
      split at h <;> try contradiction
      split at h
      · cases Option.some.inj h
        exact pcKeeps (takeKeeps inv) (fun _ => reading) (by simp)
      · exact afterHeaderKeeps (takeKeeps inv) reading h
    · rename_i d len got pc
      have reading : (s.pc c).reading = true := by rw [pc]; rfl
      cases inv.body c d len got pc
      split at h <;> try contradiction
      rename_i bounds
      split at h
      · cases Option.some.inj h
        refine pcKeeps (takeKeeps inv) (fun _ => reading) ?_
        intro d len got same
        cases same
        rfl
      · rename_i whole
        refine finishKeeps (takeKeeps inv) reading ?_ h
        intro p same
        cases Option.some.inj same
        refine alone c len got pc ?_
        rw [List.length_append,List.length_take,Nat.min_eq_left bounds.2.2] at whole
        omega
  | recvFails c closed =>
    simp only [step] at h
    split at h <;> try contradiction
    · rename_i got pc
      have reading : (s.pc c).reading = true := by rw [pc]; rfl
      split at h
      · have kept : Inv services {s with connected := Function.update s.connected s.reqSocket false} :=
          ⟨inv.turn,inv.body,⟨inv.routed.reads,inv.routed.sends⟩⟩
        exact finishKeeps kept reading (by simp) h
      · exact finishKeeps inv reading (by simp) h
    · rename_i d len got pc
      exact finishKeeps inv (by rw [pc]; rfl) (by simp) h
  | sent c =>
    simp only [step] at h
    split at h <;> try contradiction
    cases Option.some.inj h
    exact pcKeeps inv (by simp [Pc.reading]) (by simp)

theorem initialInv (raw : Option Protocol) : Inv services (initial raw) :=
  ⟨by simp [initial,Pc.reading],by simp [initial],⟨by simp [initial],by simp [initial]⟩⟩

variable (services) (decode)

end

/-- A stand-in for Decode: the first byte is the req_id of a call. -/
def callOf (bytes : Bytes) : Protocol := create .requestCall (bytes.headD 0).toNat bytes

end TitCo.RpcRouting
