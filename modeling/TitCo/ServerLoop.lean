import TitCo.Decimal
import TitCo.RpcFrame
import TitCo.Transition
import Mathlib.Logic.Function.Basic

/-! TcpServer::Loop with one NetworkServer<RpcRequest, RpcResponse> as its delegate: the sockets
that it accepts, a coroutine for each of them, and the req_ and resp_ that they all go through.
Schedulers run in threads of their own, so the coroutines interleave between any two statements
that touch a socket, req_ or resp_. What a Recvn returns is part of the event, and so is whether
resp_protocol_ makes a frame. -/
namespace TitCo.ServerLoop
open Decimal RpcFrame Sock Transition

def kInvalidFd : Int := -1

/-- Where the coroutine of a connection stands in its loop: OnNewConn, Recv and RecvProtocol in
it, the callback, Send, and the test of connected(). -/
inductive Pc where
  | absent
  | onNewConn
  | reqSet
  | respSet
  | header
  | closing
  | length (dataLen : Int)
  | body (dataLen : Int)
  | refused
  | callback
  | reply
  | send
  | sending
  | test
  | done
  deriving DecidableEq, Repr

/-- A connection is named by its place among the accepted ones. `connected` is connected_ of its
socket, `req` and `resp` are the sockets in req_ and resp_, `error` is error_ of req_, and
`failed` says that a CHECK(connected_) has not held. -/
structure State where
  accepted : Nat
  connected : Nat → Bool
  pc : Nat → Pc
  req : Option Nat
  resp : Option Nat
  error : Int
  failed : Bool

/-- No constructor sets error_. -/
def initial (raw : Int) : State := ⟨0,fun _ => false,fun _ => .absent,none,none,raw,false⟩

/-- `accept` has what co::accept returns, `header` and `body` what Recvn does, `body` also whether
Decode makes a protocol, and `send` whether Encode makes a frame. -/
inductive Event where
  | accept (fd : Int)
  | next (i : Nat)
  | header (i : Nat) (read : Int) (text : Bytes)
  | body (i : Nat) (read : Int) (decoded : Bool)
  | send (i : Nat) (frame : Bool)
  deriving DecidableEq, Repr

def State.isConnected (s : State) : Option Nat → Bool
  | none => false
  | some i => s.connected i

def State.move (s : State) (i : Nat) (pc : Pc) : State := {s with pc := Function.update s.pc i pc}

/-- CHECK(connected_) at the start of Recvn and Send. -/
def State.check (s : State) (socket : Option Nat) : State := {s with failed := s.failed || !s.isConnected socket}

/-- Socket::Close. Close of one that is not connected does nothing. -/
def State.close (s : State) : Option Nat → State
  | none => s
  | some i => {s with connected := Function.update s.connected i false}

/-- Accept makes its socket whatever co::accept returns, and Init connects it unless that is
kInvalidFd. Loop starts a coroutine on it in either case. -/
def accept (s : State) (fd : Int) : State :=
  {s with
    accepted := s.accepted+1
    connected := Function.update s.connected s.accepted (fd != kInvalidFd)
    pc := Function.update s.pc s.accepted .onNewConn}

def next (s : State) (i : Nat) : Option State :=
  match s.pc i with
  | .onNewConn => some {s.move i .reqSet with req := some i}
  | .reqSet => some {s.move i .respSet with resp := some i}
  | .respSet => some ((s.check s.req).move i .header)
  | .closing => some ((s.close s.req).move i .refused)
  | .length n => some ((s.check s.req).move i (.body n))
  | .refused => some {s.move i .callback with error := 1}
  | .callback => some (s.move i .reply)
  | .reply => some (s.move i (if s.error ≠ 1 then .send else .test))
  | .sending => some (s.move i .test)
  | .test => some (s.move i (if s.connected i then .onNewConn else .done))
  | _ => none

/-- RecvProtocol after its first Recvn. -/
def afterHeader (read : Int) (text : Bytes) : Pc :=
  if read = 0 then .closing
  else if read < kDataLen then .refused
  else if atoi text = 0 then .refused
  else .length (atoi text)

def step (s : State) : Event → Option State
  | .accept fd => some (accept s fd)
  | .next i => next s i
  | .header i read text => if s.pc i = .header then some (s.move i (afterHeader read text)) else none
  | .body i read decoded =>
      match s.pc i with
      | .body n => some (s.move i (if read < n ∨ decoded = false then .refused else .callback))
      | _ => none
  | .send i frame =>
      if s.pc i = .send then
        some (if frame then (s.check s.resp).move i .sending else s.move i .test)
      else none

/-- A Recvn of this call of OnNewConn is still to come. -/
def Pc.usesReq : Pc → Bool
  | .reqSet | .respSet | .header | .length _ => true
  | _ => false

/-- A Send of this call of OnNewConn may still come, with the socket that resp_ holds. -/
def Pc.usesResp (error : Int) : Pc → Bool
  | .respSet | .header | .length _ | .body _ | .callback | .reply => error != 1
  | .send => true
  | _ => false

/-- The coroutine needs the connection `x` while req_ holds it. -/
def Needs (s : State) (x j : Nat) : Prop :=
  (s.pc j = .onNewConn ∧ j = x) ∨ (s.pc j).usesReq = true ∨ ((s.pc j).usesResp s.error = true ∧ s.resp = some x)

/-- Every accept gives a descriptor, and Close hits no socket that another coroutine needs. -/
def Clean (s : State) : Event → Prop
  | .accept fd => fd ≠ kInvalidFd
  | .next i => s.pc i = .closing → ∀ x, s.req = some x → s.connected x = true → ∀ j, j ≠ i → ¬ Needs s x j
  | _ => True

/-- A CHECK(connected_) fails in some run from here. -/
def Fails (s : State) : Prop := ∃ es u, run step s es = some u ∧ u.failed = true

structure Inv (s : State) : Prop where
  own : ∀ i, s.pc i = .onNewConn ∨ s.pc i = .reqSet → s.connected i = true
  req : ∀ i, (s.pc i).usesReq = true → s.isConnected s.req = true
  resp : ∀ i, (s.pc i).usesResp s.error = true → s.isConnected s.resp = true
  held : s.failed = false

section
variable {s t : State} {i j : Nat} {pc : Pc}

theorem movePc (s : State) (i : Nat) (pc : Pc) (j : Nat) : (s.move i pc).pc j = if j = i then pc else s.pc j := by
  simp only [State.move,Function.update_apply]

/- One coroutine moves on; the sockets are as they were. -/
theorem moveInv (inv : Inv s) (own : pc = .onNewConn ∨ pc = .reqSet → s.connected i = true)
    (req : pc.usesReq = true → s.isConnected s.req = true)
    (resp : pc.usesResp s.error = true → s.isConnected s.resp = true) : Inv (s.move i pc) := by
  refine ⟨?_,?_,?_,inv.held⟩
  · intro j at_
    rw [movePc] at at_
    split at at_
    · rename_i same
      subst j
      exact own at_
    · exact inv.own j at_
  · intro j uses
    rw [movePc] at uses
    split at uses
    · exact req uses
    · exact inv.req j uses
  · intro j uses
    rw [movePc] at uses
    split at uses
    · exact resp uses
    · exact inv.resp j uses

/- A move to a place from where no CHECK is left in this call. -/
theorem moveIdle (inv : Inv s) (idle : pc = .closing ∨ pc = .refused ∨ pc = .sending ∨ pc = .test) : Inv (s.move i pc) := by
  refine moveInv inv ?_ ?_ ?_
  all_goals rcases idle with rfl | rfl | rfl | rfl
  all_goals simp [Pc.usesReq,Pc.usesResp]

theorem setReqInv (inv : Inv s) (own : s.connected i = true) : Inv {s with req := some i} :=
  ⟨inv.own,fun _ _ => own,inv.resp,inv.held⟩

theorem setRespInv (inv : Inv s) (own : s.connected i = true) : Inv {s with resp := some i} :=
  ⟨inv.own,inv.req,fun _ _ => own,inv.held⟩

theorem checkInv (inv : Inv s) {socket : Option Nat} (holds : s.isConnected socket = true) : Inv (s.check socket) := by
  refine ⟨inv.own,inv.req,inv.resp,?_⟩
  simp only [State.check,inv.held,holds,Bool.not_true,Bool.or_false]

theorem usesRespLess (error : Int) (uses : pc.usesResp 1 = true) : pc.usesResp error = true := by
  cases pc <;> simp_all [Pc.usesResp]

theorem refuseInv (inv : Inv s) : Inv {s with error := 1} :=
  ⟨inv.own,inv.req,fun i uses => inv.resp i (usesRespLess s.error uses),inv.held⟩

theorem acceptInv (inv : Inv s) {fd : Int} (valid : fd ≠ kInvalidFd) : Inv (accept s fd) := by
  have connected : (fd != kInvalidFd) = true := by simpa using valid
  have grown : ∀ x, s.connected x = true → (accept s fd).connected x = true := by
    intro x was
    simp only [accept,Function.update_apply,connected]
    split
    · rfl
    · exact was
  have still : ∀ socket, s.isConnected socket = true → (accept s fd).isConnected socket = true := by
    intro socket was
    cases socket with
    | none => exact was
    | some x => exact grown x was
  refine ⟨?_,?_,?_,inv.held⟩
  · intro i at_
    by_cases new : i = s.accepted
    · subst i
      simp [accept,connected]
    · simp only [accept,Function.update_of_ne new] at at_
      exact grown i (inv.own i at_)
  · intro i uses
    by_cases new : i = s.accepted
    · subst i
      simp [accept,Pc.usesReq] at uses
    · simp only [accept,Function.update_of_ne new] at uses
      exact still _ (inv.req i uses)
  · intro i uses
    by_cases new : i = s.accepted
    · subst i
      simp [accept,Pc.usesResp] at uses
    · simp only [accept,Function.update_of_ne new] at uses
      exact still _ (inv.resp i uses)

/- What a clean Close takes away is needed by nobody: the coroutine that closes uses nothing. -/
theorem closeInv (inv : Inv s) (closing : s.pc i = .closing)
    (clean : ∀ x, s.req = some x → s.connected x = true → ∀ j, j ≠ i → ¬ Needs s x j) : Inv (s.close s.req) := by
  cases held : s.req with
  | none => exact inv
  | some x =>
    by_cases was : s.connected x = true
    · have unneeded : ∀ j, ¬ Needs s x j := by
        intro j needs
        by_cases same : j = i
        · subst j
          rcases needs with ⟨at_,_⟩ | uses | ⟨uses,_⟩ <;> simp_all [Pc.usesReq,Pc.usesResp]
        · exact clean x held was j same needs
      refine ⟨?_,?_,?_,inv.held⟩
      · intro j at_
        have apart : j ≠ x := by
          rintro rfl
          rcases at_ with at_ | at_
          · exact unneeded j (Or.inl ⟨at_,rfl⟩)
          · exact unneeded j (Or.inr (Or.inl (by rw [show s.pc j = .reqSet from at_]; rfl)))
        simp only [State.close,Function.update_of_ne apart]
        exact inv.own j at_
      · intro j uses
        exact absurd (Or.inr (Or.inl uses)) (unneeded j)
      · intro j uses
        have live := inv.resp j uses
        change (s.close (some x)).isConnected s.resp = true
        cases other : s.resp with
        | none => simp [other,State.isConnected] at live
        | some y =>
          have apart : y ≠ x := by
            rintro rfl
            exact unneeded j (Or.inr (Or.inr ⟨uses,other⟩))
          rw [other] at live
          simp only [State.isConnected,State.close,Function.update_of_ne apart]
          exact live
    · have same : s.close (some x) = s := by
        have down : s.connected x = false := by simpa using was
        simp only [State.close,← down,Function.update_eq_self]
      rw [same]
      exact inv

theorem afterHeaderCases (read : Int) (text : Bytes) : afterHeader read text = .closing ∨ afterHeader read text = .refused ∨
    ∃ n, afterHeader read text = .length n := by
  unfold afterHeader
  split
  · exact Or.inl rfl
  · split
    · exact Or.inr (Or.inl rfl)
    · split
      · exact Or.inr (Or.inl rfl)
      · exact Or.inr (Or.inr ⟨_,rfl⟩)

theorem nextInv (inv : Inv s) (clean : Clean s (.next i)) (h : next s i = some t) : Inv t := by
  have own := inv.own i
  have req := inv.req i
  have resp := inv.resp i
  cases here : s.pc i
  all_goals rw [here] at own req resp
  all_goals simp only [next,here,Option.some.injEq,reduceCtorEq] at h
  all_goals subst t
  case onNewConn =>
    have connected := own (Or.inl rfl)
    exact moveInv (setReqInv inv connected) (fun _ => connected) (fun _ => connected) (by simp [Pc.usesResp])
  case reqSet =>
    have connected := own (Or.inr rfl)
    exact moveInv (setRespInv inv connected) (by simp) (fun _ => req rfl) (fun _ => connected)
  case respSet => exact moveInv (checkInv inv (req rfl)) (by simp) (fun _ => req rfl) resp
  case closing => exact moveIdle (closeInv inv here (clean here)) (by simp)
  case length => exact moveInv (checkInv inv (req rfl)) (by simp) (by simp [Pc.usesReq]) resp
  case refused => exact moveInv (refuseInv inv) (by simp) (by simp [Pc.usesReq]) (by simp [Pc.usesResp])
  case callback => exact moveInv inv (by simp) (by simp [Pc.usesReq]) resp
  case reply =>
    split
    · rename_i sends
      exact moveInv inv (by simp) (by simp [Pc.usesReq]) (fun _ => resp (by simpa [Pc.usesResp] using sends))
    · exact moveIdle inv (by simp)
  case sending => exact moveIdle inv (by simp)
  case test =>
    split
    · rename_i connected
      exact moveInv inv (fun _ => connected) (by simp [Pc.usesReq]) (by simp [Pc.usesResp])
    · exact moveInv inv (by simp) (by simp [Pc.usesReq]) (by simp [Pc.usesResp])

theorem stepInv (s : State) (e : Event) (t : State) (inv : Inv s) (clean : Clean s e) (h : step s e = some t) : Inv t := by
  cases e with
  | accept fd =>
    cases Option.some.inj h
    exact acceptInv inv clean
  | next i => exact nextInv inv clean h
  | header i read text =>
    simp only [step] at h
    split at h <;> try contradiction
    rename_i here
    cases Option.some.inj h
    have req := inv.req i
    have resp := inv.resp i
    rw [here] at req resp
    rcases afterHeaderCases read text with shape | shape | ⟨n,shape⟩
    all_goals rw [shape]
    · exact moveIdle inv (by simp)
    · exact moveIdle inv (by simp)
    · exact moveInv inv (by simp) (fun _ => req rfl) resp
  | body i read decoded =>
    simp only [step] at h
    split at h <;> try contradiction
    rename_i n here
    cases Option.some.inj h
    have resp := inv.resp i
    rw [here] at resp
    split
    · exact moveIdle inv (by simp)
    · exact moveInv inv (by simp) (by simp [Pc.usesReq]) resp
  | send i frame =>
    simp only [step] at h
    split at h <;> try contradiction
    rename_i here
    cases Option.some.inj h
    have resp := inv.resp i
    rw [here] at resp
    split
    · exact moveIdle (checkInv inv (resp rfl)) (by simp)
    · exact moveIdle inv (by simp)

theorem failsNext {e : Event} (h : step s e = some t) (later : Fails t) : Fails s := by
  obtain ⟨es,u,rest,failed⟩ := later
  exact ⟨e::es,u,by simpa only [run,h,bind,Option.bind_some] using rest,failed⟩

theorem checkFails {e : Event} {socket : Option Nat} (h : step s e = some ((s.check socket).move j pc))
    (down : s.isConnected socket = false) : Fails s := by
  refine failsNext h ⟨[],_,rfl,?_⟩
  simp only [State.move,State.check,down,Bool.not_false,Bool.or_true]

theorem moveSelf (s : State) (i : Nat) (pc : Pc) : (s.move i pc).pc i = pc := by
  rw [movePc,if_pos rfl]

/- With a socket that is closed in req_, whoever is still to receive from it fails. -/
theorem usesReqFails (uses : (s.pc j).usesReq = true) (down : s.isConnected s.req = false) : Fails s := by
  have received : ∀ t : State, t.pc j = .respSet → t.isConnected t.req = false → Fails t := by
    intro t here
    have h : step t (.next j) = some ((t.check t.req).move j .header) := by simp only [step,next,here]
    exact checkFails h
  have bodyNext : ∀ (t : State) (n : Int), t.pc j = .length n → t.isConnected t.req = false → Fails t := by
    intro t n here
    have h : step t (.next j) = some ((t.check t.req).move j (.body n)) := by simp only [step,next,here]
    exact checkFails h
  cases here : s.pc j with
  | reqSet =>
    have h : step s (.next j) = some {s.move j .respSet with resp := some j} := by simp only [step,next,here]
    exact failsNext h (received _ (moveSelf s j .respSet) down)
  | respSet => exact received s here down
  | header =>
    have h : step s (.header j 4 [49]) = some (s.move j (.length 1)) := by
      simp only [step,here,if_true]
      rfl
    exact failsNext h (bodyNext _ 1 (moveSelf s j (.length 1)) down)
  | length n => exact bodyNext s n here down
  | _ => simp [here,Pc.usesReq] at uses

/- The same of a socket in resp_, unless a Recvn is still to come before. -/
theorem usesRespFails (uses : (s.pc j).usesResp s.error = true) (req : (s.pc j).usesReq = false)
    (down : s.isConnected s.resp = false) : Fails s := by
  have sent : ∀ t : State, t.pc j = .send → t.isConnected t.resp = false → Fails t := by
    intro t here
    have h : step t (.send j true) = some ((t.check t.resp).move j .sending) := by simp only [step,here,if_true]
    exact checkFails h
  have replied : ∀ t : State, t.pc j = .reply → t.error ≠ 1 → t.isConnected t.resp = false → Fails t := by
    intro t here clear down
    have h : step t (.next j) = some (t.move j .send) := by simp only [step,next,here,if_pos clear]
    exact failsNext h (sent _ (moveSelf t j .send) down)
  have called : ∀ t : State, t.pc j = .callback → t.error ≠ 1 → t.isConnected t.resp = false → Fails t := by
    intro t here clear down
    have h : step t (.next j) = some (t.move j .reply) := by simp only [step,next,here]
    exact failsNext h (replied _ (moveSelf t j .reply) clear down)
  cases here : s.pc j with
  | body n =>
    have clear : s.error ≠ 1 := by simpa [here,Pc.usesResp] using uses
    have h : step s (.body j n true) = some (s.move j .callback) := by simp [step,here]
    exact failsNext h (called _ (moveSelf s j .callback) clear down)
  | callback => exact called s here (by simpa [here,Pc.usesResp] using uses) down
  | reply => exact replied s here (by simpa [here,Pc.usesResp] using uses) down
  | send => exact sent s here down
  | respSet | header | length => simp [here,Pc.usesReq] at req
  | _ => simp [here,Pc.usesResp] at uses

theorem enterFails (here : s.pc i = .onNewConn) (down : s.connected i = false) : Fails s := by
  have h : step s (.next i) = some {s.move i .reqSet with req := some i} := by simp only [step,next,here]
  have at_ : ({s.move i .reqSet with req := some i} : State).pc i = .reqSet := moveSelf s i .reqSet
  exact failsNext h (usesReqFails (by rw [at_]; rfl) down)

/- A step that is not clean leads to a CHECK that fails. -/
theorem uncleanFails {e : Event} (unclean : ¬ Clean s e) (h : step s e = some t) : Fails t := by
  cases e with
  | accept fd =>
    cases Option.some.inj h
    have invalid : fd = kInvalidFd := not_not.1 unclean
    exact enterFails (i := s.accepted) (by simp [accept]) (by simp [accept,invalid])
  | next i =>
    simp only [Clean,Classical.not_imp,not_forall,not_not] at unclean
    obtain ⟨closing,x,held,_,j,other,needs⟩ := unclean
    simp only [step,next,closing,held,Option.some.injEq] at h
    subst t
    have same : ((s.close (some x)).move i .refused).pc j = s.pc j := by
      rw [movePc,if_neg other]
      rfl
    have down : ((s.close (some x)).move i .refused).connected x = false := by
      simp only [State.move,State.close,Function.update_self]
    have reqDown : ((s.close (some x)).move i .refused).isConnected s.req = false := by
      rw [held]
      exact down
    rcases needs with ⟨here,rfl⟩ | uses | ⟨uses,resp⟩
    · exact enterFails (by rw [same]; exact here) down
    · exact usesReqFails (by rw [same]; exact uses) reqDown
    · by_cases first : (s.pc j).usesReq = true
      · exact usesReqFails (by rw [same]; exact first) reqDown
      · refine usesRespFails (j := j) (by rw [same]; exact uses) (by rw [same]; simpa using first) ?_
        change ((s.close (some x)).move i .refused).isConnected s.resp = false
        rw [resp]
        exact down
  | _ => exact absurd trivial unclean

theorem initialInv (raw : Int) : Inv (initial raw) :=
  ⟨by simp [initial],by simp [initial,Pc.usesReq],by simp [initial,Pc.usesResp],rfl⟩

end

/-- In a run in which every accept gives a descriptor, and no Close hits a socket that another
coroutine needs, every CHECK(connected_) holds. -/
theorem checksHold (raw : Int) (es : List Event) (s : State) (guarded : Guarded step Clean (initial raw) es)
    (whole : run step (initial raw) es = some s) : s.failed = false :=
  (guardedInvariant stepInv guarded whole (initialInv raw)).held

/- A client that connects and leaves. -/
theorem closedConnectionHolds : ∃ s,
    run step (initial 0) [.accept 5,.next 0,.next 0,.next 0,.header 0 0 [],.next 0] = some s ∧ s.failed = false := by
  have guarded : Guarded step Clean (initial 0) [.accept 5,.next 0,.next 0,.next 0,.header 0 0 [],.next 0] := by
    refine guardedCons (by simp [Clean,kInvalidFd]) rfl ?_
    refine guardedCons (fun closing => absurd closing (by decide)) rfl ?_
    refine guardedCons (fun closing => absurd closing (by decide)) rfl ?_
    refine guardedCons (fun closing => absurd closing (by decide)) rfl ?_
    refine guardedCons trivial rfl ?_
    refine guardedCons ?_ rfl trivial
    intro _ x _ _ j other needs
    simp [Needs,State.move,State.check,accept,initial,Function.update_of_ne other,Pc.usesReq,Pc.usesResp] at needs
  exact ⟨_,rfl,checksHold 0 _ _ guarded rfl⟩

/-- The accept fails, and its coroutine receives all the same. -/
theorem failedAcceptChecked : ¬ ∀ (raw : Int) (es : List Event) (s : State),
    run step (initial raw) es = some s → s.failed = false := by
  intro claim
  have failed := claim 0 [.accept (-1),.next 0,.next 0,.next 0] _ rfl
  exact absurd failed (by decide)

end TitCo.ServerLoop
