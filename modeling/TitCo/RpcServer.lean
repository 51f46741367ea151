import TitCo.RpcFrame

/-! One NetworkServer<RpcRequest, RpcResponse> with the dispatch of RpcServerProvider. Its
req_ and resp_ live as long as the server: what one OnNewConn leaves in them, the next one
finds. A step into undefined behaviour has no result. -/
namespace TitCo.RpcServer
open RpcFrame Sock

/-- A registered handler with the serializers of its SrvTraits. `func` returns what the
handler passes to set_data_resp_protocol, if it calls it. -/
structure Service (δ : Type) where
  deserialize : Bytes → δ
  func : δ → Option δ
  serialize : δ → Bytes

/-- The fields of req_ and resp_ but for their sockets. -/
structure Server (δ : Type) where
  reqProtocol : Option Protocol
  dataReqProtocol : Option δ
  state : Nat
  error : Nat
  respProtocol : Option Protocol
  dataRespProtocol : Option δ
  deriving DecidableEq, Repr

/-- What one OnNewConn does: whether it runs the dispatch of a call, and the protocols that
resp_.Send() hands to SendProtocol. -/
structure Outcome where
  dispatched : Bool
  sent : List Protocol
  deriving DecidableEq, Repr

section
variable {δ : Type}

/-- state_ and error_ start at 0; resp_protocol_ is left as the memory had it. -/
def start (raw : Option Protocol) : Server δ := ⟨none,none,0,0,raw,none⟩

/-- ProtocolHandler::Recv, given what RecvProtocol returns. -/
def recv (s : Server δ) (received : Option Protocol) : Server δ :=
  match received with
  | none => {s with reqProtocol := none, state := 1, error := 1}
  | some p => {s with reqProtocol := some p}

def other : Bytes := [111,116,104,101,114]

variable (services : Bytes → Option (Service δ))

/-- The branch of RpcServerProvider::OnNewConn for a kRequestCall. -/
def callService (s : Server δ) (p : Protocol) : Option (Server δ) :=
  match services p.srvName with
  | none => some {s with respProtocol := some (create .responseCall p.reqId other)}
  | some service =>
      let data := service.deserialize p.data
      let result := match service.func data with
        | some r => some r
        | none => s.dataRespProtocol
      -- SerializeDataRespProtocol casts data_resp_protocol_ and reads through it.
      match result with
      | none => none
      | some r =>
          some {s with
            dataReqProtocol := some data
            dataRespProtocol := some r
            respProtocol := some {create .responseCall p.reqId [] with data := service.serialize r}}

/-- RpcServerProvider::OnNewConn; the flag says that the call branch was taken. -/
def dispatch (s : Server δ) : Option (Server δ × Bool) :=
  if s.error = 1 then some (s,false)
  else match s.reqProtocol with
    | none => none
    | some p =>
        if p.type = .requestCall then (callService services s p).map (fun t => (t,true)) else some (s,false)

/-- NetworkServer::OnNewConn after its Recvs. -/
def onNewConn (s : Server δ) (received : Option Protocol) : Option (Server δ × Outcome) := do
  let (t,dispatched) ← dispatch services (recv s received)
  some (t,⟨dispatched,if t.error ≠ 1 then t.respProtocol.toList else []⟩)

def serve : Server δ → List (Option Protocol) → Option (Server δ)
  | s,[] => some s
  | s,received::rest => do
      let (t,_) ← onNewConn services s received
      serve t rest

variable {services} {s t : Server δ} {p : Protocol}

theorem callServiceSource (h : callService services s p = some t) :
    t.error = s.error ∧ ∃ q, t.respProtocol = some q ∧ q.reqId = p.reqId := by
  unfold callService at h
  split at h
  · cases Option.some.inj h
    exact ⟨rfl,_,rfl,rfl⟩
  · simp only at h
    split at h <;> try contradiction
    cases Option.some.inj h
    exact ⟨rfl,_,rfl,rfl⟩

theorem callServiceDefined : (∃ t, callService services s p = some t) ↔
    ∀ service, services p.srvName = some service →
      service.func (service.deserialize p.data) ≠ none ∨ s.dataRespProtocol ≠ none := by
  unfold callService
  cases found : services p.srvName with
  | none => simp
  | some service =>
    cases result : service.func (service.deserialize p.data) with
    | some r => simp [result]
    | none => cases s.dataRespProtocol <;> simp [result]

theorem onNewConnError {received : Option Protocol} {out : Outcome} (h : onNewConn services s received = some (t,out)) :
    t.error = 1 ↔ s.error = 1 ∨ received = none := by
  simp only [onNewConn,bind,Option.bind_eq_some_iff] at h
  obtain ⟨⟨u,flag⟩,dispatched,last⟩ := h
  cases Option.some.inj last
  have kept : u.error = (recv s received).error := by
    unfold dispatch at dispatched
    split at dispatched
    · cases Option.some.inj dispatched
      rfl
    · split at dispatched <;> try contradiction
      split at dispatched
      · obtain ⟨v,called,same⟩ := Option.map_eq_some_iff.1 dispatched
        cases same
        exact (callServiceSource called).1
      · cases Option.some.inj dispatched
        rfl
  rw [kept]
  cases received <;> simp [recv]

theorem serveError {before : List (Option Protocol)} (h : serve services s before = some t) :
    t.error = 1 ↔ s.error = 1 ∨ none ∈ before := by
  induction before generalizing s with
  | nil =>
    cases Option.some.inj h
    simp
  | cons received rest ih =>
    simp only [serve,bind,Option.bind_eq_some_iff] at h
    obtain ⟨⟨u,out⟩,first,later⟩ := h
    rw [ih later,onNewConnError first,List.mem_cons,or_assoc]
    simp only [eq_comm]

theorem onNewConnCall (clear : s.error ≠ 1) (call : p.type = .requestCall) :
    onNewConn services s (some p) =
      (callService services {s with reqProtocol := some p} p).map (fun t => (t,⟨true,t.respProtocol.toList⟩)) := by
  simp only [onNewConn,dispatch,recv,if_neg clear,call,if_true]
  cases called : callService services {s with reqProtocol := some p} p with
  | none => simp
  | some t =>
    have kept : t.error ≠ 1 := by
      rw [(callServiceSource called).1]
      exact clear
    simp [kept]

theorem onNewConnPoisoned (received : Option Protocol) (poisoned : s.error = 1) :
    onNewConn services s received = some (recv s received,⟨false,[]⟩) := by
  have stays : (recv s received).error = 1 := by cases received <;> simp [recv,poisoned]
  simp [onNewConn,dispatch,stays]

section
variable (services) (s) (p)

def Served : Prop := ∃ t q, onNewConn services s (some p) = some (t,⟨true,[q]⟩) ∧ q.reqId = p.reqId

end

end

def helloOnly (name : Bytes) : Option (Service Bytes) :=
  if name = [104,101,108,108,111] then some ⟨id,fun data => some [UInt8.ofNat data.length],id⟩ else none

def helloCall (reqId : Nat) : Protocol := {create .requestCall reqId [97] with srvName := [104,101,108,108,111]}

section
variable {δ : Type} (services : Bytes → Option (Service δ)) (p : Protocol)

/-- Whatever came before, the message alone decides what is sent; a call's response carries
its req_id, and other messages get none. -/
def Own : Prop :=
  ∃ out : List Protocol, (p.type ≠ .requestCall → out = []) ∧ (∀ q ∈ out, q.reqId = p.reqId) ∧
    ∀ (raw : Option Protocol) (history : List Protocol) (u : Server δ),
      serve services (start raw) (history.map some) = some u →
      (onNewConn services u (some p)).map (fun r => r.2.sent) = some out

def Answers : Prop :=
  p.type = .requestCall ∧ ∀ service, services p.srvName = some service →
    service.func (service.deserialize p.data) ≠ none

variable {services} {p}

theorem callServiceAnswers (answers : Answers services p) (u v : Server δ) :
    (callService services u p).map Server.respProtocol = (callService services v p).map Server.respProtocol := by
  unfold callService
  cases found : services p.srvName with
  | none => rfl
  | some service =>
    obtain ⟨r,result⟩ := Option.ne_none_iff_exists'.1 (answers.2 service found)
    simp [result]

variable (services) (p)

/-- Exactly the calls whose handlers set a result get a response of their own. -/
theorem ownResponse : Own services p ↔ Answers services p := by
  constructor
  · rintro ⟨out,silent,_,same⟩
    have first := fun raw => same raw [] (start raw) rfl
    have call : p.type = .requestCall := by
      by_contra otherwise
      have stale := first (some p)
      simp [onNewConn,dispatch,recv,start,otherwise,silent otherwise] at stale
    refine ⟨call,?_⟩
    intro service found unset
    have undefined_ := first none
    rw [onNewConnCall (by simp [start]) call] at undefined_
    simp [callService,found,unset,start] at undefined_
  · intro answers
    have defined : ∃ t, callService services (start none) p = some t :=
      callServiceDefined.2 (fun service found => Or.inl (answers.2 service found))
    obtain ⟨t,called⟩ := defined
    obtain ⟨_,q,response,carries⟩ := callServiceSource called
    refine ⟨[q],fun otherwise => absurd answers.1 otherwise,by simp [carries],?_⟩
    intro raw history u reached
    have clear : u.error ≠ 1 := by
      intro poisoned
      have failed := (serveError reached).1 poisoned
      simp [start] at failed
    have alone := callServiceAnswers answers {u with reqProtocol := some p} (start none)
    rw [called] at alone
    obtain ⟨v,again,equal⟩ := Option.map_eq_some_iff.1 alone
    rw [onNewConnCall clear answers.1,again]
    simp [equal,response]

end

/-- A heartbeat after a call of another client is answered with that call's response. -/
theorem heartBeatAnswered : ¬ ∀ (services : Bytes → Option (Service Bytes)) (p : Protocol), Own services p := by
  intro claim
  obtain ⟨out,silent,_,same⟩ := claim helloOnly (create .heartBeat 0 [])
  have stale := same none [helloCall 7] _ rfl
  rw [silent (by decide)] at stale
  have sent : some [{create .responseCall 7 [] with data := [1]}] = some ([] : List Protocol) := stale
  simp at sent

end TitCo.RpcServer
