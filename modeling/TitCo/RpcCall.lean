import TitCo.RpcMessage
import TitCo.RpcServer

/-! RpcClient::Call from end to end: its request on the wire, the server's dispatch, the answer
on the wire, and the Result that the serializer of its template argument makes of it. -/
namespace TitCo.RpcCall
open MachineInt RpcFrame RpcMessage RpcServer Sock

inductive RpcState where
  | success | fail | noMethod | closed | timeout
  deriving DecidableEq, Repr

/-- The two pointers are set by the constructor that takes them, and by no other. -/
structure Result (δ : Type) where
  baseProto : Option δ
  targetProto : Option δ
  state : RpcState
  deriving DecidableEq, Repr

/-- SvrName2Protocol<srv_proto>: Serialize of Serializer<REQ> and Deserialize of
Serializer<RES>, where none is nullptr. -/
structure SvrProtocol (δ : Type) where
  serialize : δ → Bytes
  deserialize : Bytes → Option δ

section
variable {δ : Type}

def baseProto (srv : SvrProtocol δ) (srvName : Bytes) (reqId : Nat) (req : δ) : Protocol :=
  {create .requestCall reqId (srv.serialize req) with srvName := srvName}

/-- Call from its test of co::timeout() on. -/
def callResult (srv : SvrProtocol δ) (req : δ) (timeout : Bool) (recvProto : Protocol) : Result δ :=
  if timeout then ⟨none,none,.timeout⟩
  else match srv.deserialize recvProto.data with
    | none => ⟨none,none,.noMethod⟩
    | some res => ⟨some req,some res,.success⟩

section
variable (serializeAsString : BaseProtocolBuf → Bytes) (parseFromString : Bytes → BaseProtocolBuf)

/-- RecvProtocol reads the frame of `p` from a stream and returns the same message, `q`. -/
structure Carried (script : List Arrival) (p q : Protocol) : Prop where
  intact : Intact script
  stream : ∃ more, bytesOf script = encode serializeAsString p ++ more
  received : recvMessage parseFromString script = some q
  same : SameMessage p q

theorem carriedWhole {script : List Arrival} {more : Bytes} {p : Protocol} (intact : Intact script)
    (inverse : parseFromString (serializeAsString (toBuf p)) = toBuf p)
    (stream : bytesOf script = encode serializeAsString p ++ more)
    (small : (serialize serializeAsString p).length ≤ 9999)
    (whole : serialize serializeAsString p ≠ [] ∧ 0 ∉ serialize serializeAsString p) :
    ∃ q, Carried serializeAsString parseFromString script p q := by
  obtain ⟨⟨q,received,same⟩,_⟩ :=
    (messageRoundTrip serializeAsString parseFromString p script more inverse small intact stream).2 whole
  exact ⟨q,intact,⟨more,stream⟩,received,same⟩

/-- The request reaches the server, whatever was served before, and one answer of its
OnNewConn reaches the client. -/
structure Exchange (services : Bytes → Option (Service δ)) (s : Server δ) (request answer recvProto : Protocol)
    (up down : List Arrival) : Prop where
  served : ∃ p t out, Carried serializeAsString parseFromString up request p ∧
    onNewConn services s (some p) = some (t,out) ∧ answer ∈ out.sent
  received : Carried serializeAsString parseFromString down answer recvProto

end

section
variable (services : Bytes → Option (Service δ)) (srv : SvrProtocol δ) (srvName : Bytes) (req : δ)

def Reported (result : Result δ) : Prop :=
  match services srvName with
  | none => result.state = .noMethod
  | some service => ∀ r, service.func (service.deserialize (srv.serialize req)) = some r →
      result.state = .success ∧ result.targetProto = some r

/-- RES tells the marker of an unknown service from every value a handler sets. -/
def Distinguished (timeout : Bool) : Prop :=
  match services srvName with
  | none => timeout = false ∧ srv.deserialize other = none
  | some service => ∀ r, service.func (service.deserialize (srv.serialize req)) = some r →
      timeout = false ∧ srv.deserialize (service.serialize r) = some r

end

variable {services : Bytes → Option (Service δ)} {s t : Server δ} {srv : SvrProtocol δ} {req : δ} {p : Protocol}

theorem noMethodIff (timeout : Bool) : (callResult srv req timeout p).state = .noMethod ↔
    timeout = false ∧ srv.deserialize p.data = none := by
  unfold callResult
  cases timeout with
  | true => simp
  | false => cases srv.deserialize p.data <;> simp

theorem successIff (timeout : Bool) (r : δ) :
    ((callResult srv req timeout p).state = .success ∧ (callResult srv req timeout p).targetProto = some r) ↔
      timeout = false ∧ srv.deserialize p.data = some r := by
  unfold callResult
  cases timeout with
  | true => simp
  | false => cases srv.deserialize p.data <;> simp

theorem answerUnknown (unknown : services p.srvName = none) (h : callService services s p = some t) :
    t.respProtocol = some (create .responseCall p.reqId other) := by
  unfold callService at h
  rw [unknown] at h
  cases Option.some.inj h
  rfl

theorem answerKnown {service : Service δ} {r : δ} (known : services p.srvName = some service)
    (sets : service.func (service.deserialize p.data) = some r) (h : callService services s p = some t) :
    t.respProtocol = some {create .responseCall p.reqId [] with data := service.serialize r} := by
  unfold callService at h
  simp only [known,sets] at h
  cases Option.some.inj h
  rfl

theorem answerSource {out : Outcome} {answer : Protocol} (call : p.type = .requestCall)
    (h : onNewConn services s (some p) = some (t,out)) (sent : answer ∈ out.sent) :
    ∃ u, callService services u p = some t ∧ t.respProtocol = some answer := by
  by_cases clear : s.error = 1
  · rw [onNewConnPoisoned _ clear] at h
    cases Option.some.inj h
    simp at sent
  · rw [onNewConnCall clear call] at h
    obtain ⟨u,called,same⟩ := Option.map_eq_some_iff.1 h
    cases same
    exact ⟨_,called,by simpa using sent⟩

variable {serializeAsString : BaseProtocolBuf → Bytes} {parseFromString : Bytes → BaseProtocolBuf}

theorem carriedCall {script : List Arrival} {request : Protocol} (call : request.type = .requestCall)
    (carried : Carried serializeAsString parseFromString script request p) : p.type = .requestCall := by
  have received := carried.received
  have value := carried.same.type
  unfold recvMessage at received
  split at received <;> try contradiction
  cases Option.some.inj received
  simp only [decode,deserialize,fromBuf,create] at value ⊢
  rw [ofValueValue,call] at value
  rw [value]
  rfl

/-- A Call that gets its answer gives the right Result exactly when timeout() is false and
RES's Deserialize returns nullptr on the marker, and else the value that was serialized. -/
theorem callReported (srvName : Bytes) (reqId : Nat) (timeout : Bool) {answer recvProto : Protocol}
    {up down : List Arrival}
    (exchange : Exchange serializeAsString parseFromString services s (baseProto srv srvName reqId req) answer
      recvProto up down) :
    Reported services srv srvName req (callResult srv req timeout recvProto) ↔
      Distinguished services srv srvName req timeout := by
  obtain ⟨⟨p,t,out,request,result,sent⟩,received⟩ := exchange
  obtain ⟨u,called,response⟩ := answerSource (carriedCall rfl request) result sent
  have name : p.srvName = srvName := request.same.srvName
  have data : p.data = srv.serialize req := request.same.data
  unfold Reported Distinguished
  cases found : services srvName with
  | none =>
    have marker := answerUnknown (name ▸ found) called
    rw [response] at marker
    have payload : recvProto.data = other := by rw [received.same.data,Option.some.inj marker]; rfl
    simp only [noMethodIff,payload]
  | some service =>
    refine forall₂_congr fun r sets => ?_
    have value := answerKnown (name ▸ found) (data ▸ sets) called
    rw [response] at value
    have payload : recvProto.data = service.serialize r := by rw [received.same.data,Option.some.inj value]
    rw [successIff,payload]

end

inductive Data where
  | hello (name : Bytes)
  | world (result : Int)
  deriving DecidableEq, Repr

section
variable (formatHello : Bytes → Bytes) (parseHello : Bytes → Bytes) (formatWorld : Int → Bytes) (parseWorld : Bytes → Int)

/-- SvrName2Protocol<HELLO_PROTOCOL>. Both handlers cast what they are given without a look
at its type, and Deserialize of WorldProtocol makes one of whatever the parse has left. -/
def helloProtocol : SvrProtocol Data where
  serialize
    | .hello name => formatHello name
    | .world _ => []
  deserialize stream := some (.world (parseWorld stream))

/-- The handler of rpc_server.cc with HelloSrvTraits. -/
def hello : Service Data where
  deserialize stream := .hello (parseHello stream)
  func
    | .hello name => some (.world (toInt32 name.length))
    | .world _ => none
  serialize
    | .hello _ => []
    | .world result => formatWorld result

def helloRegistered (srvName : Bytes) : Option (Service Data) :=
  if srvName = [104,101,108,108,111] then some (hello parseHello formatWorld) else none

variable {formatHello} {parseWorld}

/-- A Call<HELLO_PROTOCOL> reports rightly exactly for the names that are registered. -/
theorem helloReported {serializeAsString : BaseProtocolBuf → Bytes} {parseFromString : Bytes → BaseProtocolBuf}
    {services : Bytes → Option (Service Data)} {s : Server Data} (srvName : Bytes) (reqId : Nat) (name : Bytes)
    {answer recvProto : Protocol} {up down : List Arrival}
    (exchange : Exchange serializeAsString parseFromString services s
      (baseProto (helloProtocol formatHello parseWorld) srvName reqId (.hello name)) answer recvProto up down)
    (inverse : ∀ service r, services srvName = some service →
      service.func (service.deserialize (formatHello name)) = some r → .world (parseWorld (service.serialize r)) = r) :
    Reported services (helloProtocol formatHello parseWorld) srvName (.hello name)
      (callResult (helloProtocol formatHello parseWorld) (.hello name) false recvProto) ↔ services srvName ≠ none := by
  rw [callReported srvName reqId false exchange]
  unfold Distinguished
  cases found : services srvName with
  | none => simp [helloProtocol]
  | some service =>
    simp only [helloProtocol,ne_eq,reduceCtorEq,not_false_iff,iff_true,true_and]
    intro r sets
    rw [inverse service r found sets]

end

/- The generated code of hello.pb.cc and world.pb.cc, for runs on concrete messages: a field
that is not the message's own, or does not parse, ends the parse. -/
def parseFields {β : Type} (field : Nat → Bytes → Option (β × Bytes)) : Nat → β → Bytes → β
  | 0, b, _ => b
  | _, b, [] => b
  | fuel+1, b, bytes => match (readVarint 5 bytes).bind (fun r => field r.1 r.2) with
    | some (next,rest) => parseFields field fuel next rest
    | none => b

def helloFormat (name : Bytes) : Bytes := if name.isEmpty then [] else bytesField 1 name

def helloParse (bytes : Bytes) : Bytes :=
  parseFields (fun tag rest => if tag = 10 then readString rest else none) bytes.length [] bytes

def worldFormat (result : Int) : Bytes := if result = 0 then [] else varint 1 8 ++ varint 10 (toSizeT result)

def worldParse (bytes : Bytes) : Int :=
  parseFields (fun tag rest => if tag = 8 then (readVarint 10 rest).map (fun r => (toInt32 r.1,r.2)) else none)
    bytes.length 0 bytes

theorem readVarintVarint (fuel n : Nat) (small : n < 128^(fuel+1)) (rest : Bytes) :
    readVarint (fuel+1) (varint (fuel+1) n ++ rest) = some (n,rest) := by
  induction fuel generalizing n with
  | zero =>
    have one : n < 128 := small
    simp [varint,readVarint,one,Nat.mod_eq_of_lt (by omega : n < 256)]
  | succ fuel ih =>
    by_cases one : n < 128
    · simp [varint,readVarint,one,Nat.mod_eq_of_lt (by omega : n < 256)]
    · have later := ih (n / 128) (by rw [Nat.pow_succ] at small; omega)
      have low : (n % 128 + 128) % 256 = n % 128 + 128 := by omega
      have value : n % 128 + 128*(n / 128) = n := Nat.mod_add_div n 128
      rw [varint,if_neg one,List.cons_append,readVarint]
      simp [low,later,value]

theorem worldRoundTrip {r : Int} (lower : -2^31 ≤ r) (upper : r < 2^31) : worldParse (worldFormat r) = r := by
  unfold worldFormat
  split
  · rename_i zero
    simp [worldParse,parseFields,zero]
  · have small : toSizeT r < 128^10 := by unfold toSizeT; omega
    have value := readVarintVarint 9 (toSizeT r) small []
    have back : toInt32 (toSizeT r) = r := by unfold toInt32 toSizeT; omega
    rw [List.append_nil] at value
    have tag : readVarint 5 (8 :: varint 10 (toSizeT r)) = some (8,varint 10 (toSizeT r)) := rfl
    have first : varint 1 8 = [8] := rfl
    rw [first]
    simp only [worldParse,List.singleton_append,List.length_cons,parseFields,tag,Option.bind_some,if_true,value,
      Option.map_some,back]
    cases (varint 10 (toSizeT r)).length <;> rfl

/-- The server of rpc_server.cc, whose only handler is "hello". -/
theorem helloServer {s : Server Data} (srvName : Bytes) (reqId : Nat) (name : Bytes) {answer recvProto : Protocol}
    {up down : List Arrival}
    (exchange : Exchange wireFormat parseWire (helloRegistered helloParse worldFormat) s
      (baseProto (helloProtocol helloFormat worldParse) srvName reqId (.hello name)) answer recvProto up down) :
    Reported (helloRegistered helloParse worldFormat) (helloProtocol helloFormat worldParse) srvName (.hello name)
      (callResult (helloProtocol helloFormat worldParse) (.hello name) false recvProto) ↔
      srvName = [104,101,108,108,111] := by
  rw [helloReported srvName reqId name exchange]
  · unfold helloRegistered
    split <;> simp_all
  · intro service r found sets
    unfold helloRegistered at found
    split at found <;> try contradiction
    cases Option.some.inj found
    simp only [hello,Option.some.injEq] at sets
    subst sets
    have back := fun n => worldRoundTrip (r := toInt32 n) (by unfold toInt32; omega) (by unfold toInt32; omega)
    simp only [hello,back]

def called (srvName : Bytes) : Protocol :=
  baseProto (helloProtocol helloFormat worldParse) srvName 1 (.hello [104,105])

theorem carriedAlone {p q : Protocol} (received : recvMessage parseWire [.bytes (encode wireFormat p)] = some q)
    (nonempty : encode wireFormat p ≠ []) (same : SameMessage p q) :
    Carried wireFormat parseWire [.bytes (encode wireFormat p)] p q :=
  ⟨by simpa [Intact,Arrival.delivers] using nonempty,⟨[],by simp [bytesOf]⟩,received,same⟩

def upstream (srvName : Bytes) : List Arrival := [.bytes (encode wireFormat (called srvName))]

def answered (data : Bytes) : Protocol := {create .responseCall 1 [] with data := data}

theorem helloExchange : Exchange wireFormat parseWire (helloRegistered helloParse worldFormat) (start none)
    (called [104,101,108,108,111]) (answered [8,2]) (create .responseCall 1 [8,2]) (upstream [104,101,108,108,111])
    [.bytes (encode wireFormat (answered [8,2]))] where
  served := by
    refine ⟨called [104,101,108,108,111],
      ⟨some (called [104,101,108,108,111]),some (.hello [104,105]),0,0,some (answered [8,2]),some (.world 2)⟩,_,
      carriedAlone (by decide +kernel) (by decide) ⟨rfl,rfl,rfl,rfl⟩,(by decide +kernel : _ = some (_,⟨true,[answered [8,2]]⟩)),
      by decide⟩
  received := carriedAlone (by decide +kernel) (by decide) ⟨rfl,rfl,rfl,rfl⟩

theorem otherExchange : Exchange wireFormat parseWire (helloRegistered helloParse worldFormat) (start none)
    (called [104,101,121]) (create .responseCall 1 other) (create .responseCall 1 other) (upstream [104,101,121])
    [.bytes (encode wireFormat (create .responseCall 1 other))] where
  served := by
    exact ⟨called [104,101,121],_,_,carriedAlone (by decide +kernel) (by decide) ⟨rfl,rfl,rfl,rfl⟩,rfl,by decide⟩
  received := carriedAlone (by decide +kernel) (by decide) ⟨rfl,rfl,rfl,rfl⟩

theorem helloCallReported : Reported (helloRegistered helloParse worldFormat) (helloProtocol helloFormat worldParse)
    [104,101,108,108,111] (.hello [104,105])
    (callResult (helloProtocol helloFormat worldParse) (.hello [104,105]) false (create .responseCall 1 [8,2])) := by
  refine (callReported [104,101,108,108,111] 1 false helloExchange).2 ?_
  intro r sets
  cases Option.some.inj sets
  decide

/-- Called under a name nobody registered, the hello protocol makes a success with result 0. -/
theorem unknownSucceeds : ¬ ∀ (serializeAsString : BaseProtocolBuf → Bytes) (parseFromString : Bytes → BaseProtocolBuf)
    (formatHello parseHello : Bytes → Bytes) (formatWorld : Int → Bytes) (parseWorld : Bytes → Int)
    (s : Server Data) (srvName : Bytes) (reqId : Nat) (name : Bytes) (answer recvProto : Protocol) (up down : List Arrival),
    (∀ r, -2^31 ≤ r → r < 2^31 → parseWorld (formatWorld r) = r) → parseWorld other = 0 →
    Exchange serializeAsString parseFromString (helloRegistered parseHello formatWorld) s
      (baseProto (helloProtocol formatHello parseWorld) srvName reqId (.hello name)) answer recvProto up down →
    Reported (helloRegistered parseHello formatWorld) (helloProtocol formatHello parseWorld) srvName (.hello name)
      (callResult (helloProtocol formatHello parseWorld) (.hello name) false recvProto) := by
  intro claim
  have unknown := claim wireFormat parseWire helloFormat helloParse worldFormat worldParse _ _ 1 _ _ _ _ _
    (fun r lower upper => worldRoundTrip lower upper) (by decide) otherExchange
  have state : (callResult (helloProtocol helloFormat worldParse) (.hello [104,105]) false
      (create .responseCall 1 other)).state = .noMethod := unknown
  exact absurd state (by decide)

end TitCo.RpcCall
