import TitCo.Protobuf
import TitCo.RpcConversation

/-! The program of rpc_client.cc and rpc_server.cc from end to end: Calls of "hello" with HELLO_PROTOCOL,
over the generated protobuf code, the framing and two sockets. -/
namespace TitCo.HelloConversation
open MachineInt Protobuf ProtobufRuntime RpcCall RpcConversation RpcFrame RpcMessage RpcServer Sock

def helloName : Bytes := [104,101,108,108,111]

section
variable {υ : Type} (r : Runtime υ)

def format (b : BaseProtocolBuf) : Bytes := baseSerialize r ⟨b,r.noUnknownFields⟩

def read (bytes : Bytes) : BaseProtocolBuf := (baseParse r bytes).1.fields

def client : SvrProtocol Data := helloProtocol (helloToString r) (worldOfString r)

def services : Bytes → Option (Service Data) := helloRegistered (helloOfString r) (worldToString r)

/-- The request of a Call: its id and the name in it. -/
def request (c : Nat × Bytes) : Protocol := baseProto (client r) helloName c.1 (.hello c.2)

def answer (c : Nat × Bytes) : Protocol := respond (services r) (request r c)

/-- A message that the header can count, with no byte that ends a C string. -/
structure Framed (p : Protocol) : Prop where
  range : InRange (toBuf p)
  small : (serialize (format r) p).length ≤ 9999
  nonempty : serialize (format r) p ≠ []
  noNul : 0 ∉ serialize (format r) p

variable {r} {c : Nat × Bytes}

theorem framedFits (lawful : Lawful r) {p : Protocol} (framed : Framed r p) (utf8 : NameUtf8 r (toBuf p)) :
    Fits (format r) (read r) p := by
  refine ⟨?_,framed.small,framed.nonempty,framed.noNul⟩
  rw [read,format,utf8Parsed lawful framed.range utf8]

theorem requestUtf8 (ascii : r.verifyUtf8 helloName = true) : NameUtf8 r (toBuf (request r c)) := by
  intro s named
  have same : some helloName = some s := named
  cases Option.some.inj same
  exact ascii

theorem requestService (name : Bytes) : services r name = some (hello (helloOfString r) (worldToString r)) ↔
    name = helloName := by
  unfold services helloRegistered
  split <;> simp_all [helloName]

theorem helloFound : services r (request r c).srvName = some (hello (helloOfString r) (worldToString r)) :=
  (requestService _).2 rfl

theorem requestData : (request r c).data = helloToString r c.2 := rfl

theorem requestAnswers : Answers (services r) (request r c) := by
  refine ⟨rfl,?_⟩
  intro service found
  rw [helloFound] at found
  cases Option.some.inj found
  rw [requestData]
  exact Option.some_ne_none _

theorem respondFound {δ : Type} {services : Bytes → Option (Service δ)} {p : Protocol} {service : Service δ} {data : Bytes}
    (found : services p.srvName = some service)
    (sets : (service.func (service.deserialize p.data)).map service.serialize = some data) :
    respond services p = {create .responseCall p.reqId [] with data := data} := by
  unfold respond
  rw [found]
  dsimp only
  rw [sets,Option.getD_some]

theorem helloServes (parseHello : Bytes → Bytes) (formatWorld : Int → Bytes) (stream : Bytes) :
    ((hello parseHello formatWorld).func ((hello parseHello formatWorld).deserialize stream)).map
      (hello parseHello formatWorld).serialize = some (formatWorld (toInt32 (parseHello stream).length)) := rfl

theorem answerShape : answer r c = {create .responseCall (request r c).reqId [] with
    data := worldToString r (toInt32 (helloOfString r (request r c).data).length)} :=
  respondFound helloFound (helloServes _ _ _)

theorem answerUtf8 : NameUtf8 r (toBuf (answer r c)) := by
  rw [answerShape]
  intro s named
  simp [toBuf,create] at named

/- The server is given the name back, whatever bytes it has, and the client the length of it. -/
theorem answerData (lawful : Lawful r) (name : IsString c.2) :
    (answer r c).data = worldToString r (toInt32 c.2.length) := by
  rw [answerShape,requestData,helloSurvives lawful name]

theorem answerResult (lawful : Lawful r) (name : IsString c.2) {q : Protocol} (data : q.data = (answer r c).data) :
    callResult (client r) (.hello c.2) false q =
      ⟨some (.hello c.2),some (.world (toInt32 c.2.length)),.success⟩ := by
  have int : IsInt32 (toInt32 c.2.length) := by
    unfold IsInt32 toInt32
    omega
  have back := worldSurvives lawful int
  have parsed : (client r).deserialize q.data = some (.world (toInt32 c.2.length)) := by
    rw [data,answerData lawful name]
    exact congrArg (fun n => some (Data.world n)) back
  simp only [callResult,parsed,Bool.false_eq_true,if_false]

section
variable {calls : List (Nat × Bytes)}

theorem requestsFit (lawful : Lawful r) (ascii : r.verifyUtf8 helloName = true)
    (asked : ∀ c ∈ calls, Framed r (request r c)) : ∀ p ∈ calls.map (request r), Fits (format r) (read r) p := by
  intro p member
  obtain ⟨c,inside,rfl⟩ := List.mem_map.1 member
  exact framedFits lawful (asked c inside) (requestUtf8 ascii)

theorem answersFit (lawful : Lawful r) (answered : ∀ c ∈ calls, Framed r (answer r c)) :
    ∀ p ∈ calls.map (request r), Fits (format r) (read r) (respond (services r) p) := by
  intro p member
  obtain ⟨c,inside,rfl⟩ := List.mem_map.1 member
  exact framedFits lawful (answered c inside) answerUtf8

/- The kernel's part, call by call. -/
theorem takenMapped {take : Nat → Nat → Prop} {size : Protocol → Nat}
    (takes : ∀ i c, calls[i]? = some c → take (size (request r c)) i) :
    ∀ i p, (calls.map (request r))[i]? = some p → take (size p) (0+i) := by
  intro i p found
  rw [List.getElem?_map] at found
  obtain ⟨c,inside,rfl⟩ := Option.map_eq_some_iff.1 found
  rw [Nat.zero_add]
  exact takes i c inside

theorem callsServed (lawful : Lawful r) (ascii : r.verifyUtf8 helloName = true)
    (asked : ∀ c ∈ calls, Framed r (request r c)) (answered : ∀ c ∈ calls, Framed r (answer r c)) {far : Sender}
    (farTakes : ∀ i c, calls[i]? = some c → SockSend.Accepts (encode (format r) (answer r c)).length (far.kernel i))
    {up : List Arrival} (intact : Intact up) (upstream : bytesOf up = (calls.map (request r)).flatMap (encode (format r)))
    {s : Server Data} (clear : s.error ≠ 1) {rounds : Nat} (enough : calls.length < rounds) :
    (connection (services r) (format r) (read r) far rounds 0 s (up ++ [.endOfStream])).sent =
      (calls.map (request r)).flatMap (fun p => encode (format r) (respond (services r) p)) := by
  have answers : ∀ p ∈ calls.map (request r), Answers (services r) p := by
    intro p member
    obtain ⟨c,-,rfl⟩ := List.mem_map.1 member
    exact requestAnswers
  have taken := @takenMapped _ r calls (fun n i => SockSend.Accepts n (far.kernel i))
    (fun p => (encode (format r) (respond (services r) p)).length) farTakes
  exact (connectionServes answers (requestsFit lawful ascii asked) (answersFit lawful answered) taken intact upstream
    clear (by rwa [List.length_map])).2.1

end

end

def twoCalls : List (Nat × Bytes) := [(1,[104,105]),(2,[])]

def twoStream : List Arrival :=
  [.bytes ((encode (format runtime) (request runtime (1,[104,105]))).take 9),.again true,
    .bytes ((encode (format runtime) (request runtime (1,[104,105]))).drop 9 ++
      encode (format runtime) (request runtime (2,[])))]

end TitCo.HelloConversation
