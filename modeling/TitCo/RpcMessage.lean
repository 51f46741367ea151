import Mathlib.Data.List.TakeWhile
import TitCo.RpcFrame

/-! What RecvProtocol makes of a body: Decode turns the buffer into a std::string up to its
first NUL, whatever size it was given, and Deserialize does not look at whether the parse
succeeded. -/
namespace TitCo.RpcMessage
open Decimal MachineInt RpcFrame Sock

def MsgType.ofValue : Nat → MsgType
  | 0 => .heartBeat
  | 1 => .provider
  | 2 => .consumer
  | 3 => .request
  | 4 => .response
  | 5 => .requestCall
  | 6 => .responseCall
  | 7 => .register
  | 8 => .registerResponse
  | 9 => .discover
  | 10 => .discoverResponse
  | value => .other value

theorem ofValueValue (n : Nat) : (MsgType.ofValue n).value = n := by
  unfold MsgType.ofValue
  split <;> rfl

def fromBuf (b : BaseProtocolBuf) : Protocol :=
  {create (MsgType.ofValue b.type) b.reqId b.data with srvName := b.srvName.getD []}

/-- std::string(buf) of a buffer that ends in a NUL of its own. -/
def cString (buf : Bytes) : Bytes := buf.takeWhile (fun b => b ≠ 0)

section
variable (serializeAsString : BaseProtocolBuf → Bytes) (parseFromString : Bytes → BaseProtocolBuf)

def deserialize (stream : Bytes) : Protocol := fromBuf (parseFromString stream)

def decode (buf : Bytes) (_size : Nat) : Protocol := deserialize parseFromString (cString buf)

/-- The message that RecvProtocol returns, when it returns one. -/
def recvMessage (script : List Arrival) : Option Protocol :=
  match recvProtocol script with
  | .body buf _ => some (decode parseFromString buf buf.length)
  | _ => none

structure SameMessage (p q : Protocol) : Prop where
  type : q.type.value = p.type.value
  reqId : q.reqId = p.reqId
  srvName : q.srvName = p.srvName
  data : q.data = p.data

def RoundTrip (p : Protocol) (script : List Arrival) : Prop :=
  (∃ q, recvMessage parseFromString script = some q ∧ SameMessage p q) ∧
  ∃ buf rest, recvProtocol script = .body buf rest ∧ decode parseFromString buf buf.length = deserialize parseFromString buf ∧
    cString buf = buf

theorem fromBufToBuf (p : Protocol) : SameMessage p (fromBuf (toBuf p)) := by
  refine ⟨ofValueValue _,rfl,?_,rfl⟩
  simp only [fromBuf,toBuf]
  split
  · rename_i empty
    simpa using empty.symm
  · rfl

theorem cStringWhole (buf : Bytes) : cString buf = buf ↔ 0 ∉ buf := by
  rw [cString,List.takeWhile_eq_self_iff]
  constructor
  · intro none inside
    simpa using none 0 inside
  · intro none b inside
    have differ : b ≠ 0 := by
      rintro rfl
      exact none inside
    simpa using differ

theorem recvProtocolEmpty {script : List Arrival} {more : Bytes} (intact : Intact script)
    (stream : bytesOf script = header 0 ++ more) : ∃ rest, recvProtocol script = .rejected rest := by
  have full := headerFull 0
  have total : kDataLen ≤ (bytesOf script).length := by
    rw [stream,List.length_append,full]
    exact Nat.le_add_right _ _
  obtain ⟨rest,first,_,_⟩ := recvnLoopComplete [] kDataLen script intact (by decide) total
  rw [stream,List.take_left' full,List.nil_append] at first
  have value : atoi (header 0) = 0 := (headerReadsBack 0).2 (by omega)
  exact ⟨rest,by simp only [recvProtocol,recvn,first,recvBody,value,if_true]⟩

theorem encodeSmall {p : Protocol} (small : (serialize serializeAsString p).length ≤ 9999) :
    encode serializeAsString p = header (serialize serializeAsString p).length ++ serialize serializeAsString p := by
  have narrow : toInt32 (serialize serializeAsString p).length = (serialize serializeAsString p).length :=
    toInt32Small (by omega) (by omega)
  simp only [encode,narrow,kDataMaxLen]
  rw [if_neg (by omega)]

/-- A message of at most 9999 bytes over an intact stream comes back, all its bytes
deserialized, exactly when its serialization is not empty and has no NUL byte. -/
theorem messageRoundTrip (p : Protocol) (script : List Arrival) (more : Bytes)
    (inverse : parseFromString (serializeAsString (toBuf p)) = toBuf p)
    (small : (serialize serializeAsString p).length ≤ 9999) (intact : Intact script)
    (stream : bytesOf script = encode serializeAsString p ++ more) :
    RoundTrip parseFromString p script ↔
      serialize serializeAsString p ≠ [] ∧ 0 ∉ serialize serializeAsString p := by
  rw [encodeSmall serializeAsString small,List.append_assoc] at stream
  by_cases empty : serialize serializeAsString p = []
  · rw [empty,List.length_nil,List.nil_append] at stream
    obtain ⟨rest,rejected⟩ := recvProtocolEmpty intact stream
    constructor
    · rintro ⟨_,buf,last,received,_⟩
      cases rejected.symm.trans received
    · rintro ⟨nonempty,_⟩
      exact absurd empty nonempty
  · obtain ⟨rest,received,_,_⟩ := recvProtocolFrame intact (headerFull _) ((headerReadsBack _).2 small) empty stream
    constructor
    · rintro ⟨_,buf,last,again,_,whole⟩
      cases received.symm.trans again
      exact ⟨empty,(cStringWhole _).1 whole⟩
    · rintro ⟨_,clean⟩
      have whole := (cStringWhole _).2 clean
      have decoded : decode parseFromString (serialize serializeAsString p) (serialize serializeAsString p).length =
          deserialize parseFromString (serialize serializeAsString p) := by rw [decode,whole]
      have same : SameMessage p (decode parseFromString (serialize serializeAsString p)
          (serialize serializeAsString p).length) := by
        rw [decoded,deserialize,serialize,inverse]
        exact fromBufToBuf p
      exact ⟨⟨_,by rw [recvMessage,received],same⟩,_,rest,received,decoded,whole⟩

end

/- BaseProtocolBuf::_InternalParse, for runs on concrete messages. A field that does not
parse ends it, and what was set before stays. -/
def readVarint : Nat → Bytes → Option (Nat × Bytes)
  | 0, _ => none
  | _, [] => none
  | fuel+1, b::rest =>
      if b.toNat < 128 then some (b.toNat,rest)
      else (readVarint fuel rest).map (fun r => (b.toNat - 128 + 128*r.1,r.2))

def readString (bytes : Bytes) : Option (Bytes × Bytes) := do
  let (size,rest) ← readVarint 5 bytes
  if size ≤ rest.length then some (rest.take size,rest.drop size) else none

def parseField (b : BaseProtocolBuf) (bytes : Bytes) : Option (BaseProtocolBuf × Bytes) := do
  let (tag,rest) ← readVarint 5 bytes
  match tag with
  | 8 => (readVarint 10 rest).map (fun r => ({b with magic := r.1},r.2))
  | 16 => (readVarint 10 rest).map (fun r => ({b with version := r.1},r.2))
  | 24 => (readVarint 10 rest).map (fun r => ({b with type := r.1},r.2))
  | 32 => (readVarint 10 rest).map (fun r => ({b with reqId := r.1},r.2))
  | 40 => (readVarint 10 rest).map (fun r => ({b with dataLen := r.1},r.2))
  | 50 => (readString rest).map (fun r => ({b with srvName := some r.1},r.2))
  | 58 => (readString rest).map (fun r => ({b with data := r.1},r.2))
  | _ => none

def internalParse : Nat → BaseProtocolBuf → Bytes → BaseProtocolBuf
  | 0, b, _ => b
  | _, b, [] => b
  | fuel+1, b, bytes => match parseField b bytes with
    | some (next,rest) => internalParse fuel next rest
    | none => b

def parseWire (bytes : Bytes) : BaseProtocolBuf := internalParse bytes.length ⟨0,0,0,0,0,none,[]⟩ bytes

def helloMessage : Protocol := {create .requestCall 300 [10,2,104,105] with srvName := [104,101,108,108,111]}

theorem helloRoundTrip : RoundTrip parseWire helloMessage
    [.bytes ((encode wireFormat helloMessage).take 2),.again true,.bytes ((encode wireFormat helloMessage).drop 2)] :=
  (messageRoundTrip wireFormat parseWire helloMessage _ [] (by decide) (by decide) (by unfold Intact; decide)
    (by decide)).2 (by decide)

def nulMessage : Protocol := create .requestCall 1 [97,0,98]

/-- A NUL in the data ends the string that is parsed. -/
theorem nulDataCut : ¬ ∀ (serializeAsString : BaseProtocolBuf → Bytes) (parseFromString : Bytes → BaseProtocolBuf)
    (p : Protocol) (script : List Arrival) (more : Bytes),
    parseFromString (serializeAsString (toBuf p)) = toBuf p → (serialize serializeAsString p).length ≤ 9999 →
    Intact script → bytesOf script = encode serializeAsString p ++ more → RoundTrip parseFromString p script := by
  intro claim
  have trip := claim wireFormat parseWire nulMessage [.bytes (encode wireFormat nulMessage)] [] (by decide) (by decide)
    (by unfold Intact; decide) (by decide)
  obtain ⟨q,received,same⟩ := trip.1
  have lost : recvMessage parseWire [.bytes (encode wireFormat nulMessage)] = some (create .requestCall 1 []) := by
    decide +kernel
  have empty : create .requestCall 1 [] = q := Option.some.inj (lost.symm.trans received)
  rw [← empty] at same
  have data : ([] : Bytes) = [97,0,98] := same.data
  exact absurd data (by decide)

end TitCo.RpcMessage
