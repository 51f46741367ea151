import TitCo.Decimal
import TitCo.MachineInt
import TitCo.Sock

/-! The wire format of rpc_protocol_handler.cc: a four byte decimal length, then the
serialized message. The protobuf library is a parameter, `serializeAsString`. -/
namespace TitCo.RpcFrame
open Decimal MachineInt Sock

/-- The enumeration is a uint32, and Deserialize casts any received number to it. -/
inductive MsgType where
  | heartBeat | provider | consumer | request | response | requestCall | responseCall
  | register | registerResponse | discover | discoverResponse
  | other (value : Nat)
  deriving DecidableEq, Repr

def MsgType.value : MsgType → Nat
  | .heartBeat => 0
  | .provider => 1
  | .consumer => 2
  | .request => 3
  | .response => 4
  | .requestCall => 5
  | .responseCall => 6
  | .register => 7
  | .registerResponse => 8
  | .discover => 9
  | .discoverResponse => 10
  | .other value => value

def kMagic : Nat := 0xaa
def kVersion : Nat := 0x01
def kBasicLen : Nat := 20

structure Protocol where
  magic : Nat := kMagic
  version : Nat := kVersion
  type : MsgType
  reqId : Nat
  dataLen : Nat := kBasicLen
  srvName : Bytes := []
  data : Bytes
  deriving DecidableEq, Repr

def create (type : MsgType) (reqId : Nat) (data : Bytes) : Protocol :=
  {type := type, reqId := reqId, data := data, dataLen := toUint32 data.length}

/-- The message of base.proto; srv_name is optional there. -/
structure BaseProtocolBuf where
  magic : Nat
  version : Nat
  type : Nat
  reqId : Nat
  dataLen : Nat
  srvName : Option Bytes
  data : Bytes
  deriving DecidableEq, Repr

def toBuf (p : Protocol) : BaseProtocolBuf where
  magic := p.magic
  version := p.version
  type := p.type.value
  reqId := p.reqId
  dataLen := p.dataLen
  srvName := if p.srvName.isEmpty then none else some p.srvName
  data := p.data

def kDataLen : Nat := 4
def kDataMaxLen : Int := 10000

section
variable (serializeAsString : BaseProtocolBuf → Bytes)

def serialize (p : Protocol) : Bytes := serializeAsString (toBuf p)

/-- The snprintf of at most five bytes: four characters, and a NUL that lands one
past data_len and is not part of the header. -/
def header (len : Nat) : Bytes := (paddedInt 4 (toInt32 len)).take kDataLen

def encode (p : Protocol) : Bytes :=
  let buf := serialize serializeAsString p
  if toInt32 buf.length > kDataMaxLen then [] else header buf.length ++ buf

end

/-- How RecvProtocol leaves its two reads. `undefined` is a body buffer of negative
size, `blocked` a call that still waits and holds the bytes it has taken. -/
inductive RecvResult where
  | body (buf : Bytes) (rest : List Arrival)
  | closed (rest : List Arrival)
  | rejected (rest : List Arrival)
  | undefined
  | blocked (taken : Bytes)
  deriving DecidableEq, Repr

def recvBody (taken : Bytes) (dataLen : Int) (rest : List Arrival) : RecvResult :=
  if dataLen = 0 then .rejected rest
  else if dataLen < 0 then .undefined
  else match recvn dataLen.toNat rest with
    | .complete buf last => .body buf last
    | .returned _ last => .rejected last
    | .blocked part => .blocked (taken ++ part)

/-- RecvProtocol up to the call of Decode. -/
def recvProtocol (script : List Arrival) : RecvResult :=
  match recvn kDataLen script with
  | .complete text rest => recvBody text (atoi text) rest
  | .returned r rest => if r = 0 then .closed rest else .rejected rest
  | .blocked part => .blocked part

def recvLoop : Nat → List Arrival → List Bytes × Option RecvResult
  | 0, _ => ([],none)
  | rounds+1, script => match recvProtocol script with
    | .body buf rest =>
      let r := recvLoop rounds rest
      (buf::r.1,r.2)
    | last => ([],some last)

theorem headerSmall {len : Nat} (small : len ≤ 9999) : header len = zeroPadded 4 len := by
  have narrow : toInt32 len = len := toInt32Small (by omega) (by omega)
  have length := zeroPaddedLength len 4 (by decide) (by omega)
  rw [header,narrow,paddedInt,if_neg (by omega),Int.natAbs_natCast,List.take_of_length_le]
  rw [length]
  exact Nat.le_refl 4

theorem headerFull (len : Nat) : (header len).length = kDataLen := by
  rw [header,List.length_take]
  exact Nat.min_eq_left (paddedIntFull 4 _)

theorem headerReadsBack (len : Nat) : atoi (header len) = len ↔ len ≤ 9999 := by
  constructor
  · intro same
    have bound := atoiBound (Nat.le_of_eq (headerFull len))
    rw [same] at bound
    simp only [kDataLen] at bound
    omega
  · intro small
    rw [headerSmall small,atoiZeroPadded]

theorem bodyLength {script rest : List Arrival} {buf : Bytes} (h : recvProtocol script = .body buf rest) :
    buf.length ≤ 9999 := by
  unfold recvProtocol at h
  split at h <;> try contradiction
  · rename_i text after first
    have length : text.length = kDataLen := by simpa using recvnLoopLength first
    have bound := atoiBound (Nat.le_of_eq length)
    simp only [kDataLen] at bound
    unfold recvBody at h
    split at h <;> try contradiction
    split at h <;> try contradiction
    split at h <;> try contradiction
    rename_i data last second
    cases h
    have size : buf.length = (atoi text).toNat := by simpa using recvnLoopLength second
    omega
  · split at h <;> contradiction

theorem recvLoopLength (rounds : Nat) (script : List Arrival) :
    ∀ buf ∈ (recvLoop rounds script).1, buf.length ≤ 9999 := by
  induction rounds generalizing script with
  | zero => simp [recvLoop]
  | succ rounds ih =>
    intro buf hbuf
    unfold recvLoop at hbuf
    split at hbuf
    · rename_i first rest got
      rcases List.mem_cons.1 hbuf with rfl | later
      · exact bodyLength got
      · exact ih rest buf later
    · simp at hbuf

theorem recvProtocolFrame {script : List Arrival} {head payload more : Bytes} (intact : Intact script)
    (full : head.length = kDataLen) (value : atoi head = payload.length) (nonempty : payload ≠ [])
    (stream : bytesOf script = head ++ (payload ++ more)) :
    ∃ rest, recvProtocol script = .body payload rest ∧ Intact rest ∧ bytesOf rest = more := by
  have positive : 0 < payload.length := List.length_pos_iff.2 nonempty
  have total : kDataLen ≤ (bytesOf script).length := by
    rw [stream,List.length_append,full]
    exact Nat.le_add_right _ _
  obtain ⟨after,first,afterIntact,left⟩ := recvnLoopComplete [] kDataLen script intact (by decide) total
  rw [stream,List.take_left' full,List.nil_append] at first
  rw [stream,List.drop_left' full] at left
  obtain ⟨rest,second,restIntact,last⟩ :=
    recvnLoopComplete [] payload.length after afterIntact positive (by simp [left])
  rw [left,List.take_left' rfl,List.nil_append] at second
  rw [left,List.drop_left' rfl] at last
  refine ⟨rest,?_,restIntact,last⟩
  simp only [recvProtocol,recvn,first,recvBody,value]
  rw [if_neg (by omega),if_neg (by omega),Int.toNat_natCast,second]

theorem recvProtocolIdle {script : List Arrival} (intact : Intact script) (stream : bytesOf script = []) :
    recvProtocol script = .blocked [] := by
  have waiting := recvnLoopBlocked [] kDataLen script intact (by simp [stream,kDataLen])
  rw [stream] at waiting
  simp [recvProtocol,recvn,waiting]

/-- The frames of `payloads`, however they are cut into chunks, come out one by one and
the receiver ends in a header read that has taken nothing. -/
theorem recvLoopFrames (head : Bytes → Bytes) (payloads : List Bytes) {script : List Arrival}
    (intact : Intact script)
    (sound : ∀ p ∈ payloads, (head p).length = kDataLen ∧ atoi (head p) = p.length ∧ p ≠ [])
    (stream : bytesOf script = payloads.flatMap (fun p => head p ++ p))
    {rounds : Nat} (enough : payloads.length < rounds) :
    recvLoop rounds script = (payloads,some (.blocked [])) := by
  induction payloads generalizing script rounds with
  | nil =>
    cases rounds with
    | zero => omega
    | succ rounds => simp only [recvLoop,recvProtocolIdle intact stream]
  | cons p payloads ih =>
    cases rounds with
    | zero => omega
    | succ rounds =>
      obtain ⟨full,value,nonempty⟩ := sound p (by simp)
      rw [List.flatMap_cons,List.append_assoc] at stream
      obtain ⟨rest,got,restIntact,left⟩ := recvProtocolFrame intact full value nonempty stream
      have later := ih restIntact (fun q hq => sound q (by simp [hq])) left
        (by simpa using enough)
      simp only [recvLoop,got,later]

section
variable (serializeAsString : BaseProtocolBuf → Bytes)

def KeepsBoundaries (messages : List Protocol) (script : List Arrival) (rounds : Nat) : Prop :=
  recvLoop rounds script = (messages.map (serialize serializeAsString),some (.blocked [])) ∧
  ∀ m ∈ messages, atoi (header (serialize serializeAsString m).length) = (serialize serializeAsString m).length

theorem encodeAccepted {p : Protocol} (accepted : encode serializeAsString p ≠ []) :
    encode serializeAsString p =
      header (serialize serializeAsString p).length ++ serialize serializeAsString p := by
  unfold encode at accepted ⊢
  by_cases large : toInt32 (serialize serializeAsString p).length > kDataMaxLen
  · exact absurd (if_pos large) accepted
  · exact if_neg large

/-- For accepted messages and an intact stream of their frames, boundaries are kept
exactly when every payload has at most 9999 bytes. -/
theorem boundariesKept (messages : List Protocol) (nonempty : ∀ m ∈ messages, serialize serializeAsString m ≠ [])
    (accepted : ∀ m ∈ messages, encode serializeAsString m ≠ []) (script : List Arrival)
    (intact : Intact script) (stream : bytesOf script = messages.flatMap (encode serializeAsString))
    (rounds : Nat) (enough : messages.length < rounds) :
    KeepsBoundaries serializeAsString messages script rounds ↔
      ∀ m ∈ messages, (serialize serializeAsString m).length ≤ 9999 := by
  constructor
  · intro kept m hm
    have out : serialize serializeAsString m ∈ (recvLoop rounds script).1 := by
      rw [kept.1]
      exact List.mem_map_of_mem hm
    exact recvLoopLength rounds script _ out
  · intro small
    refine ⟨?_,fun m hm => (headerReadsBack _).2 (small m hm)⟩
    apply recvLoopFrames (fun p => header p.length) _ intact _ _ (by simpa using enough)
    · intro p hp
      obtain ⟨m,hm,rfl⟩ := List.mem_map.1 hp
      exact ⟨headerFull _,(headerReadsBack _).2 (small m hm),nonempty m hm⟩
    · rw [stream,List.flatMap_map]
      exact List.flatMap_congr (fun m hm => encodeAccepted serializeAsString (accepted m hm))

end

/- The proto3 encoding of BaseProtocolBuf, for runs on concrete messages: fields in
number order, zero and empty ones left out. -/
def varint : Nat → Nat → Bytes
  | 0, _ => []
  | fuel+1, n => if n < 128 then [UInt8.ofNat n] else UInt8.ofNat (n % 128 + 128) :: varint fuel (n / 128)

def uintField (number value : Nat) : Bytes :=
  if value = 0 then [] else varint 1 (8*number) ++ varint 5 value

def bytesField (number : Nat) (value : Bytes) : Bytes := varint 1 (8*number + 2) ++ varint 10 value.length ++ value

def wireFormat (b : BaseProtocolBuf) : Bytes :=
  uintField 1 b.magic ++ uintField 2 b.version ++ uintField 3 b.type ++ uintField 4 b.reqId ++
  uintField 5 b.dataLen ++ (b.srvName.elim [] (bytesField 6)) ++
  (if b.data.isEmpty then [] else bytesField 7 b.data)

def requestOf (n : Nat) : Protocol := create .requestCall 1 (List.replicate n 97)

theorem requestLength {n : Nat} (lower : 128 ≤ n) (upper : n < 16384) :
    (serialize wireFormat (requestOf n)).length = n + 15 := by
  have narrow : toUint32 n = n := toUint32Small (by omega)
  have two : ∀ fuel, (varint (fuel+2) n).length = 2 := by
    intro fuel
    rw [varint,if_neg (by omega),varint,if_pos (by omega)]
    rfl
  have buf : toBuf (requestOf n) = ⟨170,1,5,1,n,none,List.replicate n 97⟩ := by
    simp [toBuf,requestOf,create,kMagic,kVersion,MsgType.value,narrow]
  have short : (uintField 1 170 ++ uintField 2 1 ++ uintField 3 5 ++ uintField 4 1).length = 9 := by decide
  have dataLen : (uintField 5 n).length = 3 := by
    rw [uintField,if_neg (by omega),List.length_append,two 3]
    rfl
  have data : (bytesField 7 (List.replicate n 97)).length = n + 3 := by
    have tag : (varint 1 (8*7 + 2)).length = 1 := by decide
    rw [bytesField,List.length_append,List.length_append,List.length_replicate,two 8,tag]
    omega
  have filled : (List.replicate n (97 : UInt8)).isEmpty = false := by simp; omega
  rw [serialize,buf]
  simp only [wireFormat,Option.elim_none,filled,Bool.false_eq_true,if_false]
  rw [List.length_append,List.length_append,List.length_append,short,dataLen,data]
  simp only [List.length_nil]
  omega

theorem shortCallsKept :
    KeepsBoundaries wireFormat [create .requestCall 1 [104,105],create .heartBeat 0 []]
      [.again true,.bytes [48,48],.interrupted,.bytes [49,53,8,170,1,16,1,24,5,32,1,40,2,58,2,104,105],
        .bytes [48,48,48,53,8,170,1,16,1]] 3 :=
  (boundariesKept wireFormat [create .requestCall 1 [104,105],create .heartBeat 0 []] (by decide) (by decide)
    [.again true,.bytes [48,48],.interrupted,.bytes [49,53,8,170,1,16,1,24,5,32,1,40,2,58,2,104,105],
      .bytes [48,48,48,53,8,170,1,16,1]] (by unfold Intact; decide) (by decide) 3 (by decide)).2 (by decide)

/-- A call of 10000 serialized bytes is accepted, and its header says 1000. -/
theorem longCallCut : ¬ ∀ (serializeAsString : BaseProtocolBuf → Bytes) (messages : List Protocol),
    (∀ m ∈ messages, serialize serializeAsString m ≠ []) →
    (∀ m ∈ messages, encode serializeAsString m ≠ []) → ∀ script : List Arrival, Intact script →
    bytesOf script = messages.flatMap (encode serializeAsString) → ∀ rounds, messages.length < rounds →
    KeepsBoundaries serializeAsString messages script rounds := by
  intro claim
  have length : (serialize wireFormat (requestOf 9985)).length = 10000 := requestLength (by decide) (by decide)
  have accepted : encode wireFormat (requestOf 9985) ≠ [] := by
    have narrow : toInt32 (10000 : Nat) = 10000 := by decide
    have full : (header 10000).length = 4 := headerFull 10000
    simp only [encode,length,narrow,kDataMaxLen]
    intro empty
    have none := congrArg List.length empty
    simp [full] at none
  have payload : serialize wireFormat (requestOf 9985) ≠ [] := by
    intro empty
    simp [empty] at length
  have kept := claim wireFormat [requestOf 9985] (by simpa using payload) (by simpa using accepted)
    [.bytes (encode wireFormat (requestOf 9985))] (by simpa [Intact,Arrival.delivers] using accepted)
    (by simp [bytesOf]) 2 (by decide)
  have small := recvLoopLength 2 _ (serialize wireFormat (requestOf 9985)) (by rw [kept.1]; simp)
  rw [length] at small
  exact absurd small (by decide)

end TitCo.RpcFrame
