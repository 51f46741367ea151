import TitCo.RpcCall

/-! The fields of a base Protocol on the other side of the wire: some travel, magic and
version are set anew, and data_len is counted again from the data that arrived. -/
namespace TitCo.RpcFields
open MachineInt RpcFrame RpcMessage RpcServer RpcCall Sock

/-- Where a protocol that goes to SendProtocol is made: by a Call, or by OnNewConn for a
kRequestCall `p` that a server in state `s` has received. -/
inductive Origin (δ : Type) where
  | call (srv : SvrProtocol δ) (srvName : Bytes) (reqId : Nat) (req : δ)
  | response (s : Server δ) (p : Protocol)

section
variable {δ : Type} (services : Bytes → Option (Service δ))

def Origin.handed : Origin δ → Option Protocol
  | .call srv srvName reqId req => some (baseProto srv srvName reqId req)
  | .response s p => (callService services s p).bind (fun t => t.respProtocol)

/-- The size of the data fits data_len; and a handler's answer, which set_data puts behind
the count of Create, is serialized to nothing. -/
def Origin.InStep : Origin δ → Prop
  | .call srv _ _ req => (srv.serialize req).length < 2^32
  | .response s p => ∀ service, services p.srvName = some service →
      ∀ r, (service.func (service.deserialize p.data)).or s.dataRespProtocol = some r → service.serialize r = []

/-- What Create and set_data leave alone. -/
structure Made (q : Protocol) : Prop where
  magic : q.magic = kMagic
  version : q.version = kVersion
  type : MsgType.ofValue q.type.value = q.type

variable (serializeAsString : BaseProtocolBuf → Bytes) (parseFromString : Bytes → BaseProtocolBuf)

/-- Every field comes back as it was, and data_len is the size of data. -/
def Survives (q : Protocol) : Prop :=
  deserialize parseFromString (serialize serializeAsString q) = q ∧ q.dataLen = q.data.length

variable {services} {serializeAsString} {parseFromString} {q : Protocol}

theorem survivesIff (made : Made q) (inverse : parseFromString (serializeAsString (toBuf q)) = toBuf q) :
    Survives serializeAsString parseFromString q ↔ q.dataLen = q.data.length ∧ q.data.length < 2^32 := by
  have same := fromBufToBuf q
  have counted : (fromBuf (toBuf q)).dataLen = toUint32 q.data.length := rfl
  unfold Survives deserialize serialize
  rw [inverse]
  constructor
  · rintro ⟨whole,length⟩
    rw [whole] at counted
    refine ⟨length,?_⟩
    rw [← length,counted]
    exact toUint32Less _
  · rintro ⟨length,fits⟩
    refine ⟨?_,length⟩
    have dataLen : (fromBuf (toBuf q)).dataLen = q.dataLen := by rw [counted,toUint32Small fits,length]
    have type : (fromBuf (toBuf q)).type = q.type := made.type
    have magic : (fromBuf (toBuf q)).magic = q.magic := made.magic.symm
    have version : (fromBuf (toBuf q)).version = q.version := made.version.symm
    cases arrived : fromBuf (toBuf q)
    cases q
    rw [arrived] at same dataLen type magic version
    simp only at dataLen type magic version
    have reqId := same.reqId
    have srvName := same.srvName
    have data := same.data
    simp only at reqId srvName data
    rw [dataLen,type,magic,version,reqId,srvName,data]

theorem callMade (srv : SvrProtocol δ) (srvName : Bytes) (reqId : Nat) (req : δ) :
    Made (baseProto srv srvName reqId req) := ⟨rfl,rfl,rfl⟩

/- Either branch of OnNewConn: the marker of an unknown service, or the handler's answer. -/
theorem responseSource {s : Server δ} {p : Protocol} (h : (Origin.response s p).handed services = some q) :
    (services p.srvName = none ∧ q = create .responseCall p.reqId other) ∨
    ∃ service r, services p.srvName = some service ∧
      (service.func (service.deserialize p.data)).or s.dataRespProtocol = some r ∧
      q = {create .responseCall p.reqId [] with data := service.serialize r} := by
  simp only [Origin.handed,callService,Option.bind_eq_some_iff] at h
  obtain ⟨t,called,sent⟩ := h
  cases found : services p.srvName with
  | none =>
    rw [found] at called
    cases Option.some.inj called
    exact Or.inl ⟨rfl,(Option.some.inj sent).symm⟩
  | some service =>
    rw [found] at called
    cases result : service.func (service.deserialize p.data) with
    | some r =>
      simp only [result] at called
      cases Option.some.inj called
      exact Or.inr ⟨service,r,rfl,by rw [result]; rfl,(Option.some.inj sent).symm⟩
    | none =>
      cases held : s.dataRespProtocol with
      | none => simp [result,held] at called
      | some r =>
        simp only [result,held] at called
        cases Option.some.inj called
        exact Or.inr ⟨service,r,rfl,by rw [result]; rfl,(Option.some.inj sent).symm⟩

theorem callInStep (srv : SvrProtocol δ) (srvName : Bytes) (reqId : Nat) (req : δ) :
    (baseProto srv srvName reqId req).dataLen = (baseProto srv srvName reqId req).data.length ∧
      (baseProto srv srvName reqId req).data.length < 2^32 ↔ (srv.serialize req).length < 2^32 := by
  change toUint32 (srv.serialize req).length = (srv.serialize req).length ∧ (srv.serialize req).length < 2^32 ↔ _
  constructor
  · rintro ⟨_,fits⟩
    exact fits
  · intro fits
    exact ⟨toUint32Small fits,fits⟩

/-- A protocol that a Call or OnNewConn hands to SendProtocol comes back equal in every
field, its data_len the size of its data, exactly when it was made in step. -/
theorem fieldsSurvive (origin : Origin δ) (handed : origin.handed services = some q)
    (inverse : parseFromString (serializeAsString (toBuf q)) = toBuf q) :
    Survives serializeAsString parseFromString q ↔ origin.InStep services := by
  cases origin with
  | call srv srvName reqId req =>
    cases Option.some.inj handed
    exact (survivesIff (callMade srv srvName reqId req) inverse).trans (callInStep srv srvName reqId req)
  | response s p =>
    rcases responseSource handed with ⟨unknown,rfl⟩ | ⟨service,r,known,result,rfl⟩
    · rw [survivesIff ⟨rfl,rfl,rfl⟩ inverse]
      refine ⟨fun _ service known => ?_,fun _ => ⟨rfl,(by decide : other.length < 2^32)⟩⟩
      rw [unknown] at known
      contradiction
    · rw [survivesIff ⟨rfl,rfl,rfl⟩ inverse]
      change 0 = (service.serialize r).length ∧ (service.serialize r).length < 2^32 ↔ _
      constructor
      · rintro ⟨none,_⟩ service' known' r' result'
        cases Option.some.inj (known.symm.trans known')
        cases Option.some.inj (result.symm.trans result')
        exact List.eq_nil_of_length_eq_zero none.symm
      · intro silent
        rw [silent service known r result]
        exact ⟨rfl,by decide⟩

end

def helloProtocol : SvrProtocol Bytes := ⟨id,some⟩

theorem helloCallSurvives : Survives wireFormat parseWire (baseProto helloProtocol [104,101,108,108,111] 7 [97,98]) :=
  (@fieldsSurvive _ helloOnly _ _ _ (.call helloProtocol [104,101,108,108,111] 7 [97,98]) rfl (by decide)).2
    (by decide : 2 < 2^32)

/-- The answer of a known service leaves with a data_len of 0 and arrives with another. -/
theorem answerRecounted : ¬ ∀ (services : Bytes → Option (Service Bytes)) (serializeAsString : BaseProtocolBuf → Bytes)
    (parseFromString : Bytes → BaseProtocolBuf) (origin : Origin Bytes) (q : Protocol),
    origin.handed services = some q → parseFromString (serializeAsString (toBuf q)) = toBuf q →
    Survives serializeAsString parseFromString q := by
  intro claim
  have survives := claim helloOnly wireFormat parseWire (.response (start none) (helloCall 7))
    {create .responseCall 7 [] with data := [1]} rfl (by decide)
  have count : 0 = 1 := survives.2
  contradiction

end TitCo.RpcFields
