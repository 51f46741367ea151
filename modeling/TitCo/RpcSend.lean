import TitCo.RpcFrame
import TitCo.SockSend

/-! SendProtocol of rpc_protocol_handler.cc with the send under it, on a connected socket. The
serializer of protobuf is a parameter; it makes less than 2^31 bytes of any message. -/
namespace TitCo.RpcSend
open ByteMemory MachineInt RpcFrame SockSend

/-- What SendProtocol returns, what co::send returned to it, and what the kernel has accepted. No
result is a call that still waits. -/
structure Outcome where
  result : Option Bool
  returned : Option Int
  sent : Bytes
  deriving DecidableEq, Repr

section
variable (serializeAsString : BaseProtocolBuf → Bytes)

/-- `data` is where the std::string that Encode returns keeps its characters. The int that Send
returns is compared as a uint32. -/
def sendProtocol (mem : Memory) (data : Nat) (protocol : Option Protocol) (script : List Answer) : Outcome :=
  match protocol with
  | none => ⟨some false,none,[]⟩
  | some p =>
    let buf := encode serializeAsString p
    let bufLen := toUint32 buf.length
    if bufLen = 0 then ⟨some false,none,[]⟩
    else
      let call := send (store mem data buf) data (toInt32 bufLen).toNat script
      ⟨call.result.map (fun r => if toUint32 r < bufLen then false else true),call.result,call.sent⟩

/-- True is returned for a whole frame that the socket has accepted, and for nothing else; a send
that returns -1 gives false. -/
def Reports (mem : Memory) (data : Nat) (protocol : Option Protocol) (script : List Answer) : Prop :=
  let out := sendProtocol serializeAsString mem data protocol script
  (∀ ok, out.result = some ok → (ok = true ↔
    ∃ p, protocol = some p ∧ encode serializeAsString p ≠ [] ∧ out.sent = encode serializeAsString p)) ∧
  (out.returned = some (-1) → out.result = some false)

/-- A timeout or a hard error cuts the frame off. -/
def CutOff (protocol : Option Protocol) (script : List Answer) : Prop :=
  ∃ p, protocol = some p ∧ encode serializeAsString p ≠ [] ∧ Fails (encode serializeAsString p).length script

variable {serializeAsString}

theorem encodeLength (bounded : ∀ b, (serializeAsString b).length < 2^31) (p : Protocol) :
    (encode serializeAsString p).length ≤ 10004 := by
  have small : (serialize serializeAsString p).length < 2^31 := bounded _
  have narrow : toInt32 (serialize serializeAsString p).length = (serialize serializeAsString p).length :=
    toInt32Small (by omega) (by omega)
  simp only [encode,narrow]
  split
  · simp
  · rename_i accepted
    have full := headerFull (serialize serializeAsString p).length
    simp only [kDataMaxLen,kDataLen] at accepted full
    rw [List.length_append,full]
    omega

/- A frame goes through the conversions of its length unchanged. -/
theorem sendProtocolFrame (bounded : ∀ b, (serializeAsString b).length < 2^31) {p : Protocol}
    (frame : encode serializeAsString p ≠ []) (mem : Memory) (data : Nat) (script : List Answer) :
    let call := send (store mem data (encode serializeAsString p)) data (encode serializeAsString p).length script
    sendProtocol serializeAsString mem data (some p) script =
      ⟨call.result.map (fun r => if toUint32 r < (encode serializeAsString p).length then false else true),
        call.result,call.sent⟩ := by
  have small := encodeLength bounded p
  have some_ := List.length_pos_iff.2 frame
  have wide : toUint32 (encode serializeAsString p).length = (encode serializeAsString p).length :=
    toUint32Small (by omega)
  have narrow : (toInt32 (encode serializeAsString p).length).toNat = (encode serializeAsString p).length := by
    rw [toInt32Small (by omega) (by omega)]
    omega
  simp only [sendProtocol,wide,narrow]
  rw [if_neg (by omega)]

variable (serializeAsString)

theorem reportsRefused {mem : Memory} {data : Nat} {protocol : Option Protocol} {script : List Answer}
    (refused : ∀ p, protocol = some p → encode serializeAsString p = []) :
    Reports serializeAsString mem data protocol script := by
  have out : sendProtocol serializeAsString mem data protocol script = ⟨some false,none,[]⟩ := by
    cases protocol with
    | none => rfl
    | some p => simp [sendProtocol,refused p rfl,toUint32]
  simp only [Reports,out]
  refine ⟨?_,by simp⟩
  intro ok same
  cases Option.some.inj same
  refine iff_of_false (by simp) ?_
  rintro ⟨p,found,frame,_⟩
  exact frame (refused p found)

/-- SendProtocol reports the truth exactly when no timeout and no hard error cuts a frame off: a
returned -1 is not less than the length of the frame. -/
theorem sendReported (bounded : ∀ b, (serializeAsString b).length < 2^31) (mem : Memory) (data : Nat)
    (protocol : Option Protocol) (script : List Answer) :
    Reports serializeAsString mem data protocol script ↔ ¬ CutOff serializeAsString protocol script := by
  by_cases refused : ∀ p, protocol = some p → encode serializeAsString p = []
  · refine iff_of_true (reportsRefused serializeAsString refused) ?_
    rintro ⟨p,found,frame,_⟩
    exact frame (refused p found)
  · rw [not_forall] at refused
    obtain ⟨p,refused⟩ := refused
    rw [Classical.not_imp] at refused
    obtain ⟨rfl,frame⟩ := refused
    have small := encodeLength bounded p
    have some_ := List.length_pos_iff.2 frame
    have out := sendProtocolFrame bounded frame mem data script
    have exact_ : Exact _ data _ script (send (store mem data (encode serializeAsString p)) data _ script) :=
      sendLoopExact some_
    generalize send (store mem data (encode serializeAsString p)) data _ script = call at out exact_
    have full := exact_.full
    rw [loadStoreSame] at full
    simp only [Reports,out]
    constructor
    · rintro ⟨_,minus⟩ ⟨q,same,_,fails⟩
      cases Option.some.inj same
      have returned := exact_.failed.2 fails
      have result := minus returned
      have large : ¬ toUint32 (-1) < (encode serializeAsString p).length := by
        unfold toUint32
        omega
      rw [returned,Option.map_some,if_neg large] at result
      simp at result
    · intro whole
      have never : call.result ≠ some (-1) := fun returned =>
        whole ⟨p,rfl,frame,exact_.failed.1 returned⟩
      refine ⟨?_,fun returned => absurd returned never⟩
      intro ok same
      obtain ⟨r,returned,rfl⟩ := Option.map_eq_some_iff.1 same
      rcases exact_.codes r returned with rfl | rfl
      · have equal : toUint32 (encode serializeAsString p).length = (encode serializeAsString p).length :=
          toUint32Small (by omega)
        rw [equal,if_neg (Nat.lt_irrefl _)]
        exact iff_of_true rfl ⟨p,rfl,frame,full.1 returned⟩
      · exact absurd returned never

end

/- What the serializer makes of a heartbeat. -/
def heartBeatBytes : BaseProtocolBuf → Bytes := fun _ => [8,170,1,16,1]

theorem heartBeatReported : Reports heartBeatBytes (fun _ => 0) 64 (some (create .heartBeat 0 []))
      [.accepted 4,.again true,.accepted 5] ↔
    ¬ CutOff heartBeatBytes (some (create .heartBeat 0 [])) [.accepted 4,.again true,.accepted 5] :=
  sendReported heartBeatBytes (fun _ => by simp [heartBeatBytes]) (fun _ => 0) 64 (some (create .heartBeat 0 []))
    [.accepted 4,.again true,.accepted 5]

/-- The peer is gone: ::send fails, co::send returns -1, and SendProtocol returns true. -/
theorem deadPeerReported : ¬ ∀ (serializeAsString : BaseProtocolBuf → Bytes),
    (∀ b, (serializeAsString b).length < 2^31) → ∀ (mem : Memory) (data : Nat) (protocol : Option Protocol)
    (script : List Answer), Reports serializeAsString mem data protocol script := by
  intro claim
  have reports := claim heartBeatBytes (fun _ => by simp [heartBeatBytes]) (fun _ => 0) 64 (some (create .heartBeat 0 [])) [.hardError]
  have result : some true = some false := reports.2 rfl
  contradiction

end TitCo.RpcSend
