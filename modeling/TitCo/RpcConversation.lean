import TitCo.RpcMessage
import TitCo.RpcSend
import TitCo.RpcServer

/-! A whole conversation over one connection. SendLoop hands the requests to SendProtocol one after
another, the coroutine that TcpServer::Loop starts calls OnNewConn until the client is gone, and
RecvLoop takes the answers off the stream; in both directions the kernel takes and delivers the bytes
in whatever pieces it likes. No other connection is open meanwhile. -/
namespace TitCo.RpcConversation
open ByteMemory MachineInt RpcFrame RpcMessage RpcSend RpcServer Sock

/-- A side's end of the socket: where its frames are when it sends them, and what the kernel answers
the k-th time. -/
structure Sender where
  memory : Memory
  data : Nat
  kernel : Nat → List SockSend.Answer

inductive Ending where
  | running
  | waiting
  | sending
  | closed
  | undefined
  deriving DecidableEq, Repr

/-- How the coroutine of a connection leaves the server, and what the socket has accepted. -/
structure Connection (δ : Type) where
  server : Server δ
  sent : Bytes
  ending : Ending

section
variable {δ : Type} (services : Bytes → Option (Service δ)) (serializeAsString : BaseProtocolBuf → Bytes)
  (parseFromString : Bytes → BaseProtocolBuf) (sender : Sender)

/-- The loop of TcpServer::Loop's coroutine; Recvn returns 0 to one that is closed, and only then is
connected() false. `k` counts the Sends. -/
def connection : Nat → Nat → Server δ → List Arrival → Connection δ
  | 0,_,s,_ => ⟨s,[],.running⟩
  | rounds+1,k,s,script =>
    match recvProtocol script with
    | .body buf rest =>
      match onNewConn services s (some (decode parseFromString buf buf.length)) with
      | none => ⟨s,[],.undefined⟩
      | some (t,out) =>
        let call := sendProtocol serializeAsString sender.memory sender.data out.sent.head? (sender.kernel k)
        match call.result with
        | none => ⟨t,call.sent,.sending⟩
        | some _ =>
          let later := connection rounds (k+1) t rest
          {later with sent := call.sent ++ later.sent}
    | .closed _ =>
      match onNewConn services s none with
      | none => ⟨s,[],.undefined⟩
      | some (t,_) => ⟨t,[],.closed⟩
    | .rejected rest =>
      match onNewConn services s none with
      | none => ⟨s,[],.undefined⟩
      | some (t,_) => connection rounds k t rest
    | .undefined => ⟨s,[],.undefined⟩
    | .blocked _ => ⟨s,[],.waiting⟩

/-- What SendLoop brings onto the stream; it breaks when SendProtocol fails. -/
def sendLoop : Nat → List Protocol → Bytes
  | _,[] => []
  | k,p::rest =>
    let call := sendProtocol serializeAsString sender.memory sender.data (some p) (sender.kernel k)
    call.sent ++ if call.result = some true then sendLoop (k+1) rest else []

/-- The protocols that RecvLoop comes to, up to a first nullptr. -/
def recvMessages (rounds : Nat) (script : List Arrival) : List Protocol :=
  (recvLoop rounds script).1.map (fun buf => decode parseFromString buf buf.length)

/-- The answer to a call, whatever was served before. -/
def respond (p : Protocol) : Protocol :=
  match services p.srvName with
  | none => create .responseCall p.reqId other
  | some service =>
      {create .responseCall p.reqId [] with
        data := ((service.func (service.deserialize p.data)).map service.serialize).getD []}

/-- A message that the framing and the protobuf library carry. -/
structure Fits (p : Protocol) : Prop where
  inverse : parseFromString (serializeAsString (toBuf p)) = toBuf p
  small : (serialize serializeAsString p).length ≤ 9999
  nonempty : serialize serializeAsString p ≠ []
  noNul : 0 ∉ serialize serializeAsString p

end

section
variable {got data : Bytes} {remain : Nat} {script rest : List Arrival}

/- What comes behind a complete read is not looked at. -/
theorem recvnLoopBefore (tail : List Arrival) (h : recvnLoop got remain script = .complete data rest) :
    recvnLoop got remain (script ++ tail) = .complete data (rest ++ tail) := by
  induction script generalizing got remain with
  | nil => simp [recvnLoop] at h
  | cons a script ih =>
    cases a with
    | bytes chunk =>
      simp only [List.cons_append,recvnLoop] at h ⊢
      split at h
      · rename_i last
        cases h
        rw [if_pos last]
        simp only [putBack]
        split <;> rfl
      · rename_i last
        split at h <;> try contradiction
        rename_i nonempty
        rw [if_neg last,if_neg nonempty]
        exact ih h
    | again woken =>
      cases woken with
      | true => exact ih h
      | false => simp [recvnLoop] at h
    | interrupted => exact ih h
    | endOfStream =>
      simp only [List.cons_append,recvnLoop] at h ⊢
      split at h <;> try contradiction
      rename_i zero
      cases h
      rw [if_pos zero]
    | hardError => simp [recvnLoop] at h

theorem recvProtocolBefore (tail : List Arrival) (h : recvProtocol script = .body data rest) :
    recvProtocol (script ++ tail) = .body data (rest ++ tail) := by
  unfold recvProtocol at h
  split at h
  · rename_i text after first
    simp only [recvProtocol,recvn,recvnLoopBefore tail first]
    unfold recvBody at h ⊢
    split at h <;> try contradiction
    rename_i some_
    split at h <;> try contradiction
    rename_i positive
    split at h <;> try contradiction
    rename_i body last second
    cases h
    rw [if_neg some_,if_neg positive]
    simp only [recvn,recvnLoopBefore tail second]
  · split at h <;> contradiction
  · contradiction

theorem recvnLoopEnds (intact : Intact script) (empty : bytesOf script = []) (positive : 0 < remain) :
    recvnLoop got remain (script ++ [.endOfStream]) = .returned 0 [] := by
  induction script with
  | nil => simp only [List.nil_append,recvnLoop,if_neg (by omega : remain ≠ 0)]
  | cons a script ih =>
    have tail := intactTail intact
    have here := intact a (by simp)
    cases a with
    | bytes chunk =>
      simp only [bytesOf,List.append_eq_nil_iff] at empty
      simp [Arrival.delivers,empty.1] at here
    | again woken =>
      cases woken with
      | true => exact ih tail empty
      | false => simp [Arrival.delivers] at here
    | interrupted => exact ih tail empty
    | endOfStream => simp [Arrival.delivers] at here
    | hardError => simp [Arrival.delivers] at here

theorem recvProtocolEnds (intact : Intact script) (empty : bytesOf script = []) :
    recvProtocol (script ++ [.endOfStream]) = .closed [] := by
  simp only [recvProtocol,recvn,recvnLoopEnds intact empty (show 0 < kDataLen by decide),if_true]

end

section
variable {δ : Type} {services : Bytes → Option (Service δ)} {serializeAsString : BaseProtocolBuf → Bytes}
  {parseFromString : Bytes → BaseProtocolBuf} {sender : Sender} {p : Protocol}

theorem frameShape (fits : Fits serializeAsString parseFromString p) : encode serializeAsString p =
    header (serialize serializeAsString p).length ++ serialize serializeAsString p :=
  encodeSmall serializeAsString fits.small

theorem frameSome (fits : Fits serializeAsString parseFromString p) : encode serializeAsString p ≠ [] := by
  rw [frameShape fits]
  exact List.append_ne_nil_of_right_ne_nil _ fits.nonempty

/- The socket accepts the whole frame, and SendProtocol returns true. -/
theorem frameSent (fits : Fits serializeAsString parseFromString p) {script : List SockSend.Answer}
    (takes : SockSend.Accepts (encode serializeAsString p).length script) :
    ∃ r, sendProtocol serializeAsString sender.memory sender.data (some p) script =
      ⟨some true,some r,encode serializeAsString p⟩ := by
  have some_ := List.length_pos_iff.2 (frameSome fits)
  have small : (encode serializeAsString p).length ≤ 10003 := by
    have payload := fits.small
    rw [frameShape fits,List.length_append,headerFull]
    simp only [kDataLen]
    omega
  have exact_ : SockSend.Exact _ sender.data _ script
      (SockSend.send (store sender.memory sender.data (encode serializeAsString p)) sender.data _ script) :=
    SockSend.sendLoopExact some_
  have returned := exact_.accepts.2 takes
  have sent := exact_.full.1 returned
  rw [loadStoreSame] at sent
  have wide : toUint32 (encode serializeAsString p).length = (encode serializeAsString p).length :=
    toUint32Small (by omega)
  have narrow : (toInt32 (encode serializeAsString p).length).toNat = (encode serializeAsString p).length := by
    rw [toInt32Small (by omega) (by omega)]
    omega
  refine ⟨(encode serializeAsString p).length,?_⟩
  simp only [sendProtocol,wide,narrow]
  rw [if_neg (by omega)]
  simp only [returned,sent,Option.map_some,wide,Nat.lt_irrefl,if_false]

theorem sendLoopWhole {requests : List Protocol}
    (fits : ∀ p ∈ requests, Fits serializeAsString parseFromString p) {k : Nat}
    (takes : ∀ i p, requests[i]? = some p → SockSend.Accepts (encode serializeAsString p).length (sender.kernel (k+i))) :
    sendLoop serializeAsString sender k requests = requests.flatMap (encode serializeAsString) := by
  induction requests generalizing k with
  | nil => rfl
  | cons p requests ih =>
    obtain ⟨r,whole⟩ := @frameSent _ _ sender p (fits p (by simp)) _ (takes 0 p rfl)
    have later := @ih (fun q inside => fits q (by simp [inside])) (k+1) (by
      intro i q found
      rw [show k + 1 + i = k + (i+1) by omega]
      exact takes (i+1) q found)
    simp only [sendLoop,List.flatMap_cons]
    rw [Nat.add_zero] at whole
    rw [whole]
    simp only [if_true,later]

theorem decodeWhole (fits : Fits serializeAsString parseFromString p) :
    decode parseFromString (serialize serializeAsString p) (serialize serializeAsString p).length = fromBuf (toBuf p) := by
  rw [decode,(cStringWhole _).2 fits.noNul,deserialize,serialize,fits.inverse]

/- What dispatch looks at comes over the wire unchanged. -/
theorem respondReceived (p : Protocol) : respond services (fromBuf (toBuf p)) = respond services p := by
  have same := fromBufToBuf p
  simp only [respond,same.srvName,same.reqId,same.data]

theorem answersReceived (answers : Answers services p) : Answers services (fromBuf (toBuf p)) := by
  have same := fromBufToBuf p
  refine ⟨?_,?_⟩
  · simp only [fromBuf,toBuf,create,answers.1,MsgType.value,MsgType.ofValue]
  · rw [same.srvName,same.data]
    exact answers.2

theorem callResponds (answers : Answers services p) {s : Server δ} (clear : s.error ≠ 1) :
    ∃ t, onNewConn services s (some p) = some (t,⟨true,[respond services p]⟩) ∧ t.error ≠ 1 := by
  have defined : ∃ t, callService services {s with reqProtocol := some p} p = some t :=
    callServiceDefined.2 (fun service found => Or.inl (answers.2 service found))
  obtain ⟨t,called⟩ := defined
  obtain ⟨kept,_⟩ := callServiceSource called
  have response : t.respProtocol = some (respond services p) := by
    unfold callService at called
    unfold respond
    cases found : services p.srvName with
    | none =>
      rw [found] at called
      cases Option.some.inj called
      rfl
    | some service =>
      obtain ⟨r,sets⟩ := Option.ne_none_iff_exists'.1 (answers.2 service found)
      simp only [found,sets] at called
      cases Option.some.inj called
      simp only [sets,Option.map_some,Option.getD_some]
  refine ⟨t,?_,by rw [kept]; exact clear⟩
  rw [onNewConnCall clear answers.1,called]
  simp only [Option.map_some,response,Option.toList_some]

/- A round that receives a message and sends what answers it. -/
theorem connectionRound {s t : Server δ} {script rest : List Arrival} {buf sent : Bytes} {out : RpcServer.Outcome} {ok : Bool}
    {r : Option Int} {rounds k : Nat} (received : recvProtocol script = .body buf rest)
    (served : onNewConn services s (some (decode parseFromString buf buf.length)) = some (t,out))
    (call : sendProtocol serializeAsString sender.memory sender.data out.sent.head? (sender.kernel k) = ⟨some ok,r,sent⟩) :
    connection services serializeAsString parseFromString sender (rounds+1) k s script =
      let later := connection services serializeAsString parseFromString sender rounds (k+1) t rest
      {later with sent := sent ++ later.sent} := by
  rw [connection,received]
  dsimp only
  rw [served]
  dsimp only
  rw [call]

/- One request after another is taken off the stream, answered and forgotten. -/
theorem connectionServes {requests : List Protocol} (answers : ∀ p ∈ requests, Answers services p)
    (fits : ∀ p ∈ requests, Fits serializeAsString parseFromString p)
    (fitsBack : ∀ p ∈ requests, Fits serializeAsString parseFromString (respond services p)) {k : Nat}
    (takes : ∀ i p, requests[i]? = some p →
      SockSend.Accepts (encode serializeAsString (respond services p)).length (sender.kernel (k+i)))
    {script : List Arrival} (intact : Intact script)
    (stream : bytesOf script = requests.flatMap (encode serializeAsString)) {s : Server δ} (clear : s.error ≠ 1)
    {rounds : Nat} (enough : requests.length < rounds) :
    let c := connection services serializeAsString parseFromString sender rounds k s (script ++ [.endOfStream])
    c.ending = .closed ∧ c.sent = requests.flatMap (fun p => encode serializeAsString (respond services p)) ∧
      c.server.error = 1 := by
  induction requests generalizing k script s rounds with
  | nil =>
    obtain ⟨rounds,rfl⟩ := Nat.exists_eq_succ_of_ne_zero (show rounds ≠ 0 by simp at enough; omega)
    have ended : onNewConn services s none = some (recv s none,⟨false,[]⟩) := rfl
    simp only [connection,recvProtocolEnds intact stream,ended]
    exact ⟨trivial,rfl,rfl⟩
  | cons p requests ih =>
    obtain ⟨rounds,rfl⟩ := Nat.exists_eq_succ_of_ne_zero (show rounds ≠ 0 by simp at enough; omega)
    have mine := fits p (by simp)
    rw [List.flatMap_cons,frameShape mine,List.append_assoc] at stream
    obtain ⟨rest,got,restIntact,left⟩ := recvProtocolFrame intact (headerFull _) ((headerReadsBack _).2 mine.small)
      mine.nonempty stream
    obtain ⟨t,served,still⟩ := @callResponds _ services _ (answersReceived (answers p (by simp))) s clear
    rw [respondReceived] at served
    obtain ⟨r,whole⟩ := @frameSent _ _ sender _ (fitsBack p (by simp)) _ (takes 0 p rfl)
    rw [Nat.add_zero] at whole
    obtain ⟨ending,sent,error⟩ := @ih (fun q inside => answers q (by simp [inside]))
      (fun q inside => fits q (by simp [inside])) (fun q inside => fitsBack q (by simp [inside])) (k+1)
      (by
        intro i q found
        rw [show k + 1 + i = k + (i+1) by omega]
        exact takes (i+1) q found)
      rest restIntact left t still rounds (by simpa using enough)
    rw [← decodeWhole mine] at served
    have round := @connectionRound _ services _ parseFromString sender _ _ _ _ _ _ _ _ _ rounds k
      (recvProtocolBefore [.endOfStream] got) served whole
    dsimp only
    rw [round]
    exact ⟨ending,by rw [List.flatMap_cons,← sent],error⟩

/- RecvLoop gets them back, one a frame. -/
theorem answersRead {requests : List Protocol}
    (fitsBack : ∀ p ∈ requests, Fits serializeAsString parseFromString (respond services p)) {down : List Arrival}
    (intact : Intact down) (stream : bytesOf down = requests.flatMap (fun p => encode serializeAsString (respond services p)))
    {rounds : Nat} (enough : requests.length < rounds) :
    recvMessages parseFromString rounds down = requests.map (fun p => fromBuf (toBuf (respond services p))) := by
  have frames : recvLoop rounds down =
      (requests.map (fun p => serialize serializeAsString (respond services p)),some (.blocked [])) := by
    apply recvLoopFrames (fun payload => header payload.length) _ intact _ _ (by simpa using enough)
    · intro payload inside
      obtain ⟨p,member,rfl⟩ := List.mem_map.1 inside
      have back := fitsBack p member
      exact ⟨headerFull _,(headerReadsBack _).2 back.small,back.nonempty⟩
    · rw [stream,List.flatMap_map]
      exact List.flatMap_congr (fun p member => frameShape (fitsBack p member))
  rw [recvMessages,frames,List.map_map]
  exact List.map_congr_left (fun p member => decodeWhole (fitsBack p member))

theorem respondOwn (services : Bytes → Option (Service δ)) (p : Protocol) :
    (respond services p).reqId = p.reqId ∧ (respond services p).type = .responseCall := by
  unfold respond
  split <;> exact ⟨rfl,rfl⟩

end

def helloWire : Sender := ⟨fun _ => 0,64,fun _ => [.accepted 7,.again true,.accepted 1000]⟩

theorem helloWireTakes {n : Nat} (i : Nat) (less : n ≤ 1007) : SockSend.Accepts n (helloWire.kernel i) :=
  ⟨_,[],(List.append_nil _).symm,by simp [SockSend.Lasting,helloWire,SockSend.Answer.fails],
    by simpa [helloWire,SockSend.Answer.takes] using less⟩

def helloCalls : List Protocol := [helloCall 7,create .requestCall 9 [97]]

def helloStream : List Arrival :=
  [.bytes ((encode wireFormat (helloCall 7)).take 2),.again true,.bytes ((encode wireFormat (helloCall 7)).drop 2),
    .interrupted,.bytes (encode wireFormat (create .requestCall 9 [97]))]

end TitCo.RpcConversation
