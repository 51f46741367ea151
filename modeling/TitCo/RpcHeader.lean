import TitCo.RpcFrame
import TitCo.SockRecvn

/-! What RecvProtocol does with the four bytes of a header: the number that atoi makes of them is
the length of the body, sizes the buffer on the stack and indexes it. -/
namespace TitCo.RpcHeader
open ByteMemory Decimal RpcFrame Sock

/-- `char buf[size]`, the index of the NUL, and the n of the second Recvn. -/
structure BodyUse where
  size : Int
  nul : Int
  want : Int
  deriving DecidableEq, Repr

def bodyUse (head : Bytes) : Option BodyUse :=
  let dataLen := atoi head
  if dataLen = 0 then none else some ⟨dataLen+1,dataLen,dataLen⟩

structure InRange (u : BodyUse) : Prop where
  positive : 1 ≤ u.want
  most : u.want ≤ kDataMaxLen
  size : u.size = u.want + 1
  nul : u.nul = u.want
  inside : 0 ≤ u.nul ∧ u.nul < u.size

/-- The header is refused before anything of a body is read, or its body length is in range
wherever it is used. -/
def Handled (script rest : List Arrival) (head : Bytes) : Prop :=
  (bodyUse head = none ∧ recvProtocol script = .rejected rest) ∨ ∃ u, bodyUse head = some u ∧ InRange u

section
variable {script rest : List Arrival} {head : Bytes}

/- The body is read with the length that the buffer was made for. -/
theorem recvProtocolUse (received : recvn kDataLen script = .complete head rest) :
    recvProtocol script = match bodyUse head with
      | none => .rejected rest
      | some u => recvBody head u.want rest := by
  simp only [recvProtocol,received,bodyUse]
  split
  · rename_i none
    split at none
    · rename_i zero
      simp only [recvBody,if_pos zero]
    · contradiction
  · rename_i u some_
    split at some_
    · contradiction
    · cases Option.some.inj some_
      rfl

/-- The second Recvn of a header in range writes into the buffer only. -/
theorem bodyReadInside {u : BodyUse} (range : InRange u) (mem : Memory) (buf : Nat) {x : Nat}
    (out : (x : Int) < buf ∨ buf + u.size ≤ x) : (SockRecvn.recvn mem buf u.want.toNat rest).mem x = mem x := by
  have placed : SockRecvn.Placed mem buf u.want.toNat ([] ++ bytesOf rest) (SockRecvn.recvn mem buf u.want.toNat rest) :=
    SockRecvn.recvnLoopPlaced rfl rfl (Nat.zero_add _) (by simp)
  have size := range.size
  exact placed.outside x (by omega)

/-- A header is handled exactly when it does not read as a negative number. -/
theorem headerHandled (received : recvn kDataLen script = .complete head rest) :
    Handled script rest head ↔ ¬ Negative head := by
  have four : head.length = kDataLen := by simpa using recvnLoopLength received
  have most := atoiBound (Nat.le_of_eq four)
  rw [← atoiNegative]
  constructor
  · rintro (⟨none,_⟩ | ⟨u,some_,range⟩) below
    · simp only [bodyUse] at none
      rw [if_neg (by omega)] at none
      contradiction
    · simp only [bodyUse] at some_
      rw [if_neg (by omega)] at some_
      cases Option.some.inj some_
      have positive := range.positive
      simp only at positive
      omega
  · intro above
    by_cases zero : atoi head = 0
    · have none : bodyUse head = none := by simp only [bodyUse,if_pos zero]
      refine Or.inl ⟨none,?_⟩
      rw [recvProtocolUse received,none]
    · refine Or.inr ⟨⟨atoi head + 1,atoi head,atoi head⟩,by simp only [bodyUse,if_neg zero],?_⟩
      simp only [kDataLen] at most
      refine ⟨?_,?_,rfl,rfl,?_,?_⟩
      · simp only
        omega
      · simp only [kDataMaxLen]
        omega
      · simp only
        omega
      · simp only
        omega

end

theorem signedHandled : Handled [.bytes [32,43,52,120,1,2,3,4]] [.bytes [1,2,3,4]] [32,43,52,120] ↔
    ¬ Negative [32,43,52,120] :=
  headerHandled (show recvn kDataLen [.bytes [32,43,52,120,1,2,3,4]] = _ from rfl)

/-- "-001" is the length of a buffer of no bytes, whose element -1 is set. -/
theorem minusOneUsed : ¬ ∀ (script rest : List Arrival) (head : Bytes),
    recvn kDataLen script = .complete head rest → Handled script rest head := by
  intro claim
  rcases claim [.bytes [45,48,48,49]] [] [45,48,48,49] rfl with ⟨none,_⟩ | ⟨u,some_,range⟩
  · exact absurd none (by decide)
  · cases Option.some.inj some_
    exact absurd range.positive (by decide)

end TitCo.RpcHeader
