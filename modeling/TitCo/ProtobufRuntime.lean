import TitCo.RpcCall

/-! What the generated code calls of the protobuf library, which is not in the repository: `Runtime` has
the functions used, and `Lawful` what the wire format promises of them. -/
namespace TitCo.ProtobufRuntime
open MachineInt RpcFrame RpcMessage RpcCall
open Sock (Bytes)

/-- A pointer that a reader returns is what is left to read, nullptr is none; ReadTag gives a tag of 0
with it. `υ` is an UnknownFieldSet. -/
structure Runtime (υ : Type) where
  readTag : Bytes → Option (Nat × Bytes)
  readVarint32 : Bytes → Nat × Option Bytes
  inlineGreedyStringParser : Bytes → Bytes × Option Bytes
  verifyUtf8 : Bytes → Bool
  unknownFieldParse : Nat → υ → Bytes → υ × Option Bytes
  noUnknownFields : υ
  haveUnknownFields : υ → Bool
  writeUInt32ToArray : Nat → Nat → Bytes
  writeInt32ToArray : Nat → Int → Bytes
  writeStringMaybeAliased : Nat → Bytes → Bytes
  writeBytesMaybeAliased : Nat → Bytes → Bytes
  serializeUnknownFieldsToArray : υ → Bytes
  uint32SizePlusOne : Nat → Nat
  int32SizePlusOne : Int → Nat
  stringSize : Bytes → Nat
  bytesSize : Bytes → Nat
  unknownFieldsSize : υ → Nat

def IsUInt32 (n : Nat) : Prop := n < 2^32
def IsInt32 (n : Int) : Prop := -2^31 ≤ n ∧ n < 2^31
def IsString (s : Bytes) : Prop := s.length < 2^31

instance {n : Nat} : Decidable (IsUInt32 n) := inferInstanceAs (Decidable (n < 2^32))
instance {s : Bytes} : Decidable (IsString s) := inferInstanceAs (Decidable (s.length < 2^31))

/-- For the field numbers whose tag is one byte. -/
structure Lawful {υ : Type} (r : Runtime υ) : Prop where
  uint32 : ∀ n v rest, 0 < n → n < 16 → IsUInt32 v → ∃ left,
    r.readTag (r.writeUInt32ToArray n v ++ rest) = some (8*n,left) ∧ r.readVarint32 left = (v,some rest)
  int32 : ∀ n v rest, 0 < n → n < 16 → IsInt32 v → ∃ left,
    r.readTag (r.writeInt32ToArray n v ++ rest) = some (8*n,left) ∧ r.readVarint32 left = (toUint32 v,some rest)
  string : ∀ n s rest, 0 < n → n < 16 → IsString s → ∃ left,
    r.readTag (r.writeStringMaybeAliased n s ++ rest) = some (8*n + 2,left) ∧
      r.inlineGreedyStringParser left = (s,some rest)
  bytes : ∀ n s rest, 0 < n → n < 16 → IsString s → ∃ left,
    r.readTag (r.writeBytesMaybeAliased n s ++ rest) = some (8*n + 2,left) ∧
      r.inlineGreedyStringParser left = (s,some rest)
  uint32Size : ∀ n v, n < 16 → IsUInt32 v → (r.writeUInt32ToArray n v).length = r.uint32SizePlusOne v
  int32Size : ∀ n v, n < 16 → IsInt32 v → (r.writeInt32ToArray n v).length = r.int32SizePlusOne v
  stringSize : ∀ n s, n < 16 → IsString s → (r.writeStringMaybeAliased n s).length = 1 + r.stringSize s
  bytesSize : ∀ n s, n < 16 → IsString s → (r.writeBytesMaybeAliased n s).length = 1 + r.bytesSize s
  unknownSize : ∀ u, r.haveUnknownFields u = true → (r.serializeUnknownFieldsToArray u).length = r.unknownFieldsSize u
  nothingRead : r.readTag [] = none
  noneUnknown : r.haveUnknownFields r.noUnknownFields = false
  noneSize : ∀ u, r.haveUnknownFields u = false → r.unknownFieldsSize u = 0

/- A runtime, for runs on concrete messages. -/
def continues (b : UInt8) : Bool := 0x80 ≤ b && b ≤ 0xbf

def wellFormedUtf8 : Bytes → Bool
  | [] => true
  | a::rest =>
    if a < 0x80 then wellFormedUtf8 rest
    else match rest with
    | [] => false
    | b::rest =>
      if 0xc2 ≤ a && a ≤ 0xdf then continues b && wellFormedUtf8 rest
      else match rest with
      | [] => false
      | c::rest =>
        if 0xe0 ≤ a && a ≤ 0xef then
          continues b && continues c && (a != 0xe0 || 0xa0 ≤ b) && (a != 0xed || b ≤ 0x9f) && wellFormedUtf8 rest
        else match rest with
        | [] => false
        | d::rest =>
          0xf0 ≤ a && a ≤ 0xf4 && continues b && continues c && continues d && (a != 0xf0 || 0x90 ≤ b) &&
            (a != 0xf4 || b ≤ 0x8f) && wellFormedUtf8 rest

def skipField (tag : Nat) (unknown : List Bytes) (bytes : Bytes) : List Bytes × Option Bytes :=
  let skip := fun n =>
    if n ≤ bytes.length then (unknown ++ [varint 5 tag ++ bytes.take n],some (bytes.drop n)) else (unknown,none)
  match tag % 8 with
  | 0 => match readVarint 10 bytes with
    | some (_,rest) => skip (bytes.length - rest.length)
    | none => (unknown,none)
  | 1 => skip 8
  | 2 => match readString bytes with
    | some (_,rest) => skip (bytes.length - rest.length)
    | none => (unknown,none)
  | 5 => skip 4
  | _ => (unknown,none)

def runtime : Runtime (List Bytes) where
  readTag := readVarint 5
  readVarint32 bytes := match readVarint 10 bytes with
    | some (v,rest) => (v % 2^32,some rest)
    | none => (0,none)
  inlineGreedyStringParser bytes := match readString bytes with
    | some (s,rest) => (s,some rest)
    | none => ([],none)
  verifyUtf8 := wellFormedUtf8
  unknownFieldParse := skipField
  noUnknownFields := []
  haveUnknownFields u := !u.isEmpty
  writeUInt32ToArray n v := varint 1 (8*n) ++ varint 10 v
  writeInt32ToArray n v := varint 1 (8*n) ++ varint 10 (toSizeT v)
  writeStringMaybeAliased n s := varint 1 (8*n + 2) ++ varint 5 s.length ++ s
  writeBytesMaybeAliased n s := varint 1 (8*n + 2) ++ varint 5 s.length ++ s
  serializeUnknownFieldsToArray u := u.flatten
  uint32SizePlusOne v := 1 + (varint 10 v).length
  int32SizePlusOne v := 1 + (varint 10 (toSizeT v)).length
  stringSize s := (varint 5 s.length).length + s.length
  bytesSize s := (varint 5 s.length).length + s.length
  unknownFieldsSize u := u.flatten.length

theorem tagRead {t : Nat} (small : t < 128) (rest : Bytes) : readVarint 5 (varint 1 t ++ rest) = some (t,rest) := by
  simp [varint,readVarint,small,Nat.mod_eq_of_lt (show t < 256 by omega)]

theorem tagLength (t : Nat) : (varint 1 t).length = 1 := by
  unfold varint
  split
  · rfl
  · simp [varint]

theorem stringRead {s : Bytes} (fits : IsString s) (rest : Bytes) :
    readString (varint 5 s.length ++ (s ++ rest)) = some (s,rest) := by
  have small : s.length < 128^5 := by
    unfold IsString at fits
    omega
  rw [readString,readVarintVarint 4 s.length small (s ++ rest)]
  simp

theorem runtimeLawful : Lawful runtime where
  uint32 n v rest low high fits := by
    unfold IsUInt32 at fits
    refine ⟨varint 10 v ++ rest,?_,?_⟩
    · simp only [runtime,List.append_assoc]
      exact tagRead (by omega) _
    · simp only [runtime,readVarintVarint 9 v (by omega) rest]
      rw [Nat.mod_eq_of_lt (by omega)]
  int32 n v rest low high fits := by
    obtain ⟨lower,upper⟩ := fits
    refine ⟨varint 10 (toSizeT v) ++ rest,?_,?_⟩
    · simp only [runtime,List.append_assoc]
      exact tagRead (by omega) _
    · simp only [runtime,readVarintVarint 9 (toSizeT v) (by unfold toSizeT; omega) rest,Prod.mk.injEq,and_true]
      unfold toSizeT toUint32
      omega
  string n s rest low high fits := by
    refine ⟨varint 5 s.length ++ (s ++ rest),?_,?_⟩
    · simp only [runtime,List.append_assoc]
      exact tagRead (by omega) _
    · simp only [runtime,stringRead fits rest]
  bytes n s rest low high fits := by
    refine ⟨varint 5 s.length ++ (s ++ rest),?_,?_⟩
    · simp only [runtime,List.append_assoc]
      exact tagRead (by omega) _
    · simp only [runtime,stringRead fits rest]
  uint32Size n v _ _ := by simp only [runtime,List.length_append,tagLength]
  int32Size n v _ _ := by simp only [runtime,List.length_append,tagLength]
  stringSize n s _ _ := by simp only [runtime,List.length_append,tagLength]; omega
  bytesSize n s _ _ := by simp only [runtime,List.length_append,tagLength]; omega
  unknownSize _ _ := rfl
  nothingRead := rfl
  noneUnknown := rfl
  noneSize u none := by
    have empty : u = [] := by simpa [runtime] using none
    subst u
    rfl

end TitCo.ProtobufRuntime
