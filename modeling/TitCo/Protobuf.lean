import TitCo.FieldParse
import TitCo.ProtobufRuntime

/-! The generated code of base.pb.cc, hello.pb.cc and world.pb.cc. -/
namespace TitCo.Protobuf
open FieldParse MachineInt ProtobufRuntime RpcFrame RpcMessage RpcCall
open Sock (Bytes)

structure Message (β υ : Type) where
  fields : β
  unknown : υ
  deriving DecidableEq, Repr

section
variable {β υ : Type} (r : Runtime υ)

/-- CHK_(ptr). -/
def checked (m : Message β υ) : Option Bytes → Step (Message β υ)
  | some rest => .next m rest
  | none => .stop m

def handleUnusual (tag : Nat) (m : Message β υ) (bytes : Bytes) : Step (Message β υ) :=
  if tag = 0 ∨ tag % 8 = 4 then .stop m
  else
    let (unknown,left) := r.unknownFieldParse tag m.unknown bytes
    checked {m with unknown := unknown} left

/-- The case of a number; it is stored before the pointer is looked at. -/
def varintCase (want : Nat) (set : β → Nat → β) (tag : Nat) (m : Message β υ) (bytes : Bytes) : Step (Message β υ) :=
  if tag % 256 = want then
    let (value,left) := r.readVarint32 bytes
    checked {m with fields := set m.fields value} left
  else handleUnusual r tag m bytes

def stringCase (want : Nat) (set : β → Bytes → β) (tag : Nat) (m : Message β υ) (bytes : Bytes) : Step (Message β υ) :=
  if tag % 256 = want then
    let (str,left) := r.inlineGreedyStringParser bytes
    let n : Message β υ := {m with fields := set m.fields str}
    match left with
    | none => .stop n
    | some rest => if r.verifyUtf8 str then .next n rest else .stop n
  else handleUnusual r tag m bytes

def bytesCase (want : Nat) (set : β → Bytes → β) (tag : Nat) (m : Message β υ) (bytes : Bytes) : Step (Message β υ) :=
  if tag % 256 = want then
    let (str,left) := r.inlineGreedyStringParser bytes
    checked {m with fields := set m.fields str} left
  else handleUnusual r tag m bytes

/-- The switch of BaseProtocolBuf::_InternalParse. -/
def baseField (tag : Nat) (m : Message BaseProtocolBuf υ) (bytes : Bytes) : Step (Message BaseProtocolBuf υ) :=
  match tag / 8 with
  | 1 => varintCase r 8 (fun b v => {b with magic := v}) tag m bytes
  | 2 => varintCase r 16 (fun b v => {b with version := v}) tag m bytes
  | 3 => varintCase r 24 (fun b v => {b with type := v}) tag m bytes
  | 4 => varintCase r 32 (fun b v => {b with reqId := v}) tag m bytes
  | 5 => varintCase r 40 (fun b v => {b with dataLen := v}) tag m bytes
  | 6 => stringCase r 50 (fun b s => {b with srvName := some s}) tag m bytes
  | 7 => bytesCase r 58 (fun b s => {b with data := s}) tag m bytes
  | _ => handleUnusual r tag m bytes

def baseCleared : Message BaseProtocolBuf υ := ⟨⟨0,0,0,0,0,none,[]⟩,r.noUnknownFields⟩

/-- ParseFromString of a BaseProtocolBuf: the message, and whether it has been parsed whole. -/
def baseParse (bytes : Bytes) : Message BaseProtocolBuf υ × Bool :=
  parse r.readTag (baseField r) bytes.length (baseCleared r) bytes

def uint32Part (n v : Nat) : Bytes := if v ≠ 0 then r.writeUInt32ToArray n v else []

def unknownPart (u : υ) : Bytes := if r.haveUnknownFields u then r.serializeUnknownFieldsToArray u else []

/-- BaseProtocolBuf::_InternalSerialize. A srv_name that is not UTF-8 is logged and written. -/
def baseSerialize (m : Message BaseProtocolBuf υ) : Bytes :=
  uint32Part r 1 m.fields.magic ++ uint32Part r 2 m.fields.version ++ uint32Part r 3 m.fields.type ++
  uint32Part r 4 m.fields.reqId ++ uint32Part r 5 m.fields.dataLen ++
  (match m.fields.srvName with
    | some s => r.writeStringMaybeAliased 6 s
    | none => []) ++
  (if !m.fields.data.isEmpty then r.writeBytesMaybeAliased 7 m.fields.data else []) ++ unknownPart r m.unknown

def uint32Size (v : Nat) : Nat := if v ≠ 0 then r.uint32SizePlusOne v else 0

def baseByteSizeLong (m : Message BaseProtocolBuf υ) : Nat :=
  (match m.fields.srvName with
    | some s => 1 + r.stringSize s
    | none => 0) +
  (if !m.fields.data.isEmpty then 1 + r.bytesSize m.fields.data else 0) +
  uint32Size r m.fields.magic + uint32Size r m.fields.version + uint32Size r m.fields.type +
  uint32Size r m.fields.reqId + uint32Size r m.fields.dataLen + r.unknownFieldsSize m.unknown

end

/-- BaseProtocolBuf::MergeFrom, but for the unknown fields. -/
def mergeFrom (b other : BaseProtocolBuf) : BaseProtocolBuf where
  srvName := match other.srvName with
    | some s => some s
    | none => b.srvName
  data := if !other.data.isEmpty then other.data else b.data
  magic := if other.magic ≠ 0 then other.magic else b.magic
  version := if other.version ≠ 0 then other.version else b.version
  type := if other.type ≠ 0 then other.type else b.type
  reqId := if other.reqId ≠ 0 then other.reqId else b.reqId
  dataLen := if other.dataLen ≠ 0 then other.dataLen else b.dataLen

/-- What a stream for a BaseProtocolBuf may be made of; `other` is a field of a later version, and what
UnknownFieldParse adds for it. -/
inductive Field (υ : Type) where
  | magic (v : Nat)
  | version (v : Nat)
  | type (v : Nat)
  | reqId (v : Nat)
  | dataLen (v : Nat)
  | srvName (s : Bytes)
  | data (s : Bytes)
  | other (chunk : Bytes) (add : υ → υ)

section
variable {β υ : Type} (r : Runtime υ)

def Field.chunk : Field υ → Bytes
  | .magic v => r.writeUInt32ToArray 1 v
  | .version v => r.writeUInt32ToArray 2 v
  | .type v => r.writeUInt32ToArray 3 v
  | .reqId v => r.writeUInt32ToArray 4 v
  | .dataLen v => r.writeUInt32ToArray 5 v
  | .srvName s => r.writeStringMaybeAliased 6 s
  | .data s => r.writeBytesMaybeAliased 7 s
  | .other chunk _ => chunk

def Field.store : Field υ → BaseProtocolBuf → BaseProtocolBuf
  | .magic v, b => {b with magic := v}
  | .version v, b => {b with version := v}
  | .type v, b => {b with type := v}
  | .reqId v, b => {b with reqId := v}
  | .dataLen v, b => {b with dataLen := v}
  | .srvName s, b => {b with srvName := some s}
  | .data s, b => {b with data := s}
  | .other _ _, b => b

def Field.set (f : Field υ) (m : Message BaseProtocolBuf υ) : Message BaseProtocolBuf υ :=
  match f with
  | .other _ add => {m with unknown := add m.unknown}
  | f => {m with fields := f.store m.fields}

/-- The tag is none of the message's own; a number of the message with another wire type is unknown too. -/
def Skipped (chunk : Bytes) (add : υ → υ) : Prop :=
  ∀ u rest, ∃ tag left, r.readTag (chunk ++ rest) = some (tag,left) ∧ tag ∉ [0,8,16,24,32,40,50,58] ∧ tag % 8 ≠ 4 ∧
    r.unknownFieldParse tag u left = (add u,some rest)

def Field.Valid : Field υ → Prop
  | .srvName s => IsString s ∧ r.verifyUtf8 s = true
  | .data s => IsString s
  | .other chunk add => Skipped r chunk add
  | .magic v | .version v | .type v | .reqId v | .dataLen v => IsUInt32 v

def Field.effect (f : Field υ) : Bytes × (Message BaseProtocolBuf υ → Message BaseProtocolBuf υ) := (f.chunk r,f.set)

variable {r}

theorem chunkSome (lawful : Lawful r) {chunk left : Bytes} {tag : Nat} (h : r.readTag (chunk ++ []) = some (tag,left)) :
    chunk ≠ [] := by
  rintro rfl
  rw [List.append_nil,lawful.nothingRead] at h
  contradiction

/- A reader takes the chunk `w` off again as the value `v` of a field with the tag `tag`. -/
def Carries {α : Type} (r : Runtime υ) (read : Bytes → α × Option Bytes) (w : Bytes) (tag : Nat) (v : α) : Prop :=
  ∀ rest, ∃ left, r.readTag (w ++ rest) = some (tag,left) ∧ read left = (v,some rest)

theorem carriesSome (lawful : Lawful r) {α : Type} {read : Bytes → α × Option Bytes} {w : Bytes} {tag : Nat} {v : α}
    (carries : Carries r read w tag v) : w ≠ [] := by
  obtain ⟨left,first,-⟩ := carries []
  exact chunkSome lawful first

section
variable (lawful : Lawful r) {w : Bytes} {tag : Nat} (small : tag < 256)
  (field : Nat → Message β υ → Bytes → Step (Message β υ))
include lawful small

theorem varintReads {v : Nat} (carries : Carries r r.readVarint32 w tag v) (set : β → Nat → β)
    (here : ∀ m left, field tag m left = varintCase r tag set tag m left) :
    Reads r.readTag field w (fun m => {m with fields := set m.fields v}) := by
  refine ⟨carriesSome lawful carries,fun m rest => ?_⟩
  obtain ⟨left,first,value⟩ := carries rest
  refine ⟨tag,left,first,?_⟩
  rw [here,varintCase,if_pos (Nat.mod_eq_of_lt small),value]
  rfl

variable {s : Bytes} (carries : Carries r r.inlineGreedyStringParser w tag s) (set : β → Bytes → β)
include carries

theorem bytesReads (here : ∀ m left, field tag m left = bytesCase r tag set tag m left) :
    Reads r.readTag field w (fun m => {m with fields := set m.fields s}) := by
  refine ⟨carriesSome lawful carries,fun m rest => ?_⟩
  obtain ⟨left,first,value⟩ := carries rest
  refine ⟨tag,left,first,?_⟩
  rw [here,bytesCase,if_pos (Nat.mod_eq_of_lt small),value]
  rfl

variable (here : ∀ m left, field tag m left = stringCase r tag set tag m left)
include here

theorem stringReads (utf8 : r.verifyUtf8 s = true) :
    Reads r.readTag field w (fun m => {m with fields := set m.fields s}) := by
  refine ⟨carriesSome lawful carries,fun m rest => ?_⟩
  obtain ⟨left,first,value⟩ := carries rest
  refine ⟨tag,left,first,?_⟩
  rw [here,stringCase,if_pos (Nat.mod_eq_of_lt small),value]
  exact if_pos utf8

/- The string is there, and everything behind it is not. -/
theorem stringStops (utf8 : r.verifyUtf8 s = false) :
    Stops r.readTag field w (fun m => {m with fields := set m.fields s}) := by
  refine ⟨carriesSome lawful carries,fun m rest => ?_⟩
  obtain ⟨left,first,value⟩ := carries rest
  refine ⟨tag,left,first,?_⟩
  rw [here,stringCase,if_pos (Nat.mod_eq_of_lt small),value]
  exact if_neg (by simp [utf8])

end

theorem otherReads (lawful : Lawful r) {chunk : Bytes} {add : υ → υ} (skipped : Skipped r chunk add) :
    Reads r.readTag (baseField r) chunk (fun m => {m with unknown := add m.unknown}) := by
  refine ⟨?_,?_⟩
  · obtain ⟨tag,left,first,-⟩ := skipped r.noUnknownFields []
    exact chunkSome lawful first
  · intro m rest
    obtain ⟨tag,left,first,foreign,group,parsed⟩ := skipped m.unknown rest
    simp only [List.mem_cons,List.not_mem_nil,or_false,not_or] at foreign
    refine ⟨tag,left,first,?_⟩
    have unusual : baseField r tag m left = handleUnusual r tag m left := by
      unfold baseField varintCase stringCase bytesCase
      split <;> first | exact if_neg (by omega) | rfl
    rw [unusual,handleUnusual,if_neg (by omega),parsed]
    rfl

theorem fieldReads (lawful : Lawful r) {f : Field υ} (valid : f.Valid r) :
    Reads r.readTag (baseField r) (f.chunk r) f.set := by
  cases f with
  | magic v =>
    exact varintReads lawful (by decide) (baseField r) (fun rest => lawful.uint32 1 v rest (by decide) (by decide) valid)
      (fun (b : BaseProtocolBuf) v => {b with magic := v}) (fun _ _ => rfl)
  | version v =>
    exact varintReads lawful (by decide) (baseField r) (fun rest => lawful.uint32 2 v rest (by decide) (by decide) valid)
      (fun (b : BaseProtocolBuf) v => {b with version := v}) (fun _ _ => rfl)
  | type v =>
    exact varintReads lawful (by decide) (baseField r) (fun rest => lawful.uint32 3 v rest (by decide) (by decide) valid)
      (fun (b : BaseProtocolBuf) v => {b with type := v}) (fun _ _ => rfl)
  | reqId v =>
    exact varintReads lawful (by decide) (baseField r) (fun rest => lawful.uint32 4 v rest (by decide) (by decide) valid)
      (fun (b : BaseProtocolBuf) v => {b with reqId := v}) (fun _ _ => rfl)
  | dataLen v =>
    exact varintReads lawful (by decide) (baseField r) (fun rest => lawful.uint32 5 v rest (by decide) (by decide) valid)
      (fun (b : BaseProtocolBuf) v => {b with dataLen := v}) (fun _ _ => rfl)
  | srvName s =>
    exact stringReads lawful (by decide) (baseField r) (fun rest => lawful.string 6 s rest (by decide) (by decide) valid.1)
      (fun (b : BaseProtocolBuf) s => {b with srvName := some s}) (fun _ _ => rfl) valid.2
  | data s =>
    exact bytesReads lawful (by decide) (baseField r) (fun rest => lawful.bytes 7 s rest (by decide) (by decide) valid)
      (fun (b : BaseProtocolBuf) s => {b with data := s}) (fun _ _ => rfl)
  | other chunk add => exact otherReads lawful valid

/- Field 9 of some later version. -/
theorem laterSkipped : Skipped runtime [72,1] (fun u => u ++ [[72,1]]) := by
  intro u rest
  refine ⟨72,1::rest,rfl,by decide,by decide,?_⟩
  have skip : rest.length + 1 - rest.length = 1 := by omega
  simp [runtime,skipField,readVarint,varint,skip]

def numbers (b : BaseProtocolBuf) : List (Field υ) :=
  (if b.magic ≠ 0 then [.magic b.magic] else []) ++ (if b.version ≠ 0 then [.version b.version] else []) ++
  (if b.type ≠ 0 then [.type b.type] else []) ++ (if b.reqId ≠ 0 then [.reqId b.reqId] else []) ++
  (if b.dataLen ≠ 0 then [.dataLen b.dataLen] else [])

def nameField (b : BaseProtocolBuf) : List (Field υ) :=
  match b.srvName with
  | some s => [.srvName s]
  | none => []

def dataField (b : BaseProtocolBuf) : List (Field υ) := if !b.data.isEmpty then [.data b.data] else []

/-- What fits into the fields of a BaseProtocolBuf. -/
structure InRange (b : BaseProtocolBuf) : Prop where
  magic : IsUInt32 b.magic
  version : IsUInt32 b.version
  type : IsUInt32 b.type
  reqId : IsUInt32 b.reqId
  dataLen : IsUInt32 b.dataLen
  srvName : ∀ s, b.srvName = some s → IsString s
  data : IsString b.data

def NameUtf8 (r : Runtime υ) (b : BaseProtocolBuf) : Prop := ∀ s, b.srvName = some s → r.verifyUtf8 s = true

theorem numbersValid {b : BaseProtocolBuf} (range : InRange b) : ∀ f ∈ (numbers b : List (Field υ)), f.Valid r := by
  obtain ⟨magic,version,type,reqId,dataLen,-,-⟩ := range
  intro f member
  simp only [numbers,List.mem_append,List.mem_ite_nil_right,List.mem_singleton] at member
  rcases member with (((⟨-,rfl⟩ | ⟨-,rfl⟩) | ⟨-,rfl⟩) | ⟨-,rfl⟩) | ⟨-,rfl⟩ <;> assumption

theorem nameValid {b : BaseProtocolBuf} (range : InRange b) (utf8 : NameUtf8 r b) :
    ∀ f ∈ (nameField b : List (Field υ)), f.Valid r := by
  intro f member
  unfold nameField at member
  split at member
  · rename_i s named
    rw [List.mem_singleton] at member
    subst f
    exact ⟨range.srvName s named,utf8 s named⟩
  · simp at member

theorem dataValid {b : BaseProtocolBuf} (range : InRange b) : ∀ f ∈ (dataField b : List (Field υ)), f.Valid r := by
  intro f member
  simp only [dataField,List.mem_ite_nil_right,List.mem_singleton] at member
  obtain ⟨-,rfl⟩ := member
  exact range.data

theorem chunksRead (lawful : Lawful r) {fs : List (Field υ)} (valid : ∀ f ∈ fs, f.Valid r) :
    ∀ c ∈ fs.map (Field.effect r), Reads r.readTag (baseField r) c.1 c.2 := by
  intro c inside
  obtain ⟨f,member,rfl⟩ := List.mem_map.1 inside
  exact fieldReads lawful (valid f member)

theorem uint32PartChunks (c : Nat → Field υ) (n v : Nat) (same : (c v).chunk r = r.writeUInt32ToArray n v) :
    uint32Part r n v = bytesOf ((if v ≠ 0 then [c v] else []).map (Field.effect r)) := by
  unfold uint32Part
  split
  · simp [bytesOf,Field.effect,same]
  · rfl

def written (r : Runtime υ) (b : BaseProtocolBuf) : List (Bytes × (Message BaseProtocolBuf υ → Message BaseProtocolBuf υ)) :=
  (numbers b).map (Field.effect r) ++ ((nameField b).map (Field.effect r) ++ (dataField b).map (Field.effect r))

/- The fields that are there, in the order of their numbers. -/
theorem serializeChunks (lawful : Lawful r) (b : BaseProtocolBuf) :
    baseSerialize r ⟨b,r.noUnknownFields⟩ = bytesOf (written r b) := by
  have name : (match b.srvName with
      | some s => r.writeStringMaybeAliased 6 s
      | none => []) = bytesOf ((nameField b).map (Field.effect r)) := by
    unfold nameField
    cases b.srvName with
    | none => rfl
    | some s => simp [bytesOf,Field.effect,Field.chunk]
  have data : (if !b.data.isEmpty then r.writeBytesMaybeAliased 7 b.data else []) =
      bytesOf ((dataField b).map (Field.effect r)) := by
    unfold dataField
    split
    · simp [bytesOf,Field.effect,Field.chunk]
    · rfl
  have unknown : unknownPart r r.noUnknownFields = [] := by simp [unknownPart,lawful.noneUnknown]
  simp only [baseSerialize,unknown,name,data,written,numbers,List.map_append,bytesAppend,List.append_nil,List.append_assoc]
  rw [uint32PartChunks .magic 1 b.magic rfl,uint32PartChunks .version 2 b.version rfl,
    uint32PartChunks .type 3 b.type rfl,uint32PartChunks .reqId 4 b.reqId rfl,
    uint32PartChunks .dataLen 5 b.dataLen rfl]

theorem numbersEffect (b : BaseProtocolBuf) (m : Message BaseProtocolBuf υ) :
    effect ((numbers b).map (Field.effect r)) m =
      {m with fields := {mergeFrom m.fields b with srvName := m.fields.srvName, data := m.fields.data}} := by
  simp only [numbers,List.map_append,effectAppend,mergeFrom]
  split <;> split <;> split <;> split <;> split <;> rfl

theorem writtenEffect (b : BaseProtocolBuf) (m : Message BaseProtocolBuf υ) :
    effect (written r b) m = {m with fields := mergeFrom m.fields b} := by
  rw [written,effectAppend,effectAppend,numbersEffect]
  unfold nameField dataField mergeFrom
  cases b.srvName <;> split <;> rfl

theorem mergeCleared (b : BaseProtocolBuf) : mergeFrom (baseCleared r).fields b = b := by
  obtain ⟨magic,version,type,reqId,dataLen,srvName,data⟩ := b
  simp only [mergeFrom,baseCleared]
  congr
  all_goals split <;> simp_all

theorem writtenRead (lawful : Lawful r) {b : BaseProtocolBuf} (range : InRange b) (utf8 : NameUtf8 r b) :
    ∀ c ∈ written r b, Reads r.readTag (baseField r) c.1 c.2 := by
  intro c inside
  simp only [written,List.mem_append] at inside
  rcases inside with number | name | data
  · exact chunksRead lawful (numbersValid range) c number
  · exact chunksRead lawful (nameValid range utf8) c name
  · exact chunksRead lawful (dataValid range) c data

theorem utf8Parsed (lawful : Lawful r) {b : BaseProtocolBuf} (range : InRange b) (utf8 : NameUtf8 r b) :
    baseParse r (baseSerialize r ⟨b,r.noUnknownFields⟩) = (⟨b,r.noUnknownFields⟩,true) := by
  have whole := parseWhole (writtenRead lawful range utf8) (baseCleared r)
  rw [serializeChunks lawful,baseParse,whole,writtenEffect,mergeCleared]
  rfl

/- A name that is not UTF-8 is the last field that is read. -/
theorem notUtf8Parsed (lawful : Lawful r) {b : BaseProtocolBuf} (range : InRange b) (bad : ¬ NameUtf8 r b) :
    baseParse r (baseSerialize r ⟨b,r.noUnknownFields⟩) = (⟨{b with data := []},r.noUnknownFields⟩,false) := by
  obtain ⟨s,named,refused⟩ : ∃ s, b.srvName = some s ∧ r.verifyUtf8 s = false := by
    simpa [NameUtf8] using bad
  have name : bytesOf ((nameField b).map (Field.effect r)) = r.writeStringMaybeAliased 6 s := by
    simp [nameField,named,bytesOf,Field.effect,Field.chunk]
  have stops := stringStops lawful (by decide) (baseField r)
    (fun rest => lawful.string 6 s rest (by decide) (by decide) (range.srvName s named))
    (fun (b : BaseProtocolBuf) s => {b with srvName := some s}) (fun _ _ => rfl) refused
  have parsed := parseUpTo (chunksRead lawful (numbersValid range)) stops (baseCleared r)
    (bytesOf ((dataField b).map (Field.effect r)))
  have whole := @mergeCleared _ r b
  rw [serializeChunks lawful,written,bytesAppend,bytesAppend,name,baseParse,parsed,numbersEffect,whole]
  simp only [baseCleared,named]

end

/-- What ParseFromString makes of what SerializeAsString has written: the message, unless its srv_name
is not UTF-8. Then the parse fails with the name stored and the data, which is behind it, lost. -/
theorem baseRoundTrip {υ : Type} (r : Runtime υ) (lawful : Lawful r) (b : BaseProtocolBuf) (range : InRange b) :
    (NameUtf8 r b → baseParse r (baseSerialize r ⟨b,r.noUnknownFields⟩) = (⟨b,r.noUnknownFields⟩,true)) ∧
    (¬ NameUtf8 r b → baseParse r (baseSerialize r ⟨b,r.noUnknownFields⟩) =
      (⟨{b with data := []},r.noUnknownFields⟩,false)) :=
  ⟨utf8Parsed lawful range,notUtf8Parsed lawful range⟩

def numbered (reqId : Nat) (srvName : Option Bytes) (data : Bytes) : BaseProtocolBuf := ⟨3489,1,0,reqId,0,srvName,data⟩

theorem numberedRange {reqId : Nat} {srvName : Option Bytes} {data : Bytes} (id : IsUInt32 reqId)
    (name : ∀ s, srvName = some s → IsString s) (fits : IsString data) : InRange (numbered reqId srvName data) where
  magic := show IsUInt32 3489 by decide
  version := show IsUInt32 1 by decide
  type := show IsUInt32 0 by decide
  reqId := id
  dataLen := show IsUInt32 0 by decide
  srvName := name
  data := fits

theorem oneName {s : Bytes} {Q : Bytes → Prop} (h : Q s) : ∀ t, some s = some t → Q t := by
  intro t same
  cases Option.some.inj same
  exact h

theorem notUtf8LosesData : baseParse runtime (baseSerialize runtime ⟨numbered 7 (some [0xff]) [1,2],[]⟩) =
    (⟨numbered 7 (some [0xff]) [],[]⟩,false) :=
  (baseRoundTrip runtime runtimeLawful (numbered 7 (some [0xff]) [1,2])
    (numberedRange (by decide) (oneName (by decide)) (by decide))).2 (fun utf8 => absurd (utf8 [0xff] rfl) (by decide))

theorem uint32PartSize {υ : Type} {r : Runtime υ} (lawful : Lawful r) {n v : Nat} (high : n < 16) (fits : IsUInt32 v) :
    (uint32Part r n v).length = uint32Size r v := by
  unfold uint32Part uint32Size
  split
  · exact lawful.uint32Size n v high fits
  · rfl

/-- SerializeAsString allocates ByteSizeLong bytes and has _InternalSerialize fill them: it does, to the
last one. -/
theorem serializeFills {υ : Type} (r : Runtime υ) (lawful : Lawful r) (m : Message BaseProtocolBuf υ)
    (range : InRange m.fields) : (baseSerialize r m).length = baseByteSizeLong r m := by
  have name : (match m.fields.srvName with
      | some s => r.writeStringMaybeAliased 6 s
      | none => []).length = (match m.fields.srvName with
      | some s => 1 + r.stringSize s
      | none => 0) := by
    cases named : m.fields.srvName with
    | none => rfl
    | some s => exact lawful.stringSize 6 s (by decide) (range.srvName s named)
  have data : (if !m.fields.data.isEmpty then r.writeBytesMaybeAliased 7 m.fields.data else []).length =
      (if !m.fields.data.isEmpty then 1 + r.bytesSize m.fields.data else 0) := by
    split
    · exact lawful.bytesSize 7 _ (by decide) range.data
    · rfl
  have unknown : (unknownPart r m.unknown).length = r.unknownFieldsSize m.unknown := by
    unfold unknownPart
    split
    · exact lawful.unknownSize _ ‹_›
    · rename_i none
      exact (lawful.noneSize _ (Bool.eq_false_iff.2 none)).symm
  simp only [baseSerialize,baseByteSizeLong,List.length_append,name,data,unknown,
    uint32PartSize lawful (show 1 < 16 by decide) range.magic,uint32PartSize lawful (show 2 < 16 by decide) range.version,
    uint32PartSize lawful (show 3 < 16 by decide) range.type,uint32PartSize lawful (show 4 < 16 by decide) range.reqId,
    uint32PartSize lawful (show 5 < 16 by decide) range.dataLen]
  omega

theorem unknownKept : (baseSerialize runtime ⟨numbered 300 none [1],[[72,1]]⟩).length =
    baseByteSizeLong runtime ⟨numbered 300 none [1],[[72,1]]⟩ :=
  serializeFills runtime runtimeLawful ⟨numbered 300 none [1],[[72,1]]⟩
    (numberedRange (by decide) (fun s named => by simp at named) (by decide))

theorem inRangeToBuf {p : Protocol} (numbers : IsUInt32 p.magic ∧ IsUInt32 p.version ∧ IsUInt32 p.type.value ∧
    IsUInt32 p.reqId ∧ IsUInt32 p.dataLen) (name : IsString p.srvName) (data : IsString p.data) : InRange (toBuf p) := by
  obtain ⟨magic,version,type,reqId,dataLen⟩ := numbers
  refine ⟨magic,version,type,reqId,dataLen,?_,data⟩
  intro s named
  simp only [toBuf] at named
  split at named
  · simp at named
  · cases Option.some.inj named
    exact name

/-- SerializerHandler<Protocol>::Deserialize of what its Serialize has made: it does not look at the
result of the parse, so a name that is not UTF-8 costs the data. -/
theorem protocolSurvives {υ : Type} (r : Runtime υ) (lawful : Lawful r) (p : Protocol) (range : InRange (toBuf p)) :
    SameMessage p (deserialize (fun bytes => (baseParse r bytes).1.fields)
      (serialize (fun b => baseSerialize r ⟨b,r.noUnknownFields⟩) p)) ↔
      p.srvName = [] ∨ r.verifyUtf8 p.srvName = true ∨ p.data = [] := by
  have named : NameUtf8 r (toBuf p) ↔ p.srvName = [] ∨ r.verifyUtf8 p.srvName = true := by
    unfold NameUtf8 toBuf
    by_cases empty : p.srvName = [] <;> simp [empty]
  have same := fromBufToBuf p
  rw [deserialize,serialize]
  by_cases utf8 : NameUtf8 r (toBuf p)
  · rw [utf8Parsed lawful range utf8]
    rcases named.1 utf8 with empty | valid
    · exact iff_of_true same (.inl empty)
    · exact iff_of_true same (.inr (.inl valid))
  · rw [notUtf8Parsed lawful range utf8]
    constructor
    · intro lost
      exact .inr (.inr lost.data.symm)
    · rintro (empty | valid | none)
      · exact absurd (named.2 (.inl empty)) utf8
      · exact absurd (named.2 (.inr valid)) utf8
      · exact ⟨same.type,same.reqId,same.srvName,none.symm⟩

/- A name cut in the middle of a character. -/
def cutName : Protocol := {create .requestCall 7 [1] with srvName := [0xc3]}

theorem cutNameLosesData : ¬ SameMessage cutName (deserialize (fun bytes => (baseParse runtime bytes).1.fields)
    (serialize (fun b => baseSerialize runtime ⟨b,runtime.noUnknownFields⟩) cutName)) := by
  intro same
  have kept := (protocolSurvives runtime runtimeLawful cutName (inRangeToBuf (by decide) (by decide) (by decide))).1 same
  exact absurd kept (by decide)

section
variable {υ : Type} (r : Runtime υ)

def helloField (tag : Nat) (m : Message Bytes υ) (bytes : Bytes) : Step (Message Bytes υ) :=
  match tag / 8 with
  | 1 => stringCase r 10 (fun _ s => s) tag m bytes
  | _ => handleUnusual r tag m bytes

def helloParse (bytes : Bytes) : Message Bytes υ × Bool :=
  parse r.readTag (helloField r) bytes.length ⟨[],r.noUnknownFields⟩ bytes

def helloSerialize (m : Message Bytes υ) : Bytes :=
  (if !m.fields.isEmpty then r.writeStringMaybeAliased 1 m.fields else []) ++ unknownPart r m.unknown

def worldField (tag : Nat) (m : Message Int υ) (bytes : Bytes) : Step (Message Int υ) :=
  match tag / 8 with
  | 1 => varintCase r 8 (fun _ v => toInt32 v) tag m bytes
  | _ => handleUnusual r tag m bytes

def worldParse (bytes : Bytes) : Message Int υ × Bool :=
  parse r.readTag (worldField r) bytes.length ⟨0,r.noUnknownFields⟩ bytes

def worldSerialize (m : Message Int υ) : Bytes :=
  (if m.fields ≠ 0 then r.writeInt32ToArray 1 m.fields else []) ++ unknownPart r m.unknown

/-- The SerializerHandlers of hello.h; neither Deserialize looks at the result of its parse. -/
def helloToString (name : Bytes) : Bytes := helloSerialize r ⟨name,r.noUnknownFields⟩
def helloOfString (stream : Bytes) : Bytes := (helloParse r stream).1.fields
def worldToString (result : Int) : Bytes := worldSerialize r ⟨result,r.noUnknownFields⟩
def worldOfString (stream : Bytes) : Int := (worldParse r stream).1.fields

variable {r}

theorem unknownNone (lawful : Lawful r) : unknownPart r r.noUnknownFields = [] := by
  simp [unknownPart,lawful.noneUnknown]

/- The name is stored before it is checked, so it comes back in either case. -/
theorem helloSurvives (lawful : Lawful r) {name : Bytes} (fits : IsString name) :
    helloOfString r (helloToString r name) = name := by
  simp only [helloToString,helloSerialize,unknownNone lawful,List.append_nil]
  split
  · have carries : Carries r r.inlineGreedyStringParser (r.writeStringMaybeAliased 1 name) 10 name :=
      fun rest => lawful.string 1 name rest (by decide) (by decide) fits
    cases utf8 : r.verifyUtf8 name with
    | true =>
      have reads := stringReads lawful (by decide) (helloField r) carries (fun _ s => s) (fun _ _ => rfl) utf8
      have whole := @parseWhole _ r.readTag (helloField r) [(_,_)] (by simpa using reads) ⟨[],r.noUnknownFields⟩
      rw [show FieldParse.bytesOf [(r.writeStringMaybeAliased 1 name,_)] = r.writeStringMaybeAliased 1 name from
        List.append_nil _] at whole
      rw [helloOfString,helloParse,whole]
      rfl
    | false =>
      have stops := stringStops lawful (by decide) (helloField r) carries (fun _ s => s) (fun _ _ => rfl) utf8
      have upTo := @parseUpTo _ r.readTag (helloField r) _ _ [] (by simp) stops ⟨[],r.noUnknownFields⟩ []
      simp only [FieldParse.bytesOf,List.flatMap_nil,List.nil_append,List.append_nil] at upTo
      rw [helloOfString,helloParse,upTo]
  · rename_i empty
    have none : name = [] := by simpa using empty
    subst name
    rfl

theorem worldSurvives (lawful : Lawful r) {n : Int} (fits : IsInt32 n) : worldOfString r (worldToString r n) = n := by
  simp only [worldToString,worldSerialize,unknownNone lawful,List.append_nil]
  split
  · have carries : Carries r r.readVarint32 (r.writeInt32ToArray 1 n) 8 (toUint32 n) :=
      fun rest => lawful.int32 1 n rest (by decide) (by decide) fits
    have reads := varintReads lawful (by decide) (worldField r) carries (fun _ v => toInt32 v) (fun _ _ => rfl)
    have whole := @parseWhole _ r.readTag (worldField r) [(_,_)] (by simpa using reads) ⟨0,r.noUnknownFields⟩
    rw [show FieldParse.bytesOf [(r.writeInt32ToArray 1 n,_)] = r.writeInt32ToArray 1 n from
      List.append_nil _] at whole
    rw [worldOfString,worldParse,whole]
    obtain ⟨lower,upper⟩ := fits
    change toInt32 (toUint32 n : Nat) = n
    unfold toInt32 toUint32
    omega
  · rename_i zero
    have none : n = 0 := by simpa using zero
    subst n
    rfl

end

end TitCo.Protobuf
