import TitCo.StreamBuffer
import TitCo.IntegerText

/-! operator<< of Stream: what each operation writes into the buffer, and the two
tests that admit it. Offsets count from data_, so the bytes from the capacity on are
whatever lies behind the array. -/
namespace TitCo.StreamText
open ByteMemory MachineInt StreamBuffer IntegerText

def kMaxNumericSize : Nat := 48

/-- Where a source text stands; a std::string, a literal or a single char. -/
def block (text : List UInt8) : Memory := store (fun _ => 0) 0 text

def length (b : FixedBuffer) : Int := toInt32 b.cur

/-- std::string(data_, length()) -/
def toString (b : FixedBuffer) : List UInt8 := load b.data 0 (toSizeT (length b))

def content (b : FixedBuffer) : List UInt8 := load b.data 0 b.cur

def appendText (b : FixedBuffer) (text : List UInt8) : FixedBuffer :=
  append kSmallBuffer b (block text) 0 text.length

def debugString (b : FixedBuffer) : FixedBuffer := {b with data := store b.data b.cur [0]}

def formatInteger {t : IntType} (b : FixedBuffer) (v : Value t) : FixedBuffer :=
  if kMaxNumericSize ≤ avail kSmallBuffer b then
    ⟨(convert b.data b.cur v).1,b.cur + (convert b.data b.cur v).2⟩
  else b

/-- operator<< of const void*: "0x" and then the digits. -/
def putPointer (b : FixedBuffer) (p : Value uintptr) : FixedBuffer :=
  if kMaxNumericSize ≤ avail kSmallBuffer b then
    let written := convertHex (store (store b.data b.cur [48]) (b.cur+1) [120]) (b.cur+2) p
    ⟨written.1,b.cur + (written.2+2)⟩
  else b

/-- At most `size` bytes with the NUL; the value returned is the length of the whole text. -/
def snprintf (m : Memory) (buf size : Nat) (text : List UInt8) : Memory × Nat :=
  (store m buf (text.take (size-1) ++ [0]),text.length)

section
variable {Double : Type} (format : Double → List UInt8)

/-- `format` is what "%.12g" makes of a double. -/
def putDouble (b : FixedBuffer) (v : Double) : FixedBuffer :=
  if kMaxNumericSize ≤ avail kSmallBuffer b then
    let written := snprintf b.data b.cur kMaxNumericSize (format v)
    ⟨written.1,b.cur + written.2⟩
  else b

/-- A C string is given by the bytes before its NUL, a null pointer by none. -/
inductive Op (Double : Type) where
  | bool (v : Bool)
  | char (v : UInt8)
  | integer (t : IntType) (v : Value t)
  | pointer (p : Value uintptr)
  | double (v : Double)
  | string (v : List UInt8)
  | cString (str : Option (List UInt8))
  | buffer (v : FixedBuffer)
  | append (m : Memory) (data : Nat) (len : Int)
  | reset
  | debugString

def step (b : FixedBuffer) : Op Double → FixedBuffer
  | .bool v => appendText b (if v then [49] else [48])
  | .char v => appendText b [v]
  | .integer _ v => formatInteger b (promote v)
  | .pointer p => putPointer b p
  | .double v => putDouble format b v
  | .string v => appendText b v
  | .cString (some str) => appendText b str
  | .cString none => appendText b [40,110,117,108,108,41]
  | .buffer v => appendText b (toString v)
  | .append m data len => streamAppend b m data len
  | .reset => reset b
  | .debugString => debugString b

def runOps (b : FixedBuffer) (ops : List (Op Double)) : FixedBuffer := ops.foldl (step format) b

/-- The whole text an operation has to add; a negative length names none. -/
def text : Op Double → List UInt8
  | .bool v => if v then [49] else [48]
  | .char v => [v]
  | .integer _ v => signedDecimal v.1
  | .pointer p => [48,120] ++ hexadecimal p.1.toNat
  | .double v => format v
  | .string v => v
  | .cString (some str) => str
  | .cString none => [40,110,117,108,108,41]
  | .buffer v => toString v
  | .append m data len => load m data (toInt32 len).toNat
  | .reset => []
  | .debugString => []

end

/-- The numeric writers: the text and a NUL behind it, if the worst case fits. -/
def writeNumeric (b : FixedBuffer) (text : List UInt8) : FixedBuffer :=
  if kMaxNumericSize ≤ avail kSmallBuffer b then ⟨store b.data b.cur (text ++ [0]),b.cur + text.length⟩ else b

theorem formatIntegerText {t : IntType} (b : FixedBuffer) (v : Value t) :
    formatInteger b v = writeNumeric b (signedDecimal v.1) := by
  unfold formatInteger writeNumeric
  rw [convertText]

theorem putPointerText (b : FixedBuffer) (p : Value uintptr) :
    putPointer b p = writeNumeric b ([48,120] ++ hexadecimal p.1.toNat) := by
  have marks : store (store b.data b.cur [48]) (b.cur+1) [120] = store b.data b.cur [48,120] :=
    storeAppend b.data b.cur [48] [120]
  have whole := storeAppend b.data b.cur [48,120] (hexadecimal p.1.toNat ++ [0])
  unfold putPointer writeNumeric
  simp only [convertHexText,marks]
  split
  · refine congrArg₂ FixedBuffer.mk whole ?_
    rw [List.length_append]
    simp only [List.length_cons,List.length_nil]
    omega
  · rfl

theorem putDoubleText {Double : Type} {format : Double → List UInt8} (b : FixedBuffer) (v : Double)
    (short : (format v).length < kMaxNumericSize) : putDouble format b v = writeNumeric b (format v) := by
  have all : (format v).take (kMaxNumericSize-1) = format v := List.take_of_length_le (by omega)
  unfold putDouble writeNumeric snprintf
  rw [all]

/-- What one operation may do to the buffer: it stays inside, and it adds the whole text or
nothing. -/
structure Whole (b c : FixedBuffer) (text : List UInt8) : Prop where
  inside : c.cur < kSmallBuffer
  frame : ∀ x, kSmallBuffer ≤ x → c.data x = b.data x
  atomic : content c = content b ++ text ∨ content c = content b

theorem wholeNone {b : FixedBuffer} (inside : b.cur < kSmallBuffer) (text : List UInt8) : Whole b b text :=
  ⟨inside,fun _ _ => rfl,Or.inr rfl⟩

/- A block that starts at the end of the content, and of which the first `text.length` bytes count. -/
theorem wholeStore {b : FixedBuffer} {text rest : List UInt8}
    (room : b.cur + text.length < kSmallBuffer) (covered : b.cur + (text ++ rest).length ≤ kSmallBuffer) :
    Whole b ⟨store b.data b.cur (text ++ rest),b.cur + text.length⟩ text where
  inside := room
  frame x beyond := storeOutside b.data (by omega)
  atomic := by
    left
    unfold content
    rw [loadAppend,Nat.zero_add,loadStorePrefix _ _ (by simp),List.take_left,loadStoreDisjoint _ (by omega)]

theorem wholeNumeric {b : FixedBuffer} {text : List UInt8} (inside : b.cur < kSmallBuffer)
    (short : text.length < kMaxNumericSize) : Whole b (writeNumeric b text) text := by
  have length : (text ++ [0]).length = text.length + 1 := List.length_append
  have most : kMaxNumericSize = 48 := rfl
  unfold writeNumeric
  split
  · rename_i room
    unfold avail at room
    exact wholeStore (by omega) (by omega)
  · exact wholeNone inside text

theorem availSize {b : FixedBuffer} (inside : b.cur < kSmallBuffer) :
    toSizeT (avail kSmallBuffer b) = kSmallBuffer - b.cur := by
  have size : kSmallBuffer = 4000 := rfl
  unfold avail
  rw [toSizeTSmall (by omega) (by omega)]
  omega

/- append with a length that was converted to size_t. -/
theorem wholeAppend {b : FixedBuffer} (inside : b.cur < kSmallBuffer) (m : Memory) (buf len : Nat) :
    Whole b (append kSmallBuffer b m buf len) (load m buf len) := by
  have room := availSize inside
  unfold append
  split
  · rename_i admitted
    have fits : b.cur + (load m buf len).length < kSmallBuffer := by
      rw [loadLength]
      omega
    have covered : b.cur + (load m buf len ++ []).length ≤ kSmallBuffer := by
      rw [List.append_nil]
      omega
    have whole := wholeStore fits covered
    rw [List.append_nil,loadLength] at whole
    exact whole
  · exact wholeNone inside _

theorem wholeAppendText {b : FixedBuffer} (inside : b.cur < kSmallBuffer) (text : List UInt8) :
    Whole b (appendText b text) text := by
  have whole := wholeAppend inside (block text) 0 text.length
  have source : load (block text) 0 text.length = text := loadStoreSame _ 0 text
  rw [source] at whole
  exact whole

/- A negative int becomes a size_t that no buffer has room for. -/
theorem wholeStreamAppend {b : FixedBuffer} (inside : b.cur < kSmallBuffer) (m : Memory) (data : Nat) (len : Int) :
    Whole b (streamAppend b m data len) (load m data (toInt32 len).toNat) := by
  have range : -2^31 ≤ toInt32 len ∧ toInt32 len < 2^31 := by
    unfold toInt32
    omega
  by_cases negative : toInt32 len < 0
  · have room := availSize inside
    have size : kSmallBuffer = 4000 := rfl
    have huge : 2^63 ≤ toSizeT (toInt32 len) := by
      unfold toSizeT
      omega
    have refused : ¬(toSizeT (avail kSmallBuffer b) > toSizeT (toInt32 len)) := by omega
    rw [streamAppend,append,if_neg refused]
    exact wholeNone inside _
  · have whole := wholeAppend inside m data (toSizeT (toInt32 len))
    rw [toSizeTSmall (by omega) (by omega)] at whole
    rw [streamAppend,toSizeTSmall (by omega) (by omega)]
    exact whole

theorem wholeDebugString {b : FixedBuffer} (inside : b.cur < kSmallBuffer) : Whole b (debugString b) [] where
  inside := inside
  frame _ beyond := storeOutside b.data (Or.inr (Nat.le_trans inside beyond))
  atomic := Or.inr (loadStoreDisjoint b.data (Or.inl (Nat.le_of_eq (Nat.zero_add _))))

section
variable {Double : Type} {format : Double → List UInt8}

theorem stepWhole (short : ∀ v, (format v).length < kMaxNumericSize) {b : FixedBuffer}
    (inside : b.cur < kSmallBuffer) {op : Op Double} (adds : op ≠ .reset) :
    Whole b (step format b op) (text format op) := by
  have most : kMaxNumericSize = 48 := rfl
  cases op with
  | bool v => exact wholeAppendText inside _
  | char v => exact wholeAppendText inside _
  | integer t v =>
    have length := signedDecimalLength v
    simp only [step,formatIntegerText]
    exact wholeNumeric inside (by simp only [promote]; omega)
  | pointer p =>
    have length := hexadecimalLength p
    simp only [step,putPointerText]
    refine wholeNumeric inside ?_
    rw [List.length_append]
    simp only [List.length_cons,List.length_nil]
    omega
  | double v =>
    simp only [step,putDoubleText b v (short v)]
    exact wholeNumeric inside (short v)
  | string v => exact wholeAppendText inside _
  | cString str =>
    cases str with
    | some str => exact wholeAppendText inside _
    | none => exact wholeAppendText inside _
  | buffer v => exact wholeAppendText inside _
  | append m data len => exact wholeStreamAppend inside m data len
  | reset => exact absurd rfl adds
  | debugString => exact wholeDebugString inside

/- What is kept from one operation to the next. -/
theorem stepInside (short : ∀ v, (format v).length < kMaxNumericSize) {b : FixedBuffer}
    (inside : b.cur < kSmallBuffer) (op : Op Double) :
    (step format b op).cur < kSmallBuffer ∧ ∀ x, kSmallBuffer ≤ x → (step format b op).data x = b.data x := by
  by_cases adds : op = .reset
  · subst adds
    exact ⟨Nat.succ_pos _,fun _ _ => rfl⟩
  · have whole := stepWhole short inside adds
    exact ⟨whole.inside,whole.frame⟩

theorem runInside (short : ∀ v, (format v).length < kMaxNumericSize) {b : FixedBuffer}
    (inside : b.cur < kSmallBuffer) (ops : List (Op Double)) :
    (runOps format b ops).cur < kSmallBuffer ∧
      ∀ x, kSmallBuffer ≤ x → (runOps format b ops).data x = b.data x := by
  induction ops generalizing b with
  | nil => exact ⟨inside,fun _ _ => rfl⟩
  | cons op ops ih =>
    have here := stepInside short inside op
    have later := ih here.1
    exact ⟨later.1,fun x beyond => (later.2 x beyond).trans (here.2 x beyond)⟩

/-- After any operations on a new buffer the length is within the array, nothing behind the
array has changed, and one more operation adds its whole text or nothing; reset empties it. -/
theorem streamNeverOverflows (short : ∀ v, (format v).length < kMaxNumericSize) {b : FixedBuffer}
    (fresh : b.cur = 0) (ops : List (Op Double)) :
    (0 ≤ length (runOps format b ops) ∧ length (runOps format b ops) ≤ kSmallBuffer - 1) ∧
    (∀ x, kSmallBuffer ≤ x → (runOps format b ops).data x = b.data x) ∧
    content (step format (runOps format b ops) .reset) = [] ∧
    ∀ op, op ≠ .reset →
      content (step format (runOps format b ops) op) = content (runOps format b ops) ++ text format op ∨
      content (step format (runOps format b ops) op) = content (runOps format b ops) := by
  have size : kSmallBuffer = 4000 := rfl
  have kept := runInside short (b := b) (by omega) ops
  have narrow : length (runOps format b ops) = (runOps format b ops).cur :=
    toInt32Small (by omega) (by omega)
  refine ⟨⟨by omega,by omega⟩,kept.2,rfl,?_⟩
  intro op adds
  exact (stepWhole short kept.1 adds).atomic

/- A double of one digit, the least short, and a negative length. -/
theorem streamNeverOverflowsThree :
    let b : FixedBuffer := ⟨fun _ => 7,0⟩
    let format : Fin 10 → List UInt8 := fun v => [Decimal.digit v]
    let ops : List (Op (Fin 10)) :=
      [.double 5,.integer .short ⟨-32768,by decide⟩,.append (fun _ => 7) 0 (-1)]
    (0 ≤ length (runOps format b ops) ∧ length (runOps format b ops) ≤ kSmallBuffer - 1) ∧
    ∀ x, kSmallBuffer ≤ x → (runOps format b ops).data x = b.data x := by
  intro b format ops
  have short : ∀ v, (format v).length < kMaxNumericSize := fun _ => (by decide : 1 < 48)
  have all := streamNeverOverflows short (b := b) rfl ops
  exact ⟨all.1,all.2.1⟩

end

end TitCo.StreamText
