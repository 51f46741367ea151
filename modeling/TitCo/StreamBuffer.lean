import TitCo.ByteMemory
import TitCo.MachineInt

/-! FixedBuffer and Stream of stream.h, as far as the private stack of a coroutine
uses them: append is all or nothing, `size` is the capacity and not the length. -/
namespace TitCo.StreamBuffer
open ByteMemory MachineInt

def kSmallBuffer : Nat := 4000

/-- `cur` is cur_ - data_. -/
structure FixedBuffer where
  data : Memory
  cur : Nat

def avail (size : Nat) (b : FixedBuffer) : Int := size - b.cur

/-- `len` is a size_t; the source is the block at address `buf` of memory `m`. -/
def append (size : Nat) (b : FixedBuffer) (m : Memory) (buf len : Nat) : FixedBuffer :=
  if toSizeT (avail size b) > len then ⟨store b.data b.cur (load m buf len),b.cur + len⟩ else b

def reset (b : FixedBuffer) : FixedBuffer := {b with cur := 0}

/-- Stream::append takes an int and passes it on as a size_t. -/
def streamAppend (b : FixedBuffer) (m : Memory) (data : Nat) (len : Int) : FixedBuffer :=
  append kSmallBuffer b m data (toSizeT (toInt32 len))

def streamSize (_ : FixedBuffer) : Nat := kSmallBuffer

theorem streamAppendReset (b : FixedBuffer) (m : Memory) (data len : Nat) (room : len < kSmallBuffer) :
    streamAppend (reset b) m data len = ⟨store b.data 0 (load m data len),len⟩ := by
  have size : kSmallBuffer = 4000 := rfl
  have narrow : toInt32 len = len := toInt32Small (by omega) (by omega)
  have wide : toSizeT (len : Int) = len := by rw [toSizeTSmall (by omega) (by omega)]; omega
  have space : toSizeT (avail kSmallBuffer (reset b)) = kSmallBuffer := by
    simp [avail,reset,toSizeT,size]
  rw [streamAppend,narrow,wide,append,space,if_pos room]
  simp [reset]

end TitCo.StreamBuffer
