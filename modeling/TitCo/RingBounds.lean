import TitCo.ChannelRep

/-! The ring against what the constructor has allocated for it, for any int capacity and
any element size: cap * sizeof(T) is a size_t that is narrowed to uint32 unchecked. -/
namespace TitCo.RingBounds
open Channel ChannelRep MachineInt Transition ByteMemory

/-- Channel<T>(cap, ms) with sizeof(T) = size. -/
def construct (raw : Memory) (cap : Int) (size ms : Nat) : ChannelImpl :=
  ⟨raw,toUint32 (toSizeT (toSizeT cap * size : Nat)),toUint32 size,0,0,ms,false,[]⟩

def start (raw : Memory) (cap : Int) (size ms : Nat) : State :=
  ⟨construct raw cap size ms,.initial,fun _ => .read,[]⟩

/-- The offsets at which Read copies a block out of buf_ and, for a writer that waits, one into it. -/
def readAccesses (c : ChannelImpl) (h : Heap) : List Nat :=
  if c.rx ≠ c.wx then [c.rx]
  else if c.full = false then []
  else match claim h c.waitQueue with
    | (some _,_) => [c.rx,c.wx]
    | (none,_) => [c.rx]

def writeAccesses (c : ChannelImpl) (h : Heap) : List Nat :=
  if c.wx ≠ c.rx then [c.wx]
  else if c.full = false then
    match claim h c.waitQueue with
    | (some _,_) => []
    | (none,_) => [c.wx]
  else []

def accesses (s : State) : Event → List Nat
  | .read _ _ _ => readAccesses s.chan s.heap
  | .write _ _ _ _ => writeAccesses s.chan s.heap
  | .expire _ => []

/-- Every block that any run copies lies in the bytes that buf_ was given. -/
def Inside (raw : Memory) (cap : Int) (size ms : Nat) : Prop :=
  ∀ es s e t, run step (start raw cap size ms) es = some s → step s e = some t →
    ∀ x ∈ accesses s e, x + s.chan.blkSize ≤ (construct raw cap size ms).bufSize

/-- The bytes allocated are a whole and positive number of blocks; or a block is empty. -/
def WholeBlocks (cap : Int) (size : Nat) : Prop :=
  toUint32 size = 0 ∨ (0 < toUint32 (cap * size) ∧ toUint32 size ∣ toUint32 (cap * size))

/- The conversion to size_t does not change what is left modulo 2^32. -/
theorem constructSize (raw : Memory) (cap : Int) (size ms : Nat) :
    (construct raw cap size ms).bufSize = toUint32 (cap * size) := by
  have wide : (toSizeT cap : Int) = cap % 2^64 := by
    unfold toSizeT
    omega
  have product : (toSizeT (toSizeT cap * size : Nat) : Int) = cap * size % 2^64 := by
    have cast : ((toSizeT cap * size : Nat) : Int) = cap % 2^64 * size := by rw [Int.natCast_mul,wide]
    have wrapped : (toSizeT (toSizeT cap * size : Nat) : Int) = (toSizeT cap * size : Nat) % 2^64 := by
      unfold toSizeT
      omega
    rw [wrapped,cast,Int.mul_emod,Int.emod_emod,← Int.mul_emod]
  simp only [construct,toUint32]
  rw [product]
  omega

structure Room (b size : Nat) (x : Nat) : Prop where
  multiple : b ∣ x
  below : x + b ≤ size

/-- What every call leaves: the sizes as they were made, the offsets at whole blocks. -/
structure Bounded (b size : Nat) (c : ChannelImpl) : Prop where
  block : c.blkSize = b
  total : c.bufSize = size
  rx : Room b size c.rx
  wx : Room b size c.wx

/- The new offsets of a call are old ones, advanced or not. -/
def Moved (c d : ChannelImpl) : Prop :=
  d.blkSize = c.blkSize ∧ d.bufSize = c.bufSize ∧ (d.rx = c.rx ∨ d.rx = c.advance c.rx) ∧
    (d.wx = c.wx ∨ d.wx = c.advance c.wx)

theorem markFullMoved (c : ChannelImpl) (v : Value) : Moved c (c.put v).markFull := by
  unfold ChannelImpl.markFull
  split
  · exact ⟨rfl,rfl,Or.inl rfl,Or.inr rfl⟩
  · exact ⟨rfl,rfl,Or.inl rfl,Or.inr rfl⟩

theorem readMoved (c : ChannelImpl) (h : Heap) (raw co : Nat) (onStack : Bool) :
    Moved c (readSection c h raw co onStack).1 := by
  unfold readSection
  split
  · exact ⟨rfl,rfl,Or.inr rfl,Or.inl rfl⟩
  · split
    · exact ⟨rfl,rfl,Or.inl rfl,Or.inl rfl⟩
    · split
      · exact ⟨rfl,rfl,Or.inr rfl,Or.inr rfl⟩
      · exact ⟨rfl,rfl,Or.inr rfl,Or.inl rfl⟩

theorem writeMoved (c : ChannelImpl) (h : Heap) (raw co : Nat) (onStack : Bool) (v : Value) :
    Moved c (writeSection c h raw co onStack v).1 := by
  unfold writeSection
  split
  · exact markFullMoved c v
  · split
    · split
      · exact ⟨rfl,rfl,Or.inl rfl,Or.inl rfl⟩
      · exact markFullMoved c v
    · exact ⟨rfl,rfl,Or.inl rfl,Or.inl rfl⟩

section
variable {b size : Nat} {c d : ChannelImpl}

theorem advanceRoom (whole : b = 0 ∨ (0 < size ∧ b ∣ size)) (small : size < 2^32) (bounded : Bounded b size c)
    {x : Nat} (room : Room b size x) : Room b size (c.advance x) := by
  have narrow : toUint32 (x + b : Nat) = x + b := by
    have below := room.below
    exact toUint32Small (by omega)
  unfold ChannelImpl.advance
  rw [bounded.block,bounded.total,narrow]
  simp only
  split
  · rename_i wrapped
    refine ⟨Nat.dvd_zero b,?_⟩
    have below := room.below
    omega
  · rename_i inner
    have multiple : b ∣ x + b := Nat.dvd_add room.multiple (Nat.dvd_refl b)
    refine ⟨multiple,?_⟩
    rcases whole with none | ⟨_,divides⟩
    · have below := room.below
      omega
    · obtain ⟨k,hk⟩ := multiple
      obtain ⟨n,hn⟩ := divides
      have less : b*k < b*n := by
        have below := room.below
        omega
      have fewer : k < n := Nat.lt_of_mul_lt_mul_left less
      calc x + b + b = b*(k+1) := by rw [hk,Nat.mul_succ]
        _ ≤ b*n := Nat.mul_le_mul_left b fewer
        _ = size := hn.symm

theorem boundedMoved (whole : b = 0 ∨ (0 < size ∧ b ∣ size)) (small : size < 2^32) (bounded : Bounded b size c)
    (moved : Moved c d) : Bounded b size d := by
  obtain ⟨block,total,rx,wx⟩ := moved
  refine ⟨block.trans bounded.block,total.trans bounded.total,?_,?_⟩
  · rcases rx with same | next
    · rw [same]
      exact bounded.rx
    · rw [next]
      exact advanceRoom whole small bounded bounded.rx
  · rcases wx with same | next
    · rw [same]
      exact bounded.wx
    · rw [next]
      exact advanceRoom whole small bounded bounded.wx

theorem stepBounded (whole : b = 0 ∨ (0 < size ∧ b ∣ size)) (small : size < 2^32) {s t : State} {e : Event}
    (bounded : Bounded b size s.chan) (h : step s e = some t) : Bounded b size t.chan := by
  cases e with
  | read co raw onStack =>
    cases Option.some.inj h
    exact boundedMoved whole small bounded (readMoved _ _ raw co onStack)
  | write co raw onStack v =>
    simp only [step] at h
    split at h
    · cases Option.some.inj h
      exact boundedMoved whole small bounded (writeMoved _ _ raw co onStack v)
    · contradiction
  | expire w =>
    simp only [step] at h
    split at h
    · cases Option.some.inj h
      exact bounded
    · contradiction

/- Every access is at one of the two offsets. -/
theorem accessOffset {s : State} {e : Event} {x : Nat} (inside : x ∈ accesses s e) :
    x = s.chan.rx ∨ x = s.chan.wx := by
  cases e with
  | read co raw onStack =>
    simp only [accesses,readAccesses] at inside
    split at inside
    · exact Or.inl (List.mem_singleton.1 inside)
    · split at inside
      · contradiction
      · split at inside
        · simpa using inside
        · exact Or.inl (List.mem_singleton.1 inside)
  | write co raw onStack v =>
    simp only [accesses,writeAccesses] at inside
    split at inside
    · exact Or.inr (List.mem_singleton.1 inside)
    · split at inside
      · split at inside
        · contradiction
        · exact Or.inr (List.mem_singleton.1 inside)
      · contradiction
  | expire w => contradiction

end

/-- What `i` writes without a read have made of a new channel. -/
structure Climbed (b size i : Nat) (s : State) : Prop where
  block : s.chan.blkSize = b
  total : s.chan.bufSize = size
  rx : s.chan.rx = 0
  wx : s.chan.wx = i*b
  partly : s.chan.full = false
  none : s.chan.waitQueue = []

def fill (b : Nat) : Event := .write 0 0 false (List.replicate b 0)

section
variable {b size i : Nat} {s : State}

theorem fillSection (climbed : Climbed b size i s) (v : Value) :
    (writeSection s.chan s.heap 0 0 false v).1 = (s.chan.put v).markFull := by
  have queue := climbed.none
  unfold writeSection
  split
  · rfl
  · rw [if_pos climbed.partly,queue]
    simp only [claim]
    unfold ChannelImpl.markFull
    split
    · simp only [ChannelImpl.put,queue]
    · simp only [ChannelImpl.put]
      rw [← queue]

theorem fillAccess (climbed : Climbed b size i s) : i*b ∈ accesses s (fill b) := by
  have queue := climbed.none
  simp only [fill,accesses,writeAccesses]
  rw [climbed.partly,queue,climbed.wx]
  split
  · exact List.mem_singleton.2 rfl
  · simp [claim]

theorem fillStep (climbed : Climbed b size i s) : ∃ t, step s (fill b) = some t ∧
    t.chan = (s.chan.put (List.replicate b 0)).markFull := by
  refine ⟨s.after .write (writeSection s.chan s.heap 0 0 false (List.replicate b 0)).1
    (writeSection s.chan s.heap 0 0 false (List.replicate b 0)).2.1,?_,fillSection climbed _⟩
  simp only [fill,step]
  rw [if_pos]
  rw [List.length_replicate,climbed.block]

/- One more block that ends before the end leaves the reader where it was. -/
theorem climb (block : 0 < b) (small : size < 2^32) (climbed : Climbed b size i s) (more : (i+1)*b < size) :
    ∃ t, step s (fill b) = some t ∧ Climbed b size (i+1) t := by
  obtain ⟨t,ht,chan⟩ := fillStep climbed
  have sum : i*b + b = (i+1)*b := (Nat.add_one_mul i b).symm
  have positive : 0 < (i+1)*b := Nat.mul_pos (Nat.succ_pos i) block
  have narrow : toUint32 (i*b + b : Nat) = (i+1)*b := by
    rw [sum]
    exact toUint32Small (by omega)
  have next : s.chan.advance s.chan.wx = (i+1)*b := by
    unfold ChannelImpl.advance
    rw [climbed.block,climbed.total,climbed.wx,narrow]
    simp only
    rw [if_neg (by omega)]
  have apart : (s.chan.put (List.replicate b 0)).wx ≠ (s.chan.put (List.replicate b 0)).rx := by
    change s.chan.advance s.chan.wx ≠ s.chan.rx
    rw [next,climbed.rx]
    omega
  rw [ChannelImpl.markFull,if_neg apart] at chan
  refine ⟨t,ht,?_,?_,?_,?_,?_,?_⟩ <;> rw [chan]
  · exact climbed.block
  · exact climbed.total
  · exact climbed.rx
  · exact next
  · exact climbed.partly
  · exact climbed.none

theorem climbRun (block : 0 < b) (small : size < 2^32) (n : Nat) (climbed : Climbed b size i s)
    (more : n = 0 ∨ (i+n)*b < size) :
    ∃ t, run step s (List.replicate n (fill b)) = some t ∧ Climbed b size (i+n) t := by
  induction n generalizing i s with
  | zero => exact ⟨s,rfl,climbed⟩
  | succ n ih =>
    have last : (i+(n+1))*b < size := more.resolve_left (Nat.succ_ne_zero n)
    have first : (i+1)*b < size := Nat.lt_of_le_of_lt (Nat.mul_le_mul_right b (by omega)) last
    obtain ⟨m,hm,next⟩ := climb block small climbed first
    have sum : i + 1 + n = i + (n+1) := by omega
    obtain ⟨t,ht,done⟩ := ih next (Or.inr (by rw [sum]; exact last))
    rw [sum] at done
    exact ⟨t,by simp only [List.replicate_succ,run,hm,bind,Option.bind,ht],done⟩

end

section
variable {raw : Memory} {cap : Int} {size ms : Nat}

theorem startClimbed : Climbed (toUint32 size) (toUint32 (cap * size)) 0 (start raw cap size ms) :=
  ⟨rfl,constructSize raw cap size ms,rfl,(Nat.zero_mul _).symm,rfl,rfl⟩

/- As many writes as whole blocks fit, and one more. -/
theorem crossing (block : 0 < toUint32 size)
    (torn : toUint32 (cap * size) = 0 ∨ ¬toUint32 size ∣ toUint32 (cap * size)) : ¬Inside raw cap size ms := by
  intro inside
  have total := constructSize raw cap size ms
  have room : toUint32 (cap * size) / toUint32 size = 0 ∨
      (0 + toUint32 (cap * size) / toUint32 size) * toUint32 size < toUint32 (cap * size) := by
    rcases torn with none | rest
    · left
      rw [none,Nat.zero_div]
    · right
      rw [Nat.zero_add]
      have atMost := Nat.div_mul_le_self (toUint32 (cap * size)) (toUint32 size)
      have differ : toUint32 (cap * size) / toUint32 size * toUint32 size ≠ toUint32 (cap * size) :=
        fun same => rest ⟨_,same.symm.trans (Nat.mul_comm _ _)⟩
      omega
  obtain ⟨s,reached,climbed⟩ := climbRun block (toUint32Less _) _ startClimbed room
  obtain ⟨t,ht,_⟩ := fillStep climbed
  have bound := inside _ s _ t reached ht _ (fillAccess climbed)
  have past := Nat.lt_div_mul_add block (a := toUint32 (cap * size))
  rw [climbed.block,total,Nat.zero_add] at bound
  omega

/-- Every block that Read and Write copy, in every run, lies in the bytes allocated exactly
when these are a positive number of whole blocks. -/
theorem ringInside : Inside raw cap size ms ↔ WholeBlocks cap size := by
  have total := constructSize raw cap size ms
  constructor
  · intro inside
    by_contra torn
    have block : toUint32 size ≠ 0 := fun none => torn (Or.inl none)
    refine crossing (by omega) ?_ inside
    by_contra neither
    obtain ⟨some,divides⟩ := not_or.1 neither
    exact torn (Or.inr ⟨by omega,not_not.1 divides⟩)
  · intro whole es s e t reached h x access
    have first : Room (toUint32 size) (toUint32 (cap * size)) 0 := by
      refine ⟨Nat.dvd_zero _,?_⟩
      rcases whole with none | ⟨positive,divides⟩
      · omega
      · have := Nat.le_of_dvd positive divides
        omega
    have new : Bounded (toUint32 size) (toUint32 (cap * size)) (start raw cap size ms).chan :=
      ⟨rfl,total,first,first⟩
    have keep : ∀ (s : State) e t, Bounded (toUint32 size) (toUint32 (cap * size)) s.chan → step s e = some t →
        Bounded (toUint32 size) (toUint32 (cap * size)) t.chan :=
      fun _ _ _ bounded h => stepBounded whole (toUint32Less _) bounded h
    have bounded := runInvariant keep reached new
    rw [total,bounded.block]
    rcases accessOffset access with same | same
    · rw [same]
      exact bounded.rx.below
    · rw [same]
      exact bounded.wx.below

end

/-- Channel<int>(0): the first write copies four bytes to a block of none. -/
theorem emptyCrossed : ¬Inside (fun _ => 0) 0 4 uint32Max := by
  intro inside
  have first := inside [] _ (.write 0 0 false [1,2,3,4]) _ rfl rfl 0 (List.mem_singleton.2 rfl)
  exact absurd first (by decide)

end TitCo.RingBounds
