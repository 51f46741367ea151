import TitCo.ByteMemory
import TitCo.Queue
import TitCo.Sock
import TitCo.Transfer

/-! co::recvn with its pointer: the memory that ::recv writes to, what the kernel is asked for
and what it hands out. `Sock.recvn` is the same call without the buffer. -/
namespace TitCo.SockRecvn
open ByteMemory Queue Sock Transfer

/-- One ::recv(fd, s, remain, 0), and how many bytes had been handed out before it. -/
structure Ask where
  s : Nat
  remain : Nat
  taken : Nat
  deriving DecidableEq, Repr

/-- `taken` is what the kernel has handed out and `rest` what it has not; no result is a call that
still waits. -/
structure Call where
  mem : Memory
  taken : Bytes
  asks : List Ask
  rest : List Arrival
  result : Option Int

def recvnLoop (n : Nat) (mem : Memory) (s remain : Nat) (taken : Bytes) (asks : List Ask) : List Arrival → Call
  | [] => ⟨mem,taken,asks,[],none⟩
  | arrival :: rest =>
    let asks := asks ++ [⟨s,remain,taken.length⟩]
    match arrival with
    | .bytes chunk =>
      let part := chunk.take remain
      let mem := store mem s part
      let taken := taken ++ part
      let left := putBack (chunk.drop remain) rest
      if part.length = remain then ⟨mem,taken,asks,left,some n⟩
      else if part.length = 0 then ⟨mem,taken,asks,left,some 0⟩
      else recvnLoop n mem (s + part.length) (remain - part.length) taken asks rest
    | .again woken =>
      if woken then recvnLoop n mem s remain taken asks rest else ⟨mem,taken,asks,rest,some (-1)⟩
    | .interrupted => recvnLoop n mem s remain taken asks rest
    | .endOfStream => if remain = 0 then ⟨mem,taken,asks,rest,some n⟩ else ⟨mem,taken,asks,rest,some 0⟩
    | .hardError => ⟨mem,taken,asks,rest,some (-1)⟩

def recvn (mem : Memory) (buf n : Nat) (script : List Arrival) : Call := recvnLoop n mem buf n [] [] script

/-- The kernel never answers with an empty chunk; that would be the end of the stream. -/
def Chunks (script : List Arrival) : Prop := .bytes [] ∉ script

/-- n bytes arrive before any end of stream, error or timeout. -/
def Arrives (n : Nat) (script : List Arrival) : Prop :=
  ∃ before after, script = before ++ after ∧ Intact before ∧ n ≤ (bytesOf before).length

/-- `a` comes when fewer than n bytes have arrived and nothing else has ended the call. -/
def Meets (n : Nat) (a : Arrival) (script : List Arrival) : Prop :=
  ∃ before after, script = before ++ a :: after ∧ Intact before ∧ (bytesOf before).length < n

structure Exact (mem : Memory) (buf n : Nat) (script : List Arrival) (c : Call) : Prop where
  full : c.result = some (n : Int) ↔ Arrives n script
  data : c.result = some (n : Int) → load c.mem buf n = (bytesOf script).take n
  asks : ∀ a ∈ c.asks, a.s = buf + a.taken ∧ a.remain = n - a.taken
  order : bytesOf script = c.taken ++ bytesOf c.rest
  bound : c.taken.length ≤ n
  outside : ∀ x, x < buf ∨ buf + n ≤ x → c.mem x = mem x
  ended : c.result = some 0 ↔ Meets n .endOfStream script
  failed : c.result = some (-1) ↔ Meets n (.again false) script ∨ Meets n .hardError script
  codes : ∀ r, c.result = some r → r = n ∨ r = 0 ∨ r = -1

/- How each arrival moves the loop on. -/
def outcome : Arrival → Outcome
  | .bytes chunk => if chunk = [] then .stop 0 else .moved chunk.length
  | .again woken => if woken then .retry else .stop (-1)
  | .interrupted => .retry
  | .endOfStream => .stop 0
  | .hardError => .stop (-1)

def Call.read (n : Nat) (c : Call) : ReadResult :=
  match c.result with
  | none => .blocked c.taken
  | some r => if r = n then .complete c.taken c.rest else .returned r c.rest

section
variable {n s remain buf : Nat} {mem : Memory} {taken : Bytes} {asks : List Ask} {script : List Arrival}

theorem recvnLoopRead (positive : 0 < remain) (whole : 0 < n) :
    (recvnLoop n mem s remain taken asks script).read n = Sock.recvnLoop taken remain script := by
  have zero : (0 : Int) ≠ n := by omega
  have minus : (-1 : Int) ≠ n := by omega
  induction script generalizing mem s remain taken asks with
  | nil => rfl
  | cons a script ih =>
    cases a with
    | bytes chunk =>
      simp only [recvnLoop,Sock.recvnLoop,List.length_take]
      by_cases last : remain ≤ chunk.length
      · rw [if_pos (Nat.min_eq_left last),if_pos last]
        simp [Call.read]
      · rw [if_neg (by omega),if_neg last]
        by_cases empty : chunk = []
        · subst chunk
          simp [Call.read,zero,putBack]
        · have some_ := List.length_pos_iff.2 empty
          rw [if_neg (by omega),if_neg empty,ih (by omega),List.take_of_length_le (by omega),
            Nat.min_eq_right (by omega)]
    | again woken =>
      cases woken with
      | true => exact ih positive
      | false => simp [recvnLoop,Sock.recvnLoop,Call.read,minus]
    | interrupted => exact ih positive
    | endOfStream =>
      simp only [recvnLoop,Sock.recvnLoop,if_neg (Nat.ne_of_gt positive)]
      simp [Call.read,zero]
    | hardError => simp [recvnLoop,Sock.recvnLoop,Call.read,minus]

/- Without the buffer the call is the one that the framing is read with. -/
theorem recvnRead (mem : Memory) (buf : Nat) (positive : 1 ≤ n) :
    (recvn mem buf n script).read n = Sock.recvn n script :=
  recvnLoopRead positive positive

theorem recvnLoopTransfer (positive : 0 < remain) (sum : taken.length + remain = n) :
    (recvnLoop n mem s remain taken asks script).taken.length = (transfer n taken.length (script.map outcome)).1 ∧
    (recvnLoop n mem s remain taken asks script).result = (transfer n taken.length (script.map outcome)).2 := by
  induction script generalizing mem s remain taken asks with
  | nil => exact ⟨rfl,rfl⟩
  | cons a script ih =>
    cases a with
    | bytes chunk =>
      simp only [recvnLoop,List.map_cons,outcome,List.length_take]
      by_cases empty : chunk = []
      · subst chunk
        rw [if_neg (by simp; omega),if_pos (by simp)]
        exact ⟨by simp [transfer],rfl⟩
      · have some_ := List.length_pos_iff.2 empty
        simp only [if_neg empty,transfer]
        by_cases last : remain ≤ chunk.length
        · rw [if_pos (Nat.min_eq_left last),if_pos (by omega)]
          exact ⟨by simp; omega,rfl⟩
        · have short : (taken ++ chunk.take remain).length = taken.length + chunk.length := by
            rw [List.length_append,List.length_take]
            omega
          rw [if_neg (by omega),if_neg (by omega),if_neg (by omega),← short]
          exact ih (by omega) (by omega)
    | again woken =>
      cases woken with
      | true => exact ih positive sum
      | false => exact ⟨rfl,rfl⟩
    | interrupted => exact ih positive sum
    | endOfStream =>
      simp only [recvnLoop,if_neg (Nat.ne_of_gt positive)]
      exact ⟨rfl,rfl⟩
    | hardError => exact ⟨rfl,rfl⟩

/- The pointer stands behind what has been taken, and that is what the buffer holds. -/
structure Placed (mem : Memory) (buf n : Nat) (stream : Bytes) (c : Call) : Prop where
  data : load c.mem buf c.taken.length = c.taken
  asks : ∀ a ∈ c.asks, a.s = buf + a.taken ∧ a.remain = n - a.taken
  order : stream = c.taken ++ bytesOf c.rest
  bound : c.taken.length ≤ n
  outside : ∀ x, x < buf ∨ buf + n ≤ x → c.mem x = mem x

theorem recvnLoopPlaced (held : load mem buf taken.length = taken) (pointer : s = buf + taken.length)
    (sum : taken.length + remain = n) (asked : ∀ a ∈ asks, a.s = buf + a.taken ∧ a.remain = n - a.taken) :
    Placed mem buf n (taken ++ bytesOf script) (recvnLoop n mem s remain taken asks script) := by
  have small : taken.length ≤ n := by omega
  induction script generalizing mem s remain taken asks with
  | nil => exact ⟨held,asked,rfl,small,fun _ _ => rfl⟩
  | cons a script ih =>
    have next : ∀ a ∈ asks ++ [⟨s,remain,taken.length⟩], a.s = buf + a.taken ∧ a.remain = n - a.taken :=
      allPush asked ⟨pointer,by simp only; omega⟩
    cases a with
    | bytes chunk =>
      have part : (chunk.take remain).length ≤ remain := List.length_take_le _ _
      have stored := loadStoreNext (chunk.take remain) held
      rw [← pointer] at stored
      have left : taken ++ bytesOf (.bytes chunk :: script) =
          (taken ++ chunk.take remain) ++ bytesOf (putBack (chunk.drop remain) script) := by
        rw [bytesOfPutBack,List.append_assoc,← List.append_assoc (chunk.take remain),List.take_append_drop]
        rfl
      have kept : ∀ x, x < buf ∨ buf + n ≤ x → store mem s (chunk.take remain) x = mem x :=
        fun x out => storeOutside mem (by omega)
      have fits : (taken ++ chunk.take remain).length ≤ n := by
        rw [List.length_append]
        omega
      simp only [recvnLoop]
      split
      · exact ⟨stored,next,left,fits,kept⟩
      · split
        · exact ⟨stored,next,left,fits,kept⟩
        · rename_i short _
          have whole : chunk.take remain = chunk := by
            rw [List.length_take] at short
            exact List.take_of_length_le (by omega)
          rw [whole] at stored fits kept short
          rw [whole]
          have ahead : s + chunk.length = buf + (taken ++ chunk).length := by
            rw [pointer,List.length_append,Nat.add_assoc]
          have rest : (taken ++ chunk).length + (remain - chunk.length) = n := by
            rw [List.length_append] at fits ⊢
            omega
          have later := ih stored ahead rest next fits
          refine {later with order := ?_, outside := ?_}
          · rw [← later.order,List.append_assoc]
            rfl
          · intro x out
            rw [later.outside x out,kept x out]
    | again woken =>
      cases woken with
      | true => exact ih held pointer sum next small
      | false => exact ⟨held,next,rfl,small,fun _ _ => rfl⟩
    | interrupted => exact ih held pointer sum next small
    | endOfStream =>
      simp only [recvnLoop]
      split
      · exact ⟨held,next,rfl,small,fun _ _ => rfl⟩
      · exact ⟨held,next,rfl,small,fun _ _ => rfl⟩
    | hardError => exact ⟨held,next,rfl,small,fun _ _ => rfl⟩

theorem outcomeDelivers (a : Arrival) : (∀ r, outcome a ≠ .stop r) ↔ a.delivers = true := by
  cases a with
  | bytes chunk => by_cases empty : chunk = [] <;> simp [outcome,Arrival.delivers,empty]
  | again woken => cases woken <;> simp [outcome,Arrival.delivers]
  | interrupted => simp [outcome,Arrival.delivers]
  | endOfStream => simp [outcome,Arrival.delivers]
  | hardError => simp [outcome,Arrival.delivers]

theorem goingOutcome : Going (script.map outcome) ↔ Intact script := by
  constructor
  · intro going a inside
    refine (outcomeDelivers a).1 (fun r same => going r ?_)
    rw [← same]
    exact List.mem_map_of_mem inside
  · intro intact r inside
    obtain ⟨a,found,same⟩ := List.mem_map.1 inside
    exact (outcomeDelivers a).2 (intact a found) r same

theorem amountOutcome (intact : Intact script) : amount (script.map outcome) = (bytesOf script).length := by
  induction script with
  | nil => rfl
  | cons a script ih =>
    have rest := ih (intactTail intact)
    have here := intact a (by simp)
    cases a with
    | bytes chunk =>
      have some_ : chunk ≠ [] := by simpa [Arrival.delivers] using here
      simp only [List.map_cons,outcome,if_neg some_,amount,rest,bytesOf,List.length_append]
    | again woken =>
      cases woken with
      | true => exact rest
      | false => simp [Arrival.delivers] at here
    | interrupted => exact rest
    | endOfStream => simp [Arrival.delivers] at here
    | hardError => simp [Arrival.delivers] at here

theorem reachesArrives : Reaches n 0 (script.map outcome) ↔ Arrives n script := by
  rw [reachesMap (fun _ => goingOutcome) (fun _ => amountOutcome)]
  simp only [Arrives,Nat.zero_add]

theorem stopsMeets {r : Int} : Stops n 0 r (script.map outcome) ↔ ∃ a, outcome a = .stop r ∧ Meets n a script := by
  rw [stopsMap (fun _ => goingOutcome) (fun _ => amountOutcome)]
  simp only [Nat.zero_add]
  constructor
  · rintro ⟨before,a,after,shape,stops,intact,short⟩
    exact ⟨a,stops,before,after,shape,intact,short⟩
  · rintro ⟨a,stops,before,after,shape,intact,short⟩
    exact ⟨before,a,after,shape,stops,intact,short⟩

theorem outcomeStop {a : Arrival} {r : Int} (stops : outcome a = .stop r) :
    r = 0 ∧ (a = .bytes [] ∨ a = .endOfStream) ∨ r = -1 ∧ (a = .again false ∨ a = .hardError) := by
  cases a with
  | bytes chunk =>
    simp only [outcome] at stops
    split at stops <;> try contradiction
    rename_i empty
    cases stops
    exact Or.inl ⟨rfl,Or.inl (by rw [empty])⟩
  | again woken =>
    cases woken with
    | true => simp [outcome] at stops
    | false => cases stops; exact Or.inr ⟨rfl,Or.inl rfl⟩
  | interrupted => simp [outcome] at stops
  | endOfStream => cases stops; exact Or.inl ⟨rfl,Or.inr rfl⟩
  | hardError => cases stops; exact Or.inr ⟨rfl,Or.inr rfl⟩

theorem stopCodes {r : Int} (inside : .stop r ∈ script.map outcome) : r = 0 ∨ r = -1 := by
  obtain ⟨a,_,same⟩ := List.mem_map.1 inside
  exact (outcomeStop same).imp And.left And.left

theorem meetsMem {a : Arrival} (meets : Meets n a script) : a ∈ script := by
  obtain ⟨before,after,rfl,_⟩ := meets
  simp

end

/-- For every n, buffer and kernel, recvn returns n exactly when n bytes arrive in time, and takes
and stores no byte but those. -/
theorem recvnExact (mem : Memory) (buf n : Nat) (script : List Arrival) (positive : 1 ≤ n) (chunks : Chunks script) :
    Exact mem buf n script (recvn mem buf n script) := by
  have placed : Placed mem buf n ([] ++ bytesOf script) (recvn mem buf n script) :=
    recvnLoopPlaced rfl rfl (Nat.zero_add n) (by simp)
  have moves : (recvn mem buf n script).taken.length = (transfer n 0 (script.map outcome)).1 ∧
      (recvn mem buf n script).result = (transfer n 0 (script.map outcome)).2 :=
    recvnLoopTransfer positive (Nat.zero_add n)
  have codes : ∀ r : Int, .stop r ∈ script.map outcome → r ≠ n := by
    intro r inside
    rcases stopCodes inside with rfl | rfl <;> omega
  have stopped : ∀ r : Int, r ≠ n →
      ((recvn mem buf n script).result = some r ↔ ∃ a, outcome a = .stop r ∧ Meets n a script) := by
    intro r other
    rw [moves.2,transferStopped positive other,stopsMeets]
  refine ⟨?_,?_,placed.asks,placed.order,placed.bound,placed.outside,?_,?_,?_⟩
  · rw [moves.2,transferFull positive codes,reachesArrives]
  · intro full
    have whole : (recvn mem buf n script).taken.length = n := by
      rw [moves.1]
      exact (transferWhole positive codes).2 (moves.2.symm.trans full)
    have order : bytesOf script = (recvn mem buf n script).taken ++ bytesOf (recvn mem buf n script).rest := placed.order
    rw [order,List.take_left' whole,← placed.data,whole]
  · rw [stopped 0 (by omega)]
    constructor
    · rintro ⟨a,stops,meets⟩
      rcases outcomeStop stops with ⟨_,rfl | rfl⟩ | ⟨minus,_⟩
      · exact absurd (meetsMem meets) chunks
      · exact meets
      · contradiction
    · exact fun meets => ⟨_,rfl,meets⟩
  · rw [stopped (-1) (by omega)]
    constructor
    · rintro ⟨a,stops,meets⟩
      rcases outcomeStop stops with ⟨zero,_⟩ | ⟨_,rfl | rfl⟩
      · contradiction
      · exact Or.inl meets
      · exact Or.inr meets
    · rintro (meets | meets)
      · exact ⟨_,rfl,meets⟩
      · exact ⟨_,rfl,meets⟩
  · intro r ended
    rw [moves.2] at ended
    exact (transferCode ended).imp_right stopCodes

/- Five bytes in two chunks, with a signal and a wait between them; the sixth one stays. -/
theorem fiveBytesExact : Exact (fun _ => 0) 64 5 [.bytes [1,2],.interrupted,.again true,.bytes [3,4,5,6]]
      (recvn (fun _ => 0) 64 5 [.bytes [1,2],.interrupted,.again true,.bytes [3,4,5,6]]) ∧
    (recvn (fun _ => 0) 64 5 [.bytes [1,2],.interrupted,.again true,.bytes [3,4,5,6]]).result = some 5 :=
  ⟨recvnExact (fun _ => 0) 64 5 [.bytes [1,2],.interrupted,.again true,.bytes [3,4,5,6]] (by decide)
    (by unfold Chunks; decide),rfl⟩

end TitCo.SockRecvn
