import Mathlib.Data.List.Basic

/-! co::recvn of sock.cc over a script of what the kernel answers. A script that is
used up leaves the call suspended in IOEvent::wait, which is not an error. -/
namespace TitCo.Sock

abbrev Bytes := List UInt8

/-- What the next ::recv of a socket meets. A chunk longer than the caller asks for
is handed out in parts; `again` says what the wait after EAGAIN returns. -/
inductive Arrival where
  | bytes (chunk : Bytes)
  | again (woken : Bool)
  | interrupted
  | endOfStream
  | hardError
  deriving DecidableEq, Repr

/-- `blocked` holds the bytes that the suspended call has already stored. -/
inductive ReadResult where
  | complete (data : Bytes) (rest : List Arrival)
  | returned (r : Int) (rest : List Arrival)
  | blocked (data : Bytes)
  deriving DecidableEq, Repr

def putBack (chunk : Bytes) (rest : List Arrival) : List Arrival :=
  if chunk = [] then rest else .bytes chunk :: rest

/-- `got` is what lies between buf and s, `remain` the bytes still missing. -/
def recvnLoop (got : Bytes) (remain : Nat) : List Arrival → ReadResult
  | [] => .blocked got
  | .bytes chunk :: rest =>
    if remain ≤ chunk.length then .complete (got ++ chunk.take remain) (putBack (chunk.drop remain) rest)
    else if chunk = [] then .returned 0 rest
    else recvnLoop (got ++ chunk) (remain - chunk.length) rest
  | .again woken :: rest => if woken then recvnLoop got remain rest else .returned (-1) rest
  | .interrupted :: rest => recvnLoop got remain rest
  | .endOfStream :: rest => if remain = 0 then .complete got rest else .returned 0 rest
  | .hardError :: rest => .returned (-1) rest

def recvn (n : Nat) (script : List Arrival) : ReadResult := recvnLoop [] n script

def bytesOf : List Arrival → Bytes
  | [] => []
  | .bytes chunk :: rest => chunk ++ bytesOf rest
  | _ :: rest => bytesOf rest

/-- A stream that only delivers: nonempty chunks, waits that end in a wakeup, signals. -/
def Arrival.delivers : Arrival → Bool
  | .bytes chunk => !chunk.isEmpty
  | .again woken => woken
  | .interrupted => true
  | _ => false

def Intact (script : List Arrival) : Prop := ∀ a ∈ script, a.delivers = true

theorem intactTail {a : Arrival} {rest : List Arrival} (intact : Intact (a::rest)) : Intact rest :=
  fun b hb => intact b (List.mem_cons_of_mem a hb)

theorem intactPutBack {chunk : Bytes} {rest : List Arrival} (intact : Intact rest) :
    Intact (putBack chunk rest) := by
  unfold putBack
  split
  · exact intact
  · intro a ha
    rcases List.mem_cons.1 ha with rfl | inside
    · simpa [Arrival.delivers] using ‹_›
    · exact intact a inside

theorem bytesOfPutBack (chunk : Bytes) (rest : List Arrival) :
    bytesOf (putBack chunk rest) = chunk ++ bytesOf rest := by
  unfold putBack
  split
  · simp_all
  · rfl

theorem recvnLoopComplete (got : Bytes) (remain : Nat) (script : List Arrival) (intact : Intact script)
    (positive : 0 < remain) (enough : remain ≤ (bytesOf script).length) :
    ∃ rest, recvnLoop got remain script = .complete (got ++ (bytesOf script).take remain) rest ∧
      Intact rest ∧ bytesOf rest = (bytesOf script).drop remain := by
  induction script generalizing got remain with
  | nil => simp [bytesOf] at enough; omega
  | cons a script ih =>
    have tail := intactTail intact
    have here := intact a (by simp)
    cases a with
    | bytes chunk =>
      simp only [recvnLoop,bytesOf]
      by_cases last : remain ≤ chunk.length
      · rw [if_pos last]
        refine ⟨putBack (chunk.drop remain) script,?_,intactPutBack tail,?_⟩
        · rw [List.take_append_of_le_length last]
        · rw [bytesOfPutBack,List.drop_append_of_le_length last]
      · have nonempty : chunk ≠ [] := by simpa [Arrival.delivers] using here
        have length : (bytesOf (.bytes chunk :: script)).length = chunk.length + (bytesOf script).length := by
          simp [bytesOf]
        obtain ⟨rest,result,restIntact,left⟩ :=
          ih (got ++ chunk) (remain - chunk.length) tail (by omega) (by omega)
        have beyond : chunk.length ≤ remain := by omega
        rw [if_neg last,if_neg nonempty,result]
        refine ⟨rest,?_,restIntact,?_⟩
        · rw [List.take_append,List.take_of_length_le beyond,List.append_assoc]
        · rw [left,List.drop_append,List.drop_of_length_le beyond,List.nil_append]
    | again woken =>
      cases woken with
      | true => exact ih got remain tail positive enough
      | false => simp [Arrival.delivers] at here
    | interrupted => exact ih got remain tail positive enough
    | endOfStream => simp [Arrival.delivers] at here
    | hardError => simp [Arrival.delivers] at here

theorem recvnLoopBlocked (got : Bytes) (remain : Nat) (script : List Arrival) (intact : Intact script)
    (short : (bytesOf script).length < remain) : recvnLoop got remain script = .blocked (got ++ bytesOf script) := by
  induction script generalizing got remain with
  | nil => simp [recvnLoop,bytesOf]
  | cons a script ih =>
    have tail := intactTail intact
    have here := intact a (by simp)
    cases a with
    | bytes chunk =>
      have nonempty : chunk ≠ [] := by simpa [Arrival.delivers] using here
      simp only [bytesOf,List.length_append] at short ⊢
      rw [recvnLoop,if_neg (by omega),if_neg nonempty,ih _ _ tail (by omega),List.append_assoc]
    | again woken =>
      cases woken with
      | true => exact ih got remain tail short
      | false => simp [Arrival.delivers] at here
    | interrupted => exact ih got remain tail short
    | endOfStream => simp [Arrival.delivers] at here
    | hardError => simp [Arrival.delivers] at here

theorem recvnLoopLength {got data : Bytes} {remain : Nat} {script rest : List Arrival}
    (h : recvnLoop got remain script = .complete data rest) : data.length = got.length + remain := by
  induction script generalizing got remain with
  | nil => simp [recvnLoop] at h
  | cons a script ih =>
    cases a with
    | bytes chunk =>
      simp only [recvnLoop] at h
      split at h
      · cases h
        rw [List.length_append,List.length_take,Nat.min_eq_left ‹_›]
      · split at h <;> try contradiction
        have length := ih h
        rw [List.length_append] at length
        omega
    | again woken =>
      cases woken with
      | true => exact ih h
      | false => simp [recvnLoop] at h
    | interrupted => exact ih h
    | endOfStream =>
      simp only [recvnLoop] at h
      split at h <;> try contradiction
      cases h
      omega
    | hardError => simp [recvnLoop] at h

end TitCo.Sock
