import TitCo.ByteMemory
import TitCo.Queue
import TitCo.Transfer
import Mathlib.Algebra.GroupWithZero.Nat

/-! co::send and co::sendto of sock.cc, over a script of what the kernel answers. The two run the
same loop around different syscalls. A script that is used up leaves the call suspended. -/
namespace TitCo.SockSend
open ByteMemory Queue Transfer

abbrev Bytes := List UInt8

/-- What the next ::send or ::sendto meets. The kernel accepts at most what it is offered; `again`
says what the wait after EAGAIN returns. -/
inductive Answer where
  | accepted (k : Nat)
  | again (woken : Bool)
  | interrupted
  | hardError
  deriving DecidableEq, Repr

structure Address where
  addr : Nat
  addrlen : Int
  deriving DecidableEq, Repr

/-- One syscall: ::send has no `dst`. `sent` is how many bytes had been accepted before it. -/
structure Offer where
  s : Nat
  remain : Nat
  dst : Option Address
  sent : Nat
  deriving DecidableEq, Repr

structure Call where
  sent : Bytes
  offers : List Offer
  result : Option Int
  deriving DecidableEq, Repr

def sendLoop (dst : Option Address) (n : Nat) (mem : Memory) (s remain : Nat) (sent : Bytes) (offers : List Offer) :
    List Answer → Call
  | [] => ⟨sent,offers,none⟩
  | answer :: rest =>
    let offers := offers ++ [⟨s,remain,dst,sent.length⟩]
    match answer with
    | .accepted k =>
      let r := min k remain
      let sent := sent ++ load mem s r
      if r = remain then ⟨sent,offers,some n⟩
      else sendLoop dst n mem (s+r) (remain-r) sent offers rest
    | .again woken => if woken then sendLoop dst n mem s remain sent offers rest else ⟨sent,offers,some (-1)⟩
    | .interrupted => sendLoop dst n mem s remain sent offers rest
    | .hardError => ⟨sent,offers,some (-1)⟩

/- The buffer is const: `mem` stays as it is while the call is suspended. -/
def send (mem : Memory) (buf n : Nat) (script : List Answer) : Call := sendLoop none n mem buf n [] [] script

def sendto (mem : Memory) (buf n : Nat) (addr : Address) (script : List Answer) : Call :=
  sendLoop (some addr) n mem buf n [] [] script

def Answer.takes : Answer → Nat
  | .accepted k => k
  | _ => 0

def Answer.fails : Answer → Bool
  | .again woken => !woken
  | .hardError => true
  | _ => false

def Lasting (script : List Answer) : Prop := ∀ a ∈ script, a.fails = false

/-- The kernel takes n bytes before any timeout or hard error. -/
def Accepts (n : Nat) (script : List Answer) : Prop :=
  ∃ before after, script = before ++ after ∧ Lasting before ∧ n ≤ (before.map Answer.takes).sum

/-- A timeout or a hard error comes while some of the n bytes are left. -/
def Fails (n : Nat) (script : List Answer) : Prop :=
  ∃ before a after, script = before ++ a :: after ∧ Lasting before ∧ a.fails = true ∧
    (before.map Answer.takes).sum < n

structure Exact (mem : Memory) (buf n : Nat) (script : List Answer) (c : Call) : Prop where
  order : c.sent <+: load mem buf n
  offers : ∀ o ∈ c.offers, o.s = buf + o.sent ∧ o.remain = n - o.sent
  full : c.result = some (n : Int) ↔ c.sent = load mem buf n
  accepts : c.result = some (n : Int) ↔ Accepts n script
  failed : c.result = some (-1) ↔ Fails n script
  codes : ∀ r, c.result = some r → r = n ∨ r = -1

def outcome : Answer → Outcome
  | .accepted k => .moved k
  | .again woken => if woken then .retry else .stop (-1)
  | .interrupted => .retry
  | .hardError => .stop (-1)

section
variable {dst : Option Address} {n s remain buf : Nat} {mem : Memory} {sent : Bytes} {offers : List Offer}
  {script : List Answer}

theorem outcomeFails (a : Answer) : (a.fails = false ∧ (∀ r, outcome a ≠ .stop r)) ∨
    (a.fails = true ∧ outcome a = .stop (-1)) := by
  cases a with
  | accepted k => exact Or.inl ⟨rfl,by simp [outcome]⟩
  | again woken =>
    cases woken with
    | true => exact Or.inl ⟨rfl,by simp [outcome]⟩
    | false => exact Or.inr ⟨rfl,rfl⟩
  | interrupted => exact Or.inl ⟨rfl,by simp [outcome]⟩
  | hardError => exact Or.inr ⟨rfl,rfl⟩

theorem outcomeStop {a : Answer} {r : Int} : outcome a = .stop r ↔ a.fails = true ∧ r = -1 := by
  rcases outcomeFails a with ⟨lasts,goes⟩ | ⟨fails,stops⟩
  · refine iff_of_false (goes r) ?_
    rw [lasts]
    simp
  · rw [fails,stops]
    simp [eq_comm]

theorem goingOutcome : Going (script.map outcome) ↔ Lasting script := by
  constructor
  · intro going a inside
    rcases outcomeFails a with ⟨lasts,_⟩ | ⟨_,stops⟩
    · exact lasts
    · refine absurd ?_ (going (-1))
      rw [← stops]
      exact List.mem_map_of_mem inside
  · intro lasting r inside
    obtain ⟨a,found,same⟩ := List.mem_map.1 inside
    have fails := (outcomeStop.1 same).1
    rw [lasting a found] at fails
    contradiction

theorem amountOutcome : amount (script.map outcome) = (script.map Answer.takes).sum := by
  induction script with
  | nil => rfl
  | cons a script ih =>
    rw [List.map_cons,List.map_cons,List.sum_cons,← ih]
    cases a with
    | accepted k => rfl
    | again woken => cases woken <;> simp [outcome,amount,Answer.takes]
    | interrupted => simp [outcome,amount,Answer.takes]
    | hardError => simp [outcome,amount,Answer.takes]

theorem reachesAccepts : Reaches n 0 (script.map outcome) ↔ Accepts n script := by
  rw [reachesMap (fun _ => goingOutcome) (fun _ _ => amountOutcome)]
  simp only [Accepts,Nat.zero_add]

theorem stopsFails : Stops n 0 (-1) (script.map outcome) ↔ Fails n script := by
  rw [stopsMap (fun _ => goingOutcome) (fun _ _ => amountOutcome)]
  simp only [outcomeStop,Nat.zero_add]
  constructor
  · rintro ⟨before,a,after,shape,stops,lasting,short⟩
    exact ⟨before,a,after,shape,lasting,stops.1,short⟩
  · rintro ⟨before,a,after,shape,lasting,fails,short⟩
    exact ⟨before,a,after,shape,⟨fails,trivial⟩,lasting,short⟩

theorem stopCodes {r : Int} (inside : .stop r ∈ script.map outcome) : r = -1 := by
  obtain ⟨a,_,same⟩ := List.mem_map.1 inside
  exact (outcomeStop.1 same).2

theorem sendLoopTransfer (positive : 0 < remain) (sum : sent.length + remain = n) :
    (sendLoop dst n mem s remain sent offers script).sent.length = (transfer n sent.length (script.map outcome)).1 ∧
    (sendLoop dst n mem s remain sent offers script).result = (transfer n sent.length (script.map outcome)).2 := by
  induction script generalizing s remain sent offers with
  | nil => exact ⟨rfl,rfl⟩
  | cons a script ih =>
    cases a with
    | accepted k =>
      simp only [sendLoop,List.map_cons,outcome,transfer]
      by_cases last : remain ≤ k
      · rw [if_pos (Nat.min_eq_right last),if_pos (by omega)]
        exact ⟨by simp; omega,rfl⟩
      · have part : min k remain = k := by omega
        have next : (sent ++ load mem s k).length = sent.length + k := by simp
        rw [part,if_neg (by omega),if_neg (by omega),← next]
        exact ih (by omega) (by omega)
    | again woken =>
      cases woken with
      | true => exact ih positive sum
      | false => exact ⟨rfl,rfl⟩
    | interrupted => exact ih positive sum
    | hardError => exact ⟨rfl,rfl⟩

/- What has been accepted lies between buf and s. -/
theorem sendLoopPlaced (held : sent = load mem buf sent.length) (pointer : s = buf + sent.length)
    (sum : sent.length + remain = n) (offered : ∀ o ∈ offers, o.s = buf + o.sent ∧ o.remain = n - o.sent) :
    (sendLoop dst n mem s remain sent offers script).sent =
      load mem buf (sendLoop dst n mem s remain sent offers script).sent.length ∧
    ∀ o ∈ (sendLoop dst n mem s remain sent offers script).offers, o.s = buf + o.sent ∧ o.remain = n - o.sent := by
  induction script generalizing s remain sent offers with
  | nil => exact ⟨held,offered⟩
  | cons a script ih =>
    have next : ∀ o ∈ offers ++ [⟨s,remain,dst,sent.length⟩], o.s = buf + o.sent ∧ o.remain = n - o.sent :=
      allPush offered ⟨pointer,by simp only; omega⟩
    cases a with
    | accepted k =>
      have more : (sent ++ load mem s (min k remain)).length = sent.length + min k remain := by simp
      have longer : sent ++ load mem s (min k remain) = load mem buf (sent ++ load mem s (min k remain)).length := by
        rw [more,loadAppend,← held,pointer]
      simp only [sendLoop]
      split
      · exact ⟨longer,next⟩
      · exact ih longer (by omega) (by omega) next
    | again woken =>
      cases woken with
      | true => exact ih held pointer sum next
      | false => exact ⟨held,next⟩
    | interrupted => exact ih held pointer sum next
    | hardError => exact ⟨held,next⟩

theorem sendLoopExact (positive : 1 ≤ n) : Exact mem buf n script (sendLoop dst n mem buf n [] [] script) := by
  generalize called : sendLoop dst n mem buf n [] [] script = c
  have moves : c.sent.length = (transfer n 0 (script.map outcome)).1 ∧
      c.result = (transfer n 0 (script.map outcome)).2 := by
    rw [← called]
    exact sendLoopTransfer positive (Nat.zero_add n)
  have placed : c.sent = load mem buf c.sent.length ∧
      ∀ o ∈ c.offers, o.s = buf + o.sent ∧ o.remain = n - o.sent := by
    rw [← called]
    exact sendLoopPlaced rfl rfl (Nat.zero_add n) (by simp)
  have codes : ∀ r : Int, .stop r ∈ script.map outcome → r ≠ n := by
    intro r inside
    have minus := stopCodes inside
    omega
  have bound : c.sent.length ≤ n := by
    rw [moves.1]
    exact transferBound (Nat.zero_le n)
  refine ⟨?_,placed.2,?_,?_,?_,?_⟩
  · have split : load mem buf n = c.sent ++ load mem (buf + c.sent.length) (n - c.sent.length) := by
      conv_lhs => rw [← Nat.add_sub_of_le bound,loadAppend,← placed.1]
    exact ⟨_,split.symm⟩
  · rw [moves.2,← transferWhole positive codes]
    constructor
    · intro whole
      rw [placed.1,moves.1]
      exact congrArg _ whole
    · intro same
      have length := congrArg List.length same
      rw [moves.1,loadLength] at length
      exact length
  · rw [moves.2,← reachesAccepts]
    exact transferFull positive codes
  · rw [moves.2,← stopsFails]
    exact transferStopped positive (by omega)
  · intro r ended
    rw [moves.2] at ended
    exact (transferCode ended).imp_right stopCodes

def Offer.readdress (dst : Option Address) (o : Offer) : Offer := {o with dst := dst}

/- Where the bytes go to changes nothing else. -/
theorem sendLoopDst (other : Option Address) :
    sendLoop other n mem s remain sent (offers.map (Offer.readdress other)) script =
      let c := sendLoop dst n mem s remain sent offers script
      {c with offers := c.offers.map (Offer.readdress other)} := by
  induction script generalizing s remain sent offers with
  | nil => rfl
  | cons a script ih =>
    have next : offers.map (Offer.readdress other) ++ [⟨s,remain,other,sent.length⟩] =
        (offers ++ [(⟨s,remain,dst,sent.length⟩ : Offer)]).map (Offer.readdress other) := by
      rw [List.map_append]
      rfl
    cases a with
    | accepted k =>
      simp only [sendLoop,next]
      split
      · rfl
      · exact ih
    | again woken =>
      cases woken with
      | true =>
        simp only [sendLoop,next]
        exact ih
      | false => simp only [sendLoop,next,Bool.false_eq_true,if_false]
    | interrupted =>
      simp only [sendLoop,next]
      exact ih
    | hardError => simp only [sendLoop,next]

end

/-- Whatever the kernel answers, what it has accepted is a part of the buffer from its start, and
send and sendto return n exactly when that is all of it. -/
theorem sendExact (mem : Memory) (buf n : Nat) (script : List Answer) (addr : Address) (positive : 1 ≤ n) :
    Exact mem buf n script (send mem buf n script) ∧
    Exact mem buf n script (sendto mem buf n addr script) ∧
    sendto mem buf n addr script = {send mem buf n script with
      offers := (send mem buf n script).offers.map (Offer.readdress (some addr))} :=
  ⟨sendLoopExact positive,sendLoopExact positive,@sendLoopDst none n buf n mem [] [] script (some addr)⟩

def counting : Memory := fun x => UInt8.ofNat x

/- Three bytes in two writes, with a signal and a wait between them. -/
def twoWrites : List Answer := [.accepted 1,.interrupted,.again true,.accepted 2]

theorem threeBytesExact : Exact counting 5 3 twoWrites (sendto counting 5 3 ⟨96,16⟩ twoWrites) ∧
    (send counting 5 3 twoWrites).sent = [5,6,7] ∧ (send counting 5 3 twoWrites).result = some 3 :=
  ⟨(sendExact counting 5 3 twoWrites ⟨96,16⟩ (by decide)).2.1,rfl,rfl⟩

end TitCo.SockSend
