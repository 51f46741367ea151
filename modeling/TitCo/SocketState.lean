import TitCo.Transition

/-! Socket and the TcpConn it holds: connected_, fd_ and the sock_ of the connection, kept by
different methods. CHECK only logs, so an operation goes on behind one that does not hold. -/
namespace TitCo.SocketState
open Transition

def kInvalidFd : Int := -1

/-- `conn` is the sock_ of conn_, none while conn_ is null. local_addr_ and remote_addr_ are
set together, by the first Init or Connect that gets to them. -/
structure Socket where
  fd : Int
  connected : Bool
  conn : Option Int
  named : Bool
  deriving DecidableEq, Repr

def Socket.create : Socket := ⟨kInvalidFd,false,none,false⟩

inductive Kernel where
  | opened (fd : Int)
  | used (fd : Int)
  | closed (fd : Int)
  deriving DecidableEq, Repr

/-- TcpConn::Close, Reset and the destructor; Reset sets an option first, on the same fd. -/
def connClose (sock : Int) : List Kernel := if sock ≠ -1 then [.closed sock] else []
def connReset (sock : Int) : List Kernel := if sock ≠ -1 then [.used sock,.closed sock] else []

/-- InitLocalAddr and InitRemoteAddr. -/
def initAddrs (s : Socket) : Socket × List Kernel :=
  if s.named then (s,[]) else ({s with named := true},[.used s.fd,.used s.fd])

/-- The assignment to conn_ destroys the connection held so far. -/
def init (s : Socket) (fd : Int) : Socket × List Kernel :=
  if fd = kInvalidFd then (s,[])
  else
    let named := initAddrs {s with fd := fd, conn := some fd, connected := true}
    (named.1,[.used fd] ++ (s.conn.elim [] connClose) ++ named.2)

def createSocket (s : Socket) (newFd : Int) : Socket × List Kernel :=
  let made := init {s with fd := newFd} newFd
  (made.1,(if newFd = kInvalidFd then [] else [.opened newFd]) ++ made.2)

def ensure (s : Socket) (newFd : Int) : Socket × List Kernel :=
  if s.fd = kInvalidFd then createSocket s newFd else (s,[])

def bind (s : Socket) (newFd : Int) : Socket × List Kernel :=
  let made := ensure s newFd
  (made.1,made.2 ++ [.used made.1.fd])

def listen (s : Socket) : Socket × List Kernel := (s,[.used s.fd])

/-- The listening side of Accept; the socket it returns starts from `accepted`. -/
def accept (s : Socket) : Socket × List Kernel := (s,[.used s.fd])
def accepted (clientSock : Int) : Socket := (init .create clientSock).1

/-- `newFd` is what socket() returns, and `ok` says that co::connect returns 0. -/
def connect (s : Socket) (newFd : Int) (ok : Bool) : Socket × List Kernel :=
  let made := ensure s newFd
  if ok then
    let named := initAddrs made.1
    (named.1,made.2 ++ [.used made.1.fd] ++ named.2)
  else (made.1,made.2 ++ [.used made.1.fd])

/-- Recv, Recvn and Send, through a null pointer before the first Init. -/
def transfer (s : Socket) : Option (Socket × List Kernel) := s.conn.map (fun sock => (s,[.used sock]))

def close (s : Socket) : Option (Socket × List Kernel) :=
  if s.connected = false then some (s,[])
  else s.conn.map (fun sock => ({s with connected := false, conn := some (-1)},connClose sock))

def reset (s : Socket) : Option (Socket × List Kernel) :=
  s.conn.map (fun sock => ({s with conn := some (-1)},connReset sock))

/-- What a socket is for, which its user decides. -/
inductive Role where
  | client | server
  | accepted (clientSock : Int)
  deriving DecidableEq, Repr

/-- `alive` says that the last Connect or Accept has succeeded and that the connection has not
been closed since; `gone` are the descriptors that this Socket has closed and not been given
again, and `misused` says that one of them has been passed to the kernel. -/
structure State where
  sock : Socket
  alive : Bool
  gone : List Int
  misused : Bool
  deriving DecidableEq, Repr

def watch (s : State) : Kernel → State
  | .opened fd => {s with gone := s.gone.filter (fun x => x ≠ fd)}
  | .used fd => {s with misused := s.misused || s.gone.contains fd}
  | .closed fd => {s with misused := s.misused || s.gone.contains fd, gone := fd :: s.gone}

def State.after (s : State) (r : Socket × List Kernel) (alive : Bool) : State :=
  {r.2.foldl watch s with sock := r.1, alive := alive}

inductive Event where
  | createSocket (newFd : Int)
  | bind (newFd : Int)
  | listen
  | accept
  | connect (newFd : Int) (ok : Bool)
  | transfer
  | close
  | reset
  deriving DecidableEq, Repr

/-- socket() returns -1, or a descriptor that is not open. -/
def Fresh (s : State) (newFd : Int) : Prop := newFd = kInvalidFd ∨ (0 ≤ newFd ∧ s.sock.conn ≠ some newFd)

instance (s : State) (newFd : Int) : Decidable (Fresh s newFd) := by
  unfold Fresh; infer_instance

/-- A new descriptor replaces the connection there was. -/
def aliveAfter (s : State) (newFd : Int) : Bool := if newFd = kInvalidFd then s.alive else false

/-- Connecting -1 fails. -/
def step (s : State) : Event → Option State
  | .createSocket newFd =>
      if Fresh s newFd then some (s.after (createSocket s.sock newFd) (aliveAfter s newFd)) else none
  | .bind newFd =>
      if Fresh s newFd then
        some (s.after (bind s.sock newFd) (if s.sock.fd = kInvalidFd then aliveAfter s newFd else s.alive))
      else none
  | .listen => some (s.after (listen s.sock) s.alive)
  | .accept => some (s.after (accept s.sock) s.alive)
  | .connect newFd ok =>
      if Fresh s newFd ∧ (ok = true → s.sock.fd ≠ kInvalidFd ∨ newFd ≠ kInvalidFd) then
        some (s.after (connect s.sock newFd ok) ok)
      else none
  | .transfer => (transfer s.sock).map (fun r => s.after r s.alive)
  | .close => (close s.sock).map (fun r => s.after r false)
  | .reset => (reset s.sock).map (fun r => s.after r false)

def start : Role → State
  | .client | .server => ⟨.create,false,[],false⟩
  | .accepted clientSock => ⟨accepted clientSock,clientSock ≠ kInvalidFd,[],false⟩

/-- connected() of a client or accepted socket tells the truth, and no closed descriptor has
reached the kernel. -/
structure Truthful (role : Role) (s : State) : Prop where
  connected : role ≠ .server → s.sock.connected = s.alive
  open_ : s.misused = false

/-- No descriptor is made but by a Connect that succeeds, a connected socket is not connected
again in vain nor reset, and none is used behind its Close. -/
def Clean (role : Role) (s : State) : Event → Prop
  | .createSocket newFd => role = .server ∨ newFd = kInvalidFd
  | .bind newFd => if s.sock.fd = kInvalidFd then role = .server ∨ newFd = kInvalidFd else s.sock.fd ∉ s.gone
  | .listen | .accept => s.sock.fd ∉ s.gone
  | .connect newFd ok =>
      if s.sock.fd = kInvalidFd then
        role = .server ∨ (if newFd = kInvalidFd then s.sock.connected = false else ok = true)
      else s.sock.fd ∉ s.gone ∧ (role = .server ∨ s.sock.connected = ok)
  | .reset => role = .server ∨ s.sock.connected = false
  | .transfer | .close => True

instance (role : Role) (s : State) (e : Event) : Decidable (Clean role s e) := by
  cases e <;> unfold Clean <;> infer_instance

/-- The connection's own descriptor is never one that was closed. -/
structure Inv (s : State) : Prop where
  conn : ∀ x, s.sock.conn = some x → x ∉ s.gone
  invalid : kInvalidFd ∉ s.gone
  wired : s.sock.connected = true → s.sock.conn ≠ none

section
variable {s t : State} {e : Event} {role : Role} {fd newFd : Int}

@[simp] theorem watchUsed (here : fd ∉ s.gone) : watch s (.used fd) = s := by
  simp [watch,here]

theorem connCloseWatch {x : Int} (here : x ∉ s.gone) :
    ∃ gone, (connClose x).foldl watch s = {s with gone := gone} ∧
      ∀ y, y ∈ gone → y ∈ s.gone ∨ (y = x ∧ x ≠ -1) := by
  unfold connClose
  split
  · rename_i open_
    refine ⟨x :: s.gone,by simp [watch,here],?_⟩
    intro y hy
    rcases List.mem_cons.1 hy with rfl | old
    · exact Or.inr ⟨rfl,open_⟩
    · exact Or.inl old
  · exact ⟨s.gone,rfl,fun y hy => Or.inl hy⟩

theorem connResetWatch {x : Int} (here : x ∉ s.gone) :
    (connReset x).foldl watch s = (connClose x).foldl watch s := by
  unfold connReset connClose
  split
  · rw [List.foldl_cons,watchUsed here]
  · rfl

theorem createRefused (s : Socket) : createSocket s kInvalidFd = ({s with fd := kInvalidFd},[]) := rfl

/- A new descriptor is nobody's; the connection it replaces is closed, and was open. -/
theorem createWatch (inv : Inv s) (valid : newFd ≠ kInvalidFd) (fresh : s.sock.conn ≠ some newFd) :
    (createSocket s.sock newFd).1 = ⟨newFd,true,some newFd,true⟩ ∧
    ∃ gone, (createSocket s.sock newFd).2.foldl watch s = {s with gone := gone} ∧ newFd ∉ gone ∧ kInvalidFd ∉ gone := by
  have shape : (createSocket s.sock newFd).1 = ⟨newFd,true,some newFd,true⟩ := by
    unfold createSocket init initAddrs
    simp only [if_neg valid]
    split
    · rename_i named
      rw [named]
    · rfl
  refine ⟨shape,?_⟩
  let opened : State := {s with gone := s.gone.filter (fun x => x ≠ newFd)}
  have own : newFd ∉ opened.gone := by simp [opened]
  have replaced : ∃ gone, (s.sock.conn.elim [] connClose).foldl watch opened = {opened with gone := gone} ∧
      newFd ∉ gone ∧ kInvalidFd ∉ gone := by
    cases held : s.sock.conn with
    | none => exact ⟨opened.gone,rfl,own,fun inside => inv.invalid (List.mem_filter.1 inside).1⟩
    | some x =>
      have open_ : x ∉ opened.gone := fun inside => inv.conn x held (List.mem_filter.1 inside).1
      obtain ⟨gone,run,part⟩ := connCloseWatch open_
      refine ⟨gone,run,?_,?_⟩
      · intro inside
        rcases part _ inside with old | ⟨same,_⟩
        · exact own old
        · exact fresh (by rw [held,same])
      · intro inside
        rcases part _ inside with old | ⟨same,differ⟩
        · exact inv.invalid (List.mem_filter.1 old).1
        · exact differ same.symm
  obtain ⟨gone,run,mine,invalid⟩ := replaced
  refine ⟨gone,?_,mine,invalid⟩
  have first : [Kernel.opened newFd].foldl watch s = opened := rfl
  have second : [Kernel.used newFd].foldl watch opened = opened := watchUsed own
  have last : ∀ named : Bool, (if named then [] else [Kernel.used newFd,.used newFd]).foldl watch
      {opened with gone := gone} = {opened with gone := gone} := by
    intro named
    cases named with
    | true => rfl
    | false =>
      have free : newFd ∉ ({opened with gone := gone} : State).gone := mine
      simp only [Bool.false_eq_true,if_false,List.foldl_cons,List.foldl_nil]
      rw [watchUsed free,watchUsed free]
  have calls : (createSocket s.sock newFd).2 =
      [.opened newFd] ++ ([.used newFd] ++ (s.sock.conn.elim [] connClose) ++
        (if s.sock.named then [] else [.used newFd,.used newFd])) := by
    unfold createSocket init initAddrs
    simp only [if_neg valid]
    split
    · rfl
    · rfl
  rw [calls,List.foldl_append,List.foldl_append,List.foldl_append,first,second,run,last]

theorem truthfulIff : Truthful role t ↔ (role = .server ∨ t.sock.connected = t.alive) ∧ t.misused = false := by
  constructor
  · rintro ⟨connected,open_⟩
    exact ⟨Classical.or_iff_not_imp_left.2 connected,open_⟩
  · rintro ⟨connected,open_⟩
    exact ⟨fun other => connected.resolve_left other,open_⟩

/- A system call on `fd`, made once or several times in a row. -/
theorem usedTwice (s : State) (fd : Int) : watch (watch s (.used fd)) (.used fd) = watch s (.used fd) := by
  simp [watch]

theorem usedMisused (fd : Int) : (watch s (.used fd)).misused = false ↔ s.misused = false ∧ fd ∉ s.gone := by
  simp [watch]

theorem invAfter (inv : Inv s) (conn : t.sock.conn = s.sock.conn) (connected : t.sock.connected = s.sock.connected)
    (gone : t.gone = s.gone) : Inv t := by
  refine ⟨?_,?_,?_⟩
  · rw [conn,gone]
    exact inv.conn
  · rw [gone]
    exact inv.invalid
  · rw [conn,connected]
    exact inv.wired

theorem createInv {gone : List Int} {alive misused : Bool} (mine : newFd ∉ gone) (invalid : kInvalidFd ∉ gone) :
    Inv ⟨⟨newFd,true,some newFd,true⟩,alive,gone,misused⟩ := by
  refine ⟨?_,invalid,by simp⟩
  intro x hx
  cases Option.some.inj hx
  exact mine

theorem createStep (inv : Inv s) (good : Truthful role s) (h : step s (.createSocket newFd) = some t) :
    Inv t ∧ (Truthful role t ↔ Clean role s (.createSocket newFd)) := by
  simp only [step] at h
  split at h <;> try contradiction
  rename_i fresh
  cases Option.some.inj h
  obtain ⟨truth,open_⟩ := truthfulIff.1 good
  rw [truthfulIff]
  by_cases refused : newFd = kInvalidFd
  · subst newFd
    rw [createRefused]
    refine ⟨invAfter inv rfl rfl rfl,?_⟩
    simpa [State.after,aliveAfter,Clean] using ⟨truth,open_⟩
  · have other := (fresh.resolve_left refused).2
    obtain ⟨sock,gone,run,mine,invalid⟩ := createWatch inv refused other
    unfold State.after
    rw [run,sock]
    refine ⟨createInv mine invalid,?_⟩
    simp [aliveAfter,refused,open_,Clean]

/- What Bind and Connect find: the descriptor there was, or a new one. -/
theorem ensureWatch (inv : Inv s) (fresh : Fresh s newFd) :
    (ensure s.sock newFd = (s.sock,[]) ∧ (s.sock.fd ≠ kInvalidFd ∨ newFd = kInvalidFd)) ∨
    (s.sock.fd = kInvalidFd ∧ newFd ≠ kInvalidFd ∧ (ensure s.sock newFd).1 = ⟨newFd,true,some newFd,true⟩ ∧
      ∃ gone, (ensure s.sock newFd).2.foldl watch s = {s with gone := gone} ∧ newFd ∉ gone ∧ kInvalidFd ∉ gone) := by
  unfold ensure
  by_cases none : s.sock.fd = kInvalidFd
  · rw [if_pos none]
    by_cases refused : newFd = kInvalidFd
    · left
      subst newFd
      refine ⟨?_,Or.inr rfl⟩
      rw [createRefused,← none]
    · exact Or.inr ⟨none,refused,createWatch inv refused (fresh.resolve_left refused).2⟩
  · rw [if_neg none]
    exact Or.inl ⟨rfl,Or.inl none⟩

theorem bindStep (inv : Inv s) (good : Truthful role s) (h : step s (.bind newFd) = some t) :
    Inv t ∧ (Truthful role t ↔ Clean role s (.bind newFd)) := by
  simp only [step] at h
  split at h <;> try contradiction
  rename_i fresh
  cases Option.some.inj h
  obtain ⟨truth,open_⟩ := truthfulIff.1 good
  rw [truthfulIff]
  unfold State.after bind
  rcases ensureWatch inv fresh with ⟨same,known⟩ | ⟨none,valid,sock,gone,run,mine,invalid⟩
  · rw [same]
    refine ⟨invAfter inv rfl rfl rfl,?_⟩
    simp only [List.nil_append,List.foldl_cons,List.foldl_nil,usedMisused,Clean]
    by_cases none : s.sock.fd = kInvalidFd
    · have refused := known.resolve_left (not_not.2 none)
      simp only [if_pos none,refused,aliveAfter,if_true,or_true,iff_true]
      rw [none]
      exact ⟨truth,open_,inv.invalid⟩
    · rw [if_neg none,if_neg none]
      simp [truth,open_]
  · simp only [List.foldl_append,run,sock,List.foldl_cons,List.foldl_nil]
    rw [watchUsed mine]
    refine ⟨createInv mine invalid,?_⟩
    simp [none,valid,aliveAfter,open_,Clean]

/- Connect's last calls are all on the one descriptor, so they count as one. -/
theorem connectWatch (s : Socket) (ok : Bool) (u : State) :
    (connect s newFd ok).1.conn = (ensure s newFd).1.conn ∧
    (connect s newFd ok).1.connected = (ensure s newFd).1.connected ∧
    (connect s newFd ok).2.foldl watch u =
      watch ((ensure s newFd).2.foldl watch u) (.used (ensure s newFd).1.fd) := by
  unfold connect initAddrs
  cases ok with
  | false => exact ⟨rfl,rfl,List.foldl_append⟩
  | true =>
    by_cases named : (ensure s newFd).1.named = true
    · rw [if_pos rfl,if_pos named]
      refine ⟨rfl,rfl,?_⟩
      simp only [List.append_nil,List.foldl_append]
      rfl
    · rw [if_pos rfl,if_neg named]
      refine ⟨rfl,rfl,?_⟩
      rw [List.foldl_append,List.foldl_append]
      exact (congrArg (fun v => watch v _) (usedTwice _ _)).trans (usedTwice _ _)

theorem connectStep {ok : Bool} (inv : Inv s) (good : Truthful role s) (h : step s (.connect newFd ok) = some t) :
    Inv t ∧ (Truthful role t ↔ Clean role s (.connect newFd ok)) := by
  simp only [step] at h
  split at h <;> try contradiction
  rename_i enabled
  obtain ⟨fresh,possible⟩ := enabled
  cases Option.some.inj h
  obtain ⟨truth,open_⟩ := truthfulIff.1 good
  obtain ⟨conn,connected,calls⟩ := @connectWatch newFd s.sock ok s
  rw [truthfulIff]
  unfold State.after
  rw [calls]
  simp only [connected]
  rcases ensureWatch inv fresh with ⟨same,known⟩ | ⟨none,valid,sock,gone,run,mine,invalid⟩
  · rw [same]
    rw [same] at conn connected
    refine ⟨invAfter inv conn connected rfl,?_⟩
    simp only [List.foldl_nil,usedMisused,Clean]
    by_cases none : s.sock.fd = kInvalidFd
    · have refused := known.resolve_left (not_not.2 none)
      have failed : ok = false := by
        by_contra succeeded
        rcases possible (by simpa using succeeded) with here | there
        · exact here none
        · exact there refused
      simp [none,refused,failed,open_,inv.invalid]
    · simp only [if_neg none]
      simp [open_,and_comm]
  · rw [run,sock]
    rw [sock] at conn connected
    rw [watchUsed mine]
    refine ⟨⟨?_,invalid,?_⟩,?_⟩
    · intro x hx
      rw [conn] at hx
      cases Option.some.inj hx
      exact mine
    · intro _
      rw [conn]
      simp
    · simp [none,valid,open_,Clean,eq_comm]

/- Listen and Accept only pass fd_ on. -/
theorem passedOn (inv : Inv s) (good : Truthful role s) :
    Inv (s.after (s.sock,[.used s.sock.fd]) s.alive) ∧
      (Truthful role (s.after (s.sock,[.used s.sock.fd]) s.alive) ↔ s.sock.fd ∉ s.gone) := by
  obtain ⟨truth,open_⟩ := truthfulIff.1 good
  refine ⟨invAfter inv rfl rfl rfl,?_⟩
  rw [truthfulIff]
  simp only [State.after,List.foldl_cons,List.foldl_nil,usedMisused]
  simp [truth,open_]

theorem transferStep (inv : Inv s) (h : step s .transfer = some t) : t = s := by
  obtain ⟨r,moved,rfl⟩ := Option.map_eq_some_iff.1 h
  obtain ⟨sock,held,rfl⟩ := Option.map_eq_some_iff.1 moved
  have here := inv.conn sock held
  simp [State.after,here]

/- The connection's descriptor is closed for the first time. -/
theorem connCloseInv {x : Int} (connected alive : Bool) (inv : Inv s) (held : s.sock.conn = some x) :
    Inv (s.after ({s.sock with connected := connected, conn := some (-1)},connClose x) alive) ∧
      (s.after ({s.sock with connected := connected, conn := some (-1)},connClose x) alive).misused = s.misused := by
  obtain ⟨gone,run,part⟩ := connCloseWatch (inv.conn x held)
  have invalid : kInvalidFd ∉ gone := by
    intro inside
    rcases part _ inside with old | ⟨same,differ⟩
    · exact inv.invalid old
    · exact differ same.symm
  unfold State.after
  rw [run]
  refine ⟨⟨?_,invalid,by simp⟩,rfl⟩
  intro y hy
  cases Option.some.inj hy
  exact invalid

theorem closeStep (inv : Inv s) (good : Truthful role s) (h : step s .close = some t) :
    Inv t ∧ Truthful role t := by
  obtain ⟨truth,open_⟩ := truthfulIff.1 good
  obtain ⟨r,closed,rfl⟩ := Option.map_eq_some_iff.1 h
  rw [truthfulIff]
  unfold close at closed
  split at closed
  · rename_i idle
    cases Option.some.inj closed
    exact ⟨invAfter inv rfl rfl rfl,Or.inr idle,open_⟩
  · obtain ⟨x,held,rfl⟩ := Option.map_eq_some_iff.1 closed
    obtain ⟨kept,misused⟩ := connCloseInv false false inv held
    exact ⟨kept,Or.inr rfl,misused.trans open_⟩

theorem resetStep (inv : Inv s) (good : Truthful role s) (h : step s .reset = some t) :
    Inv t ∧ (Truthful role t ↔ Clean role s .reset) := by
  obtain ⟨truth,open_⟩ := truthfulIff.1 good
  obtain ⟨r,reset_,rfl⟩ := Option.map_eq_some_iff.1 h
  obtain ⟨x,held,rfl⟩ := Option.map_eq_some_iff.1 reset_
  have same : s.after ({s.sock with conn := some (-1)},connReset x) false =
      s.after ({s.sock with connected := s.sock.connected, conn := some (-1)},connClose x) false := by
    unfold State.after
    rw [connResetWatch (inv.conn x held)]
  obtain ⟨kept,misused⟩ := connCloseInv s.sock.connected false inv held
  rw [same,truthfulIff]
  refine ⟨kept,?_⟩
  rw [misused]
  simp [open_,Clean,State.after]

theorem stepExact (inv : Inv s) (good : Truthful role s) (h : step s e = some t) :
    Inv t ∧ (Truthful role t ↔ Clean role s e) := by
  cases e with
  | createSocket newFd => exact createStep inv good h
  | bind newFd => exact bindStep inv good h
  | listen =>
    cases Option.some.inj h
    exact passedOn inv good
  | accept =>
    cases Option.some.inj h
    exact passedOn inv good
  | connect newFd ok => exact connectStep inv good h
  | transfer =>
    have same := transferStep inv h
    subst t
    exact ⟨inv,iff_of_true good trivial⟩
  | close =>
    obtain ⟨kept,truth⟩ := closeStep inv good h
    exact ⟨kept,iff_of_true truth trivial⟩
  | reset => exact resetStep inv good h

theorem startInv (role : Role) : Inv (start role) ∧ Truthful role (start role) := by
  cases role with
  | client | server => exact ⟨⟨by simp [start,Socket.create],by simp [start],by simp [start,Socket.create]⟩,fun _ => rfl,rfl⟩
  | accepted clientSock =>
    by_cases failed : clientSock = kInvalidFd
    · subst clientSock
      exact ⟨⟨by simp [start],by simp [start],by simp [start,accepted,init,Socket.create]⟩,fun _ => rfl,rfl⟩
    · have shape : accepted clientSock = ⟨clientSock,true,some clientSock,true⟩ := by
        simp [accepted,init,initAddrs,failed,Socket.create]
      refine ⟨⟨by simp [start],by simp [start],by simp [start,shape]⟩,fun _ => ?_,rfl⟩
      simp [start,shape,failed]

/-- In every state of a run connected() is truthful and no closed descriptor has been used,
exactly when every operation of the run is clean. -/
theorem socketTruthful (role : Role) {es : List Event} {u : State} (whole : run step (start role) es = some u) :
    (∀ before after t, es = before ++ after → run step (start role) before = some t → Truthful role t) ↔
      Guarded step (Clean role) (start role) es :=
  goodIffGuarded (fun _ _ _ inv good h => (stepExact inv good h).1)
    (fun _ _ _ inv good h => (stepExact inv good h).2) whole (startInv role).1 (startInv role).2

end

/- A Connect that succeeds, an exchange, and two Closes. -/
theorem clientTruthful : Truthful .client ⟨⟨5,false,some (-1),true⟩,false,[5],false⟩ := by
  have whole : run step (start .client) [.connect 5 true,.transfer,.close,.close] =
      some ⟨⟨5,false,some (-1),true⟩,false,[5],false⟩ := by decide
  have clean : Guarded step (Clean .client) (start .client) [.connect 5 true,.transfer,.close,.close] :=
    guardedCons (by decide) rfl (guardedCons (by decide) rfl (guardedCons (by decide) rfl
      (guardedCons (by decide) rfl trivial)))
  exact (socketTruthful .client whole).2 clean _ [] _ (List.append_nil _).symm whole

/-- A Connect that is refused leaves connected_ as Init has set it. -/
theorem refusedConnected : ¬ ∀ (role : Role) (es : List Event) (s : State), run step (start role) es = some s →
    Truthful role s := by
  intro claim
  have truthful := claim .client [.connect 5 false] ⟨⟨5,true,some 5,true⟩,false,[],false⟩ (by decide)
  have connected : true = false := truthful.connected (by decide)
  contradiction

end TitCo.SocketState
