import TitCo.RpcClient

/-! What request_map_ of an RpcClient holds: Call puts its channel in under req_id_, RecvLoop takes
it out when the response has come, and a Call that times out returns without a look at the map. -/
namespace TitCo.PendingTable
open MachineInt Queue RpcClient Transition

def OnlyPending (s : State) : Prop :=
  ∀ x n, s.requestMap x = some n → (s.call n).pc.awaits = true ∧ (s.call n).id = x

/-- A Call registers under the id that its request carries, and none times out while the map holds
its channel. -/
def Returned (s : State) : Event → Prop
  | .register n => (s.call n).pc = .locked → (s.call n).id = s.reqId
  | .recvTimeout n => ∀ x, s.requestMap x ≠ some n
  | _ => True

/-- A Call is in the map once at most, and no longer when its response is on the way to it. -/
structure Inv (s : State) : Prop where
  fresh : ∀ n, s.count ≤ n → (s.call n).pc = .fresh
  entered : ∀ x n, s.requestMap x = some n → (s.call n).pc.entered = true
  once : ∀ x y n, s.requestMap x = some n → s.requestMap y = some n → x = y
  taken : ∀ n, (s.call n).channel ≠ [] ∨ (∃ y, s.recvLoop = .delivering y (some n)) →
    (s.call n).pc.entered = true ∧ ∀ x, s.requestMap x ≠ some n
  writing : ∀ r ∈ s.writers, (s.call r.call).pc = .writing
  single : (s.writers.map Request.call).Nodup

section
variable {p : Params} {s t : State} {n : Nat}

theorem bornLess (inv : Inv s) (born : (s.call n).pc ≠ .fresh) : n < s.count := by
  by_contra high
  exact born (inv.fresh n (by omega))

/- One Call moves on; what it shares stays but for the writers. -/
theorem moveInv (inv : Inv s) {pc : Pc} (count : t.count = s.count) (call : t.call = (s.setPc n pc).call)
    (map : t.requestMap = s.requestMap) (loop : t.recvLoop = s.recvLoop) (born : (s.call n).pc ≠ .fresh)
    (entered : (s.call n).pc.entered = true → pc.entered = true)
    (writing : ∀ r ∈ t.writers, (if r.call = n then pc else (s.call r.call).pc) = .writing)
    (single : (t.writers.map Request.call).Nodup) : Inv t := by
  have grown : ∀ m, (s.call m).pc.entered = true → (t.call m).pc.entered = true := by
    intro m was
    rw [call]
    by_cases here : m = n
    · subst m
      rw [setPcSelf]
      exact entered was
    · rw [setPcOther s pc here]
      exact was
  have channels : ∀ m, (t.call m).channel = (s.call m).channel := by
    intro m
    rw [call]
    by_cases here : m = n
    · subst m
      rw [setPcSelf]
    · rw [setPcOther s pc here]
  refine ⟨?_,?_,?_,?_,?_,single⟩
  · intro m high
    have less := bornLess inv born
    rw [call,setPcOther s pc (by omega)]
    exact inv.fresh m (by omega)
  · intro x m found
    rw [map] at found
    exact grown m (inv.entered x m found)
  · rw [map]
    exact inv.once
  · intro m some
    rw [channels,loop] at some
    obtain ⟨was,out⟩ := inv.taken m some
    exact ⟨grown m was,by rw [map]; exact out⟩
  · intro r hr
    have here := writing r hr
    rw [call]
    split at here
    · rename_i same
      rw [same,setPcSelf]
      exact here
    · rename_i differ
      rw [setPcOther s pc differ]
      exact here

theorem movePending (pending : OnlyPending s) {pc : Pc} (call : t.call = (s.setPc n pc).call)
    (map : t.requestMap = s.requestMap) (waits : (s.call n).pc.awaits = true → pc.awaits = true) : OnlyPending t := by
  intro x m found
  rw [map] at found
  obtain ⟨awaits,id⟩ := pending x m found
  rw [call]
  by_cases here : m = n
  · subst m
    rw [setPcSelf]
    exact ⟨waits awaits,id⟩
  · rw [setPcOther s pc here]
    exact ⟨awaits,id⟩

theorem writersKept (inv : Inv s) (apart : (s.call n).pc ≠ .writing) (pc : Pc) : ∀ r ∈ s.writers,
    (if r.call = n then pc else (s.call r.call).pc) = .writing := by
  intro r hr
  have waits := inv.writing r hr
  rw [if_neg (by rintro rfl; exact apart waits)]
  exact waits

theorem sameInv (inv : Inv s) (count : t.count = s.count) (call : t.call = s.call) (map : t.requestMap = s.requestMap)
    (loop : ∀ y m, t.recvLoop = .delivering y (some m) → s.recvLoop = .delivering y (some m))
    (writers : t.writers = s.writers) : Inv t := by
  refine ⟨by rw [count,call]; exact inv.fresh,by rw [call,map]; exact inv.entered,by rw [map]; exact inv.once,?_,
    by rw [call,writers]; exact inv.writing,by rw [writers]; exact inv.single⟩
  intro m some
  rw [call,map]
  rw [call] at some
  refine inv.taken m (some.imp_right ?_)
  rintro ⟨y,here⟩
  exact ⟨y,loop y m here⟩

theorem samePending (pending : OnlyPending s) (call : t.call = s.call) (map : t.requestMap = s.requestMap) :
    OnlyPending t := by
  unfold OnlyPending
  rw [call,map]
  exact pending

theorem callInv (inv : Inv s) (pending : OnlyPending s) : Inv {s with
      count := s.count+1
      call := Function.update s.call s.count ⟨s.reqId,.made,[]⟩} ∧ OnlyPending {s with
      count := s.count+1
      call := Function.update s.call s.count ⟨s.reqId,.made,[]⟩} := by
  have pcs := inv.fresh s.count (Nat.le_refl _)
  have mapped : ∀ x m, s.requestMap x = some m → m ≠ s.count := by
    rintro x m found rfl
    have entered := inv.entered x s.count found
    rw [pcs] at entered
    contradiction
  have waiting : ∀ r ∈ s.writers, r.call ≠ s.count := by
    intro r hr same
    have writing := inv.writing r hr
    rw [same,pcs] at writing
    contradiction
  refine ⟨⟨?_,?_,inv.once,?_,?_,inv.single⟩,?_⟩
  · intro m high
    simp only at high ⊢
    rw [Function.update_of_ne (by omega)]
    exact inv.fresh m (by omega)
  · intro x m found
    simp only
    rw [Function.update_of_ne (mapped x m found)]
    exact inv.entered x m found
  · intro m some
    by_cases here : m = s.count
    · subst m
      simp only [Function.update_self] at some
      obtain ⟨was,_⟩ := inv.taken s.count (Or.inr (some.resolve_left (by simp)))
      rw [pcs] at was
      contradiction
    · simp only [Function.update_of_ne here] at some ⊢
      exact inv.taken m some
  · intro r hr
    simp only
    rw [Function.update_of_ne (waiting r hr)]
    exact inv.writing r hr
  · intro x m found
    simp only
    rw [Function.update_of_ne (mapped x m found)]
    exact pending x m found

theorem writeInv (inv : Inv s) (pending : OnlyPending s) (made : (s.call n).pc = .made) :
    Inv (writeStep p s ⟨n,(s.call n).id⟩) ∧ OnlyPending (writeStep p s ⟨n,(s.call n).id⟩) := by
  have born : (s.call n).pc ≠ .fresh := by rw [made]; simp
  have apart : (s.call n).pc ≠ .writing := by rw [made]; simp
  have early : (s.call n).pc.entered = true → False := by rw [made]; simp [Pc.entered,Pc.passed]
  have idle : (s.call n).pc.awaits = true → False := by rw [made]; simp [Pc.awaits]
  unfold writeStep
  split
  · exact ⟨moveInv inv rfl rfl rfl rfl born (fun was => (early was).elim) (writersKept inv apart _) inv.single,
      movePending pending rfl rfl (fun was => (idle was).elim)⟩
  · split
    · exact ⟨moveInv inv rfl rfl rfl rfl born (fun was => (early was).elim) (writersKept inv apart _) inv.single,
        movePending pending rfl rfl (fun was => (idle was).elim)⟩
    · refine ⟨moveInv inv rfl rfl rfl rfl born (fun was => (early was).elim) ?_ ?_,
        movePending pending rfl rfl (fun was => (idle was).elim)⟩
      · refine allPush (fun r old => ?_) ?_
        · exact writersKept inv apart _ r old
        · exact if_pos rfl
      · simp only [List.map_append,List.nodup_append]
        refine ⟨inv.single,by simp,?_⟩
        intro a ha b hb same
        obtain ⟨r,hr,here⟩ := List.mem_map.1 ha
        have last : b = n := by simpa using hb
        have writing := inv.writing r hr
        rw [here,same,last] at writing
        exact apart writing

theorem registerInv (inv : Inv s) (pc : (s.call n).pc = .locked) :
    Inv {s.setPc n .registered with requestMap := Function.update s.requestMap s.reqId (some n)} := by
  have out : ∀ x, s.requestMap x ≠ some n := by
    intro x found
    have entered := inv.entered x n found
    rw [pc] at entered
    contradiction
  have moved : Inv (s.setPc n .registered) := moveInv inv rfl rfl rfl rfl (by rw [pc]; simp) (fun _ => rfl)
    (writersKept inv (by rw [pc]; simp) _) inv.single
  have before : ∀ x m, Function.update s.requestMap s.reqId (some n) x = some m →
      (x = s.reqId ∧ m = n) ∨ (m ≠ n ∧ s.requestMap x = some m) := by
    intro x m found
    by_cases here : x = s.reqId
    · subst x
      rw [Function.update_self] at found
      exact Or.inl ⟨rfl,(Option.some.inj found).symm⟩
    · rw [Function.update_of_ne here] at found
      exact Or.inr ⟨by rintro rfl; exact out x found,found⟩
  refine ⟨moved.fresh,?_,?_,?_,moved.writing,inv.single⟩
  · intro x m found
    rcases before x m found with ⟨_,rfl⟩ | ⟨_,old⟩
    · simp only
      rw [setPcSelf]
      rfl
    · exact moved.entered x m old
  · intro x y m hx hy
    rcases before x m hx with ⟨rfl,rfl⟩ | ⟨differ,old⟩
    · rcases before y m hy with ⟨rfl,_⟩ | ⟨differ,_⟩
      · rfl
      · exact absurd rfl differ
    · rcases before y m hy with ⟨_,same⟩ | ⟨_,again⟩
      · exact absurd same differ
      · exact inv.once x y m old again
  · intro m some
    have other : m ≠ n := by
      rintro rfl
      have was : (s.call m).channel ≠ [] ∨ ∃ y, s.recvLoop = .delivering y (.some m) := by
        simp only [setPcSelf] at some
        exact some
      have entered := (inv.taken m was).1
      rw [pc] at entered
      contradiction
    obtain ⟨entered,none⟩ := moved.taken m some
    refine ⟨entered,?_⟩
    intro x found
    rcases before x m found with ⟨_,same⟩ | ⟨_,old⟩
    · exact other same
    · exact none x old

theorem registerPending (inv : Inv s) (pending : OnlyPending s) (pc : (s.call n).pc = .locked) :
    OnlyPending {s.setPc n .registered with requestMap := Function.update s.requestMap s.reqId (some n)} ↔
      (s.call n).id = s.reqId := by
  constructor
  · intro after
    have mine := (after s.reqId n (by simp)).2
    simp only [setPcSelf] at mine
    exact mine
  · intro id x m found
    by_cases here : x = s.reqId
    · subst x
      simp only [Function.update_self,Option.some.injEq] at found
      subst m
      simp only [setPcSelf]
      exact ⟨rfl,id⟩
    · simp only [Function.update_of_ne here] at found
      have differ : m ≠ n := by
        rintro rfl
        have entered := inv.entered x m found
        rw [pc] at entered
        contradiction
      simp only [setPcOther s _ differ]
      exact pending x m found

/- A Call changes in its channel, or returns what was in it: it is in the map no more. -/
theorem channelInv (inv : Inv s) {after : Call} {loop : RecvLoop} {delivered : List Delivery}
    (out : (s.call n).pc.entered = true ∧ ∀ x, s.requestMap x ≠ some n) (apart : (s.call n).pc ≠ .writing)
    (entered : after.pc.entered = true) (same : ∀ y m, loop = .delivering y (some m) → s.recvLoop = .delivering y (some m)) :
    Inv {s with call := Function.update s.call n after, recvLoop := loop, delivered := delivered} := by
  have born : (s.call n).pc ≠ .fresh := by
    intro fresh
    rw [fresh] at out
    exact absurd out.1 (by decide)
  have differs : ∀ x m, s.requestMap x = some m → m ≠ n := by
    rintro x m found rfl
    exact out.2 x found
  refine ⟨?_,?_,inv.once,?_,?_,inv.single⟩
  · intro m high
    have less := bornLess inv born
    simp only at high ⊢
    rw [Function.update_of_ne (by omega)]
    exact inv.fresh m high
  · intro x m found
    simp only
    rw [Function.update_of_ne (differs x m found)]
    exact inv.entered x m found
  · intro m some
    by_cases here : m = n
    · subst m
      simp only [Function.update_self]
      exact ⟨entered,out.2⟩
    · simp only [Function.update_of_ne here] at some ⊢
      refine inv.taken m (some.imp_right ?_)
      rintro ⟨y,found⟩
      exact ⟨y,same y m found⟩
  · intro r hr
    have waits := inv.writing r hr
    simp only
    rw [Function.update_of_ne (by rintro rfl; exact apart waits)]
    exact waits

theorem channelPending (pending : OnlyPending s) {after : Call} {loop : RecvLoop} {delivered : List Delivery}
    (out : ∀ x, s.requestMap x ≠ some n) :
    OnlyPending {s with call := Function.update s.call n after, recvLoop := loop, delivered := delivered} := by
  intro x m found
  have differ : m ≠ n := by
    rintro rfl
    exact out x found
  simp only [Function.update_of_ne differ]
  exact pending x m found

theorem timeoutPending (pending : OnlyPending s) :
    OnlyPending (s.setPc n .timedOut) ↔ ∀ x, s.requestMap x ≠ some n := by
  constructor
  · intro after x found
    have awaits := (after x n found).1
    rw [setPcSelf] at awaits
    contradiction
  · intro out x m found
    have differ : m ≠ n := by
      rintro rfl
      exact out x found
    rw [setPcOther s _ differ]
    exact pending x m found

theorem sendReadInv (inv : Inv s) (pending : OnlyPending s) (h : sendReadStep s = some t) : Inv t ∧ OnlyPending t := by
  simp only [sendReadStep] at h
  split at h <;> try contradiction
  · cases Option.some.inj h
    exact ⟨sameInv inv rfl rfl rfl (fun _ _ same => same) rfl,samePending pending rfl rfl⟩
  · cases Option.some.inj h
    exact ⟨sameInv inv rfl rfl rfl (fun _ _ same => same) rfl,samePending pending rfl rfl⟩
  · rename_i r rest w ws _ _ writers
    cases Option.some.inj h
    have pc := inv.writing w (by simp [writers])
    have single := inv.single
    rw [writers,List.map_cons,List.nodup_cons] at single
    refine ⟨moveInv inv rfl rfl rfl rfl (by rw [pc]; simp) (by rw [pc]; decide) ?_ single.2,
      movePending pending rfl rfl (by rw [pc]; decide)⟩
    intro x hx
    rw [if_neg (fun same => single.1 (List.mem_map.2 ⟨x,hx,same⟩))]
    exact inv.writing x (by rw [writers]; exact List.mem_cons_of_mem _ hx)

theorem lookupInv (inv : Inv s) (pending : OnlyPending s) (x : Nat) :
    Inv {s with recvLoop := .delivering x (s.requestMap x), requestMap := Function.update s.requestMap x none} ∧
    OnlyPending {s with recvLoop := .delivering x (s.requestMap x), requestMap := Function.update s.requestMap x none} := by
  have older : ∀ y m, Function.update s.requestMap x none y = some m → y ≠ x ∧ s.requestMap y = some m := by
    intro y m found
    by_cases here : y = x
    · subst y
      rw [Function.update_self] at found
      contradiction
    · rw [Function.update_of_ne here] at found
      exact ⟨here,found⟩
  refine ⟨⟨inv.fresh,?_,?_,?_,inv.writing,inv.single⟩,?_⟩
  · intro y m found
    exact inv.entered y m (older y m found).2
  · intro y z m hy hz
    exact inv.once y z m (older y m hy).2 (older z m hz).2
  · intro m some
    rcases some with filled | ⟨y,hand⟩
    · obtain ⟨entered,out⟩ := inv.taken m (Or.inl filled)
      exact ⟨entered,fun y found => out y (older y m found).2⟩
    · simp only [RecvLoop.delivering.injEq] at hand
      refine ⟨inv.entered x m hand.2,?_⟩
      intro z found
      obtain ⟨differ,old⟩ := older z m found
      exact differ (inv.once z x m old hand.2)
  · intro y m found
    exact pending y m (older y m found).2

theorem callStepInv {e : Event} (inv : Inv s) (pending : OnlyPending s) (h : callStep p s e = some t) :
    Inv t ∧ (OnlyPending t ↔ Returned s e) := by
  cases e with
  | call =>
    cases Option.some.inj h
    obtain ⟨next,still⟩ := callInv inv pending
    exact ⟨next,iff_of_true still trivial⟩
  | write n =>
    simp only [callStep] at h
    split at h <;> try contradiction
    cases Option.some.inj h
    obtain ⟨next,still⟩ := writeInv (p := p) inv pending ‹_›
    exact ⟨next,iff_of_true still trivial⟩
  | sendTimeout n =>
    simp only [callStep] at h
    split at h <;> try contradiction
    rename_i may
    cases Option.some.inj h
    have pc := may.1
    refine ⟨moveInv inv rfl rfl rfl rfl (by rw [pc]; simp) (by rw [pc]; decide) ?_
      (inv.single.sublist (List.filter_sublist.map _)),
      iff_of_true (movePending pending rfl rfl (by rw [pc]; decide)) trivial⟩
    intro r hr
    obtain ⟨old,differ⟩ := List.mem_filter.1 hr
    rw [if_neg (by simpa using differ)]
    exact inv.writing r old
  | lock n =>
    simp only [callStep] at h
    split at h <;> try contradiction
    rename_i may
    cases Option.some.inj h
    have pc := may.1
    exact ⟨moveInv inv rfl rfl rfl rfl (by rw [pc]; simp) (by rw [pc]; decide) (writersKept inv (by rw [pc]; simp) _)
      inv.single,iff_of_true (movePending pending rfl rfl (by rw [pc]; decide)) trivial⟩
  | register n =>
    simp only [callStep] at h
    split at h <;> try contradiction
    rename_i pc
    cases Option.some.inj h
    refine ⟨registerInv inv pc,(registerPending inv pending pc).trans ?_⟩
    exact ⟨fun id _ => id,fun id => id pc⟩
  | increment n =>
    simp only [callStep] at h
    split at h <;> try contradiction
    rename_i pc
    cases Option.some.inj h
    exact ⟨moveInv inv rfl rfl rfl rfl (by rw [pc]; simp) (fun _ => rfl) (writersKept inv (by rw [pc]; simp) _)
      inv.single,iff_of_true (movePending pending rfl rfl (fun _ => rfl)) trivial⟩
  | read n =>
    simp only [callStep] at h
    split at h <;> try contradiction
    rename_i x rest pc filled
    cases Option.some.inj h
    have out := inv.taken n (Or.inl (by simp [filled]))
    exact ⟨channelInv inv out (by rw [pc]; simp) rfl (fun _ _ same => same),
      iff_of_true (channelPending pending out.2) trivial⟩
  | recvTimeout n =>
    simp only [callStep] at h
    split at h <;> try contradiction
    rename_i may
    cases Option.some.inj h
    have pc := may.1
    exact ⟨moveInv inv rfl rfl rfl rfl (by rw [pc]; simp) (fun _ => rfl) (writersKept inv (by rw [pc]; simp) _)
      inv.single,timeoutPending pending⟩
  | _ => simp [callStep] at h

theorem loopStepInv {e : Event} (inv : Inv s) (pending : OnlyPending s) (h : loopStep p s e = some t) :
    Inv t ∧ (OnlyPending t ↔ Returned s e) := by
  have same : ∀ {u : State}, u.count = s.count → u.call = s.call → u.requestMap = s.requestMap →
      (∀ y m, u.recvLoop = .delivering y (some m) → s.recvLoop = .delivering y (some m)) → u.writers = s.writers →
      Inv u ∧ OnlyPending u :=
    fun count call map loop writers => ⟨sameInv inv count call map loop writers,samePending pending call map⟩
  have kept : Returned s e → Inv t ∧ OnlyPending t → Inv t ∧ (OnlyPending t ↔ Returned s e) :=
    fun told both => ⟨both.1,iff_of_true both.2 told⟩
  cases e with
  | sendRead => exact kept trivial (sendReadInv inv pending h)
  | sendReadTimeout =>
    simp only [loopStep] at h
    split at h <;> try contradiction
    split at h <;> try contradiction
    all_goals
      cases Option.some.inj h
      exact kept trivial (same rfl rfl rfl (fun _ _ same => same) rfl)
  | sendProtocol ok =>
    simp only [loopStep] at h
    split at h <;> try contradiction
    split at h
    all_goals
      cases Option.some.inj h
      exact kept trivial (same rfl rfl rfl (fun _ _ same => same) rfl)
  | answer k =>
    simp only [loopStep] at h
    split at h <;> try contradiction
    cases Option.some.inj h
    exact kept trivial (same rfl rfl rfl (fun _ _ same => same) rfl)
  | recvProtocol ok =>
    simp only [loopStep] at h
    split at h <;> try contradiction
    split at h
    · split at h <;> try contradiction
      cases Option.some.inj h
      exact kept trivial (same rfl rfl rfl (by simp) rfl)
    · cases Option.some.inj h
      exact kept trivial (same rfl rfl rfl (by simp) rfl)
  | lookup =>
    simp only [loopStep] at h
    split at h <;> try contradiction
    cases Option.some.inj h
    exact kept trivial (lookupInv inv pending _)
  | deliver =>
    simp only [loopStep] at h
    split at h <;> try contradiction
    · rename_i x n hand
      split at h <;> try contradiction
      cases Option.some.inj h
      have out := inv.taken n (Or.inr ⟨x,hand⟩)
      have apart : (s.call n).pc ≠ .writing := by
        intro writing
        rw [writing] at out
        exact absurd out.1 (by decide)
      exact kept trivial ⟨channelInv inv out apart out.1 (by simp),channelPending pending out.2⟩
    · cases Option.some.inj h
      exact kept trivial (same rfl rfl rfl (by simp) rfl)
  | _ => simp [loopStep] at h

theorem stepInv (s : State) (e : Event) (t : State) (inv : Inv s) (pending : OnlyPending s) (h : step p s e = some t) :
    Inv t ∧ (OnlyPending t ↔ Returned s e) := by
  simp only [step] at h
  split at h
  · cases Option.some.inj h
    exact callStepInv inv pending ‹_›
  · exact loopStepInv inv pending h

theorem initialInv : Inv initial := by
  refine ⟨fun _ _ => rfl,?_,?_,?_,?_,?_⟩ <;> simp [initial]

end

/-- In a run, request_map_ holds only the channels of Calls that wait exactly when every Call
registers under the id of its own request and none times out while its channel is in the map. -/
theorem onlyPending (p : Params) (es : List Event) (u : State) (whole : run (step p) initial es = some u) :
    (∀ before after t, es = before ++ after → run (step p) initial before = some t → OnlyPending t) ↔
      Guarded (step p) Returned initial es :=
  goodIffGuarded (fun s e t inv pending h => (stepInv s e t inv pending h).1)
    (fun s e t inv pending h => (stepInv s e t inv pending h).2) whole initialInv (by simp [OnlyPending,initial])

theorem answeredPending : (∀ before after t, [Event.call,.write 0,.lock 0,.register 0,.increment 0,.sendRead,
    .sendProtocol true,.answer 0,.recvProtocol true,.lookup,.deliver,.read 0] = before ++ after →
    run (step kDefaultParams) initial before = some t → OnlyPending t) ↔
      Guarded (step kDefaultParams) Returned initial [.call,.write 0,.lock 0,.register 0,.increment 0,.sendRead,
        .sendProtocol true,.answer 0,.recvProtocol true,.lookup,.deliver,.read 0] :=
  onlyPending kDefaultParams _ _ rfl

/-- A Call that times out before the response is there leaves its channel in request_map_. -/
theorem timedOutStays : ¬ ∀ (p : Params) (es : List Event) (s : State),
    run (step p) initial es = some s → OnlyPending s := by
  intro claim
  have pending := claim ⟨10,uint32Max,10,by decide⟩ [.call,.write 0,.lock 0,.register 0,.increment 0,.recvTimeout 0] _ rfl
  exact absurd (pending 1 0 rfl).1 (by decide)

end TitCo.PendingTable
