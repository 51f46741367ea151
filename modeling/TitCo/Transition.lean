import Mathlib.Logic.Function.Basic

/-! Runs of a partial step function over explicit event lists. An event that is
not enabled has no successor, so a list of events is a run exactly when `run`
returns a state. Nothing here knows what the states or the events are. -/
namespace TitCo.Transition

variable {σ ε : Type}

def run (step : σ → ε → Option σ) : σ → List ε → Option σ
  | s,[] => some s
  | s,e::es => do
      let t ← step s e
      run step t es

/-- Every step that the list takes meets `ok`, judged in the state before it. -/
def Guarded (step : σ → ε → Option σ) (ok : σ → ε → Prop) : σ → List ε → Prop
  | _,[] => True
  | s,e::es => ok s e ∧ ∀ t, step s e = some t → Guarded step ok t es

theorem guardedCons {step : σ → ε → Option σ} {ok : σ → ε → Prop} {s t : σ} {e : ε} {es : List ε}
    (meets : ok s e) (h : step s e = some t) (rest : Guarded step ok t es) :
    Guarded step ok s (e::es) := by
  refine ⟨meets,?_⟩
  intro u hu
  cases Option.some.inj (h.symm.trans hu)
  exact rest

/- Events that always meet `ok`. -/
theorem guardedFree {step : σ → ε → Option σ} {ok : σ → ε → Prop} {s : σ} {es : List ε}
    (free : ∀ e ∈ es, ∀ s, ok s e) : Guarded step ok s es := by
  induction es generalizing s with
  | nil => trivial
  | cons e es ih =>
    refine ⟨free e (by simp) s,?_⟩
    intro t _
    exact ih (fun f inside => free f (by simp [inside]))

theorem runCons {step : σ → ε → Option σ} {s u : σ} {e : ε} {es : List ε}
    (h : run step s (e::es) = some u) : ∃ t, step s e = some t ∧ run step t es = some u := by
  simpa only [run,bind,Option.bind_eq_some_iff] using h

theorem guardedAppend {step : σ → ε → Option σ} {ok : σ → ε → Prop} {s t : σ} {es fs : List ε}
    (guarded : Guarded step ok s (es ++ fs)) (h : run step s es = some t) :
    Guarded step ok s es ∧ Guarded step ok t fs := by
  induction es generalizing s with
  | nil => cases Option.some.inj h; exact ⟨trivial,guarded⟩
  | cons e es ih =>
    obtain ⟨m,hm,rest⟩ := runCons h
    have tail := ih (guarded.2 m hm) rest
    refine ⟨⟨guarded.1,?_⟩,tail.2⟩
    intro u hu
    cases Option.some.inj (hm.symm.trans hu)
    exact tail.1

/-- What one guarded step keeps, a whole guarded run keeps. -/
theorem guardedInvariant {step : σ → ε → Option σ} {ok : σ → ε → Prop} {inv : σ → Prop}
    (keep : ∀ s e t, inv s → ok s e → step s e = some t → inv t)
    {s t : σ} {es : List ε} (guarded : Guarded step ok s es)
    (h : run step s es = some t) (start : inv s) : inv t := by
  induction es generalizing s with
  | nil => cases Option.some.inj h; exact start
  | cons e es ih =>
    obtain ⟨m,hm,rest⟩ := runCons h
    exact ih (guarded.2 m hm) rest (keep s e m start guarded.1 hm)

theorem runInvariant {step : σ → ε → Option σ} {inv : σ → Prop}
    (keep : ∀ s e t, inv s → step s e = some t → inv t)
    {s t : σ} {es : List ε} (h : run step s es = some t) (start : inv s) : inv t := by
  induction es generalizing s with
  | nil => cases Option.some.inj h; exact start
  | cons e es ih =>
    obtain ⟨m,hm,rest⟩ := runCons h
    exact ih rest (keep s e m start hm)

/-- When a step leaves the good states exactly where its guard fails, the runs through
good states only are the guarded ones. -/
theorem goodIffGuarded {step : σ → ε → Option σ} {ok : σ → ε → Prop} {inv good : σ → Prop}
    (keep : ∀ s e t, inv s → good s → step s e = some t → inv t)
    (exact : ∀ s e t, inv s → good s → step s e = some t → (good t ↔ ok s e))
    {s u : σ} {es : List ε} (whole : run step s es = some u) (start : inv s) (first : good s) :
    (∀ before after t, es = before ++ after → run step s before = some t → good t) ↔ Guarded step ok s es := by
  induction es generalizing s with
  | nil =>
    refine ⟨fun _ => trivial,?_⟩
    intro _ before after t split h
    obtain ⟨rfl,-⟩ := List.append_eq_nil_iff.1 split.symm
    cases Option.some.inj h
    exact first
  | cons e es ih =>
    obtain ⟨m,hm,tail⟩ := runCons whole
    have later := keep s e m start first hm
    have here := exact s e m start first hm
    constructor
    · intro always
      have next : good m := by
        refine always [e] es m rfl ?_
        simp only [run,hm,bind,Option.bind]
      refine guardedCons (here.1 next) hm ((ih tail later next).1 ?_)
      intro before after t split h
      refine always (e::before) after t (by rw [split,List.cons_append]) ?_
      simpa only [run,hm,bind,Option.bind] using h
    · intro guarded before after t split h
      cases before with
      | nil => cases Option.some.inj h; exact first
      | cons f before =>
        rw [List.cons_append,List.cons.injEq] at split
        obtain ⟨rfl,split⟩ := split
        obtain ⟨n,hn,rest⟩ := runCons h
        cases Option.some.inj (hm.symm.trans hn)
        exact (ih tail later (here.2 guarded.1)).2 (guarded.2 m hm) before after t split rest

/- Two guards that agree as long as they hold are the same guard of a run. -/
theorem guardedIff {step : σ → ε → Option σ} {ok other : σ → ε → Prop} {keeps : σ → Prop}
    (same : ∀ s e, keeps s → (ok s e ↔ other s e)) (keep : ∀ s e t, keeps s → ok s e → step s e = some t → keeps t)
    {s : σ} (es : List ε) (start : keeps s) : Guarded step ok s es ↔ Guarded step other s es := by
  induction es generalizing s with
  | nil => exact Iff.rfl
  | cons e es ih =>
    constructor
    · rintro ⟨meets,rest⟩
      refine ⟨(same s e start).1 meets,?_⟩
      intro t h
      exact (ih (keep s e t start meets h)).1 (rest t h)
    · rintro ⟨meets,rest⟩
      have met := (same s e start).2 meets
      refine ⟨met,?_⟩
      intro t h
      exact (ih (keep s e t start met h)).2 (rest t h)

/- Two systems that answer every guarded event alike do so over a whole guarded run: both
get stuck at the same event, or both end, in states that are still related. -/
theorem runLockstep {τ : Type} {step : σ → ε → Option σ} {other : τ → ε → Option τ} {ok : σ → ε → Prop}
    {rel : σ → τ → Prop} (keep : ∀ s t e, rel s t → ok s e → Option.Rel rel (step s e) (other t e))
    {s : σ} {t : τ} {es : List ε} (guarded : Guarded step ok s es) (start : rel s t) :
    Option.Rel rel (run step s es) (run other t es) := by
  induction es generalizing s t with
  | nil => exact .some start
  | cons e es ih =>
    have here := keep s t e start guarded.1
    simp only [run,bind]
    cases first : step s e with
    | none =>
      rw [first] at here
      cases second : other t e with
      | none => exact .none
      | some n => rw [second] at here; cases here
    | some m =>
      rw [first] at here
      cases second : other t e with
      | none => rw [second] at here; cases here
      | some n =>
        rw [second] at here
        cases here with
        | some related => exact ih (guarded.2 m first) related

theorem runTotal {step : σ → ε → Option σ} (total : ∀ s e, ∃ t, step s e = some t) (s : σ) (es : List ε) :
    ∃ u, run step s es = some u := by
  induction es generalizing s with
  | nil => exact ⟨s,rfl⟩
  | cons e es ih =>
    obtain ⟨m,hm⟩ := total s e
    obtain ⟨u,hu⟩ := ih m
    exact ⟨u,by simp only [run,hm,bind,Option.bind,hu]⟩

theorem alwaysIffGuarded {step : σ → ε → Option σ} {ok : σ → ε → Prop} {inv good : σ → Prop}
    (total : ∀ s e, ∃ t, step s e = some t)
    (keep : ∀ s e t, inv s → step s e = some t → inv t)
    (exact : ∀ s e t, inv s → good s → step s e = some t → (good t ↔ ok s e))
    {s : σ} (es : List ε) (start : inv s) (first : good s) :
    (∀ before after t, es = before ++ after → run step s before = some t → good t) ↔ Guarded step ok s es := by
  obtain ⟨u,whole⟩ := runTotal total s es
  exact goodIffGuarded (fun s e t inv _ h => keep s e t inv h) exact whole start first

end TitCo.Transition
