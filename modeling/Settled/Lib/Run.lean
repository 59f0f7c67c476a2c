/-
  Settled.Lib.Run — runs of a state machine whose steps may be guarded.

  `step s e = none` means that `e` cannot happen in `s`; `ok` is a further condition on
  the steps of a run (`fun _ _ => true` for none). `Reach.inv` is the invariant rule;
  `run` executes a list of events, and what it returns is reachable; `run_length_le`
  bounds its length by a measure, and `exists_run_to_rest` takes the measure to 0.
  `observed` keeps beside the state a list of what the steps so far have let out;
  `answers_eq` is lock-step simulation of machines whose steps always happen.
-/

namespace Settled.Lib

variable {S E : Type}

/-- The states that steps meeting `ok` lead to. -/
inductive Reach (step : S → E → Option S) (ok : S → E → Bool) (init : S) : S → Prop
  | init : Reach step ok init init
  | step {s s' : S} {e : E} : Reach step ok init s → ok s e = true → step s e = some s' → Reach step ok init s'

variable {step : S → E → Option S} {ok : S → E → Bool} {init : S}

/-- What holds at first and is kept by every step holds in every reachable state. -/
theorem Reach.inv {P : S → Prop} (h0 : P init)
    (hstep : ∀ s e s', P s → ok s e = true → step s e = some s' → P s') {s : S} (h : Reach step ok init s) : P s := by
  induction h with
  | init => exact h0
  | step _ hok hs ih => exact hstep _ _ _ ih hok hs

theorem Reach.trans {s s' : S} (h : Reach step ok init s) (h' : Reach step ok s s') : Reach step ok init s' := by
  induction h' with
  | init => exact h
  | step _ hok hs ih => exact .step ih hok hs

theorem Reach.mono {ok' : S → E → Bool} (himp : ∀ s e, ok s e = true → ok' s e = true) {s : S}
    (h : Reach step ok init s) : Reach step ok' init s := by
  induction h with
  | init => exact .init
  | step _ hok hs ih => exact .step ih (himp _ _ hok) hs

def run (step : S → E → Option S) (ok : S → E → Bool) (s : S) : List E → Option S
  | [] => some s
  | e :: es =>
    if ok s e then
      match step s e with
      | none => none
      | some s' => run step ok s' es
    else none

theorem run_cons {s s' : S} {e : E} (hok : ok s e = true) (hs : step s e = some s') (es : List E) :
    run step ok s (e :: es) = run step ok s' es := by rw [run, if_pos hok, hs]

theorem run_append {es fs : List E} : ∀ {s s' : S}, run step ok s es = some s' →
    run step ok s (es ++ fs) = run step ok s' fs := by
  induction es with
  | nil => intro s s' h; cases h; rfl
  | cons e es ih =>
    intro s s' h
    unfold run at h
    split at h
    next hok =>
      split at h
      next => cases h
      next s1 hs => rw [List.cons_append, run_cons hok hs]; exact ih h
    next => cases h

theorem Reach.run : ∀ {es : List E} {s s' : S}, Reach step ok init s → run step ok s es = some s' →
    Reach step ok init s' := by
  intro es
  induction es with
  | nil => intro s s' h hr; cases hr; exact h
  | cons e es ih =>
    intro s s' h hr
    unfold Lib.run at hr
    split at hr
    next hok =>
      split at hr
      next => cases hr
      next s1 hs => exact ih (.step h hok hs) hr
    next => cases hr

/-- A run is not longer than a measure that every step lowers. -/
theorem run_length_le {P : S → Prop} {μ : S → Nat} (hstep : ∀ s e s', P s → step s e = some s' → P s' ∧ μ s' < μ s) :
    ∀ {es : List E} {s s' : S}, P s → run step ok s es = some s' → es.length + μ s' ≤ μ s := by
  intro es
  induction es with
  | nil => intro s s' _ hr; cases hr; simp
  | cons e es ih =>
    intro s s' hP hr
    unfold run at hr
    split at hr
    next =>
      split at hr
      next => cases hr
      next s1 hs =>
        obtain ⟨hP1, hlt⟩ := hstep s e s1 hP hs
        have hle := ih hP1 hr
        rw [List.length_cons]
        omega
    next => cases hr

/-- Where a measure is left some step can be taken: so some run takes it to 0. -/
theorem exists_run_to_rest {P : S → Prop} {μ : S → Nat}
    (hstep : ∀ s e s', P s → ok s e = true → step s e = some s' → P s' ∧ μ s' < μ s)
    (hprogress : ∀ s, P s → 0 < μ s → ∃ e s', ok s e = true ∧ step s e = some s') :
    ∀ (n : Nat) (s : S), μ s = n → P s → ∃ es s', run step ok s es = some s' ∧ P s' ∧ μ s' = 0 := by
  intro n
  induction n using Nat.strongRecOn with
  | ind n ih =>
  intro s hn hP
  by_cases h0 : μ s = 0
  · exact ⟨[], s, rfl, hP, h0⟩
  · obtain ⟨e, s', hok, hs⟩ := hprogress s hP (Nat.pos_of_ne_zero h0)
    obtain ⟨hP', hlt⟩ := hstep s e s' hP hok hs
    obtain ⟨es, t, hrun, hPt, ht⟩ := ih (μ s') (by omega) s' rfl hP'
    exact ⟨e :: es, t, by rw [run_cons hok hs]; exact hrun, hPt, ht⟩

/-! ## Observed runs -/

variable {O : Type} {out : S → E → Option O}

/-- The machine with what `out` says of each step, in order. -/
def observed (step : S → E → Option S) (out : S → E → Option O) (s : S × List O) (e : E) : Option (S × List O) :=
  (step s.1 e).map fun s' => (s', s.2 ++ (out s.1 e).toList)

theorem observed_eq_some {s s' : S × List O} {e : E} : observed step out s e = some s' ↔
    step s.1 e = some s'.1 ∧ s'.2 = s.2 ++ (out s.1 e).toList := by
  unfold observed
  rw [Option.map_eq_some_iff]
  constructor
  · rintro ⟨t, ht, rfl⟩
    exact ⟨ht, rfl⟩
  · rintro ⟨ht, hl⟩
    exact ⟨s'.1, ht, by rw [← hl]⟩

theorem Reach.unobserved {okO : S × List O → E → Bool} (himp : ∀ s l e, okO (s, l) e = true → ok s e = true) {l : List O}
    {s : S × List O} (h : Reach (observed step out) okO (init, l) s) : Reach step ok init s.1 := by
  induction h with
  | init => exact .init
  | @step s s' e _ hok hs ih => exact .step ih (himp s.1 s.2 e hok) (observed_eq_some.mp hs).1

/-! ## Machines that answer -/

section

variable {S T E O P : Type}

/-- What a machine whose steps all happen answers to the events `es`, in order. -/
def answers (step : S → E → S × Option O) : S → List E → List O
  | _, [] => []
  | s, e :: es => (step s e).2.toList ++ answers step (step s e).1 es

/-- Two machines in step, under a relation that may look at the events to come. -/
theorem answers_eq {stepS : S → E → S × Option O} {stepT : T → E → T × Option P} {R : List E → S → T → Prop} {f : P → O}
    (hstep : ∀ e es s t, R (e :: es) s t → R es (stepS s e).1 (stepT t e).1 ∧ (stepS s e).2 = (stepT t e).2.map f) :
    ∀ {es : List E} {s : S} {t : T}, R es s t → answers stepS s es = (answers stepT t es).map f := by
  intro es
  induction es with
  | nil => intro s t _; rfl
  | cons e es ih =>
    intro s t h
    obtain ⟨hR, hout⟩ := hstep e es s t h
    rw [answers, answers, List.map_append, ih hR, hout]
    cases (stepT t e).2 <;> rfl

end

end Settled.Lib
