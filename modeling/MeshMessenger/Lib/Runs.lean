import Mathlib.Data.List.Basic
import Mathlib.Tactic

/-! Deterministic machines that consume events and emit outputs: runs, reachable
states, the induction rule for invariants, guarded runs, and the two-run rule
that carries a relation between two states along equal events. -/

namespace Runs

variable {σ ε ω : Type} (step : σ → ε → σ × List ω)

def run : σ → List ε → σ × List ω
  | s, [] => (s, [])
  | s, e :: es => ((run (step s e).1 es).1, (step s e).2 ++ (run (step s e).1 es).2)

@[simp] theorem run_nil (s : σ) : run step s [] = (s, []) := rfl

theorem run_cons (s : σ) (e : ε) (es : List ε) :
    run step s (e :: es) =
      ((run step (step s e).1 es).1, (step s e).2 ++ (run step (step s e).1 es).2) := rfl

theorem run_append (s : σ) (es fs : List ε) :
    run step s (es ++ fs) =
      ((run step (run step s es).1 fs).1,
        (run step s es).2 ++ (run step (run step s es).1 fs).2) := by
  induction es generalizing s with
  | nil => simp
  | cons e es ih => simp only [List.cons_append, run_cons, ih, List.append_assoc]

def Reachable (init s : σ) : Prop := ∃ es, (run step init es).1 = s

variable {step}

/-- What holds of one state and is kept by every step holds after every run. -/
theorem run_invariant {I : σ → Prop} (hstep : ∀ s e, I s → I (step s e).1)
    {s : σ} (h : I s) (es : List ε) : I (run step s es).1 := by
  induction es generalizing s with
  | nil => exact h
  | cons e es ih => exact ih (hstep s e h)

theorem Reachable.invariant {I : σ → Prop} {init s : σ} (h : Reachable step init s)
    (hinit : I init) (hstep : ∀ s e, I s → I (step s e).1) : I s := by
  obtain ⟨es, rfl⟩ := h
  exact run_invariant hstep hinit es

theorem Reachable.after {init s : σ} (h : Reachable step init s) (e : ε) :
    Reachable step init (step s e).1 := by
  obtain ⟨es, rfl⟩ := h
  exact ⟨es ++ [e], by rw [run_append]; rfl⟩

/-! ### Guarded runs -/

variable (step)

/-- Every step of the run meets `P` in the state it is taken from. -/
def Along (P : σ → ε → Prop) : σ → List ε → Prop
  | _, [] => True
  | s, e :: es => P s e ∧ Along P (step s e).1 es

instance Along.decidable (P : σ → ε → Prop) [∀ s e, Decidable (P s e)] :
    ∀ s es, Decidable (Along step P s es)
  | _, [] => isTrue trivial
  | s, e :: es =>
    have := Along.decidable P (step s e).1 es
    inferInstanceAs (Decidable (P s e ∧ Along step P (step s e).1 es))

/-- Every state of the run, the first and the last included, satisfies `I`. -/
def Always (I : σ → Prop) : σ → List ε → Prop
  | s, [] => I s
  | s, e :: es => I s ∧ Always I (step s e).1 es

variable {step}

theorem Along.mono {P Q : σ → ε → Prop} {s : σ} {es : List ε} (h : Along step P s es)
    (hpq : ∀ s e, P s e → Q s e) : Along step Q s es := by
  induction es generalizing s with
  | nil => trivial
  | cons e es ih => exact ⟨hpq s e h.1, ih h.2⟩

theorem Always.head {I : σ → Prop} {s : σ} {es : List ε} (h : Always step I s es) : I s := by
  cases es with
  | nil => exact h
  | cons e es => exact h.1

theorem Along.of_forall_mem {P : σ → ε → Prop} {es : List ε} (h : ∀ e ∈ es, ∀ s, P s e) (s : σ) :
    Along step P s es := by
  induction es generalizing s with
  | nil => trivial
  | cons e es ih =>
    exact ⟨h e List.mem_cons_self s, ih (fun e' he' => h e' (List.mem_cons_of_mem e he')) _⟩

theorem Along.of_forall {P : σ → ε → Prop} (h : ∀ s e, P s e) (s : σ) (es : List ε) :
    Along step P s es :=
  of_forall_mem (fun e _ s => h s e) s

/-- A relation between the state and the outputs so far that every step meeting `P`
keeps holds after every run whose steps all meet `P`. -/
theorem Along.trace_invariant {P : σ → ε → Prop} {I : σ → List ω → Prop}
    (hstep : ∀ s out e, P s e → I s out → I (step s e).1 (out ++ (step s e).2))
    {s : σ} {out : List ω} (h : I s out) {es : List ε} (hes : Along step P s es) :
    I (run step s es).1 (out ++ (run step s es).2) := by
  induction es generalizing s out with
  | nil => simpa using h
  | cons e es ih =>
    rw [run_cons, ← List.append_assoc]
    exact ih (hstep s out e hes.1 h) hes.2

theorem run_trace_invariant {I : σ → List ω → Prop}
    (hstep : ∀ s out e, I s out → I (step s e).1 (out ++ (step s e).2))
    {s : σ} {out : List ω} (h : I s out) (es : List ε) :
    I (run step s es).1 (out ++ (run step s es).2) :=
  (Along.of_forall (P := fun _ _ => True) (fun _ _ => trivial) s es).trace_invariant
    (fun s out e _ hs => hstep s out e hs) h

/-- An output of a run is one of some step's. -/
theorem mem_run {s : σ} {es : List ε} {o : ω} (h : o ∈ (run step s es).2) :
    ∃ before e after, es = before ++ e :: after ∧ o ∈ (step (run step s before).1 e).2 := by
  induction es generalizing s with
  | nil => simp at h
  | cons e es ih =>
    rw [run_cons, List.mem_append] at h
    rcases h with h | h
    · exact ⟨[], e, es, rfl, h⟩
    · obtain ⟨before, e', after, rfl, h'⟩ := ih h
      exact ⟨e :: before, e', after, rfl, h'⟩

/-- What every step's outputs satisfy exactly when the step meets `P`, the outputs of a
run satisfy exactly when all its steps meet `P`. -/
theorem forall_output_iff_along {P : σ → ε → Prop} {Q : ω → Prop}
    (hstep : ∀ s e, (∀ o ∈ (step s e).2, Q o) ↔ P s e) (s : σ) (es : List ε) :
    (∀ o ∈ (run step s es).2, Q o) ↔ Along step P s es := by
  induction es generalizing s with
  | nil => simp [Along]
  | cons e es ih => rw [run_cons, List.forall_mem_append, hstep, ih, Along]

/-- Where an invariant `J` holds and one step from a state with `I` leads to a
state with `I` exactly when it meets `P`, a run stays in `I` exactly when all
its steps meet `P`. -/
theorem always_iff_along {P : σ → ε → Prop} {I J : σ → Prop} (hJ : ∀ s e, J s → J (step s e).1)
    (hstep : ∀ s e, J s → I s → (I (step s e).1 ↔ P s e)) {s : σ} (hs : J s) (h : I s)
    (es : List ε) : Always step I s es ↔ Along step P s es := by
  induction es generalizing s with
  | nil => exact iff_of_true h trivial
  | cons e es ih =>
    refine ⟨?_, ?_⟩
    · rintro ⟨-, hrest⟩
      exact ⟨(hstep s e hs h).1 hrest.head, (ih (hJ s e hs) hrest.head).1 hrest⟩
    · rintro ⟨hp, hrest⟩
      have hnext := (hstep s e hs h).2 hp
      exact ⟨h, (ih (hJ s e hs) hnext).2 hrest⟩

/-! ### Other outputs -/

section Outputs

variable {ω' : Type} {step' : σ → ε → σ × List ω'}

/-- Machines that differ in their outputs only go through the same states. -/
theorem run_fst_congr (h : ∀ s e, (step' s e).1 = (step s e).1) (s : σ) (es : List ε) :
    (run step' s es).1 = (run step s es).1 := by
  induction es generalizing s with
  | nil => rfl
  | cons e es ih => rw [run_cons, run_cons, ih, h]

theorem along_congr (h : ∀ s e, (step' s e).1 = (step s e).1) {P : σ → ε → Prop} (s : σ)
    (es : List ε) : Along step' P s es ↔ Along step P s es := by
  induction es generalizing s with
  | nil => exact Iff.rfl
  | cons e es ih => rw [Along, Along, h, ih]

theorem Along.congr (h : ∀ s e, (step' s e).1 = (step s e).1) {P : σ → ε → Prop} {s : σ}
    {es : List ε} (hes : Along step P s es) : Along step' P s es := (along_congr h s es).2 hes

end Outputs

/-! ### Two runs -/

/-- A relation that makes every step emit the same outputs and that every step
keeps makes whole runs over the same events emit the same outputs. -/
theorem run_unwinding {R : σ → σ → Prop}
    (hstep : ∀ s t e, R s t → (step s e).2 = (step t e).2 ∧ R (step s e).1 (step t e).1)
    {s t : σ} (h : R s t) (es : List ε) :
    (run step s es).2 = (run step t es).2 ∧ R (run step s es).1 (run step t es).1 := by
  induction es generalizing s t with
  | nil => exact ⟨rfl, h⟩
  | cons e es ih =>
    obtain ⟨hout, hrel⟩ := hstep s t e h
    obtain ⟨houts, hrels⟩ := ih hrel
    exact ⟨by rw [run_cons, run_cons, hout, houts], hrels⟩

/-- A part of the state that no step's outputs depend on, and that no step moves
into the rest, can be erased by `f` without changing the outputs of any run. -/
theorem run_erasure {f : σ → σ}
    (hstep : ∀ s e, (step s e).2 = (step (f s) e).2 ∧ f (step s e).1 = f (step (f s) e).1)
    {s t : σ} (h : f s = f t) (es : List ε) : (run step s es).2 = (run step t es).2 := by
  refine (run_unwinding (R := fun s t => f s = f t) (fun s t e hst => ?_) h es).1
  obtain ⟨hs, hs'⟩ := hstep s e
  obtain ⟨ht, ht'⟩ := hstep t e
  rw [hst] at hs hs'
  exact ⟨hs.trans ht.symm, hs'.trans ht'.symm⟩

end Runs
