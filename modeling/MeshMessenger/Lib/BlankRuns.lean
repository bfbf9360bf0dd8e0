import Mathlib.Data.List.Basic
import Mathlib.Data.List.TakeWhile
import Mathlib.Tactic

/-! Texts in which every run of blanks is replaced by another, chosen with a look at the
characters around it. -/

namespace BlankRuns

variable {α : Type} (blank : α → Bool)

/-- What a run becomes, after one character and before another. -/
abbrev RunMap (α : Type) := Option α → List α → Option α → List α

/-- The text with its runs replaced; `w` is what has been read of a run, after `prev`. -/
def mapRuns (f : RunMap α) : Option α → List α → List α → List α
  | prev, w, [] => f prev w none
  | prev, w, c :: x =>
    if blank c then mapRuns f prev (w ++ [c]) x
    else f prev w (some c) ++ c :: mapRuns f (some c) [] x

/-- A map of runs makes nothing of an empty run, and only blanks of blanks. -/
structure RunMap.Blank (f : RunMap α) : Prop where
  nil : ∀ prev next, f prev [] next = []
  blanks : ∀ prev w next, (∀ c ∈ w, blank c = true) → ∀ c ∈ f prev w next, blank c = true

variable {blank}

theorem mapRuns_append (f : RunMap α) {w : List α} (hw : ∀ c ∈ w, blank c = true)
    (prev : Option α) (v x : List α) :
    mapRuns blank f prev v (w ++ x) = mapRuns blank f prev (v ++ w) x := by
  induction w generalizing v with
  | nil => rw [List.nil_append, List.append_nil]
  | cons c w ih =>
    rw [List.cons_append, mapRuns, if_pos (hw c List.mem_cons_self),
      ih (fun d hd => hw d (List.mem_cons_of_mem c hd)), List.append_assoc, List.singleton_append]

theorem mapRuns_cons (f : RunMap α) (hf : f.Blank blank) {c : α} (hc : blank c = false)
    (prev : Option α) (x : List α) :
    mapRuns blank f prev [] (c :: x) = c :: mapRuns blank f (some c) [] x := by
  rw [mapRuns, if_neg (by simp [hc]), hf.nil, List.nil_append]

/-- A run ends where no blank follows; what stands before it says nothing of the rest. -/
theorem mapRuns_end (f : RunMap α) (hf : f.Blank blank) {x : List α}
    (hx : ∀ c ∈ x.head?, blank c = false) (prev prev' : Option α) (w : List α) :
    mapRuns blank f prev w x = f prev w x.head? ++ mapRuns blank f prev' [] x := by
  cases x with
  | nil => rw [mapRuns, mapRuns, hf.nil, List.append_nil, List.head?_nil]
  | cons c x =>
    have hc : blank c = false := hx c rfl
    rw [mapRuns_cons f hf hc, mapRuns, if_neg (by simp [hc]), List.head?_cons]

theorem mapRuns_run (f : RunMap α) (hf : f.Blank blank) {w x : List α}
    (hw : ∀ c ∈ w, blank c = true) (hx : ∀ c ∈ x.head?, blank c = false)
    (prev prev' : Option α) :
    mapRuns blank f prev [] (w ++ x) = f prev w x.head? ++ mapRuns blank f prev' [] x := by
  rw [mapRuns_append f hw, List.nil_append, mapRuns_end f hf hx prev prev']

/-- One map of runs after another. -/
def RunMap.comp (g f : RunMap α) : RunMap α := fun prev w next => g prev (f prev w next) next

theorem RunMap.Blank.comp {g f : RunMap α} (hg : g.Blank blank) (hf : f.Blank blank) :
    (g.comp f).Blank blank where
  nil prev next := by rw [RunMap.comp, hf.nil, hg.nil]
  blanks prev w next hw := hg.blanks _ _ _ (hf.blanks _ _ _ hw)

theorem mapRuns_comp (g f : RunMap α) (hf : f.Blank blank)
    {w : List α} (hw : ∀ c ∈ w, blank c = true) (prev : Option α) (x : List α) :
    mapRuns blank g prev [] (mapRuns blank f prev w x) = mapRuns blank (g.comp f) prev w x := by
  induction x generalizing prev w with
  | nil =>
    have hrun := mapRuns_append g (hf.blanks prev w none hw) prev [] []
    rw [List.append_nil, List.nil_append] at hrun
    rw [mapRuns, hrun, mapRuns, mapRuns, RunMap.comp]
  | cons c x ih =>
    rw [mapRuns, mapRuns]
    cases hc : blank c with
    | true =>
      rw [if_pos rfl, if_pos rfl]
      refine ih (fun d hd => ?_) prev
      rcases List.mem_append.1 hd with hd | hd
      · exact hw d hd
      · rwa [List.mem_singleton.1 hd]
    | false =>
      have hnil : ∀ d ∈ ([] : List α), blank d = true := fun d hd => absurd hd List.not_mem_nil
      have hnext := ih hnil (some c)
      rw [if_neg (by simp), if_neg (by simp), mapRuns_append g (hf.blanks prev w (some c) hw),
        List.nil_append, mapRuns, if_neg (by simp [hc]), hnext, RunMap.comp]

theorem takeWhile_run {w y : List α} (hw : ∀ c ∈ w, blank c = true)
    (hy : ∀ c ∈ y.head?, blank c = false) : (w ++ y).takeWhile blank = w := by
  rw [List.takeWhile_append_of_pos hw]
  cases y with
  | nil => simp
  | cons c y => rw [List.takeWhile_cons_of_neg (by simp [hy c rfl]), List.append_nil]

theorem dropWhile_run {w y : List α} (hw : ∀ c ∈ w, blank c = true)
    (hy : ∀ c ∈ y.head?, blank c = false) : (w ++ y).dropWhile blank = y := by
  rw [List.dropWhile_append_of_pos hw]
  cases y with
  | nil => rfl
  | cons c y => exact List.dropWhile_cons_of_neg (by simp [hy c rfl])

theorem head?_dropWhile (x : List α) : ∀ c ∈ (x.dropWhile blank).head?, blank c = false := by
  intro c hc
  have hnot := List.head?_dropWhile_not blank x
  rwa [Option.mem_def.1 hc] at hnot

/-- Blanks at the start of a text are within its first run. -/
theorem run_of_append {w y a b : List α} (h : w ++ y = a ++ b) (ha : ∀ c ∈ a, blank c = true)
    (hy : ∀ c ∈ y.head?, blank c = false) : ∃ t, w = a ++ t ∧ b = t ++ y := by
  rcases List.append_eq_append_iff.1 h with ⟨t, rfl, hyt⟩ | ⟨t, hw, hb⟩
  · cases t with
    | nil => exact ⟨[], by simp, by simpa using hyt.symm⟩
    | cons c t =>
      have hc := ha c (by simp)
      rw [hy c (by rw [hyt]; rfl)] at hc
      cases hc
  · exact ⟨t, hw, hb⟩

/-- A text is empty, or starts with a character that is no blank, or with a run. -/
theorem run_cases (blank : α → Bool) (x : List α) :
    x = [] ∨ (∃ c y, x = c :: y ∧ blank c = false) ∨
      ∃ w y, x = w ++ y ∧ w ≠ [] ∧ (∀ c ∈ w, blank c = true) ∧ ∀ c ∈ y.head?, blank c = false := by
  cases x with
  | nil => exact .inl rfl
  | cons c x =>
    cases hc : blank c with
    | false => exact .inr (.inl ⟨c, x, rfl, hc⟩)
    | true =>
      refine .inr (.inr ⟨(c :: x).takeWhile blank, (c :: x).dropWhile blank, ?_, ?_, ?_, ?_⟩)
      · rw [List.takeWhile_append_dropWhile]
      · rw [List.takeWhile_cons_of_pos hc]
        exact List.cons_ne_nil _ _
      · exact fun d hd => List.mem_takeWhile_imp hd
      · exact head?_dropWhile (c :: x)

end BlankRuns
