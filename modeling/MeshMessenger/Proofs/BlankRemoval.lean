import MeshMessenger.Lib.BlankRuns
import MeshMessenger.Lib.Comments
import MeshMessenger.Proofs.CommentRemoval

/-! What the four patterns of blanks in `remove_comments_and_spaces` make of a text. -/

namespace Mesh.Obfuscator

open CLib CLib.Lex Regex Re BlankRuns

variable {U : Classes}

/-- The characters of the operator class. -/
def isOperator (c : Char) : Bool :=
  "=*&|!<>()\x7b\x7d[].,;:".toList.contains c || ('+' ≤ c && c ≤ '/')

def isTab (c : Char) : Bool := " \t".toList.contains c

/-- Every run of tabs and spaces as one space; `within` such a run. -/
def squash : Bool → Text → Text
  | _, [] => []
  | within, c :: x =>
    if isTab c then if within then squash true x else ' ' :: squash true x
    else c :: squash false x

/-! ### Tabs and spaces -/

theorem matchAt_plus {p : Char → Bool} {c : Char} (hc : p c = true) (prev : Option Char)
    (x : Text) :
    matchAt U (plus (one p)) ⟨prev, c :: x⟩ =
      some ⟨⟨((x.takeWhile p).getLast?).or (some c), x.dropWhile p⟩, []⟩ := by
  have hone : run U (one p) ⟨⟨prev, c :: x⟩, []⟩ = [⟨⟨some c, x⟩, []⟩] := by
    rw [run_one, if_pos hc]
  refine matchAt_of_head? ?_ ?_
  · rw [plus, run_seq_of_eq_singleton hone, head?_run_star]
  · have hlen := (List.dropWhile_sublist p (l := x)).length_le
    simp only [List.length_cons]
    omega

theorem matchAt_plus_none {p : Char → Bool} {c : Char} (hc : p c = false) (prev : Option Char)
    (x : Text) : matchAt U (plus (one p)) ⟨prev, c :: x⟩ = none := by
  refine matchAt_eq_none_of_run (run_seq_of_eq_nil ?_)
  rw [run_one, if_neg (by simp [hc])]

theorem squash_dropWhile (x : Text) :
    squash false (x.dropWhile isTab) = squash true x := by
  induction x with
  | nil => rfl
  | cons c x ih =>
    by_cases hc : isTab c = true
    · rw [List.dropWhile_cons_of_pos hc, ih, squash, if_pos hc, if_pos rfl]
    · rw [List.dropWhile_cons_of_neg hc, squash, squash, if_neg hc, if_neg hc]

theorem oneOf_tab : oneOf " \t" = one isTab := rfl

theorem subFrom_tabs {n : ℕ} {x : Text} (hn : x.length ≤ n) (prev : Option Char) :
    subFrom U (plus (oneOf " \t")) (fun _ => [' ']) ⟨prev, x⟩ = squash false x := by
  induction n generalizing x prev with
  | zero =>
    obtain rfl : x = [] := List.length_eq_zero_iff.1 (Nat.le_zero.1 hn)
    rfl
  | succ n ih =>
    cases x with
    | nil => rfl
    | cons c x =>
      have hx : x.length ≤ n := by simpa using hn
      have hlen := (List.dropWhile_sublist isTab (l := x)).length_le
      cases hc : isTab c with
      | true =>
        rw [oneOf_tab, subFrom_of_some (matchAt_plus hc prev x), squash, if_pos hc,
          if_neg (by simp), ← squash_dropWhile]
        rw [oneOf_tab] at ih
        exact congrArg (' ' :: ·) (ih (hlen.trans hx) _)
      | false =>
        rw [oneOf_tab, subFrom_of_none (matchAt_plus_none hc prev x), squash,
          if_neg (Bool.eq_false_iff.1 hc)]
        exact congrArg (c :: ·) (ih hx _)

/-! ### Blanks next to operators -/

theorem punctuation_eq : punctuation = one isOperator := rfl

/-- A printing character is no blank. -/
theorem isGraph_of_isOperator {c : Char} (hc : isOperator c = true) : isGraph c = true := by
  have hall : ("=*&|!<>()\x7b\x7d[].,;:".toList.all isGraph) = true := by decide
  rcases Bool.or_eq_true .. ▸ hc with hlist | hrange
  · exact List.all_eq_true.1 hall c (by simpa using hlist)
  · simp only [Bool.and_eq_true, decide_eq_true_eq, Char.le_def, UInt32.le_iff_toNat_le] at hrange
    have hplus : '+'.val.toNat = 43 := rfl
    have hslash : '/'.val.toNat = 47 := rfl
    have hval : c.toNat = c.val.toNat := rfl
    simp only [isGraph, Bool.and_eq_true, decide_eq_true_eq]
    omega

theorem not_isOperator_of_isSpace {c : Char} (hc : U.isSpace c = true) : isOperator c = false := by
  by_contra h
  rw [not_isSpace_of_isGraph (isGraph_of_isOperator (by simpa using h))] at hc
  cases hc

def operatorPattern (U : Classes) : Re := cat [spaces U, group 1 punctuation, spaces U]

theorem run_operatorEnd (s : Found) {c : Char} {x : Text} (hs : s.cur.rest = c :: x) :
    (run U (seq (group 1 punctuation) (seq (spaces U) eps)) s).head? =
      if isOperator c then
        some ⟨⟨((x.takeWhile U.isSpace).getLast?).or (some c), x.dropWhile U.isSpace⟩,
          (1, [c]) :: s.groups⟩
      else none := by
  obtain ⟨⟨prev, rest⟩, groups⟩ := s
  obtain rfl : rest = c :: x := hs
  cases hc : isOperator c with
  | true =>
    have hone : run U (one isOperator) ⟨⟨prev, c :: x⟩, groups⟩ = [⟨⟨some c, x⟩, groups⟩] := by
      rw [run_one, if_pos hc]
    have hgroup : run U (group 1 punctuation) ⟨⟨prev, c :: x⟩, groups⟩ =
        [⟨⟨some c, x⟩, (1, [c]) :: groups⟩] := by
      rw [punctuation_eq, run_group, hone]
      simp
    rw [run_seq_of_eq_singleton hgroup, run_seq_eps, spaces, head?_run_star, if_pos rfl]
  | false =>
    have hone : run U (one isOperator) ⟨⟨prev, c :: x⟩, groups⟩ = [] := by
      rw [run_one, if_neg (Bool.eq_false_iff.1 hc)]
    have hgroup : run U (group 1 punctuation) ⟨⟨prev, c :: x⟩, groups⟩ = [] := by
      rw [punctuation_eq, run_group, hone, List.map_nil]
    rw [run_seq_of_eq_nil hgroup, if_neg (by simp)]
    rfl

theorem run_operatorEnd_space (s : Found) (hs : ∃ c ∈ s.cur.rest.head?, U.isSpace c = true) :
    run U (seq (group 1 punctuation) (seq (spaces U) eps)) s = [] := by
  obtain ⟨c, hc, hspace⟩ := hs
  obtain ⟨x, hx⟩ := List.head?_eq_some_iff.1 hc
  rw [← List.head?_eq_none_iff, run_operatorEnd s hx, not_isOperator_of_isSpace hspace]
  rfl

/-- Blanks go where an operator follows them, with those after it. -/
theorem matchAt_operator {prev : Option Char} {x y : Text} {c : Char}
    (hx : x.dropWhile U.isSpace = c :: y) (hc : isOperator c = true) :
    matchAt U (operatorPattern U) ⟨prev, x⟩ =
      some ⟨⟨((y.takeWhile U.isSpace).getLast?).or (some c), y.dropWhile U.isSpace⟩,
        [(1, [c])]⟩ := by
  refine matchAt_of_head? ?_ ?_
  · have hrun := run_star_seq (U := U) ⟨⟨prev, x⟩, []⟩ run_operatorEnd_space
    refine (congrArg List.head? hrun).trans ?_
    rw [run_operatorEnd _ hx, if_pos hc]
  · have hlen := (List.dropWhile_sublist U.isSpace (l := x)).length_le
    have hlen' := (List.dropWhile_sublist U.isSpace (l := y)).length_le
    rw [hx] at hlen
    simp only [List.length_cons] at hlen ⊢
    omega

theorem matchAt_operator_none {prev : Option Char} {x : Text}
    (hx : ∀ c ∈ (x.dropWhile U.isSpace).head?, isOperator c = false) :
    matchAt U (operatorPattern U) ⟨prev, x⟩ = none := by
  have hrun := run_star_seq (U := U) ⟨⟨prev, x⟩, []⟩ run_operatorEnd_space
  have hhead : (run U (operatorPattern U) ⟨⟨prev, x⟩, []⟩).head? = none := by
    refine (congrArg List.head? hrun).trans ?_
    cases hrest : x.dropWhile U.isSpace with
    | nil => rfl
    | cons c y =>
      rw [run_operatorEnd _ rfl, if_neg]
      rw [hx c (by rw [hrest]; rfl)]
      simp
  rw [matchAt, hhead]

def besideOperator (prev next : Option Char) : Bool := prev.any isOperator || next.any isOperator

def operatorRuns : RunMap Char := fun prev w next => if besideOperator prev next then [] else w

theorem operatorRuns_blank : operatorRuns.Blank U.isSpace where
  nil prev next := by simp [operatorRuns]
  blanks prev w next hw := by
    unfold operatorRuns
    split_ifs
    · exact fun c hc => absurd hc List.not_mem_nil
    · exact hw

def beside (U : Classes) (prev : Option Char) (x : Text) : Text :=
  subFrom U (operatorPattern U) (fun m => (m.group? 1).getD []) ⟨prev, x⟩

theorem beside_operator {prev : Option Char} {x y : Text} {c : Char}
    (hx : x.dropWhile U.isSpace = c :: y) (hc : isOperator c = true) :
    beside U prev x =
      c :: beside U (((y.takeWhile U.isSpace).getLast?).or (some c)) (y.dropWhile U.isSpace) :=
  subFrom_of_some (matchAt_operator hx hc)

theorem beside_none {prev : Option Char} {c : Char} {x : Text}
    (hx : ∀ d ∈ ((c :: x).dropWhile U.isSpace).head?, isOperator d = false) :
    beside U prev (c :: x) = c :: beside U (some c) x :=
  subFrom_of_none (matchAt_operator_none hx)

theorem beside_run {w y : Text} (hw : ∀ c ∈ w, U.isSpace c = true)
    (hy : ∀ c ∈ y.head?, U.isSpace c = false ∧ isOperator c = false) (prev : Option Char) :
    ∃ prev', beside U prev (w ++ y) = w ++ beside U prev' y := by
  induction w generalizing prev with
  | nil => exact ⟨prev, rfl⟩
  | cons c w ih =>
    have hdrop : (c :: w ++ y).dropWhile U.isSpace = y :=
      dropWhile_run hw fun d hd => (hy d hd).1
    obtain ⟨prev', hnext⟩ := ih (fun d hd => hw d (List.mem_cons_of_mem c hd)) (some c)
    refine ⟨prev', ?_⟩
    rw [List.cons_append] at hdrop ⊢
    rw [beside_none, hnext, List.cons_append]
    rw [hdrop]
    exact fun d hd => (hy d hd).2

theorem beside_eq {n : ℕ} {x : Text} (hn : x.length ≤ n) {p : Option Char}
    (hp : p.any isOperator = false ∨ ∀ c ∈ x.head?, U.isSpace c = false) (prev : Option Char) :
    beside U prev x = mapRuns U.isSpace operatorRuns p [] x := by
  induction n generalizing x p prev with
  | zero =>
    obtain rfl : x = [] := List.length_eq_zero_iff.1 (Nat.le_zero.1 hn)
    exact (operatorRuns_blank (U := U).nil p none).symm
  | succ n ih =>
    rcases run_cases U.isSpace x with rfl | ⟨c, y, rfl, hc⟩ | ⟨w, y, rfl, hne, hw, hy⟩
    · exact (operatorRuns_blank (U := U).nil p none).symm
    · have hx : (c :: y).dropWhile U.isSpace = c :: y := List.dropWhile_cons_of_neg (by simp [hc])
      have hlen : y.length ≤ n := by simpa using hn
      rw [mapRuns_cons _ operatorRuns_blank hc]
      cases hop : isOperator c with
      | true =>
        have hdrop := (List.dropWhile_sublist U.isSpace (l := y)).length_le
        have hw : ∀ d ∈ y.takeWhile U.isSpace, U.isSpace d = true :=
          fun d hd => List.mem_takeWhile_imp hd
        have hgone : operatorRuns (some c) (y.takeWhile U.isSpace)
            (y.dropWhile U.isSpace).head? = [] := if_pos (by simp [besideOperator, hop])
        have hrun := mapRuns_run operatorRuns operatorRuns_blank hw (head?_dropWhile y)
          (some c) none
        rw [List.takeWhile_append_dropWhile, hgone, List.nil_append] at hrun
        rw [beside_operator hx hop, hrun, ih (p := none) (hdrop.trans hlen) (.inl rfl)]
      | false =>
        have hnone : ∀ d ∈ ((c :: y).dropWhile U.isSpace).head?, isOperator d = false := by
          rw [hx]
          intro d hd
          rwa [← Option.some.inj hd]
        rw [beside_none hnone, ih (p := some c) hlen (.inl hop)]
    · have hlen : y.length ≤ n := by
        have := List.length_pos_iff.2 hne
        simp only [List.length_append] at hn
        omega
      have hlast : p.any isOperator = false := by
        refine hp.resolve_right fun h => ?_
        obtain ⟨c, w, rfl⟩ := List.exists_cons_of_ne_nil hne
        have hc := hw c List.mem_cons_self
        rw [h c rfl] at hc
        cases hc
      rw [mapRuns_run _ operatorRuns_blank hw hy p none]
      cases hop : y.head?.any isOperator with
      | true =>
        have hgone : operatorRuns p w y.head? = [] := if_pos (by simp [besideOperator, hop])
        cases y with
        | nil => cases hop
        | cons c z =>
          have hc : isOperator c = true := hop
          have hx : (c :: z).dropWhile U.isSpace = c :: z :=
            List.dropWhile_cons_of_neg (by simp [hy c rfl])
          have hw' : (w ++ c :: z).dropWhile U.isSpace = c :: z := by
            rw [List.dropWhile_append_of_pos hw, hx]
          have hnext := ih (p := none) hlen (.inl rfl) prev
          rw [beside_operator hx hc] at hnext
          rw [hgone, List.nil_append, beside_operator hw' hc, hnext]
      | false =>
        have hkept : operatorRuns p w y.head? = w := if_neg (by simp [besideOperator, hop, hlast])
        have hends : ∀ c ∈ y.head?, U.isSpace c = false ∧ isOperator c = false := by
          intro c hc
          rw [Option.mem_def.1 hc] at hop
          exact ⟨hy c hc, hop⟩
        obtain ⟨prev', hrun⟩ := beside_run hw hends prev
        rw [hrun, hkept, ih (p := none) hlen (.inl rfl)]

/-! ### Runs of tabs and spaces -/

theorem isSpace_of_isTab {c : Char} (hc : isTab c = true) : U.isSpace c = true := by
  have hcases : c = ' ' ∨ c = '\t' := by simpa [isTab] using hc
  rcases hcases with rfl | rfl
  · exact isSpace_imp (by decide)
  · exact isSpace_imp (by decide)

theorem squash_append {c : Char} (hc : isTab c = false) (within : Bool) (w x : Text) :
    squash within (w ++ c :: x) = squash within w ++ c :: squash false x := by
  induction w generalizing within with
  | nil => simp [squash, hc]
  | cons d w ih =>
    rw [List.cons_append, squash, squash]
    split_ifs
    · exact ih true
    · rw [ih true, List.cons_append]
    · rw [ih false, List.cons_append]

def squashRuns : RunMap Char := fun _ w _ => squash false w

theorem mem_squash {c : Char} {within : Bool} {w : Text} (h : c ∈ squash within w) :
    c = ' ' ∨ c ∈ w := by
  induction w generalizing within with
  | nil => cases h
  | cons d w ih =>
    rw [squash] at h
    split_ifs at h
    · exact (ih h).imp_right (List.mem_cons_of_mem d)
    · rcases List.mem_cons.1 h with rfl | h
      · exact .inl rfl
      · exact (ih h).imp_right (List.mem_cons_of_mem d)
    · rcases List.mem_cons.1 h with rfl | h
      · exact .inr List.mem_cons_self
      · exact (ih h).imp_right (List.mem_cons_of_mem d)

theorem squashRuns_blank : squashRuns.Blank U.isSpace where
  nil _ _ := rfl
  blanks prev w next hw c hc := by
    rcases mem_squash hc with rfl | hc
    · exact isSpace_imp (by decide)
    · exact hw c hc

theorem squash_eq (prev : Option Char) (w x : Text) :
    mapRuns U.isSpace squashRuns prev w x = squash false (w ++ x) := by
  induction x generalizing prev w with
  | nil => rw [mapRuns, List.append_nil, squashRuns]
  | cons c x ih =>
    rw [mapRuns]
    cases hc : U.isSpace c with
    | true => rw [if_pos rfl, ih, List.append_assoc, List.singleton_append]
    | false =>
      have htab : isTab c = false := by
        by_contra h
        rw [isSpace_of_isTab (by simpa using h)] at hc
        cases hc
      rw [if_neg (by simp), ih, List.nil_append, squash_append htab, squashRuns]

/-! ### Line starts -/

/-- A run up to its first line end. -/
def keepLine (w : Text) : Text := w.takeWhile (· ≠ '\n') ++ if w.contains '\n' then ['\n'] else []

def lineStartRuns : RunMap Char := fun prev w _ => if prev = none then [] else keepLine w

@[simp] theorem keepLine_nil : keepLine [] = [] := rfl

theorem keepLine_newline (w : Text) : keepLine ('\n' :: w) = ['\n'] := by simp [keepLine]

theorem keepLine_cons {c : Char} (hc : c ≠ '\n') (w : Text) :
    keepLine (c :: w) = c :: keepLine w := by
  simp [keepLine, hc, Ne.symm hc]

theorem mem_keepLine {c : Char} {w : Text} (h : c ∈ keepLine w) : c ∈ w := by
  induction w with
  | nil => cases h
  | cons d w ih =>
    by_cases hd : d = '\n'
    · subst hd
      rw [keepLine_newline] at h
      rw [List.mem_singleton.1 h]
      exact List.mem_cons_self
    · rw [keepLine_cons hd] at h
      rcases List.mem_cons.1 h with rfl | h
      · exact List.mem_cons_self
      · exact List.mem_cons_of_mem d (ih h)

theorem lineStartRuns_blank : lineStartRuns.Blank U.isSpace where
  nil prev next := by simp [lineStartRuns]
  blanks prev w next hw := by
    unfold lineStartRuns
    split_ifs
    · exact fun c hc => absurd hc List.not_mem_nil
    · exact fun c hc => hw c (mem_keepLine hc)

def lineStarts (U : Classes) (prev : Option Char) (x : Text) : Text :=
  subFrom U (cat [lineStart, spaces1 U]) (fun _ => []) ⟨prev, x⟩

theorem lineStarts_match {prev : Option Char} (hprev : prev = none ∨ prev = some '\n')
    {c : Char} (hc : U.isSpace c = true) (x : Text) :
    ∃ prev', lineStarts U prev (c :: x) = lineStarts U prev' (x.dropWhile U.isSpace) := by
  have hstart : run U lineStart ⟨⟨prev, c :: x⟩, []⟩ = [⟨⟨prev, c :: x⟩, []⟩] := if_pos hprev
  have hplus := matchAt_plus (U := U) hc prev x
  have hmatch : matchAt U (cat [lineStart, spaces1 U]) ⟨prev, c :: x⟩ =
      some ⟨⟨((x.takeWhile U.isSpace).getLast?).or (some c), x.dropWhile U.isSpace⟩, []⟩ := by
    rw [← hplus, matchAt, matchAt]
    have hrun : run U (cat [lineStart, spaces1 U]) ⟨⟨prev, c :: x⟩, []⟩ =
        run U (plus (one U.isSpace)) ⟨⟨prev, c :: x⟩, []⟩ := by
      have hcat : cat [lineStart, spaces1 U] = seq lineStart (seq (spaces1 U) eps) := rfl
      rw [hcat, run_seq_of_eq_singleton hstart, run_seq_eps, spaces1]
    rw [hrun]
  exact ⟨_, subFrom_of_some hmatch⟩

theorem lineStarts_cons {prev : Option Char} {c : Char} {x : Text}
    (h : (prev ≠ none ∧ prev ≠ some '\n') ∨ U.isSpace c = false) :
    lineStarts U prev (c :: x) = c :: lineStarts U (some c) x := by
  refine subFrom_of_none (matchAt_eq_none_of_run ?_)
  rcases h with ⟨hnone, hnewline⟩ | hc
  · have hstart : run U lineStart ⟨⟨prev, c :: x⟩, []⟩ = [] :=
      if_neg (by simp [hnone, hnewline])
    exact run_seq_of_eq_nil hstart
  · have hone : run U (one U.isSpace) ⟨⟨prev, c :: x⟩, []⟩ = [] := by
      rw [run_one, if_neg (Bool.eq_false_iff.1 hc)]
    have hspaces : run U (seq (spaces1 U) eps) ⟨⟨prev, c :: x⟩, []⟩ = [] := by
      rw [run_seq_eps]
      exact run_seq_of_eq_nil hone
    by_cases hprev : prev = none ∨ prev = some '\n'
    · have hstart : run U lineStart ⟨⟨prev, c :: x⟩, []⟩ = [⟨⟨prev, c :: x⟩, []⟩] := if_pos hprev
      exact (run_seq_of_eq_singleton hstart).trans hspaces
    · have hstart : run U lineStart ⟨⟨prev, c :: x⟩, []⟩ = [] := if_neg hprev
      exact run_seq_of_eq_nil hstart

theorem lineStarts_run {w y : Text} (hw : ∀ c ∈ w, U.isSpace c = true)
    (hy : ∀ c ∈ y.head?, U.isSpace c = false) {prev : Option Char} (hnone : prev ≠ none)
    (hnewline : prev ≠ some '\n') :
    ∃ prev', lineStarts U prev (w ++ y) = keepLine w ++ lineStarts U prev' y := by
  induction w generalizing prev with
  | nil => exact ⟨prev, rfl⟩
  | cons c w ih =>
    have htail : ∀ d ∈ w, U.isSpace d = true := fun d hd => hw d (List.mem_cons_of_mem c hd)
    rw [List.cons_append, lineStarts_cons (.inl ⟨hnone, hnewline⟩)]
    by_cases hc : c = '\n'
    · subst hc
      rw [keepLine_newline]
      cases w with
      | nil => exact ⟨some '\n', rfl⟩
      | cons d w =>
        obtain ⟨prev', hmatch⟩ := lineStarts_match (U := U) (.inr rfl) (hw d (by simp)) (w ++ y)
        have hdrop := dropWhile_run (fun e he => htail e (List.mem_cons_of_mem d he)) hy
        refine ⟨prev', ?_⟩
        rw [List.cons_append, hmatch, hdrop]
        rfl
    · have hne : some c ≠ some '\n' := by simpa using hc
      obtain ⟨prev', hnext⟩ := ih htail (Option.some_ne_none c) hne
      refine ⟨prev', ?_⟩
      rw [hnext, keepLine_cons hc, List.cons_append]

theorem lineStarts_eq {n : ℕ} {x : Text} (hn : x.length ≤ n) {p prev : Option Char}
    (h : (p = none ∧ prev = none) ∨ (p ≠ none ∧ prev ≠ none ∧ prev ≠ some '\n') ∨
      ∀ c ∈ x.head?, U.isSpace c = false) :
    lineStarts U prev x = mapRuns U.isSpace lineStartRuns p [] x := by
  induction n generalizing x p prev with
  | zero =>
    obtain rfl : x = [] := List.length_eq_zero_iff.1 (Nat.le_zero.1 hn)
    exact (lineStartRuns_blank (U := U).nil p none).symm
  | succ n ih =>
    rcases run_cases U.isSpace x with rfl | ⟨c, y, rfl, hc⟩ | ⟨w, y, rfl, hne, hw, hy⟩
    · exact (lineStartRuns_blank (U := U).nil p none).symm
    · have hnewline : c ≠ '\n' := by
        rintro rfl
        rw [isSpace_imp (by decide)] at hc
        cases hc
      have hnext : lineStarts U (some c) y = mapRuns U.isSpace lineStartRuns (some c) [] y :=
        ih (by simpa using hn) (.inr (.inl ⟨by simp, by simp, by simpa using hnewline⟩))
      rw [lineStarts_cons (.inr hc), hnext, mapRuns_cons _ lineStartRuns_blank hc]
    · have hlen : y.length ≤ n := by
        have := List.length_pos_iff.2 hne
        simp only [List.length_append] at hn
        omega
      rw [mapRuns_run _ lineStartRuns_blank hw hy p none]
      rcases h with ⟨rfl, rfl⟩ | ⟨hp, hnone, hnewline⟩ | hhead
      · obtain ⟨c, w, rfl⟩ := List.exists_cons_of_ne_nil hne
        obtain ⟨prev', hmatch⟩ := lineStarts_match (U := U) (.inl rfl) (hw c (by simp)) (w ++ y)
        have hdrop := dropWhile_run (fun e he => hw e (List.mem_cons_of_mem c he)) hy
        rw [List.cons_append, hmatch, hdrop, ih (p := none) hlen (.inr (.inr hy))]
        rfl
      · obtain ⟨prev', hrun⟩ := lineStarts_run hw hy hnone hnewline
        rw [hrun, ih (p := none) hlen (.inr (.inr hy)), lineStartRuns, if_neg hp]
      · obtain ⟨c, w, rfl⟩ := List.exists_cons_of_ne_nil hne
        have hc := hw c List.mem_cons_self
        rw [hhead c rfl] at hc
        cases hc

/-! ### Blank lines -/

theorem head?_of_matchAt {r : Re} {cur : Cursor} {m : Found} (h : matchAt U r cur = some m) :
    (run U r ⟨cur, []⟩).head? = some m := by
  rw [matchAt] at h
  cases hhead : (run U r ⟨cur, []⟩).head? with
  | none =>
    rw [hhead] at h
    cases h
  | some m' =>
    simp only [hhead] at h
    split_ifs at h
    exact h

theorem lazyPlaces_suffix {p : Char → Bool} {groups : List (ℕ × Text)} {prev : Option Char}
    {x : Text} {t : Found} (h : t ∈ lazyPlaces p groups prev x) :
    ∃ v, x = v ++ t.cur.rest ∧ ∀ c ∈ v, p c = true := by
  induction x generalizing prev with
  | nil =>
    obtain rfl := List.mem_singleton.1 h
    exact ⟨[], rfl, fun c hc => absurd hc List.not_mem_nil⟩
  | cons c x ih =>
    rw [lazyPlaces] at h
    rcases List.mem_cons.1 h with rfl | h
    · exact ⟨[], rfl, fun c hc => absurd hc List.not_mem_nil⟩
    · split_ifs at h with hc
      · obtain ⟨v, hx, hv⟩ := ih h
        exact ⟨c :: v, by rw [List.cons_append, ← hx], List.forall_mem_cons.2 ⟨hc, hv⟩⟩
      · cases h

def blankLines (U : Classes) (prev : Option Char) (x : Text) : Text :=
  subFrom U (cat [char '\n', spaces U, char '\n']) (fun _ => ['\n']) ⟨prev, x⟩

theorem blankLines_cons {prev : Option Char} {c : Char} (hc : c ≠ '\n') (x : Text) :
    blankLines U prev (c :: x) = c :: blankLines U (some c) x := by
  have hchar : run U (char '\n') ⟨⟨prev, c :: x⟩, []⟩ = [] := by rw [run_char, if_neg hc]
  exact subFrom_of_none (matchAt_eq_none_of_run (run_seq_of_eq_nil hchar))

theorem matchAt_blankLines {prev : Option Char} {x : Text} {m : Found}
    (h : matchAt U (cat [char '\n', spaces U, char '\n']) ⟨prev, '\n' :: x⟩ = some m) :
    ∃ v, x = v ++ '\n' :: m.cur.rest ∧ ∀ c ∈ v, U.isSpace c = true := by
  have hchar : run U (char '\n') ⟨⟨prev, '\n' :: x⟩, []⟩ = [⟨⟨some '\n', x⟩, []⟩] := by
    rw [run_char, if_pos rfl]
  have hcat : cat [char '\n', spaces U, char '\n'] =
      seq (char '\n') (seq (star (one U.isSpace)) (seq (char '\n') eps)) := rfl
  have hmem : m ∈ run U (seq (star (one U.isSpace)) (seq (char '\n') eps))
      ⟨⟨some '\n', x⟩, []⟩ := by
    rw [hcat] at h
    rw [← run_seq_of_eq_singleton hchar]
    exact List.mem_of_mem_head? (head?_of_matchAt h)
  rw [run_seq, run_star_one] at hmem
  obtain ⟨t, ht, hm⟩ := List.mem_flatMap.1 hmem
  obtain ⟨v, hx, hv⟩ := lazyPlaces_suffix (List.mem_reverse.1 ht)
  obtain ⟨⟨last, rest⟩, groups⟩ := t
  rw [run_seq_eps] at hm
  cases rest with
  | nil =>
    rw [Re.char, run_one_nil _ rfl] at hm
    cases hm
  | cons d rest =>
    rw [run_char] at hm
    split_ifs at hm with hd
    · subst hd
      obtain rfl := List.mem_singleton.1 hm
      exact ⟨v, hx, hv⟩
    · cases hm

theorem blankLines_run {n : ℕ} {w y : Text} (hn : w.length ≤ n) (hw : ∀ c ∈ w, U.isSpace c = true)
    (hy : ∀ c ∈ y.head?, U.isSpace c = false) (prev : Option Char) :
    ∃ w' prev', blankLines U prev (w ++ y) = w' ++ blankLines U prev' y ∧
      (∀ c ∈ w', U.isSpace c = true) ∧ keepLine w' = keepLine w := by
  induction n generalizing w prev with
  | zero =>
    obtain rfl : w = [] := List.length_eq_zero_iff.1 (Nat.le_zero.1 hn)
    exact ⟨[], prev, rfl, hw, rfl⟩
  | succ n ih =>
    cases w with
    | nil => exact ⟨[], prev, rfl, hw, rfl⟩
    | cons c w =>
      have hc := hw c List.mem_cons_self
      have htail : ∀ d ∈ w, U.isSpace d = true := fun d hd => hw d (List.mem_cons_of_mem c hd)
      have hlen : w.length ≤ n := by simpa using hn
      by_cases hnewline : c = '\n'
      · subst hnewline
        cases hmatch : matchAt U (cat [char '\n', spaces U, char '\n']) ⟨prev, '\n' :: (w ++ y)⟩ with
        | none =>
          obtain ⟨w', prev', hrun, hw', -⟩ := ih hlen htail (some '\n')
          refine ⟨'\n' :: w', prev', ?_, List.forall_mem_cons.2 ⟨hc, hw'⟩, ?_⟩
          · rw [List.cons_append, List.cons_append, ← hrun]
            exact subFrom_of_none hmatch
          · rw [keepLine_newline, keepLine_newline]
        | some m =>
          obtain ⟨v, hsplit, hv⟩ := matchAt_blankLines hmatch
          have hv' : ∀ d ∈ v ++ ['\n'], U.isSpace d = true := by
            intro d hd
            rcases List.mem_append.1 hd with hd | hd
            · exact hv d hd
            · rwa [List.mem_singleton.1 hd]
          obtain ⟨u, rfl, hrest⟩ := run_of_append (a := v ++ ['\n']) (by simpa using hsplit) hv' hy
          have hu : ∀ d ∈ u, U.isSpace d = true := fun d hd => htail d (by simp [hd])
          obtain ⟨u', prev', hrun, hu', -⟩ := ih (by simp at hlen; omega) hu m.cur.prev
          refine ⟨'\n' :: u', prev', ?_, List.forall_mem_cons.2 ⟨hc, hu'⟩, ?_⟩
          · rw [← hrest] at hrun
            rw [List.cons_append, List.cons_append, ← hrun]
            exact subFrom_of_some hmatch
          · rw [keepLine_newline, keepLine_newline]
      · obtain ⟨w', prev', hrun, hw', hkeep⟩ := ih hlen htail (some c)
        refine ⟨c :: w', prev', ?_, List.forall_mem_cons.2 ⟨hc, hw'⟩, ?_⟩
        · rw [List.cons_append, blankLines_cons hnewline, hrun, List.cons_append]
        · rw [keepLine_cons hnewline, keepLine_cons hnewline, hkeep]

theorem mapRuns_blankLines {n : ℕ} {x : Text} (hn : x.length ≤ n) (p prev : Option Char) :
    mapRuns U.isSpace lineStartRuns p [] (blankLines U prev x) =
      mapRuns U.isSpace lineStartRuns p [] x := by
  induction n generalizing x p prev with
  | zero =>
    obtain rfl : x = [] := List.length_eq_zero_iff.1 (Nat.le_zero.1 hn)
    rfl
  | succ n ih =>
    rcases run_cases U.isSpace x with rfl | ⟨c, y, rfl, hc⟩ | ⟨w, y, rfl, hne, hw, hy⟩
    · rfl
    · have hnewline : c ≠ '\n' := by
        rintro rfl
        rw [isSpace_imp (by decide)] at hc
        cases hc
      rw [blankLines_cons hnewline, mapRuns_cons _ lineStartRuns_blank hc,
        mapRuns_cons _ lineStartRuns_blank hc, ih (by simpa using hn)]
    · have hlen : y.length ≤ n := by
        have := List.length_pos_iff.2 hne
        simp only [List.length_append] at hn
        omega
      obtain ⟨w', prev', hrun, hw', hkeep⟩ := blankLines_run le_rfl hw hy prev
      have hy' : ∀ c ∈ (blankLines U prev' y).head?, U.isSpace c = false := by
        cases y with
        | nil => exact fun c hc => absurd hc (by simp [blankLines, subFrom, scanWith])
        | cons c y =>
          have hc := hy c rfl
          have hnewline : c ≠ '\n' := by
            rintro rfl
            rw [isSpace_imp (by decide)] at hc
            cases hc
          rw [blankLines_cons hnewline]
          intro d hd
          rwa [← Option.some.inj hd]
      rw [hrun, mapRuns_run _ lineStartRuns_blank hw' hy' p none,
        mapRuns_run _ lineStartRuns_blank hw hy p none, ih hlen, lineStartRuns, lineStartRuns, hkeep]

/-! ### All four patterns -/

/-- What is left of a run of blanks: nothing next to an operator and at the start of the text,
else it up to its first line end, with single spaces for tabs and spaces. -/
def squeezed : RunMap Char := fun prev w next =>
  if prev = none ∨ besideOperator prev next then [] else keepLine (squash false w)

theorem squeezed_eq : squeezed = lineStartRuns.comp (operatorRuns.comp squashRuns) := by
  funext prev w next
  simp only [squeezed, RunMap.comp, lineStartRuns, operatorRuns, squashRuns]
  split_ifs <;> simp_all

theorem removeCommentsAndSpaces_high (code : Text) :
    removeCommentsAndSpaces U .high code =
      mapRuns U.isSpace squeezed none [] (withoutLines U none (withoutBlocks U none code)) := by
  have hnil : ∀ c ∈ ([] : Text), U.isSpace c = true := fun c hc => absurd hc List.not_mem_nil
  generalize hx : withoutLines U none (withoutBlocks U none code) = x
  have hcode : removeCommentsAndSpaces U .high code = lineStarts U none (blankLines U none
      (beside U none (subFrom U (plus (oneOf " \t")) (fun _ => [' ']) ⟨none, x⟩))) := by
    rw [← hx]
    rfl
  rw [hcode, subFrom_tabs le_rfl, beside_eq le_rfl (p := none) (.inl rfl),
    lineStarts_eq le_rfl (p := none) (.inl ⟨rfl, rfl⟩), mapRuns_blankLines le_rfl, squeezed_eq]
  have hsquash := squash_eq (U := U) none [] x
  rw [List.nil_append] at hsquash
  rw [← hsquash, mapRuns_comp _ _ squashRuns_blank hnil,
    mapRuns_comp _ _ (operatorRuns_blank.comp squashRuns_blank) hnil]

theorem removeCommentsAndSpaces_of_ne {level : Level} (h : level ≠ .high) (code : Text) :
    removeCommentsAndSpaces U level code = withoutLines U none (withoutBlocks U none code) := by
  rw [removeCommentsAndSpaces, if_neg h]
  rfl

end Mesh.Obfuscator
