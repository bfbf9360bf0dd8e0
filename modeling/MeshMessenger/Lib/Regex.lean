import Mathlib.Data.List.Basic
import Mathlib.Tactic

/-! Regular expressions as Python's `re` runs them: a backtracking matcher that tries its
choices in order and keeps the groups it captures, and the two ways of going through a text
with one, from left to right over matches that do not overlap. -/

namespace Regex

abbrev Text := List Char

/-- What `\w` and `\s` match. On ASCII they are fixed; beyond it they are those of the
Unicode tables of the interpreter. -/
structure Classes where
  isWord : Char → Bool
  isSpace : Char → Bool
  isWord_ascii : ∀ c, c.toNat < 128 → isWord c = (c.isAlphanum || c == '_')
  isSpace_ascii : ∀ c, c.toNat < 128 →
    isSpace c = (c == ' ' || (9 ≤ c.toNat && c.toNat ≤ 13) || (28 ≤ c.toNat && c.toNat ≤ 31))
  not_word_of_space : ∀ c, isSpace c = true → isWord c = false

inductive Re where
  | eps
  /-- One character. -/
  | one (p : Char → Bool)
  | seq (a b : Re)
  | alt (a b : Re)
  /-- `a*`. -/
  | star (a : Re)
  /-- `a*?`. -/
  | lazyStar (a : Re)
  | group (n : ℕ) (a : Re)
  /-- `\b`. -/
  | boundary
  /-- `^` and `$` in `MULTILINE` mode. -/
  | lineStart
  | lineEnd

namespace Re

def char (c : Char) : Re := one (· == c)

def oneOf (s : String) : Re := one fun c => s.toList.contains c

def noneOf (s : String) : Re := one fun c => !s.toList.contains c

/-- The characters of a text, one after the other. -/
def text (s : Text) : Re := s.foldr (fun c r => seq (char c) r) eps

def lit (s : String) : Re := text s.toList

def plus (a : Re) : Re := seq a (star a)

def cat (rs : List Re) : Re := rs.foldr seq eps

def choice : List Re → Re
  | [] => one fun _ => false
  | [r] => r
  | r :: rs => alt r (choice rs)

end Re

/-- A place in a text: the character before it, and all from there on. -/
structure Cursor where
  prev : Option Char
  rest : Text

/-- Where a match has got to, with the groups captured on the way, the last first. -/
structure Found where
  cur : Cursor
  groups : List (ℕ × Text)

def Found.group? (m : Found) (n : ℕ) : Option Text := m.groups.lookup n

/-- The ways to take any number of turns of `f`, each of which must take something from
the text, put before `others`. -/
def iterate (f : Found → List Found) (greedy : Bool) : ℕ → Found → List Found → List Found
  | 0, s, others => s :: others
  | n + 1, s, others =>
    let turns := (f s).filter fun t => t.cur.rest ≠ s.cur.rest
    if greedy then turns.foldr (iterate f greedy n) (s :: others)
    else s :: turns.foldr (iterate f greedy n) others

variable (U : Classes)

def wordAt (c : Option Char) : Bool := c.any U.isWord

def atBoundary (cur : Cursor) : Bool := wordAt U cur.prev != wordAt U cur.rest.head?

/-- The ways to match from a place, in the order in which they are tried. -/
def run : Re → Found → List Found
  | .eps, s => [s]
  | .one p, s =>
    match s.cur.rest with
    | [] => []
    | c :: cs => if p c then [{ s with cur := ⟨some c, cs⟩ }] else []
  | .seq a b, s => (run a s).flatMap (run b)
  | .alt a b, s => run a s ++ run b s
  | .star a, s => iterate (run a) true s.cur.rest.length s []
  | .lazyStar a, s => iterate (run a) false s.cur.rest.length s []
  | .group n a, s =>
    (run a s).map fun t =>
      { t with
        groups := (n, s.cur.rest.take (s.cur.rest.length - t.cur.rest.length)) :: t.groups }
  | .boundary, s => if atBoundary U s.cur then [s] else []
  | .lineStart, s => if s.cur.prev = none ∨ s.cur.prev = some '\n' then [s] else []
  | .lineEnd, s => if s.cur.rest.head? = none ∨ s.cur.rest.head? = some '\n' then [s] else []

/-- The match at a place; one that takes nothing from the text counts as none. -/
def matchAt (r : Re) (cur : Cursor) : Option Found :=
  match (run U r ⟨cur, []⟩).head? with
  | some m => if m.cur.rest.length < cur.rest.length then some m else none
  | none => none

/-- From left to right: `hit` at each match, `miss` at each character between matches. -/
def scanWith {β : Type} (r : Re) (hit : Found → List β) (miss : Char → List β) :
    ℕ → Cursor → List β
  | 0, _ => []
  | n + 1, cur =>
    match matchAt U r cur with
    | some m => hit m ++ scanWith r hit miss n m.cur
    | none =>
      match cur.rest with
      | [] => []
      | c :: cs => miss c ++ scanWith r hit miss n ⟨some c, cs⟩

/-- `re.finditer`. -/
def finditer (r : Re) (s : Text) : List Found :=
  scanWith U r (fun m => [m]) (fun _ => []) s.length ⟨none, s⟩

/-- `re.sub` with a replacement made from the match. -/
def sub (r : Re) (repl : Found → Text) (s : Text) : Text :=
  scanWith U r repl (fun c => [c]) s.length ⟨none, s⟩

/-- The matches from a place on, each with all the text before it. -/
def matchesFrom (r : Re) : ℕ → Text → Cursor → List (Text × Found)
  | 0, _, _ => []
  | n + 1, before, cur =>
    match matchAt U r cur with
    | some m =>
      (before, m) :: matchesFrom r n
        (before ++ cur.rest.take (cur.rest.length - m.cur.rest.length)) m.cur
    | none =>
      match cur.rest with
      | [] => []
      | c :: cs => matchesFrom r n (before ++ [c]) ⟨some c, cs⟩

/-- `re.finditer`, with what `match.start()` tells about each match. -/
def finditerStarts (r : Re) (s : Text) : List (Text × Found) :=
  matchesFrom U r s.length [] ⟨none, s⟩

/-! ### Running a pattern -/

variable {U}

theorem run_seq (a b : Re) (s : Found) : run U (.seq a b) s = (run U a s).flatMap (run U b) := rfl

theorem run_star (a : Re) (s : Found) :
    run U (.star a) s = iterate (run U a) true s.cur.rest.length s [] := rfl

theorem run_lazyStar (a : Re) (s : Found) :
    run U (.lazyStar a) s = iterate (run U a) false s.cur.rest.length s [] := rfl

theorem run_group (n : ℕ) (a : Re) (s : Found) :
    run U (.group n a) s = (run U a s).map fun t =>
      { t with
        groups := (n, s.cur.rest.take (s.cur.rest.length - t.cur.rest.length)) :: t.groups } :=
  rfl

theorem run_one_nil (p : Char → Bool) {s : Found} (h : s.cur.rest = []) :
    run U (.one p) s = [] := by
  obtain ⟨⟨prev, rest⟩, groups⟩ := s
  obtain rfl : rest = [] := h
  rfl

theorem run_one (p : Char → Bool) (prev : Option Char) (d : Char) (rest : Text)
    (groups : List (ℕ × Text)) :
    run U (.one p) ⟨⟨prev, d :: rest⟩, groups⟩ =
      if p d then [⟨⟨some d, rest⟩, groups⟩] else [] := rfl

theorem run_char (c : Char) (prev : Option Char) (d : Char) (rest : Text)
    (groups : List (ℕ × Text)) :
    run U (.char c) ⟨⟨prev, d :: rest⟩, groups⟩ =
      if d = c then [⟨⟨some d, rest⟩, groups⟩] else [] := by
  simp only [Re.char, run_one, beq_iff_eq]

theorem run_seq_of_eq_singleton {a b : Re} {s t : Found} (h : run U a s = [t]) :
    run U (.seq a b) s = run U b t := by
  rw [run_seq, h, List.flatMap_singleton]

theorem run_seq_of_eq_nil {a b : Re} {s : Found} (h : run U a s = []) :
    run U (.seq a b) s = [] := by
  rw [run_seq, h, List.flatMap_nil]

theorem run_seq_eps (a : Re) (s : Found) : run U (.seq a .eps) s = run U a s := by
  have heps : run U .eps = fun t => [t] := rfl
  rw [run_seq, heps]
  exact List.flatMap_singleton' _

theorem run_seq_seq_eps (a b : Re) (s : Found) :
    run U (.seq a (.seq b .eps)) s = run U (.seq a b) s := by
  have hb : run U (.seq b .eps) = run U b := funext (run_seq_eps b)
  rw [run_seq, hb, run_seq]

/-- The character before a place moves on with the text that is passed. -/
theorem getLast?_or_some (w : Text) (c : Char) (prev : Option Char) :
    (w.getLast?).or (some c) = ((c :: w).getLast?).or prev := by
  rw [List.getLast?_cons, Option.some_or]
  cases w.getLast? <;> rfl

/-- A literal text matches in one way, where it stands. -/
theorem run_text (old : Text) (prev : Option Char) (rest : Text) (groups : List (ℕ × Text)) :
    run U (.text old) ⟨⟨prev, old ++ rest⟩, groups⟩ =
      [⟨⟨(old.getLast?).or prev, rest⟩, groups⟩] := by
  induction old generalizing prev with
  | nil => rfl
  | cons c old ih =>
    have hchar : run U (.char c) ⟨⟨prev, c :: old ++ rest⟩, groups⟩ =
        [⟨⟨some c, old ++ rest⟩, groups⟩] := by
      rw [List.cons_append, run_char, if_pos rfl]
    rw [Re.text, List.foldr_cons, ← Re.text, run_seq_of_eq_singleton hchar, ih,
      getLast?_or_some old c prev]

theorem run_text_of_not_isPrefix {old : Text} {s : Found} (h : ¬ old <+: s.cur.rest) :
    run U (.text old) s = [] := by
  induction old generalizing s with
  | nil => exact absurd (List.nil_prefix) h
  | cons c old ih =>
    rw [Re.text, List.foldr_cons, ← Re.text]
    obtain ⟨⟨prev, rest⟩, groups⟩ := s
    cases rest with
    | nil => exact run_seq_of_eq_nil rfl
    | cons d rest =>
      have hchar := run_char (U := U) c prev d rest groups
      by_cases hd : d = c
      · rw [if_pos hd] at hchar
        rw [run_seq_of_eq_singleton hchar]
        apply ih
        intro hold
        exact h (List.cons_prefix_cons.2 ⟨hd.symm, hold⟩)
      · rw [if_neg hd] at hchar
        exact run_seq_of_eq_nil hchar

/-- Where `c` is what follows the longest run of `p`. -/
def charAfter (p : Char → Bool) (c : Char) (s : Found) : List Found :=
  match s.cur.rest.dropWhile p with
  | [] => []
  | d :: rest => if d = c then [⟨⟨some c, rest⟩, s.groups⟩] else []

/-- The turns of `p*` that stop early are followed by a `p`, so by no `c`. -/
theorem iterate_one_char {p : Char → Bool} {c : Char} (hc : p c = false) {n : ℕ} {s : Found}
    {others : List Found} (hn : s.cur.rest.length ≤ n) :
    (iterate (run U (.one p)) true n s others).flatMap (run U (.char c)) =
      charAfter p c s ++ others.flatMap (run U (.char c)) := by
  induction n generalizing s others with
  | zero =>
    have hnil : s.cur.rest = [] := List.length_eq_zero_iff.1 (Nat.le_zero.1 hn)
    simp [iterate, run_one_nil, Re.char, charAfter, hnil]
  | succ n ih =>
    obtain ⟨⟨prev, rest⟩, groups⟩ := s
    cases rest with
    | nil => simp [iterate, run_one_nil, Re.char, charAfter]
    | cons d rest =>
      have hone := run_one (U := U) p prev d rest groups
      have hchar := run_char (U := U) c prev d rest groups
      by_cases hd : p d = true
      · have hdc : d ≠ c := by
          rintro rfl
          rw [hc] at hd
          exact absurd hd (by simp)
        have hne : rest ≠ d :: rest := (List.cons_ne_self d rest).symm
        have hskip : charAfter p c ⟨⟨some d, rest⟩, groups⟩ =
            charAfter p c ⟨⟨prev, d :: rest⟩, groups⟩ := by
          simp only [charAfter, List.dropWhile_cons_of_pos hd]
        rw [if_pos hd] at hone
        rw [if_neg hdc] at hchar
        simp only [iterate, hone, hne, ne_eq, not_false_eq_true, decide_true,
          List.filter_cons_of_pos, List.filter_nil, List.foldr_cons, List.foldr_nil, if_true]
        rw [ih (Nat.le_of_succ_le_succ hn), List.flatMap_cons, hchar, List.nil_append, hskip]
      · rw [if_neg hd] at hone
        simp only [iterate, hone, List.filter_nil, List.foldr_nil, if_true, List.flatMap_cons,
          hchar, charAfter, List.dropWhile_cons_of_neg hd]
        split_ifs with hdc
        · rw [hdc]
        · rfl

/-- `p*` then a character that is no `p`: the star takes all it can. -/
theorem run_star_char {p : Char → Bool} {c : Char} (hc : p c = false) (s : Found) :
    run U (.seq (.star (.one p)) (.char c)) s = charAfter p c s := by
  rw [run_seq, run_star, iterate_one_char hc le_rfl, List.flatMap_nil, List.append_nil]

theorem run_seq_assoc (a b c : Re) (s : Found) :
    run U (.seq a (.seq b c)) s = run U (.seq (.seq a b) c) s := by
  rw [run_seq, run_seq, run_seq, List.flatMap_assoc]
  rfl

/-- The places where a lazy star of one character can stop, in the order in which they are
tried. -/
def lazyPlaces (p : Char → Bool) (groups : List (ℕ × Text)) : Option Char → Text → List Found
  | prev, [] => [⟨⟨prev, []⟩, groups⟩]
  | prev, c :: cs =>
    ⟨⟨prev, c :: cs⟩, groups⟩ :: if p c then lazyPlaces p groups (some c) cs else []

theorem iterate_lazy_one (p : Char → Bool) {n : ℕ} {s : Found} (hn : s.cur.rest.length ≤ n)
    (others : List Found) :
    iterate (run U (.one p)) false n s others =
      lazyPlaces p s.groups s.cur.prev s.cur.rest ++ others := by
  induction n generalizing s with
  | zero =>
    obtain ⟨⟨prev, rest⟩, groups⟩ := s
    obtain rfl : rest = [] := List.length_eq_zero_iff.1 (Nat.le_zero.1 hn)
    rfl
  | succ n ih =>
    obtain ⟨⟨prev, rest⟩, groups⟩ := s
    cases rest with
    | nil => simp [iterate, run_one_nil, lazyPlaces]
    | cons c cs =>
      have hone := run_one (U := U) p prev c cs groups
      have hne : cs ≠ c :: cs := (List.cons_ne_self c cs).symm
      by_cases hc : p c = true
      · rw [if_pos hc] at hone
        simp only [iterate, hone, hne, ne_eq, not_false_eq_true, decide_true,
          List.filter_cons_of_pos, List.filter_nil, List.foldr_cons, List.foldr_nil, lazyPlaces, hc,
          if_true, List.cons_append, Bool.false_eq_true, if_false]
        exact congrArg _ (ih (Nat.le_of_succ_le_succ hn))
      · rw [if_neg hc] at hone
        simp [iterate, hone, lazyPlaces, hc]

theorem run_lazyStar_one (p : Char → Bool) (s : Found) :
    run U (.lazyStar (.one p)) s = lazyPlaces p s.groups s.cur.prev s.cur.rest := by
  rw [run_lazyStar, iterate_lazy_one p le_rfl, List.append_nil]

/-- A greedy star tries the same places as a lazy one, the last first. -/
theorem iterate_greedy_one (p : Char → Bool) {n : ℕ} {s : Found} (hn : s.cur.rest.length ≤ n)
    (others : List Found) :
    iterate (run U (.one p)) true n s others =
      (lazyPlaces p s.groups s.cur.prev s.cur.rest).reverse ++ others := by
  induction n generalizing s others with
  | zero =>
    obtain ⟨⟨prev, rest⟩, groups⟩ := s
    obtain rfl : rest = [] := List.length_eq_zero_iff.1 (Nat.le_zero.1 hn)
    rfl
  | succ n ih =>
    obtain ⟨⟨prev, rest⟩, groups⟩ := s
    cases rest with
    | nil => simp [iterate, run_one_nil, lazyPlaces]
    | cons c cs =>
      have hone := run_one (U := U) p prev c cs groups
      have hne : cs ≠ c :: cs := (List.cons_ne_self c cs).symm
      by_cases hc : p c = true
      · rw [if_pos hc] at hone
        have hnext := ih (s := ⟨⟨some c, cs⟩, groups⟩) (Nat.le_of_succ_le_succ hn)
          (⟨⟨prev, c :: cs⟩, groups⟩ :: others)
        simp [iterate, hone, hne, lazyPlaces, hc, hnext]
      · rw [if_neg hc] at hone
        simp [iterate, hone, lazyPlaces, hc]

theorem run_star_one (p : Char → Bool) (s : Found) :
    run U (.star (.one p)) s = (lazyPlaces p s.groups s.cur.prev s.cur.rest).reverse := by
  rw [run_star, iterate_greedy_one p le_rfl, List.append_nil]

/-- The last place where a star can stop is the end of the run, the others are within it. -/
theorem exists_lazyPlaces (p : Char → Bool) (groups : List (ℕ × Text)) (prev : Option Char)
    (x : Text) :
    ∃ stops, lazyPlaces p groups prev x =
        stops ++ [⟨⟨((x.takeWhile p).getLast?).or prev, x.dropWhile p⟩, groups⟩] ∧
      ∀ t ∈ stops, ∃ c ∈ t.cur.rest.head?, p c = true := by
  induction x generalizing prev with
  | nil => exact ⟨[], rfl, fun t ht => absurd ht List.not_mem_nil⟩
  | cons c x ih =>
    by_cases hc : p c = true
    · obtain ⟨stops, hstops, hall⟩ := ih (some c)
      refine ⟨⟨⟨prev, c :: x⟩, groups⟩ :: stops, ?_, ?_⟩
      · rw [lazyPlaces, if_pos hc, hstops, List.takeWhile_cons_of_pos hc,
          List.dropWhile_cons_of_pos hc, getLast?_or_some]
        rfl
      · exact List.forall_mem_cons.2 ⟨⟨c, rfl, hc⟩, hall⟩
    · refine ⟨[], ?_, fun t ht => absurd ht List.not_mem_nil⟩
      rw [lazyPlaces, if_neg hc, List.takeWhile_cons_of_neg hc, List.dropWhile_cons_of_neg hc]
      rfl

/-- A star of which no shorter run can be followed by the rest of the pattern. -/
theorem run_star_seq {p : Char → Bool} {b : Re} (s : Found)
    (hb : ∀ t : Found, (∃ c ∈ t.cur.rest.head?, p c = true) → run U b t = []) :
    run U (.seq (.star (.one p)) b) s =
      run U b ⟨⟨((s.cur.rest.takeWhile p).getLast?).or s.cur.prev, s.cur.rest.dropWhile p⟩,
        s.groups⟩ := by
  obtain ⟨stops, hstops, hall⟩ := exists_lazyPlaces p s.groups s.cur.prev s.cur.rest
  rw [run_seq, run_star_one, hstops, List.reverse_append, List.reverse_singleton,
    List.singleton_append, List.flatMap_cons]
  have hnone : stops.reverse.flatMap (run U b) = [] := by
    rw [List.flatMap_eq_nil_iff]
    exact fun t ht => hb t (hall t (List.mem_reverse.1 ht))
  rw [hnone, List.append_nil]

/-- What a star tries first is the whole run. -/
theorem head?_run_star (p : Char → Bool) (s : Found) :
    (run U (.star (.one p)) s).head? =
      some ⟨⟨((s.cur.rest.takeWhile p).getLast?).or s.cur.prev, s.cur.rest.dropWhile p⟩,
        s.groups⟩ := by
  obtain ⟨stops, hstops, -⟩ := exists_lazyPlaces p s.groups s.cur.prev s.cur.rest
  rw [run_star_one, hstops, List.reverse_append]
  rfl

end Regex
