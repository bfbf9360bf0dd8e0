import MeshMessenger.Lib.Comments
import MeshMessenger.Proofs.Linkage

/-! What the two comment patterns of `remove_comments_and_spaces` take out of a text. -/

namespace Mesh.Obfuscator

open CLib CLib.Lex Regex Re

variable {U : Classes}

theorem matchAt_of_head? {r : Re} {cur : Cursor} {m : Found}
    (h : (run U r ⟨cur, []⟩).head? = some m) (hlt : m.cur.rest.length < cur.rest.length) :
    matchAt U r cur = some m := by
  rw [matchAt, h]
  exact if_pos hlt

def blockComment : Re := cat [lit "/*", lazyStar anyChar, lit "*/"]

def lineComment : Re := cat [lit "//", star (noneOf "\n"), lineEnd]

/-- What follows the first end of a block comment. -/
def afterBlock : Text → Option Text
  | [] => none
  | c :: x => if c = '*' ∧ x.head? = some '/' then some x.tail else afterBlock x

theorem blockComment_eq : blockComment =
    seq (text ['/', '*']) (seq (lazyStar anyChar) (seq (text ['*', '/']) eps)) := rfl

theorem head?_blockEnd (groups : List (ℕ × Text)) (prev : Option Char) (x : Text) :
    ((lazyPlaces (fun _ => true) groups prev x).flatMap
        (run U (seq (text ['*', '/']) eps))).head? =
      (afterBlock x).map fun rest => (⟨⟨some '/', rest⟩, groups⟩ : Found) := by
  induction x generalizing prev with
  | nil =>
    have hnot : ¬ ['*', '/'] <+: ([] : Text) := by decide
    simp [lazyPlaces, run_seq_eps, run_text_of_not_isPrefix, afterBlock]
  | cons c x ih =>
    rw [lazyPlaces, if_pos rfl, List.flatMap_cons, List.head?_append, run_seq_eps, ih, afterBlock]
    by_cases hend : c = '*' ∧ x.head? = some '/'
    · obtain ⟨rfl, hx⟩ := hend
      cases x with
      | nil => cases hx
      | cons d x =>
        obtain rfl : d = '/' := Option.some.inj hx
        have hmatch := run_text (U := U) ['*', '/'] prev x groups
        rw [if_pos ⟨rfl, rfl⟩]
        simp only [List.cons_append, List.nil_append] at hmatch
        rw [hmatch]
        rfl
    · have hnot : ¬ ['*', '/'] <+: c :: x := by
        rintro ⟨z, hz⟩
        obtain ⟨rfl, rfl⟩ := List.cons.inj hz
        exact hend ⟨rfl, rfl⟩
      rw [if_neg hend, run_text_of_not_isPrefix hnot]
      rfl

theorem length_afterBlock {x rest : Text} (h : afterBlock x = some rest) :
    rest.length < x.length := by
  induction x with
  | nil => cases h
  | cons c x ih =>
    rw [afterBlock] at h
    split_ifs at h with hend
    · cases h
      simp only [List.length_cons, List.length_tail]
      omega
    · have := ih h
      simp only [List.length_cons]
      omega

theorem matchAt_blockComment (prev : Option Char) (x : Text) :
    matchAt U blockComment ⟨prev, '/' :: '*' :: x⟩ =
      (afterBlock x).map fun rest => ⟨⟨some '/', rest⟩, []⟩ := by
  have hopen := run_text (U := U) ['/', '*'] prev x []
  simp only [List.cons_append, List.nil_append] at hopen
  have hany : lazyStar anyChar = lazyStar (one fun _ => true) := rfl
  rw [matchAt, blockComment_eq, run_seq_of_eq_singleton hopen, run_seq, hany, run_lazyStar_one,
    head?_blockEnd]
  cases hrest : afterBlock x with
  | none => rfl
  | some rest =>
    have hlen := length_afterBlock hrest
    simp only [Option.map_some, List.length_cons]
    rw [if_pos (by omega)]

theorem matchAt_blockComment_none {cur : Cursor} (h : ¬ ['/', '*'] <+: cur.rest) :
    matchAt U blockComment cur = none :=
  matchAt_eq_none_of_run (run_seq_of_eq_nil (run_text_of_not_isPrefix h))

theorem lineComment_eq : lineComment =
    seq (text ['/', '/']) (seq (star (noneOf "\n")) (seq lineEnd eps)) := rfl

theorem run_lineEnd {s : Found} (h : s.cur.rest.head? = none ∨ s.cur.rest.head? = some '\n') :
    run U lineEnd s = [s] := if_pos h

theorem run_lineEnd_none {s : Found} {c : Char} (h : s.cur.rest.head? = some c) (hc : c ≠ '\n') :
    run U lineEnd s = [] := if_neg (by simp [h, hc])

theorem matchAt_lineComment (prev : Option Char) (x : Text) :
    ∃ last, matchAt U lineComment ⟨prev, '/' :: '/' :: x⟩ =
      some ⟨⟨last, x.dropWhile (· ≠ '\n')⟩, []⟩ := by
  have hopen := run_text (U := U) ['/', '/'] prev x []
  simp only [List.cons_append, List.nil_append] at hopen
  have hclass : (fun c => !"\n".toList.contains c) = fun c : Char => decide (c ≠ '\n') := by
    funext c
    by_cases hc : c = '\n' <;> simp [hc]
  have hend : ∀ c ∈ (x.dropWhile (· ≠ '\n')).head?, c = '\n' := by
    intro c hc
    have hnot := List.head?_dropWhile_not (fun c => decide (c ≠ '\n')) x
    rw [Option.mem_def.1 hc] at hnot
    simpa using hnot
  have hrest : (x.dropWhile (· ≠ '\n')).head? = none ∨
      (x.dropWhile (· ≠ '\n')).head? = some '\n' := by
    cases hhead : (x.dropWhile (· ≠ '\n')).head? with
    | none => exact .inl rfl
    | some c => exact .inr (by rw [hend c hhead])
  have hlen := (List.dropWhile_sublist (· ≠ '\n') (l := x)).length_le
  have hshort : ∀ t : Found, (∃ c ∈ t.cur.rest.head?, decide (c ≠ '\n') = true) →
      run U (seq lineEnd eps) t = [] := by
    rintro t ⟨c, hc, hne⟩
    rw [run_seq_eps]
    exact run_lineEnd_none hc (of_decide_eq_true hne)
  have hrun := run_star_seq (U := U) ⟨⟨some '/', x⟩, []⟩ hshort
  rw [run_seq_eps, run_lineEnd hrest] at hrun
  refine ⟨((x.takeWhile (· ≠ '\n')).getLast?).or (some '/'), ?_⟩
  refine matchAt_of_head? ?_ ?_
  · rw [lineComment_eq, run_seq_of_eq_singleton hopen, noneOf, hclass]
    exact congrArg List.head? hrun
  · simp only [List.length_cons]
    omega

theorem matchAt_lineComment_none {cur : Cursor} (h : ¬ ['/', '/'] <+: cur.rest) :
    matchAt U lineComment cur = none :=
  matchAt_eq_none_of_run (run_seq_of_eq_nil (run_text_of_not_isPrefix h))

theorem infix_of_afterBlock {x rest : Text} (h : afterBlock x = some rest) :
    "*/".toList <:+: x := by
  induction x with
  | nil => cases h
  | cons c x ih =>
    rw [afterBlock] at h
    split_ifs at h with hend
    · obtain ⟨rfl, hx⟩ := hend
      cases x with
      | nil => cases hx
      | cons d x =>
        obtain rfl : d = '/' := Option.some.inj hx
        exact (List.prefix_append ['*', '/'] x).isInfix
    · exact (ih h).trans (List.suffix_cons c x).isInfix

theorem afterBlock_cons {c : Char} {x : Text} (h : ¬ (c = '*' ∧ x.head? = some '/')) :
    afterBlock (c :: x) = afterBlock x := if_neg h

/-- A character that ends no comment, with what has been seen before it. -/
theorem afterBlock_seen {star : Bool} {c : Char} {x rest : Text}
    (hend : ¬ (star = true ∧ c = '/'))
    (h : afterBlock ((if (c == '*') = true then ['*'] else []) ++ x) = some rest) :
    afterBlock ((if star = true then ['*'] else []) ++ c :: x) = some rest := by
  have hskip : afterBlock (c :: x) = some rest := by
    by_cases hstar : c = '*'
    · simpa [hstar] using h
    · rw [afterBlock_cons (by simp [hstar])]
      simpa [hstar] using h
  cases star with
  | false => exact hskip
  | true =>
    have hslash : c ≠ '/' := fun hc => hend ⟨rfl, hc⟩
    exact (afterBlock_cons (by simp [hslash])).trans hskip

/-- The lexer leaves a block comment where the pattern of block comments ends. -/
theorem block_ends {n : ℕ} {x : Text} (hn : x.length ≤ n) {b : Before} {star : Bool}
    {l : LineKind} {items : List Item} (hlex : lexFrom U ⟨.block star, l⟩ (splice x) = some items)
    (hrem : ∀ p ∈ places U b false ⟨.block star, l⟩ x, p.Removable U) :
    ∃ rest b', afterBlock ((if star then ['*'] else []) ++ x) = some rest ∧
      lexFrom U ⟨.gap, l⟩ (splice rest) = some items ∧
      uncommentFrom U b false ⟨.block star, l⟩ x = uncommentFrom U b' false ⟨.gap, l⟩ rest ∧
      ∀ p ∈ places U b' false ⟨.gap, l⟩ rest, p ∈ places U b false ⟨.block star, l⟩ x := by
  induction n generalizing x b star items with
  | zero =>
    obtain rfl : x = [] := List.length_eq_zero_iff.1 (Nat.le_zero.1 hn)
    cases hlex
  | succ n ih =>
    have hkept : ∀ y, Place.kept ⟨b, false, ⟨.block star, l⟩, y⟩ = [] := fun y => rfl
    have hflag : ∀ y, Place.hides ⟨b, false, ⟨.block star, l⟩, y⟩ = false := fun y => rfl
    rcases glyph_cases x with rfl | ⟨y, rfl⟩ | ⟨c, y, rfl, hc⟩
    · cases hlex
    · have hwhole := (hrem _ (mem_places _ _ _ _)).whole ⟨y, rfl⟩
      rw [splice_joined] at hlex
      have hnext : ∀ p ∈ places U .splice false ⟨.block star, l⟩ y, p.Removable U := fun p hp =>
        hrem p (mem_places_of_joined hp)
      obtain ⟨rest, b', hafter, hrest, huncomment, hmem⟩ := ih (by simp at hn; omega) hlex hnext
      refine ⟨rest, b', ?_, hrest, ?_, fun p hp => mem_places_of_joined (hmem p hp)⟩
      · have hskip : afterBlock (backslash :: '\n' :: y) = afterBlock y := by
          rw [afterBlock_cons (by simp [backslash]), afterBlock_cons (by simp)]
        cases star with
        | false => exact hskip.trans hafter
        | true =>
          have hhead : y.head? ≠ some '/' := by
            intro hy
            obtain ⟨z, rfl⟩ := List.head?_eq_some_iff.1 hy
            rw [Place.splits, splice_joined, splice_cons fun h => absurd h.1 (by decide)] at hwhole
            cases hwhole
          have hstar : afterBlock ('*' :: y) = afterBlock y := afterBlock_cons (by simp [hhead])
          exact ((afterBlock_cons (by simp [backslash])).trans hskip).trans (hstar.symm.trans hafter)
      · rw [uncommentFrom_joined, hkept, List.nil_append, huncomment]
    · rw [splice_cons hc] at hlex
      obtain ⟨r, rest, hr, hrest, rfl⟩ := lexFrom_cons_eq_some hlex
      have hfeed := hr
      simp only [feed] at hfeed
      split_ifs at hfeed with hend
      · cases hfeed
        obtain ⟨rfl, rfl⟩ := hend
        refine ⟨y, .char '/', by simp [afterBlock], hrest, ?_, fun p hp => ?_⟩
        · rw [uncommentFrom_cons hc b false hr, hkept, List.nil_append, hflag]
        · exact mem_places_of_next hc hr hp
      · cases hfeed
        have hnext : ∀ p ∈ places U (.char c) false ⟨.block (c == '*'), l⟩ y, p.Removable U :=
          fun p hp => hrem p (mem_places_of_next hc hr hp)
        obtain ⟨tail, b', hafter, htail, huncomment, hmem⟩ := ih (by simpa using hn) hrest hnext
        refine ⟨tail, b', afterBlock_seen hend hafter, htail, ?_, fun p hp => ?_⟩
        · rw [uncommentFrom_cons hc b false hr, hkept, List.nil_append, hflag, huncomment]
        · exact mem_places_of_next hc hr (hmem p hp)

/-- A place in a line comment: in what the pattern of block comments takes out of it, after an
asterisk or not, or outside of that, after a slash or not. -/
inductive Inline where
  | outside (slash : Bool)
  | inside (asterisk : Bool)

/-- What the pattern of block comments takes out of a line comment ends on the line. -/
def staysOnLine : Inline → Text → Bool
  | .outside _, [] => true
  | .inside _, [] => false
  | .outside slash, c :: x =>
    if c = '\n' then true
    else if slash ∧ c = '*' then if closes x then staysOnLine (.inside false) x else true
    else staysOnLine (.outside (c == '/')) x
  | .inside seen, c :: x =>
    if c = '\n' then false
    else if seen ∧ c = '/' then staysOnLine (.outside false) x
    else staysOnLine (.inside (c == '*')) x

/-- The comment patterns match at a place only where a comment is. -/
structure Fit (p : Place) : Prop where
  block : "/*".toList <+: p.rest → closes (p.rest.drop 2) = true →
    p.hides = false ∧ p.state.pending.allowsBlock = true
  line : "//".toList <+: p.rest → p.hides = false ∧ p.state.pending.allowsLine = true
  inline : "//".toList <+: p.rest → p.state.pending.isCode = true →
    p.state.pending ≠ .punct ['/'] → staysOnLine (.outside false) (p.rest.drop 2) = true

instance (p : Place) : Decidable (Fit p) :=
  decidable_of_iff (_ ∧ _ ∧ _) ⟨fun h => ⟨h.1, h.2.1, h.2.2⟩, fun h => ⟨h.block, h.line, h.inline⟩⟩

def withoutBlocks (U : Classes) (prev : Option Char) (x : Text) : Text :=
  subFrom U blockComment (fun _ => []) ⟨prev, x⟩

def withoutLines (U : Classes) (prev : Option Char) (x : Text) : Text :=
  subFrom U lineComment (fun _ => []) ⟨prev, x⟩

theorem withoutBlocks_cons {c : Char} {x : Text} (prev : Option Char)
    (h : "/*".toList <+: c :: x → closes ((c :: x).drop 2) = false) :
    withoutBlocks U prev (c :: x) = c :: withoutBlocks U (some c) x := by
  refine subFrom_of_none ?_
  by_cases hopen : ['/', '*'] <+: c :: x
  · have hnot := of_decide_eq_false (h hopen)
    obtain ⟨y, hy⟩ := hopen
    rw [← hy] at hnot ⊢
    rw [List.cons_append, List.cons_append, List.nil_append, matchAt_blockComment]
    cases hafter : afterBlock y with
    | none => rfl
    | some rest => exact absurd (infix_of_afterBlock hafter) hnot
  · exact matchAt_blockComment_none hopen

theorem not_prefix_slash {c : Char} (hc : c ≠ '/') (d : Char) (x : Text) :
    ¬ ['/', d] <+: c :: x := by
  rintro ⟨z, hz⟩
  exact hc (List.cons.inj hz).1.symm

theorem withoutBlocks_cons_of_ne {c : Char} (hc : c ≠ '/') (prev : Option Char) (x : Text) :
    withoutBlocks U prev (c :: x) = c :: withoutBlocks U (some c) x :=
  withoutBlocks_cons prev fun h => absurd h (not_prefix_slash hc '*' x)

/-- The pattern of block comments takes one out up to its first end. -/
theorem withoutBlocks_block {z tail : Text} (h : afterBlock z = some tail) (prev : Option Char) :
    withoutBlocks U prev ('/' :: '*' :: z) = withoutBlocks U (some '/') tail := by
  have hmatch := matchAt_blockComment (U := U) prev z
  rw [h, Option.map_some] at hmatch
  rw [withoutBlocks, subFrom_of_some hmatch, List.nil_append]
  rfl

theorem closes_of_cons {c : Char} {x : Text} (h : closes (c :: x) = false) : closes x = false :=
  decide_eq_false fun hx => of_decide_eq_false h (hx.trans (List.suffix_cons c x).isInfix)

/-- Where no mark ends a comment the pattern of block comments finds nothing. -/
theorem withoutBlocks_of_not_closes {x : Text} (h : closes x = false) (prev : Option Char) :
    withoutBlocks U prev x = x := by
  induction x generalizing prev with
  | nil => rfl
  | cons c x ih =>
    have htail := closes_of_cons h
    rw [withoutBlocks_cons, ih htail]
    intro _
    cases x with
    | nil => exact htail
    | cons d x => exact closes_of_cons htail

theorem withoutLines_cons {c : Char} {x : Text} (prev : Option Char)
    (h : ¬ "//".toList <+: c :: x) :
    withoutLines U prev (c :: x) = c :: withoutLines U (some c) x :=
  subFrom_of_none (matchAt_lineComment_none h)

/-- All that is left of a line is in its line comment. -/
theorem line_skip {m x : Text} (hm : ∀ c ∈ m, c ≠ '\n') {b : Before} {l : LineKind}
    {items : List Item} (hlex : lexFrom U ⟨.line, l⟩ (splice (m ++ x)) = some items)
    (hrem : ∀ p ∈ places U b false ⟨.line, l⟩ (m ++ x), p.Removable U) :
    ∃ b', lexFrom U ⟨.line, l⟩ (splice x) = some items ∧
      uncommentFrom U b false ⟨.line, l⟩ (m ++ x) = uncommentFrom U b' false ⟨.line, l⟩ x ∧
      ∀ p ∈ places U b' false ⟨.line, l⟩ x, p ∈ places U b false ⟨.line, l⟩ (m ++ x) := by
  induction m generalizing b with
  | nil => exact ⟨b, hlex, rfl, fun p hp => hp⟩
  | cons c m ih =>
    have hnewline : c ≠ '\n' := hm c List.mem_cons_self
    have hc : ¬ Splice c (m ++ x) := by
      rintro ⟨rfl, hy⟩
      obtain ⟨z, hz⟩ := List.head?_eq_some_iff.1 hy
      have hwhole := (hrem _ (mem_places _ _ _ _)).whole ⟨z, by rw [List.cons_append, hz]; rfl⟩
      cases hwhole
    have hr : feed U ⟨.line, l⟩ c = some (⟨.line, l⟩, []) := if_neg hnewline
    have hflag : Place.hides ⟨b, false, ⟨.line, l⟩, c :: (m ++ x)⟩ = false := rfl
    rw [List.cons_append] at hlex hrem ⊢
    have hnext : ∀ p ∈ places U (.char c) false ⟨.line, l⟩ (m ++ x), p.Removable U :=
      fun p hp => hrem p (mem_places_of_next hc hr hp)
    rw [splice_cons hc] at hlex
    obtain ⟨r, rest, hr', hrest, rfl⟩ := lexFrom_cons_eq_some hlex
    obtain rfl := Option.some.inj (hr.symm.trans hr')
    obtain ⟨b', hlex', huncomment, hmem⟩ :=
      ih (fun d hd => hm d (List.mem_cons_of_mem c hd)) hrest hnext
    refine ⟨b', hlex', ?_, fun p hp => mem_places_of_next hc hr (hmem p hp)⟩
    have hkept : Place.kept ⟨b, false, ⟨.line, l⟩, c :: (m ++ x)⟩ = [] := by
      simp [Place.kept, Place.inComment, hnewline]
    rw [uncommentFrom_cons hc b false hr, hkept, List.nil_append, hflag, huncomment]

theorem mem_line {c : Char} {x : Text} (hc : c ∈ x.takeWhile (· ≠ '\n')) : c ≠ '\n' :=
  of_decide_eq_true (List.mem_takeWhile_imp (p := fun c => decide (c ≠ '\n')) hc)

theorem dropWhile_line (x : Text) :
    x.dropWhile (· ≠ '\n') = [] ∨ ∃ y, x.dropWhile (· ≠ '\n') = '\n' :: y := by
  cases hdrop : x.dropWhile (· ≠ '\n') with
  | nil => exact .inl rfl
  | cons c y =>
    have hnot := List.head?_dropWhile_not (fun c => decide (c ≠ '\n')) x
    rw [hdrop] at hnot
    obtain rfl : c = '\n' := by simpa using hnot
    exact .inr ⟨y, rfl⟩

theorem staysOnLine_slash {x : Text} (hx : x.head? ≠ some '*') (slash : Bool) :
    staysOnLine (.outside slash) x = staysOnLine (.outside false) x := by
  cases x with
  | nil => rfl
  | cons c x =>
    have hc : c ≠ '*' := fun h => hx (by rw [h]; rfl)
    simp [staysOnLine, hc]

/-- What is taken out of a line comment ends at a mark on the line. -/
theorem inside_ends {star : Bool} {x : Text} (h : staysOnLine (.inside star) x = true) :
    ∃ m rest, x = m ++ rest ∧ afterBlock ((if star then ['*'] else []) ++ x) = some rest ∧
      (∀ c ∈ m, c ≠ '\n') ∧ staysOnLine (.outside false) rest = true := by
  induction x generalizing star with
  | nil => cases h
  | cons c x ih =>
    rw [staysOnLine] at h
    split_ifs at h with hnewline hend
    · obtain ⟨rfl, rfl⟩ := hend
      exact ⟨['/'], x, rfl, by simp [afterBlock], by simp, h⟩
    · obtain ⟨m, rest, rfl, hafter, hm, hrest⟩ := ih h
      exact ⟨c :: m, rest, rfl, afterBlock_seen hend hafter,
        List.forall_mem_cons.2 ⟨hnewline, hm⟩, hrest⟩

/-- In a line comment the pattern of block comments stays on the line. -/
theorem withoutBlocks_line {n : ℕ} {x : Text} (hn : x.length ≤ n)
    (h : staysOnLine (.outside false) x = true) (prev : Option Char) :
    ∃ v prev', (∀ c ∈ v, c ≠ '\n') ∧ withoutBlocks U prev x =
      v ++ withoutBlocks U prev' (x.dropWhile (· ≠ '\n')) := by
  induction n generalizing x prev with
  | zero =>
    obtain rfl : x = [] := List.length_eq_zero_iff.1 (Nat.le_zero.1 hn)
    exact ⟨[], prev, fun c hc => absurd hc List.not_mem_nil, rfl⟩
  | succ n ih =>
    cases x with
    | nil => exact ⟨[], prev, fun c hc => absurd hc List.not_mem_nil, rfl⟩
    | cons c y =>
      by_cases hnewline : c = '\n'
      · refine ⟨[], prev, fun c hc => absurd hc List.not_mem_nil, ?_⟩
        rw [List.dropWhile_cons_of_neg (by simp [hnewline]), List.nil_append]
      have hopen : staysOnLine (.outside (c == '/')) y = true := by
        rw [staysOnLine, if_neg hnewline, if_neg (by simp)] at h
        exact h
      have hdrop : (c :: y).dropWhile (· ≠ '\n') = y.dropWhile (· ≠ '\n') :=
        List.dropWhile_cons_of_pos (by simp [hnewline])
      by_cases hmark : "/*".toList <+: c :: y
      · obtain ⟨z, hz⟩ := hmark
        replace hz : '/' :: '*' :: z = c :: y := hz
        obtain ⟨rfl, rfl⟩ := List.cons.inj hz
        cases hcloses : closes z with
        | true =>
          have hinside : staysOnLine (.inside false) z = true := by
            simpa [staysOnLine, hcloses] using hopen
          obtain ⟨m, rest, rfl, hafter, hm, hrest⟩ := inside_ends hinside
          replace hafter : afterBlock (m ++ rest) = some rest := hafter
          obtain ⟨v, prev', hv, hgone⟩ := ih (by simp at hn; omega) hrest (some '/')
          refine ⟨v, prev', hv, ?_⟩
          rw [withoutBlocks_block hafter, hdrop, List.dropWhile_cons_of_pos (by decide),
            List.dropWhile_append_of_pos fun d hd => decide_eq_true (hm d hd)]
          exact hgone
        | false =>
          have hnone : closes (('/' :: '*' :: z).drop 2) = false := hcloses
          have hsame : withoutBlocks U prev ('/' :: '*' :: z) = '/' :: '*' :: z := by
            rw [withoutBlocks_cons prev fun _ => hnone, withoutBlocks_cons_of_ne (by decide),
              withoutBlocks_of_not_closes hcloses]
          have hrest : closes (z.dropWhile (· ≠ '\n')) = false := by
            refine decide_eq_false fun hinfix => of_decide_eq_false hcloses ?_
            exact hinfix.trans (List.dropWhile_suffix _).isInfix
          refine ⟨('/' :: '*' :: z).takeWhile (· ≠ '\n'), none, fun d hd => mem_line hd, ?_⟩
          rw [hsame, List.dropWhile_cons_of_pos (by decide), List.dropWhile_cons_of_pos (by decide),
            withoutBlocks_of_not_closes hrest, List.takeWhile_cons_of_pos (by decide),
            List.takeWhile_cons_of_pos (by decide), List.cons_append, List.cons_append,
            List.takeWhile_append_dropWhile]
      · have hhead : c = '/' → y.head? ≠ some '*' := by
          rintro rfl hy
          obtain ⟨z, rfl⟩ := List.head?_eq_some_iff.1 hy
          exact hmark ⟨z, rfl⟩
        have hnext : staysOnLine (.outside false) y = true := by
          by_cases hc : c = '/'
          · rwa [staysOnLine_slash (hhead hc)] at hopen
          · rwa [beq_false_of_ne hc] at hopen
        obtain ⟨v, prev', hv, hgone⟩ := ih (by simpa using hn) hnext (some c)
        refine ⟨c :: v, prev', List.forall_mem_cons.2 ⟨hnewline, hv⟩, ?_⟩
        rw [withoutBlocks_cons prev fun hopens => absurd hopens hmark, hgone, hdrop,
          List.cons_append]

theorem withoutBlocks_nil (prev : Option Char) : withoutBlocks U prev [] = [] := rfl

theorem withoutLines_nil (prev : Option Char) : withoutLines U prev [] = [] := rfl

theorem withoutLines_cons_of_ne {c : Char} (hc : c ≠ '/') (prev : Option Char) (x : Text) :
    withoutLines U prev (c :: x) = c :: withoutLines U (some c) x :=
  withoutLines_cons prev (not_prefix_slash hc '/' x)

theorem head?_withoutBlocks {x : Text} (h : x.head? ≠ some '/') (prev : Option Char) :
    (withoutBlocks U prev x).head? = x.head? := by
  cases x with
  | nil => rfl
  | cons c x =>
    have hc : c ≠ '/' := fun hc => h (by rw [hc]; rfl)
    rw [withoutBlocks_cons_of_ne hc]
    rfl

/-- A line comment ends where the pattern of line comments does. -/
theorem line_ends {x : Text} {b : Before} {l : LineKind} {items : List Item}
    (hlex : lexFrom U ⟨.line, l⟩ (splice x) = some items)
    (hrem : ∀ p ∈ places U b false ⟨.line, l⟩ x, p.Removable U) :
    x.dropWhile (· ≠ '\n') = [] ∧ uncommentFrom U b false ⟨.line, l⟩ x = [] ∨
      ∃ y rest, x.dropWhile (· ≠ '\n') = '\n' :: y ∧
        lexFrom U ⟨.gap, .fresh⟩ (splice y) = some rest ∧
        uncommentFrom U b false ⟨.line, l⟩ x =
          '\n' :: uncommentFrom U (.char '\n') false ⟨.gap, .fresh⟩ y ∧
        ∀ p ∈ places U (.char '\n') false ⟨.gap, .fresh⟩ y,
          p ∈ places U b false ⟨.line, l⟩ x := by
  have hsplit : x.takeWhile (· ≠ '\n') ++ x.dropWhile (· ≠ '\n') = x :=
    List.takeWhile_append_dropWhile
  rw [← hsplit] at hlex hrem
  obtain ⟨b', hend, huncomment, hmem⟩ := line_skip (fun c hc => mem_line hc) hlex hrem
  rw [hsplit] at huncomment hmem
  rcases dropWhile_line x with hdrop | ⟨y, hdrop⟩
  · rw [hdrop, uncommentFrom_nil] at huncomment
    exact .inl ⟨hdrop, huncomment⟩
  · rw [hdrop] at hend huncomment hmem
    have hnot : ¬ Splice '\n' y := fun h => absurd h.1 (by decide)
    have hfeed : feed U ⟨.line, l⟩ '\n' = some (⟨.gap, .fresh⟩, l.ending) := rfl
    rw [splice_cons hnot] at hend
    obtain ⟨r, rest, hr, hrest, -⟩ := lexFrom_cons_eq_some hend
    obtain rfl := Option.some.inj (hfeed.symm.trans hr)
    have hkept : Place.kept ⟨b', false, ⟨.line, l⟩, '\n' :: y⟩ = ['\n'] := by
      simp [Place.kept, Place.inComment, glyph_cons hnot]
    have hflag : Place.hides ⟨b', false, ⟨.line, l⟩, '\n' :: y⟩ = false := rfl
    refine .inr ⟨y, rest, hdrop, hrest, ?_, fun p hp => hmem p ?_⟩
    · rw [huncomment, uncommentFrom_cons hnot b' false hfeed, hkept, hflag, List.singleton_append]
    · exact mem_places_of_next hnot hfeed hp

/-- The pattern of line comments takes out the rest of the line. -/
theorem withoutLines_line {m x : Text} (hm : ∀ c ∈ m, c ≠ '\n')
    (hx : x.dropWhile (· ≠ '\n') = x) (prev : Option Char) :
    ∃ last, withoutLines U prev ('/' :: '/' :: (m ++ x)) = withoutLines U last x := by
  obtain ⟨last, hmatch⟩ := matchAt_lineComment (U := U) prev (m ++ x)
  have hdrop : (m ++ x).dropWhile (· ≠ '\n') = x := by
    rw [List.dropWhile_append_of_pos fun c hc => decide_eq_true (hm c hc), hx]
  rw [hdrop] at hmatch
  exact ⟨last, subFrom_of_some hmatch⟩

theorem isCode_of_allowsBlock {p : Pending} (hp : p.isComment = false)
    (h : p.allowsBlock = true) : p.isCode = true ∧ p ≠ .punct ['/'] := by
  have hne : p ≠ .punct ['/'] := by
    rintro rfl
    cases h
  cases p with
  | gap | word | number | punct => exact ⟨rfl, hne⟩
  | line | block => cases hp
  | _ => cases h

theorem isCode_of_allowsLine {p : Pending} (hp : p.isComment = false) (h : p.allowsLine = true) :
    p.isCode = true := by
  rwa [Pending.allowsLine, hp, Bool.or_false] at h

/-- At a character that is kept no comment pattern matches. -/
theorem Fit.no_match {b : Before} {h : Bool} {s : State} {c : Char} {y : Text}
    (hfit : Fit ⟨b, h, s, c :: y⟩) (hs : Shown h s)
    (hin : Place.inComment ⟨b, h, s, c :: y⟩ = false) :
    ("/*".toList <+: c :: y → closes ((c :: y).drop 2) = false) ∧ ¬ "//".toList <+: c :: y := by
  have hseen : Place.hides ⟨b, h, s, c :: y⟩ = false → s.pending.isComment = false := by
    intro hhides
    by_contra hcomment
    rw [Bool.not_eq_false] at hcomment
    obtain rfl := hs hcomment
    obtain ⟨p, l⟩ := s
    cases p with
    | line | block => cases hhides
    | _ => cases hcomment
  refine ⟨fun hopen => ?_, fun hopen => ?_⟩
  · by_contra hcloses
    rw [Bool.not_eq_false] at hcloses
    obtain ⟨hhides, hallows⟩ := hfit.block hopen hcloses
    obtain ⟨hcode, hne⟩ := isCode_of_allowsBlock (hseen hhides) hallows
    rw [inComment_of_isCode hcode hne] at hin
    obtain ⟨z, hz⟩ := hopen
    rw [← hz] at hin hcloses
    replace hin : opensComment ('/' :: '*' :: z) = false := hin
    rw [opensComment_iff.2 ⟨'*', z, rfl, .inr ⟨rfl, hcloses⟩⟩] at hin
    cases hin
  · obtain ⟨hhides, hallows⟩ := hfit.line hopen
    have hcode := isCode_of_allowsLine (hseen hhides) hallows
    obtain ⟨z, hz⟩ := hopen
    rw [← hz] at hin hhides
    by_cases hslash : s.pending = .punct ['/']
    · obtain ⟨p, l⟩ := s
      obtain rfl : p = .punct ['/'] := hslash
      rw [Place.inComment, hhides] at hin
      cases hin
    · rw [inComment_of_isCode hcode hslash] at hin
      replace hin : opensComment ('/' :: '/' :: z) = false := hin
      rw [opensComment_iff.2 ⟨'/', z, rfl, .inl rfl⟩] at hin
      cases hin

theorem withoutComments_joined (prev prev' : Option Char) (y : Text) :
    withoutLines U prev' (withoutBlocks U prev (backslash :: '\n' :: y)) =
      backslash :: '\n' :: withoutLines U (some '\n') (withoutBlocks U (some '\n') y) := by
  have hback : backslash ≠ '/' := by decide
  have hnewline : '\n' ≠ '/' := by decide
  rw [withoutBlocks_cons_of_ne hback, withoutBlocks_cons_of_ne hnewline,
    withoutLines_cons_of_ne hback, withoutLines_cons_of_ne hnewline]

/-- The two patterns leave a character that is in no comment. -/
theorem withoutComments_kept {b : Before} {h : Bool} {s : State} {c : Char} {y : Text}
    (hfit : Fit ⟨b, h, s, c :: y⟩) (hs : Shown h s)
    (hin : Place.inComment ⟨b, h, s, c :: y⟩ = false) (prev prev' : Option Char) :
    withoutLines U prev' (withoutBlocks U prev (c :: y)) =
      c :: withoutLines U (some c) (withoutBlocks U (some c) y) := by
  obtain ⟨hblocks, hlines⟩ := hfit.no_match hs hin
  have hlines' : ¬ ['/', '/'] <+: c :: withoutBlocks U (some c) y := by
    rintro ⟨z, hz⟩
    obtain ⟨rfl, hz⟩ := List.cons.inj hz
    have hhead : (withoutBlocks U (some '/') y).head? = some '/' := by
      rw [← hz]
      rfl
    by_cases hy : y.head? = some '/'
    · obtain ⟨w, rfl⟩ := List.head?_eq_some_iff.1 hy
      exact hlines ⟨w, rfl⟩
    · rw [head?_withoutBlocks hy] at hhead
      exact hy hhead
  rw [withoutBlocks_cons prev hblocks, withoutLines_cons prev' hlines']

/-- The two patterns take out a line comment up to the end of its line. -/
theorem withoutComments_line {z : Text} (hstays : staysOnLine (.outside false) z = true)
    (hslash : "/*".toList <+: '/' :: z → closes (('/' :: z).drop 2) = false)
    (prev prev' : Option Char) :
    ∃ last last', withoutLines U prev' (withoutBlocks U prev ('/' :: '/' :: z)) =
      withoutLines U last' (withoutBlocks U last (z.dropWhile (· ≠ '\n'))) := by
  have hfirst : "/*".toList <+: '/' :: '/' :: z →
      closes (('/' :: '/' :: z).drop 2) = false := by
    rintro ⟨w, hw⟩
    exact absurd (List.cons.inj (List.cons.inj hw).2).1 (by decide)
  obtain ⟨v, last, hv, hline⟩ := withoutBlocks_line (U := U) le_rfl hstays (some '/')
  have hdrop : (withoutBlocks U last (z.dropWhile (· ≠ '\n'))).dropWhile (· ≠ '\n') =
      withoutBlocks U last (z.dropWhile (· ≠ '\n')) := by
    rcases dropWhile_line z with hz | ⟨w, hz⟩
    · rw [hz]
      rfl
    · rw [hz, withoutBlocks_cons_of_ne (by decide)]
      exact List.dropWhile_cons_of_neg (by simp)
  obtain ⟨last', hgone⟩ := withoutLines_line (U := U) hv hdrop prev'
  refine ⟨last, last', ?_⟩
  rw [withoutBlocks_cons prev hfirst, withoutBlocks_cons _ hslash, hline]
  exact hgone

/-- The two patterns of comments take out the comments that they see. -/
theorem withoutLines_withoutBlocks {n : ℕ} {x : Text} (hn : x.length ≤ n) {b : Before} {h : Bool}
    {s : State} {items : List Item} (hlex : lexFrom U s (splice x) = some items)
    (hrem : ∀ p ∈ places U b h s x, p.Removable U ∧ Fit p) (hset : Settled b h s x)
    (hs : Shown h s) (prev prev' : Option Char) :
    withoutLines U prev' (withoutBlocks U prev x) = uncommentFrom U b h s x := by
  induction n generalizing x b h s items prev prev' with
  | zero =>
    obtain rfl : x = [] := List.length_eq_zero_iff.1 (Nat.le_zero.1 hn)
    rw [withoutBlocks_nil, withoutLines_nil, uncommentFrom_nil]
  | succ n ih =>
    rcases glyph_cases x with rfl | ⟨y, rfl⟩ | ⟨c, y, rfl, hc⟩
    · rw [withoutBlocks_nil, withoutLines_nil, uncommentFrom_nil]
    · have hnext : ∀ p ∈ places U .splice h s y, p.Removable U ∧ Fit p := fun p hp =>
        hrem p (mem_places_of_joined hp)
      rw [splice_joined] at hlex
      have hy := ih (by simp at hn; omega) hlex hnext (Settled.joined h s y) hs (some '\n')
        (some '\n')
      have hkept : Place.kept ⟨b, h, s, backslash :: '\n' :: y⟩ = [backslash, '\n'] := by
        rw [Place.kept, inComment_joined _ hs, if_neg (by simp), glyph, if_pos ⟨rfl, rfl⟩]
      rw [withoutComments_joined, hy, uncommentFrom_joined, hkept]
      rfl
    · have hplace := hrem _ (mem_places b h s (c :: y))
      cases hin : Place.inComment ⟨b, h, s, c :: y⟩ with
      | false =>
        rw [splice_cons hc] at hlex
        obtain ⟨r, rest, hr, hrest, rfl⟩ := lexFrom_cons_eq_some hlex
        have hy := ih (by simpa using hn) hrest
          (fun p hp => hrem p (mem_places_of_next hc hr hp)) (Settled.next hr hin _)
          (shown_of_feed hs hr hin) (some c) (some c)
        rw [withoutComments_kept hplace.2 hs hin, hy, uncommentFrom_cons hc b h hr, Place.kept,
          if_neg (by simp [hin]), glyph_cons hc, List.singleton_append]
      | true =>
        obtain ⟨hcode, hslash | ⟨hne, hopens⟩⟩ := inComment_cases hs hin
        · rw [hset hslash] at hin
          cases hin
        obtain ⟨d, z, hcy, hd⟩ := opensComment_iff.1 hopens
        obtain ⟨rfl, rfl⟩ := List.cons.inj hcy
        obtain ⟨ts, l, rest, -, -, hlex', -, huncomment, hplaces⟩ :=
          lexFrom_opening (b := b) (h := h) hcode hne hd hlex
        have hafter : ∀ p ∈ places U (.char d) false ⟨opened d, l⟩ z, p.Removable U ∧ Fit p := by
          intro p hp
          refine hrem p ?_
          rw [hplaces]
          exact List.mem_cons_of_mem _ (List.mem_cons_of_mem _ hp)
        have hsecond : Fit ⟨.char '/', false, ⟨.punct ['/'], l⟩, d :: z⟩ := by
          refine (hrem _ ?_).2
          rw [hplaces]
          exact List.mem_cons_of_mem _ List.mem_cons_self
        have hsettled : ∀ b l x, Settled b false ⟨.gap, l⟩ x := fun b l x =>
          Settled.of_ne (by simp) b false x
        have hshown : ∀ l, Shown false ⟨.gap, l⟩ := fun l h => absurd h (by simp [Pending.isComment])
        rw [huncomment]
        rcases hd with rfl | ⟨rfl, -⟩
        · have hmark : "/*".toList <+: '/' :: z → closes (('/' :: z).drop 2) = false := by
            intro hopen
            by_contra hcloses
            have hallows := (hsecond.block hopen (by simpa using hcloses)).2
            cases hallows
          have hstays : staysOnLine (.outside false) z = true :=
            hplace.2.inline ⟨z, rfl⟩ hcode hne
          obtain ⟨last, last', hgone⟩ := withoutComments_line (U := U) hstays hmark prev prev'
          rw [hgone]
          rcases line_ends hlex' fun p hp => (hafter p hp).1 with
            ⟨hdrop, htail⟩ | ⟨w, rest₁, hdrop, hw, htail, hmem⟩
          · rw [hdrop, withoutBlocks_nil, withoutLines_nil]
            exact htail.symm
          · have hnewline : '\n' ≠ '/' := by decide
            have hshort := (List.dropWhile_sublist (· ≠ '\n') (l := z)).length_le
            rw [hdrop] at hshort
            have hw' := ih (by simp at hn hshort; omega) hw (fun p hp => hafter p (hmem p hp))
              (hsettled _ _ _) (hshown _) (some '\n') (some '\n')
            rw [hdrop, withoutBlocks_cons_of_ne hnewline, withoutLines_cons_of_ne hnewline, hw']
            exact htail.symm
        · obtain ⟨tail, b', hend, htail, htails, hmem⟩ :=
            block_ends le_rfl hlex' fun p hp => (hafter p hp).1
          replace hend : afterBlock z = some tail := hend
          have hshort := length_afterBlock hend
          have hrest := ih (by simp at hn; omega) htail (fun p hp => hafter p (hmem p hp))
            (hsettled _ _ _) (hshown _) (some '/') prev'
          rw [withoutBlocks_block hend, hrest]
          exact htails.symm

end Mesh.Obfuscator
