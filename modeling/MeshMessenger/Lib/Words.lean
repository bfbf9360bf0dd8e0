import MeshMessenger.Lib.Regex
import Mathlib.Data.List.TakeWhile

/-! The words of a text, each with whether an opening bracket follows, and the replacement of
one word by another in all of a text: as patterns of `re.sub` it works on characters, and on
words it is what it looks like. -/

namespace Regex

variable (U : Classes)

/-- An opening bracket comes next, after blanks. -/
def isCall (rest : Text) : Bool := (rest.dropWhile U.isSpace).head? == some '('

/-- The words from a place on, `cur` being what has been read of the one it is in. -/
def usesFrom : Text → Text → List (Text × Bool)
  | cur, [] => if cur = [] then [] else [(cur, false)]
  | cur, c :: rest =>
    if U.isWord c then usesFrom (cur ++ [c]) rest
    else (if cur = [] then [] else [(cur, isCall U (c :: rest))]) ++ usesFrom [] rest

def uses (s : Text) : List (Text × Bool) := usesFrom U [] s

def IsWord (w : Text) : Prop := w ≠ [] ∧ ∀ c ∈ w, U.isWord c = true

/-- What stands after the word: a boundary, or blanks and an opening bracket. -/
def wordEnd (call : Bool) : Re :=
  if call then .seq (.star (.one U.isSpace)) (.seq (.char '(') .eps) else .seq .boundary .eps

/-- `\b`, the word, and its end. -/
def wordPattern (call : Bool) (old : Text) : Re :=
  .seq .boundary (.seq (.text old) (wordEnd U call))

/-- What is put in the place of a match. -/
def replacement (call : Bool) (new : Text) : Text := if call then new ++ ['('] else new

/-- Where a match of `wordEnd` leaves off. -/
def endCursor (call : Bool) (cur : Cursor) : Option Cursor :=
  if call then
    match cur.rest.dropWhile U.isSpace with
    | [] => none
    | d :: rest => if d = '(' then some ⟨some '(', rest⟩ else none
  else some cur

variable {U}

/-! ### Words of a text -/

theorem bracket_not_word : U.isWord '(' = false := by
  rw [U.isWord_ascii _ (by decide)]
  decide

theorem bracket_not_space : U.isSpace '(' = false := by
  rw [U.isSpace_ascii _ (by decide)]
  decide

theorem not_space_of_isWord {c : Char} (hc : U.isWord c = true) : U.isSpace c = false := by
  by_contra h
  rw [Bool.not_eq_false] at h
  rw [U.not_word_of_space c h] at hc
  exact absurd hc (by simp)

theorem ne_bracket_of_isWord {c : Char} (hc : U.isWord c = true) : c ≠ '(' := by
  rintro rfl
  rw [bracket_not_word] at hc
  exact absurd hc (by simp)

theorem usesFrom_append {w : Text} (hw : ∀ c ∈ w, U.isWord c = true) (cur rest : Text) :
    usesFrom U cur (w ++ rest) = usesFrom U (cur ++ w) rest := by
  induction w generalizing cur with
  | nil => simp
  | cons c w ih =>
    rw [List.cons_append, usesFrom, if_pos (hw c (by simp)), ih (fun d hd => hw d (by simp [hd])),
      List.append_assoc, List.singleton_append]

/-- A word, and what follows it. -/
theorem uses_word {w rest : Text} (hw : IsWord U w) (hrest : wordAt U rest.head? = false) :
    uses U (w ++ rest) = (w, isCall U rest) :: uses U rest := by
  rw [uses, usesFrom_append hw.2, List.nil_append]
  cases rest with
  | nil => simp [usesFrom, hw.1, isCall, uses]
  | cons c rest =>
    have hc : U.isWord c = false := hrest
    simp [usesFrom, hw.1, hc, uses]

theorem uses_cons_of_not_word {c : Char} (hc : U.isWord c = false) (rest : Text) :
    uses U (c :: rest) = uses U rest := by
  simp [uses, usesFrom, hc]

/-- A text is empty, or starts with a character that is in no word, or with a word. -/
theorem text_cases (s : Text) :
    s = [] ∨ (∃ c rest, s = c :: rest ∧ U.isWord c = false) ∨
      ∃ w rest, s = w ++ rest ∧ IsWord U w ∧ wordAt U rest.head? = false := by
  cases s with
  | nil => exact .inl rfl
  | cons c rest =>
    cases hc : U.isWord c with
    | false => exact .inr (.inl ⟨c, rest, rfl, hc⟩)
    | true =>
      refine .inr (.inr ⟨(c :: rest).takeWhile U.isWord, (c :: rest).dropWhile U.isWord,
        List.takeWhile_append_dropWhile.symm, ⟨?_, ?_⟩, ?_⟩)
      · simp [hc]
      · intro d hd
        exact List.mem_takeWhile_imp hd
      · cases hdrop : (c :: rest).dropWhile U.isWord with
        | nil => rfl
        | cons d after =>
          have := List.head?_dropWhile_not U.isWord (c :: rest)
          rw [hdrop] at this
          simpa [wordAt] using this

/-! ### Where the pattern matches -/

theorem matchAt_eq_none_of_run {r : Re} {cur : Cursor} (h : run U r ⟨cur, []⟩ = []) :
    matchAt U r cur = none := by
  rw [matchAt, h]
  rfl

theorem head?_of_isPrefix {old rest : Text} (hold : IsWord U old) (h : old <+: rest) :
    wordAt U rest.head? = true := by
  obtain ⟨c, old', rfl⟩ := List.exists_cons_of_ne_nil hold.1
  obtain ⟨after, rfl⟩ := h
  exact hold.2 c (by simp)

theorem run_boundary {cur : Cursor} (h : atBoundary U cur = true) (groups : List (ℕ × Text)) :
    run U .boundary ⟨cur, groups⟩ = [⟨cur, groups⟩] :=
  if_pos h

theorem run_boundary_of_not {s : Found} (h : atBoundary U s.cur = false) :
    run U .boundary s = [] :=
  if_neg (by simp [h])

/-- The pattern matches neither within a word nor outside of one. -/
theorem matchAt_outside {call : Bool} {old : Text} (hold : IsWord U old) {cur : Cursor}
    (h : wordAt U cur.prev = true ∨ wordAt U cur.rest.head? = false) :
    matchAt U (wordPattern U call old) cur = none := by
  apply matchAt_eq_none_of_run
  cases hb : atBoundary U cur with
  | false => exact run_seq_of_eq_nil (run_boundary_of_not hb)
  | true =>
    rw [wordPattern, run_seq_of_eq_singleton (run_boundary hb [])]
    refine run_seq_of_eq_nil (run_text_of_not_isPrefix fun hpre => ?_)
    have hhead := head?_of_isPrefix hold hpre
    rcases h with h | h
    · simp [atBoundary, h, hhead] at hb
    · rw [h] at hhead
      exact absurd hhead (by simp)

theorem run_wordEnd {call : Bool} {s : Found} (hprev : wordAt U s.cur.prev = true)
    (hhead : wordAt U s.cur.rest.head? = false) :
    run U (wordEnd U call) s =
      match endCursor U call s.cur with
      | none => []
      | some cur => [⟨cur, s.groups⟩] := by
  cases call with
  | false =>
    rw [wordEnd, if_neg (by simp), run_seq_eps, endCursor, if_neg (by simp)]
    exact run_boundary (by simp [atBoundary, hprev, hhead]) s.groups
  | true =>
    rw [wordEnd, if_pos rfl, run_seq_seq_eps, run_star_char bracket_not_space, charAfter,
      endCursor, if_pos rfl]
    cases s.cur.rest.dropWhile U.isSpace with
    | nil => rfl
    | cons d rest =>
      by_cases hd : d = '('
      · simp [hd]
      · simp [hd]

theorem run_wordEnd_inside {call : Bool} {s : Found} (hprev : wordAt U s.cur.prev = true)
    (hhead : wordAt U s.cur.rest.head? = true) : run U (wordEnd U call) s = [] := by
  cases call with
  | false =>
    exact run_seq_of_eq_nil (run_boundary_of_not (by simp [atBoundary, hprev, hhead]))
  | true =>
    obtain ⟨⟨prev, rest⟩, groups⟩ := s
    cases rest with
    | nil => exact absurd hhead (by simp [wordAt])
    | cons c rest =>
      have hc : U.isWord c = true := hhead
      rw [wordEnd, if_pos rfl, run_seq_seq_eps, run_star_char bracket_not_space]
      simp [charAfter, not_space_of_isWord hc, ne_bracket_of_isWord hc]

theorem endCursor_length_le {call : Bool} {cur cur' : Cursor}
    (h : endCursor U call cur = some cur') : cur'.rest.length ≤ cur.rest.length := by
  cases call with
  | false =>
    simp only [endCursor, Bool.false_eq_true, if_false, Option.some.injEq] at h
    rw [h]
  | true =>
    have hle := (List.dropWhile_sublist U.isSpace (l := cur.rest)).length_le
    simp only [endCursor, if_true] at h
    cases hdrop : cur.rest.dropWhile U.isSpace with
    | nil => simp [hdrop] at h
    | cons d rest =>
      simp only [hdrop, Option.ite_none_right_eq_some, Option.some.injEq] at h
      obtain ⟨-, rfl⟩ := h
      rw [hdrop, List.length_cons] at hle
      exact Nat.le_of_succ_le hle

theorem IsWord.wordAt_getLast? {w : Text} (hw : IsWord U w) : wordAt U w.getLast? = true := by
  rw [List.getLast?_eq_some_getLast hw.1]
  exact hw.2 _ (List.getLast_mem hw.1)

theorem IsWord.wordAt_head? {w : Text} (hw : IsWord U w) (rest : Text) :
    wordAt U (w ++ rest).head? = true :=
  head?_of_isPrefix hw (List.prefix_append w rest)

/-- A word that starts another text than itself is only a part of the word there. -/
theorem IsWord.isPrefix_cases {old w after : Text} (hold : IsWord U old)
    (hafter : wordAt U after.head? = false) (h : old <+: w ++ after) (hne : w ≠ old) :
    ∃ c rest, w = old ++ c :: rest := by
  rcases List.prefix_or_prefix_of_prefix h (List.prefix_append w after) with hpre | hpre
  · obtain ⟨rest, rfl⟩ := hpre
    cases rest with
    | nil => exact absurd (List.append_nil old) hne
    | cons c rest => exact ⟨c, rest, rfl⟩
  · obtain ⟨rest, rfl⟩ := hpre
    cases rest with
    | nil => exact absurd (List.append_nil w).symm hne
    | cons c rest =>
      obtain ⟨more, hmore⟩ := (List.prefix_append_right_inj w).1 h
      rw [← hmore] at hafter
      have hc : U.isWord c = true := hold.2 c (by simp)
      simp [wordAt, hc] at hafter

/-- At the start of a word the pattern matches if the word is the one it is for and its end
is there. -/
theorem matchAt_word {call : Bool} {old w after : Text} {prev : Option Char}
    (hold : IsWord U old) (hprev : wordAt U prev = false) (hw : IsWord U w)
    (hafter : wordAt U after.head? = false) :
    matchAt U (wordPattern U call old) ⟨prev, w ++ after⟩ =
      if w = old then (endCursor U call ⟨w.getLast?, after⟩).map fun cur => ⟨cur, []⟩ else none := by
  have hboundary : atBoundary U ⟨prev, w ++ after⟩ = true := by
    rw [atBoundary, hprev, hw.wordAt_head? after]
    rfl
  have hstart : run U (wordPattern U call old) ⟨⟨prev, w ++ after⟩, []⟩ =
      run U (.seq (.text old) (wordEnd U call)) ⟨⟨prev, w ++ after⟩, []⟩ :=
    run_seq_of_eq_singleton (run_boundary hboundary [])
  have hlast {w : Text} (hw : IsWord U w) : (w.getLast?).or prev = w.getLast? := by
    rw [List.getLast?_eq_some_getLast hw.1, Option.some_or]
  by_cases hwo : w = old
  · subst hwo
    have hrun : run U (wordPattern U call w) ⟨⟨prev, w ++ after⟩, []⟩ =
        match endCursor U call ⟨w.getLast?, after⟩ with
        | none => []
        | some cur => [⟨cur, []⟩] := by
      rw [hstart, run_seq_of_eq_singleton (run_text w prev after []), hlast hw]
      exact run_wordEnd hw.wordAt_getLast? hafter
    rw [if_pos rfl, matchAt, hrun]
    cases hend : endCursor U call ⟨w.getLast?, after⟩ with
    | none => rfl
    | some cur =>
      have hle : cur.rest.length ≤ after.length := endCursor_length_le hend
      have hpos := List.length_pos_of_ne_nil hw.1
      have hlt : cur.rest.length < (w ++ after).length := by
        rw [List.length_append]
        omega
      simp only [List.head?_cons, if_pos hlt, Option.map_some]
  · rw [if_neg hwo]
    apply matchAt_eq_none_of_run
    rw [hstart]
    by_cases hpre : old <+: w ++ after
    · obtain ⟨c, rest, rfl⟩ := hold.isPrefix_cases hafter hpre hwo
      have hc : U.isWord c = true := hw.2 c (by simp)
      rw [List.append_assoc, run_seq_of_eq_singleton (run_text old prev _ []), hlast hold]
      exact run_wordEnd_inside hold.wordAt_getLast? hc
    · exact run_seq_of_eq_nil (run_text_of_not_isPrefix hpre)

/-! ### Replacing -/

theorem matchAt_length_lt {r : Re} {cur : Cursor} {m : Found} (h : matchAt U r cur = some m) :
    m.cur.rest.length < cur.rest.length := by
  simp only [matchAt] at h
  split at h
  · simp only [Option.ite_none_right_eq_some, Option.some.injEq] at h
    obtain ⟨hlt, rfl⟩ := h
    exact hlt
  · exact absurd h (by simp)

theorem scanWith_nil {β : Type} (r : Re) (hit : Found → List β) (miss : Char → List β) (n : ℕ)
    (prev : Option Char) : scanWith U r hit miss n ⟨prev, []⟩ = [] := by
  cases n with
  | zero => rfl
  | succ n =>
    have hnone : matchAt U r ⟨prev, []⟩ = none := by
      by_contra h
      obtain ⟨m, hm⟩ := Option.ne_none_iff_exists'.1 h
      exact absurd (matchAt_length_lt hm) (Nat.not_lt_zero _)
    rw [scanWith, hnone]

/-- Any bound that covers the text will do. -/
theorem scanWith_fuel {β : Type} (r : Re) (hit : Found → List β) (miss : Char → List β) {n m : ℕ}
    {cur : Cursor} (hn : cur.rest.length ≤ n) (hm : cur.rest.length ≤ m) :
    scanWith U r hit miss n cur = scanWith U r hit miss m cur := by
  induction n generalizing m cur with
  | zero =>
    obtain ⟨prev, rest⟩ := cur
    obtain rfl : rest = [] := List.length_eq_zero_iff.1 (Nat.le_zero.1 hn)
    rw [scanWith_nil, scanWith_nil]
  | succ n ih =>
    obtain ⟨prev, rest⟩ := cur
    cases rest with
    | nil => rw [scanWith_nil, scanWith_nil]
    | cons c rest =>
      obtain ⟨m, rfl⟩ : ∃ k, m = k + 1 := ⟨m - 1, by simp at hm; omega⟩
      simp only [List.length_cons] at hn hm
      rw [scanWith, scanWith]
      cases hmatch : matchAt U r ⟨prev, c :: rest⟩ with
      | none =>
        have hrest : scanWith U r hit miss n ⟨some c, rest⟩ =
            scanWith U r hit miss m ⟨some c, rest⟩ :=
          ih (Nat.le_of_succ_le_succ hn) (Nat.le_of_succ_le_succ hm)
        simp only [hrest]
      | some found =>
        have hlt := matchAt_length_lt hmatch
        simp only [List.length_cons] at hlt
        have hrest : scanWith U r hit miss n found.cur = scanWith U r hit miss m found.cur :=
          ih (by omega) (by omega)
        simp only [hrest]

/-- The result of a replacement from a place on. -/
def subFrom (U : Classes) (r : Re) (repl : Found → Text) (cur : Cursor) : Text :=
  scanWith U r repl (fun c => [c]) cur.rest.length cur

theorem subFrom_of_none {r : Re} {repl : Found → Text} {prev : Option Char} {c : Char}
    {rest : Text} (h : matchAt U r ⟨prev, c :: rest⟩ = none) :
    subFrom U r repl ⟨prev, c :: rest⟩ = c :: subFrom U r repl ⟨some c, rest⟩ := by
  simp only [subFrom, List.length_cons, scanWith, h, List.singleton_append]

theorem subFrom_of_some {r : Re} {repl : Found → Text} {cur : Cursor} {m : Found}
    (h : matchAt U r cur = some m) :
    subFrom U r repl cur = repl m ++ subFrom U r repl m.cur := by
  have hlt := matchAt_length_lt h
  obtain ⟨n, hn⟩ : ∃ n, cur.rest.length = n + 1 := ⟨cur.rest.length - 1, by omega⟩
  simp only [subFrom, hn, scanWith, h]
  rw [scanWith_fuel r repl _ (by omega : m.cur.rest.length ≤ n) le_rfl]

section Replace

variable {call : Bool} {old new : Text}

/-- The text with `old` replaced, from a place on. -/
def replaceFrom (U : Classes) (call : Bool) (old new : Text) : Cursor → Text :=
  subFrom U (wordPattern U call old) fun _ => replacement call new

theorem replaceFrom_outside (hold : IsWord U old) {prev : Option Char} {c : Char} {rest : Text}
    (h : wordAt U prev = true ∨ U.isWord c = false) :
    replaceFrom U call old new ⟨prev, c :: rest⟩ =
      c :: replaceFrom U call old new ⟨some c, rest⟩ :=
  subFrom_of_none (matchAt_outside hold h)

/-- The rest of a word that has been entered is copied. -/
theorem replaceFrom_inside (hold : IsWord U old) {prev : Option Char}
    (hprev : wordAt U prev = true) {w : Text} (hw : ∀ c ∈ w, U.isWord c = true) (rest : Text) :
    replaceFrom U call old new ⟨prev, w ++ rest⟩ =
      w ++ replaceFrom U call old new ⟨(w.getLast?).or prev, rest⟩ := by
  induction w generalizing prev with
  | nil => rfl
  | cons c w ih =>
    have hc : wordAt U (some c) = true := hw c (by simp)
    rw [List.cons_append, replaceFrom_outside hold (.inl hprev),
      ih hc (fun d hd => hw d (by simp [hd])), getLast?_or_some w c prev, List.cons_append]

/-- A whole word is replaced if it is `old` and its end is there, and copied otherwise. -/
theorem replaceFrom_word (hold : IsWord U old) {prev : Option Char} {w after : Text}
    (hprev : wordAt U prev = false) (hw : IsWord U w) (hafter : wordAt U after.head? = false) :
    replaceFrom U call old new ⟨prev, w ++ after⟩ =
      match (if w = old then endCursor U call ⟨w.getLast?, after⟩ else none) with
      | some cur => replacement call new ++ replaceFrom U call old new cur
      | none => w ++ replaceFrom U call old new ⟨w.getLast?, after⟩ := by
  have hmatch : matchAt U (wordPattern U call old) ⟨prev, w ++ after⟩ = _ :=
    matchAt_word hold hprev hw hafter
  have hcopy (h : matchAt U (wordPattern U call old) ⟨prev, w ++ after⟩ = none) :
      replaceFrom U call old new ⟨prev, w ++ after⟩ =
        w ++ replaceFrom U call old new ⟨w.getLast?, after⟩ := by
    obtain ⟨c, w, rfl⟩ := List.exists_cons_of_ne_nil hw.1
    have hc : wordAt U (some c) = true := hw.2 c (by simp)
    have hrest : replaceFrom U call old new ⟨some c, w ++ after⟩ =
        w ++ replaceFrom U call old new ⟨(c :: w).getLast?, after⟩ := by
      rw [replaceFrom_inside hold hc fun d hd => hw.2 d (List.mem_cons_of_mem c hd),
        getLast?_or_some w c none, Option.or_none]
    rw [List.cons_append, List.cons_append, ← hrest]
    exact subFrom_of_none h
  by_cases hwo : w = old
  · rw [if_pos hwo] at hmatch ⊢
    cases hend : endCursor U call ⟨w.getLast?, after⟩ with
    | none => exact hcopy (by rw [hmatch, hend]; rfl)
    | some cur =>
      rw [hend] at hmatch
      exact subFrom_of_some hmatch
  · rw [if_neg hwo] at hmatch ⊢
    exact hcopy hmatch

/-- Outside of a word, or at the start of one. -/
def Between (U : Classes) (cur : Cursor) : Prop :=
  wordAt U cur.prev = false ∨ wordAt U cur.rest.head? = false

theorem Between.prev {w after : Text} {prev : Option Char} (h : Between U ⟨prev, w ++ after⟩)
    (hw : IsWord U w) : wordAt U prev = false := by
  refine h.resolve_right fun hhead => ?_
  rw [hw.wordAt_head? after] at hhead
  exact absurd hhead (by simp)

theorem isCall_word {w : Text} (hw : IsWord U w) (rest : Text) : isCall U (w ++ rest) = false := by
  obtain ⟨c, w, rfl⟩ := List.exists_cons_of_ne_nil hw.1
  have hc : U.isWord c = true := hw.2 c (by simp)
  simp [isCall, not_space_of_isWord hc, ne_bracket_of_isWord hc]

/-- Replacing words changes nothing between them. -/
theorem isCall_replaceFrom (hold : IsWord U old) (hnew : IsWord U new) {cur : Cursor}
    (h : Between U cur) : isCall U (replaceFrom U call old new cur) = isCall U cur.rest := by
  obtain ⟨prev, rest⟩ := cur
  induction rest generalizing prev with
  | nil => rfl
  | cons d rest ih =>
    obtain hnil | ⟨c, rest', heq, hc⟩ | ⟨w, after, heq, hw, hafter⟩ := text_cases (U := U) (d :: rest)
    · exact absurd hnil (by simp)
    · rw [List.cons.injEq] at heq
      obtain ⟨rfl, rfl⟩ := heq
      have hrest := ih (some d) (.inl hc)
      rw [replaceFrom_outside hold (.inr hc)]
      cases hspace : U.isSpace d with
      | true => simpa [isCall, hspace] using hrest
      | false => simp [isCall, hspace]
    · rw [heq] at h ⊢
      rw [replaceFrom_word hold (h.prev hw) hw hafter, isCall_word hw]
      split
      · cases call with
        | false => exact isCall_word hnew _
        | true =>
          rw [replacement, if_pos rfl, List.append_assoc]
          exact isCall_word hnew _
      · exact isCall_word hw _

theorem head?_replaceFrom (hold : IsWord U old) {prev : Option Char} {rest : Text}
    (h : wordAt U rest.head? = false) :
    wordAt U (replaceFrom U call old new ⟨prev, rest⟩).head? = false := by
  cases rest with
  | nil => rfl
  | cons c rest =>
    rw [replaceFrom_outside hold (.inr h)]
    exact h

theorem uses_dropWhile (s : Text) : uses U (s.dropWhile U.isSpace) = uses U s := by
  induction s with
  | nil => rfl
  | cons c s ih =>
    cases hspace : U.isSpace c with
    | true =>
      rw [List.dropWhile_cons_of_pos hspace, ih,
        uses_cons_of_not_word (U.not_word_of_space c hspace)]
    | false => rw [List.dropWhile_cons_of_neg (by simp [hspace])]

/-- A replaced call: the bracket that was matched is put back after the word. -/
theorem uses_replacement_call (hnew : IsWord U new) (rest : Text) :
    uses U (replacement true new ++ rest) = (new, true) :: uses U rest := by
  have hhead : wordAt U ('(' :: rest).head? = false := bracket_not_word
  have hbracket : isCall U ('(' :: rest) = true := by
    simp [isCall, bracket_not_space]
  rw [replacement, if_pos rfl, List.append_assoc, List.singleton_append, uses_word hnew hhead,
    hbracket, uses_cons_of_not_word bracket_not_word]

/-- What a replacement does to a word of the text. -/
def replaceUse (call : Bool) (old new : Text) (use : Text × Bool) : Text × Bool :=
  if use.1 = old ∧ (call = true → use.2 = true) then (new, use.2) else use

/-- Where a match ends, in terms of what follows the word. -/
theorem endCursor_eq (call : Bool) (prev : Option Char) (after : Text) :
    (call = true → isCall U after = true) ∧
        (∃ cur, endCursor U call ⟨prev, after⟩ = some cur ∧
          (call = false ∧ cur = ⟨prev, after⟩ ∨
            call = true ∧ after.dropWhile U.isSpace = '(' :: cur.rest ∧ cur.prev = some '(')) ∨
      ¬ (call = true → isCall U after = true) ∧ endCursor U call ⟨prev, after⟩ = none := by
  cases call with
  | false => exact .inl ⟨by simp, ⟨prev, after⟩, by simp [endCursor], .inl ⟨rfl, rfl⟩⟩
  | true =>
    cases hdrop : after.dropWhile U.isSpace with
    | nil => exact .inr ⟨by simp [isCall, hdrop], by simp [endCursor, hdrop]⟩
    | cons d rest =>
      by_cases hd : d = '('
      · subst hd
        exact .inl ⟨by simp [isCall, hdrop], ⟨some '(', rest⟩, by simp [endCursor, hdrop],
          .inr ⟨rfl, rfl, rfl⟩⟩
      · exact .inr ⟨by simp [isCall, hdrop, hd], by simp [endCursor, hdrop, hd]⟩

/-- On the words of a text a replacement does to each what it does to one. -/
theorem uses_replaceFrom (hold : IsWord U old) (hnew : IsWord U new) {cur : Cursor}
    (h : Between U cur) :
    uses U (replaceFrom U call old new cur) =
      (uses U cur.rest).map (replaceUse call old new) := by
  -- by induction on how much text is left
  obtain ⟨n, hn⟩ : ∃ n, cur.rest.length = n := ⟨_, rfl⟩
  induction n using Nat.strong_induction_on generalizing cur with
  | _ n ih =>
    obtain ⟨prev, rest⟩ := cur
    obtain hnil | ⟨c, rest', heq, hc⟩ | ⟨w, after, heq, hw, hafter⟩ := text_cases (U := U) rest
    · subst hnil
      rfl
    · subst heq
      rw [replaceFrom_outside hold (.inr hc), uses_cons_of_not_word hc, uses_cons_of_not_word hc]
      exact ih rest'.length (by simp at hn; omega) (.inl hc) rfl
    · subst heq
      have hpos := List.length_pos_of_ne_nil hw.1
      simp only [List.length_append] at hn
      have hbetween : Between U ⟨w.getLast?, after⟩ := .inr hafter
      have htail := ih after.length (by omega) hbetween rfl
      have hsame {v : Text} (hv : IsWord U v) :
          uses U (v ++ replaceFrom U call old new ⟨w.getLast?, after⟩) =
            (v, isCall U after) :: (uses U after).map (replaceUse call old new) := by
        rw [uses_word hv (head?_replaceFrom hold hafter),
          isCall_replaceFrom hold hnew hbetween, htail]
      rw [uses_word hw hafter, List.map_cons, replaceFrom_word hold (h.prev hw) hw hafter]
      by_cases hwo : w = old
      · obtain ⟨hok, cur, hend, hcur⟩ | ⟨hno, hend⟩ := endCursor_eq (U := U) call w.getLast? after
        · have huse : replaceUse call old new (w, isCall U after) = (new, isCall U after) :=
            if_pos ⟨hwo, hok⟩
          rw [if_pos hwo, hend, huse]
          rcases hcur with ⟨rfl, rfl⟩ | ⟨rfl, hdrop, hprev⟩
          · exact hsame hnew
          · -- the blanks before the bracket go
            have hlen := (List.dropWhile_sublist U.isSpace (l := after)).length_le
            rw [hdrop, List.length_cons] at hlen
            have hcurBetween : Between U cur := by
              left
              rw [hprev]
              exact bracket_not_word
            have hrest := ih cur.rest.length (by omega) hcurBetween rfl
            have hafter' : uses U after = uses U cur.rest := by
              rw [← uses_dropWhile, hdrop, uses_cons_of_not_word bracket_not_word]
            simp only
            rw [uses_replacement_call hnew, hrest, hafter', hok rfl]
        · have huse : replaceUse call old new (w, isCall U after) = (w, isCall U after) :=
            if_neg fun hyes => hno hyes.2
          rw [if_pos hwo, hend, huse]
          exact hsame hw
      · have huse : replaceUse call old new (w, isCall U after) = (w, isCall U after) :=
          if_neg fun hyes => hwo hyes.1
        rw [if_neg hwo, huse]
        exact hsame hw

/-- The replacement over a whole text. -/
theorem uses_sub (call : Bool) (hold : IsWord U old) (hnew : IsWord U new) (s : Text) :
    uses U (sub U (wordPattern U call old) (fun _ => replacement call new) s) =
      (uses U s).map (replaceUse call old new) :=
  have hstart : Between U ⟨none, s⟩ := .inl rfl
  uses_replaceFrom hold hnew hstart

end Replace

end Regex
