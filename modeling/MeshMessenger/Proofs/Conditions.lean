import MeshMessenger.Lib.CText
import MeshMessenger.Proofs.Linkage
import MeshMessenger.Proofs.OpaqueConditions

/-! Which conditions the pattern of `obfuscate_control_flow` finds: it ends a condition at the
first closing parenthesis of the line that stands before a brace. -/

namespace Mesh.Obfuscator

open CLib Regex Re

variable (U : Classes)

/-! ### What the pattern matches -/

/-- What follows a character, where the text starts with it after any spaces. -/
def afterSpaces (x : Char) (s : Text) : Option Text :=
  match s.dropWhile U.isSpace with
  | [] => none
  | c :: rest => if c = x then some rest else none

/-- The text up to the first closing parenthesis of the line that stands before a brace, and
what follows that brace. -/
def firstBraced : Text → Option (Text × Text)
  | [] => none
  | c :: s =>
    if c = ')' ∧ (afterSpaces U '{' s).isSome then
      (afterSpaces U '{' s).map fun rest => ([], rest)
    else if c = '\n' then none
    else (firstBraced s).map fun r => (c :: r.1, r.2)

/-- The text after the opening parenthesis of an `if`. -/
def ifBody (s : Text) : Option Text :=
  if "if".toList <+: s then afterSpaces U '(' (s.drop 2) else none

/-- The text of the condition that the pattern captures where an `if` starts, and what
follows the brace. -/
def bracedIf (s : Text) : Option (Text × Text) := (ifBody U s).bind (firstBraced U)

variable {U}

theorem isSpace_eq_false {c : Char} (hc : c.toNat < 128) (h : 32 < c.toNat) :
    U.isSpace c = false := by
  rw [U.isSpace_ascii c hc]
  have hspace : c ≠ ' ' := by
    rintro rfl
    exact absurd h (by decide)
  simp [hspace]
  omega

theorem charAfter_eq (x : Char) (prev : Option Char) (s : Text) (groups : List (ℕ × Text)) :
    charAfter U.isSpace x ⟨⟨prev, s⟩, groups⟩ =
      ((afterSpaces U x s).map fun rest => (⟨⟨some x, rest⟩, groups⟩ : Found)).toList := by
  unfold charAfter afterSpaces
  cases s.dropWhile U.isSpace with
  | nil => rfl
  | cons c rest => by_cases hc : c = x <;> simp [hc]

theorem afterSpaces_eq_some_iff {x : Char} (hx : U.isSpace x = false) {s rest : Text} :
    afterSpaces U x s = some rest ↔
      ∃ ws, s = ws ++ x :: rest ∧ ∀ c ∈ ws, U.isSpace c = true := by
  refine ⟨fun h => ?_, ?_⟩
  · refine ⟨s.takeWhile U.isSpace, ?_, fun c hc => List.mem_takeWhile_imp hc⟩
    unfold afterSpaces at h
    cases hdrop : s.dropWhile U.isSpace with
    | nil => simp [hdrop] at h
    | cons c tail =>
      simp only [hdrop, Option.ite_none_right_eq_some, Option.some.injEq] at h
      obtain ⟨rfl, rfl⟩ := h
      rw [← hdrop, List.takeWhile_append_dropWhile]
  · rintro ⟨ws, rfl, hws⟩
    rw [afterSpaces, List.dropWhile_append_of_pos hws, List.dropWhile_cons_of_neg (by simp [hx])]
    simp

theorem isSpace_brace : U.isSpace '{' = false := isSpace_eq_false (by decide) (by decide)

theorem isSpace_open : U.isSpace '(' = false := isSpace_eq_false (by decide) (by decide)

/-- The end of the pattern, after the condition. -/
theorem run_ifEnd (s : Found) :
    run U (seq (char ')') (seq (spaces U) (seq (char '{') eps))) s =
      match s.cur.rest with
      | [] => []
      | c :: rest =>
        if c = ')' then
          ((afterSpaces U '{' rest).map fun rest => (⟨⟨some '{', rest⟩, s.groups⟩ : Found)).toList
        else [] := by
  obtain ⟨⟨prev, rest⟩, groups⟩ := s
  cases rest with
  | nil => exact run_seq_of_eq_nil rfl
  | cons c rest =>
    have hchar := run_char (U := U) ')' prev c rest groups
    split_ifs at hchar ⊢ with hc
    · rw [run_seq_of_eq_singleton hchar, run_seq_seq_eps, spaces,
        run_star_char isSpace_brace, hc, charAfter_eq]
      simp
    · rw [run_seq_of_eq_nil hchar]
      simp [hc]

/-- The lazy star stops at the first place where the end of the pattern follows; `pre` is what
it has passed. -/
theorem head?_lazyPlaces (pre body : Text) (prev : Option Char) :
    ((lazyPlaces (fun c => !"\n".toList.contains c) [] prev body).flatMap fun t =>
      run U (seq (char ')') (seq (spaces U) (seq (char '{') eps)))
        { t with groups := (1, (pre ++ body).take
            ((pre ++ body).length - t.cur.rest.length)) :: t.groups }).head? =
      (firstBraced U body).map fun r =>
        (⟨⟨some '{', r.2⟩, [(1, pre ++ r.1)]⟩ : Found) := by
  induction body generalizing pre prev with
  | nil => simp [lazyPlaces, run_ifEnd, firstBraced]
  | cons c body ih =>
    have htake : (pre ++ c :: body).take ((pre ++ c :: body).length - (c :: body).length) = pre := by
      rw [List.length_append, Nat.add_sub_cancel]
      exact List.take_left
    have hpre : pre ++ c :: body = (pre ++ [c]) ++ body := by simp
    rw [lazyPlaces, List.flatMap_cons, List.head?_append, run_ifEnd, firstBraced]
    simp only [htake]
    by_cases hclose : c = ')' ∧ (afterSpaces U '{' body).isSome
    · obtain ⟨rest, hrest⟩ := Option.isSome_iff_exists.1 hclose.2
      simp [hclose.1, hrest]
    · have hnone : (if c = ')' then ((afterSpaces U '{' body).map fun rest =>
          (⟨⟨some '{', rest⟩, [(1, pre)]⟩ : Found)).toList else []).head? = none := by
        split_ifs with hc
        · have hnone : afterSpaces U '{' body = none := by simpa [hc] using hclose
          simp [hnone]
        · rfl
      rw [if_neg hclose, hnone, Option.none_or]
      by_cases hline : c = '\n'
      · simp [hline]
      · have hmore : (!"\n".toList.contains c) = true := by simpa using hline
        rw [if_pos hmore, if_neg hline, hpre, ih (pre ++ [c]) (some c), Option.map_map]
        congr 1
        funext r
        simp

/-! ### Texts that are captured -/

/-- No closing parenthesis in the text, which is on one line, stands before a brace. -/
structure NoBraceInside (U : Classes) (s : Text) : Prop where
  oneLine : '\n' ∉ s
  no_brace : ∀ a b, s = a ++ ')' :: b → afterSpaces U '{' b = none

/-- An `if` with a text in parentheses and a brace. -/
structure BracedIf (U : Classes) (s ws cond ws' rest : Text) : Prop where
  text : s = "if".toList ++ (ws ++ '(' :: (cond ++ ')' :: (ws' ++ '{' :: rest)))
  spaces : ∀ c ∈ ws, U.isSpace c = true
  spaces' : ∀ c ∈ ws', U.isSpace c = true

theorem afterSpaces_append_close {b t : Text} :
    (afterSpaces U '{' (b ++ ')' :: t)).isSome = (afterSpaces U '{' b).isSome := by
  have hclose : U.isSpace ')' = false := isSpace_eq_false (by decide) (by decide)
  unfold afterSpaces
  rw [List.dropWhile_append]
  split_ifs with hb
  · rw [List.isEmpty_iff.1 hb, List.dropWhile_cons_of_neg (by simp [hclose])]
    rfl
  · cases hdrop : b.dropWhile U.isSpace with
    | nil => simp [hdrop] at hb
    | cons c rest => by_cases hc : c = '{' <;> simp [hc]

theorem noBraceInside_cons {c : Char} {s : Text} :
    NoBraceInside U (c :: s) ↔
      c ≠ '\n' ∧ ¬ (c = ')' ∧ (afterSpaces U '{' s).isSome) ∧ NoBraceInside U s := by
  refine ⟨fun h => ⟨?_, ?_, ?_, ?_⟩, fun h => ⟨?_, ?_⟩⟩
  · exact fun hc => h.oneLine (hc ▸ List.mem_cons_self)
  · rintro ⟨rfl, hsome⟩
    rw [h.no_brace [] s rfl] at hsome
    cases hsome
  · exact fun hmem => h.oneLine (List.mem_cons_of_mem c hmem)
  · exact fun a b heq => h.no_brace (c :: a) b (by rw [heq, List.cons_append])
  · exact fun hmem => (List.mem_cons.1 hmem).elim (fun hc => h.1 hc.symm) h.2.2.oneLine
  · intro a b heq
    cases a with
    | nil =>
      obtain ⟨rfl, rfl⟩ := List.cons.inj heq
      have hnone := h.2.1
      simpa using hnone
    | cons d a =>
      obtain ⟨-, heq⟩ := List.cons.inj heq
      exact h.2.2.no_brace a b heq

/-- Before the closing parenthesis that is found no other one stands before a brace. -/
theorem firstBraced_eq_some_iff {body cond rest : Text} :
    firstBraced U body = some (cond, rest) ↔
      NoBraceInside U cond ∧
        ∃ ws, body = cond ++ ')' :: (ws ++ '{' :: rest) ∧ ∀ c ∈ ws, U.isSpace c = true := by
  induction body generalizing cond with
  | nil => simp [firstBraced]
  | cons c s ih =>
    have hnil : NoBraceInside U [] := ⟨by simp, fun a b h => by simp at h⟩
    have hbrace : afterSpaces U '{' s = some rest ↔
        ∃ ws, s = ws ++ '{' :: rest ∧ ∀ c ∈ ws, U.isSpace c = true :=
      afterSpaces_eq_some_iff isSpace_brace
    by_cases hclose : c = ')' ∧ (afterSpaces U '{' s).isSome
    · rw [firstBraced, if_pos hclose, hclose.1]
      cases cond with
      | nil => simp [hnil, ← hbrace]
      | cons d cond =>
        refine iff_of_false (by simp) ?_
        rintro ⟨hinside, ws, heq, -⟩
        rw [List.cons_append] at heq
        obtain ⟨rfl, rfl⟩ := List.cons.inj heq
        rw [afterSpaces_append_close] at hclose
        exact (noBraceInside_cons.1 hinside).2.1 ⟨rfl, hclose.2⟩
    · rw [firstBraced, if_neg hclose]
      cases cond with
      | nil =>
        refine iff_of_false (by split_ifs <;> simp) ?_
        rintro ⟨-, ws, heq, hws⟩
        obtain ⟨rfl, rfl⟩ := List.cons.inj heq
        have hsome := hbrace.2 ⟨ws, rfl, hws⟩
        exact hclose ⟨rfl, by simp [hsome]⟩
      | cons d cond =>
        split_ifs with hline
        · refine iff_of_false (by simp) ?_
          rintro ⟨hinside, ws, heq, -⟩
          obtain ⟨rfl, -⟩ := List.cons.inj heq
          exact (noBraceInside_cons.1 hinside).1 hline
        · simp only [Option.map_eq_some_iff, Prod.mk.injEq, List.cons.injEq, Prod.exists]
          refine ⟨?_, ?_⟩
          · rintro ⟨cond', rest', hfirst, ⟨rfl, rfl⟩, rfl⟩
            obtain ⟨hinside, ws, rfl, hws⟩ := ih.1 hfirst
            rw [afterSpaces_append_close] at hclose
            exact ⟨noBraceInside_cons.2 ⟨hline, hclose, hinside⟩, ws, rfl, hws⟩
          · rintro ⟨hinside, ws, heq, hws⟩
            rw [List.cons_append] at heq
            obtain ⟨rfl, rfl⟩ := List.cons.inj heq
            have hinside' := (noBraceInside_cons.1 hinside).2.2
            exact ⟨cond, rest, ih.2 ⟨hinside', ws, rfl, hws⟩, ⟨rfl, rfl⟩, rfl⟩

theorem ifBody_eq_some_iff {s body : Text} :
    ifBody U s = some body ↔
      ∃ ws, s = "if".toList ++ (ws ++ '(' :: body) ∧ ∀ c ∈ ws, U.isSpace c = true := by
  unfold ifBody
  split_ifs with h
  · obtain ⟨t, rfl⟩ := h
    rw [List.drop_left' (by rfl), afterSpaces_eq_some_iff isSpace_open]
    simp only [List.append_cancel_left_eq]
  · refine iff_of_false (by simp) ?_
    rintro ⟨ws, rfl, -⟩
    exact h (List.prefix_append _ _)

/-- What the pattern captures: the text up to the first closing parenthesis before a brace. -/
theorem bracedIf_eq_some_iff {s cond rest : Text} :
    bracedIf U s = some (cond, rest) ↔
      NoBraceInside U cond ∧ ∃ ws ws', BracedIf U s ws cond ws' rest := by
  rw [bracedIf, Option.bind_eq_some_iff]
  refine ⟨?_, ?_⟩
  · rintro ⟨body, hbody, hfirst⟩
    obtain ⟨ws, rfl, hws⟩ := ifBody_eq_some_iff.1 hbody
    obtain ⟨hinside, ws', rfl, hws'⟩ := firstBraced_eq_some_iff.1 hfirst
    exact ⟨hinside, ws, ws', rfl, hws, hws'⟩
  · rintro ⟨hinside, ws, ws', rfl, hws, hws'⟩
    exact ⟨_, ifBody_eq_some_iff.2 ⟨ws, rfl, hws⟩,
      firstBraced_eq_some_iff.2 ⟨hinside, ws', rfl, hws'⟩⟩

/-- The match at a place, read off the text. -/
theorem matchAt_ifPattern (cur : Cursor) :
    matchAt U (ifPattern U) cur =
      (bracedIf U cur.rest).map fun r => (⟨⟨some '{', r.2⟩, [(1, r.1)]⟩ : Found) := by
  have hrun : (run U (ifPattern U) ⟨cur, []⟩).head? =
      (bracedIf U cur.rest).map fun r => (⟨⟨some '{', r.2⟩, [(1, r.1)]⟩ : Found) := by
    obtain ⟨prev, s⟩ := cur
    by_cases hif : "if".toList <+: s
    · obtain ⟨t, rfl⟩ := hif
      have hlit := run_text (U := U) "if".toList prev t []
      rw [bracedIf, ifBody, if_pos (List.prefix_append _ _), List.drop_left' (by rfl)]
      simp only [ifPattern, cat, List.foldr_cons, List.foldr_nil]
      rw [lit, run_seq_of_eq_singleton hlit, run_seq_assoc, run_seq, spaces,
        run_star_char isSpace_open, charAfter_eq]
      cases afterSpaces U '(' t with
      | none => rfl
      | some body =>
        have hlazy := head?_lazyPlaces (U := U) [] body (some '(')
        simp only [List.nil_append] at hlazy
        simp only [Option.map_some, Option.toList_some, List.flatMap_singleton, Option.bind_some]
        rw [run_seq, run_group, noneOf, run_lazyStar_one, List.flatMap_map]
        exact hlazy
    · rw [bracedIf, ifBody, if_neg hif]
      simp only [ifPattern, cat, List.foldr_cons, List.foldr_nil]
      rw [lit, run_seq_of_eq_nil (run_text_of_not_isPrefix hif)]
      rfl
  rw [matchAt, hrun]
  cases hbraced : bracedIf U cur.rest with
  | none => rfl
  | some r =>
    obtain ⟨-, ws, ws', htext, -, -⟩ := bracedIf_eq_some_iff.1 hbraced
    have hshort : r.2.length < cur.rest.length := by
      rw [htext]
      simp only [List.length_append, List.length_cons]
      omega
    simp only [Option.map_some, hshort, if_true]

/-! ### Right matches and readable texts -/

/-- A match is at a keyword `if`, in code, and captures what stands between its parenthesis
and the one that matches it. -/
def RightMatch (U : Classes) (code before : Text) (m : Found) : Prop :=
  ∃ s ws cond ws', code = before ++ s ∧ BracedIf U s ws cond ws' m.cur.rest ∧
    (Mode.code.after before).isCode = true ∧ wordAt U before.getLast? = false ∧
    Balanced cond ∧ m.group? 1 = some cond

/-- A text in which every `if` with a later closing parenthesis before a brace, on the same
line, has that brace after its own parenthesis, and no such parenthesis inside; and in which
it is a keyword. `m` and `prev` are the mode and the character before the text. -/
inductive Readable (U : Classes) : Mode → Option Char → Text → Prop
  | nil (m : Mode) (prev : Option Char) : Readable U m prev []
  | skip {m : Mode} {prev : Option Char} {c : Char} {s : Text}
    (hno : ∀ body, ifBody U (c :: s) = some body → ∀ a b, body = a ++ ')' :: b → '\n' ∉ a →
      afterSpaces U '{' b = none)
    (hs : Readable U (m.step c) (some c) s) : Readable U m prev (c :: s)
  | braced {m : Mode} {prev : Option Char} {s ws cond ws' rest : Text}
    (htext : BracedIf U s ws cond ws' rest) (hmode : m.isCode = true)
    (hprev : wordAt U prev = false) (hcond : Balanced cond) (hinside : NoBraceInside U cond)
    (hrest : Readable U .code (some '{') rest) : Readable U m prev s

theorem firstBraced_eq_none_iff {body : Text} :
    firstBraced U body = none ↔
      ∀ a b, body = a ++ ')' :: b → '\n' ∉ a → afterSpaces U '{' b = none := by
  induction body with
  | nil => simp [firstBraced]
  | cons c s ih =>
    rw [firstBraced]
    split_ifs with hclose hline
    · refine iff_of_false ?_ fun h => ?_
      · obtain ⟨rest, hrest⟩ := Option.isSome_iff_exists.1 hclose.2
        simp [hrest]
      · have hnone := h [] s (by rw [hclose.1]; rfl) (by simp)
        rw [hnone] at hclose
        exact absurd hclose.2 (by simp)
    · refine iff_of_true rfl fun a b heq ha => ?_
      cases a with
      | nil =>
        rw [List.nil_append] at heq
        rw [(List.cons.inj heq).1] at hline
        exact absurd hline (by decide)
      | cons d a =>
        rw [List.cons_append] at heq
        rw [← (List.cons.inj heq).1, hline] at ha
        exact absurd List.mem_cons_self ha
    · rw [Option.map_eq_none_iff, ih]
      refine ⟨fun h a b heq ha => ?_, fun h a b heq ha => ?_⟩
      · cases a with
        | nil =>
          rw [List.nil_append] at heq
          obtain ⟨rfl, rfl⟩ := List.cons.inj heq
          simpa using hclose
        | cons d a =>
          rw [List.cons_append] at heq
          obtain ⟨rfl, rfl⟩ := List.cons.inj heq
          exact h a b rfl fun hmem => ha (List.mem_cons_of_mem _ hmem)
      · refine h (c :: a) b (by rw [heq, List.cons_append]) fun hmem => ?_
        exact (List.mem_cons.1 hmem).elim (fun hc => hline hc.symm) ha

theorem bracedIf_eq_none_iff {s : Text} :
    bracedIf U s = none ↔
      ∀ body, ifBody U s = some body → ∀ a b, body = a ++ ')' :: b → '\n' ∉ a →
        afterSpaces U '{' b = none := by
  rw [bracedIf, Option.bind_eq_none_iff]
  exact forall₂_congr fun body _ => firstBraced_eq_none_iff

/-- Spaces leave code as it is. -/
theorem step_space {m : Mode} (hm : m.isCode = true) {c : Char} (hc : U.isSpace c = true) :
    m.step c = .code := by
  refine Mode.step_plainChar hm ?_
  have hne {d : Char} (hd : U.isSpace d = false) : c ≠ d := by
    rintro rfl
    rw [hd] at hc
    cases hc
  simp only [Mode.plainChar, Bool.and_eq_true, bne_iff_ne]
  exact ⟨⟨⟨hne (isSpace_eq_false (by decide) (by decide)),
    hne (isSpace_eq_false (by decide) (by decide))⟩,
    hne (isSpace_eq_false (by decide) (by decide))⟩,
    hne (isSpace_eq_false (by decide) (by decide))⟩

theorem after_spaces {ws : Text} (h : ∀ c ∈ ws, U.isSpace c = true) : Mode.code.after ws = .code := by
  induction ws with
  | nil => rfl
  | cons c ws ih =>
    rw [Mode.after_cons, step_space rfl (h c List.mem_cons_self)]
    exact ih fun d hd => h d (List.mem_cons_of_mem c hd)

/-- After the brace of an `if` the text is in code again. -/
theorem after_bracedIf {m : Mode} (hm : m.isCode = true) {ws cond ws' : Text}
    (hws : ∀ c ∈ ws, U.isSpace c = true) (hws' : ∀ c ∈ ws', U.isSpace c = true)
    (hcond : Balanced cond) :
    m.after ("if".toList ++ (ws ++ '(' :: (cond ++ ')' :: (ws' ++ ['{'])))) = .code := by
  have hi : m.step 'i' = .code := Mode.step_plainChar hm (by decide)
  have hif : m.after "if".toList = .code := by
    change (m.step 'i').step 'f' = .code
    rw [hi]
    rfl
  rw [Mode.after_append, hif, Mode.after_append, after_spaces hws, Mode.after_cons,
    Mode.after_append]
  change ((Mode.code.after cond).step ')').after (ws' ++ ['{']) = .code
  rw [parens_mode hcond, Mode.after_append]
  change ((Mode.code.after ws').after ['{']) = .code
  rw [after_spaces hws']
  rfl

/-! ### The matches of a text -/

theorem readable_skip_iff {m : Mode} {prev : Option Char} {c : Char} {s : Text}
    (hnone : bracedIf U (c :: s) = none) :
    Readable U m prev (c :: s) ↔ Readable U (m.step c) (some c) s := by
  refine ⟨fun h => ?_, fun h => .skip (bracedIf_eq_none_iff.1 hnone) h⟩
  cases h with
  | skip hno hs => exact hs
  | braced htext hmode hprev hcond hinside hrest =>
    rw [bracedIf_eq_some_iff.2 ⟨hinside, _, _, htext⟩] at hnone
    cases hnone

theorem readable_braced_iff {m : Mode} {prev : Option Char} {s cond rest : Text}
    (hsome : bracedIf U s = some (cond, rest)) :
    Readable U m prev s ↔
      (m.isCode = true ∧ wordAt U prev = false ∧ Balanced cond) ∧
        Readable U .code (some '{') rest := by
  refine ⟨fun h => ?_, fun h => ?_⟩
  · cases h with
    | nil =>
      obtain ⟨-, ws, ws', htext, -, -⟩ := bracedIf_eq_some_iff.1 hsome
      simp at htext
    | skip hno hs =>
      rw [bracedIf_eq_none_iff.2 hno] at hsome
      cases hsome
    | braced htext hmode hprev hcond hinside hrest =>
      rw [bracedIf_eq_some_iff.2 ⟨hinside, _, _, htext⟩] at hsome
      obtain ⟨rfl, rfl⟩ := Prod.mk.inj (Option.some.inj hsome)
      exact ⟨⟨hmode, hprev, hcond⟩, hrest⟩
  · obtain ⟨hinside, ws, ws', htext⟩ := bracedIf_eq_some_iff.1 hsome
    exact .braced htext h.1.1 h.1.2.1 h.1.2.2 hinside h.2

theorem rightMatch_iff {before s cond rest : Text} (hsome : bracedIf U s = some (cond, rest)) :
    RightMatch U (before ++ s) before ⟨⟨some '{', rest⟩, [(1, cond)]⟩ ↔
      (Mode.code.after before).isCode = true ∧ wordAt U before.getLast? = false ∧
        Balanced cond := by
  refine ⟨?_, fun h => ?_⟩
  · rintro ⟨t, ws, cond', ws', -, -, hmode, hprev, hcond, hgroup⟩
    obtain rfl : cond = cond' := Option.some.inj hgroup
    exact ⟨hmode, hprev, hcond⟩
  · obtain ⟨-, ws, ws', htext⟩ := bracedIf_eq_some_iff.1 hsome
    exact ⟨s, ws, cond, ws', rfl, htext, h.1, h.2.1, h.2.2, rfl⟩

/-- All the text up to the brace of a match. -/
theorem BracedIf.take {s ws cond ws' rest : Text} (h : BracedIf U s ws cond ws' rest) :
    s.take (s.length - rest.length) =
      "if".toList ++ (ws ++ '(' :: (cond ++ ')' :: (ws' ++ ['{']))) ∧
    s.take (s.length - rest.length) ++ rest = s := by
  have hsplit : s = ("if".toList ++ (ws ++ '(' :: (cond ++ ')' :: (ws' ++ ['{'])))) ++ rest := by
    rw [h.text]
    simp only [List.append_assoc, List.cons_append, List.nil_append]
  have htake : s.take (s.length - rest.length) =
      "if".toList ++ (ws ++ '(' :: (cond ++ ')' :: (ws' ++ ['{']))) := by
    rw [hsplit, List.length_append, Nat.add_sub_cancel]
    exact List.take_left
  exact ⟨htake, by rw [htake, ← hsplit]⟩

theorem matchesFrom_right_iff {n : ℕ} {s : Text} (hn : s.length ≤ n) (before : Text) :
    (∀ p ∈ matchesFrom U (ifPattern U) n before ⟨before.getLast?, s⟩,
        RightMatch U (before ++ s) p.1 p.2) ↔
      Readable U (Mode.code.after before) before.getLast? s := by
  induction n generalizing before s with
  | zero =>
    obtain rfl := List.length_eq_zero_iff.1 (Nat.le_zero.1 hn)
    exact iff_of_true (by simp [matchesFrom]) (.nil _ _)
  | succ n ih =>
    rw [matchesFrom, matchAt_ifPattern]
    cases hbraced : bracedIf U s with
    | none =>
      cases s with
      | nil => exact iff_of_true (by simp) (.nil _ _)
      | cons c s =>
        have hrest := ih (Nat.le_of_succ_le_succ hn) (before ++ [c])
        rw [List.getLast?_concat, Mode.after_append, List.append_assoc] at hrest
        rw [readable_skip_iff hbraced]
        exact hrest
    | some r =>
      obtain ⟨cond, rest⟩ := r
      obtain ⟨-, ws, ws', htext⟩ := bracedIf_eq_some_iff.1 hbraced
      obtain ⟨htake, hwhole⟩ := htext.take
      have hlen : rest.length ≤ n := by
        have := congrArg List.length htext.text
        simp only [List.length_append, List.length_cons] at this
        omega
      simp only [Option.map_some, List.forall_mem_cons]
      rw [rightMatch_iff hbraced, readable_braced_iff hbraced]
      refine and_congr_right fun hright => ?_
      -- the text from the start to the brace is the new text before
      have hlast : (before ++ s.take (s.length - rest.length)).getLast? = some '{' := by
        have hconcat : before ++ ("if".toList ++ (ws ++ '(' :: (cond ++ ')' :: (ws' ++ ['{'])))) =
            before ++ ("if".toList ++ (ws ++ '(' :: (cond ++ ')' :: ws'))) ++ ['{'] := by
          simp only [List.append_assoc, List.cons_append]
        rw [htake, hconcat, List.getLast?_concat]
      have hmode : Mode.code.after (before ++ s.take (s.length - rest.length)) = .code := by
        rw [htake, Mode.after_append]
        exact after_bracedIf hright.1 htext.spaces htext.spaces' hright.2.2
      have hrest := ih hlen (before ++ s.take (s.length - rest.length))
      rw [hlast, hmode, List.append_assoc, hwhole] at hrest
      exact hrest

/-! ### The rewritten text -/

/-- The same text outside the conditions of some `if`s with braces, which are balanced in
both texts. -/
inductive SameStructure (U : Classes) : Text → Text → Prop
  | nil : SameStructure U [] []
  | char (c : Char) {s t : Text} (h : SameStructure U s t) : SameStructure U (c :: s) (c :: t)
  | condition {s ws cond ws' rest cond' t : Text} (htext : BracedIf U s ws cond ws' rest)
    (hcond : Balanced cond) (hcond' : Balanced cond') (h : SameStructure U rest t) :
    SameStructure U s ("if (".toList ++ cond' ++ ") \x7b".toList ++ t)

/-- Constants without quotes, comments and parentheses. -/
def PlainConsts : CExpr → Prop
  | .operand => True
  | .const t => Balanced t
  | .paren e | .not e => PlainConsts e
  | .and a b | .or a b | .xor a b | .add a b | .eq a b | .ne a b => PlainConsts a ∧ PlainConsts b

/-- An expression around a balanced text is balanced. -/
theorem balanced_text {s : Text} (hs : Balanced s) (e : CExpr) (he : PlainConsts e) :
    Balanced (e.text s) := by
  have hbinary {a b op : Text} (ha : Balanced a) (hop : Balanced op) (hb : Balanced b) :
      Balanced (a ++ op ++ b) := (ha.append hop).append hb
  induction e with
  | operand => exact hs
  | const t => exact he
  | paren e ih => exact (ih he).paren
  | not e ih => exact Balanced.append (s := ['!']) (by decide) (ih he)
  | and a b iha ihb => exact hbinary (iha he.1) (by decide) (ihb he.2)
  | or a b iha ihb => exact hbinary (iha he.1) (by decide) (ihb he.2)
  | xor a b iha ihb => exact hbinary (iha he.1) (by decide) (ihb he.2)
  | add a b iha ihb => exact hbinary (iha he.1) (by decide) (ihb he.2)
  | eq a b iha ihb => exact hbinary (iha he.1) (by decide) (ihb he.2)
  | ne a b iha ihb => exact hbinary (iha he.1) (by decide) (ihb he.2)

theorem plain_upperHexDigit : ∀ n < 16, Mode.plainChar (upperHexDigit n) = true ∧
    upperHexDigit n ≠ '(' ∧ upperHexDigit n ≠ ')' := by decide

theorem balanced_hex04 (n : Fin 0x10000) : Balanced (hex04 n) := by
  have hn := n.isLt
  refine balanced_of_plain fun c hc => ?_
  simp only [hex04, List.map_cons, List.map_nil, List.mem_cons, List.not_mem_nil, or_false] at hc
  obtain rfl | rfl | rfl | rfl | rfl | rfl := hc
  · decide
  · decide
  · exact plain_upperHexDigit _ (by omega)
  · exact plain_upperHexDigit _ (by omega)
  · exact plain_upperHexDigit _ (by omega)
  · exact plain_upperHexDigit _ (by omega)

theorem plainConsts_rewrittenExpr (draw : ConditionDraw) : PlainConsts (rewrittenExpr draw) := by
  obtain ⟨first, second, choice⟩ := draw
  have hzero : Balanced "0".toList := by decide
  have hdead : Balanced "0xDEAD".toList := by decide
  have hbeef : Balanced "0xBEEF".toList := by decide
  match choice with
  | 0 => exact ⟨trivial, balanced_hex04 first, hdead⟩
  | 1 => exact ⟨trivial, hzero, balanced_hex04 second, hbeef⟩
  | 2 => exact trivial
  | 3 => exact ⟨trivial, hzero⟩
  | 4 => exact ⟨⟨trivial, hzero⟩, hzero⟩

/-- Rewriting a readable text changes conditions only. -/
theorem sameStructure_scanWith (draws : ℕ → ConditionDraw) {n : ℕ} {m : Mode}
    {prev : Option Char} {s : Text} (hn : s.length ≤ n) (h : Readable U m prev s) :
    SameStructure U s (scanWith U (ifPattern U)
      (fun m => complexifyCondition (draws m.cur.rest.length) ((m.group? 1).getD []))
      (fun c => [c]) n ⟨prev, s⟩) := by
  induction n generalizing m prev s with
  | zero =>
    obtain rfl := List.length_eq_zero_iff.1 (Nat.le_zero.1 hn)
    exact .nil
  | succ n ih =>
    rw [scanWith, matchAt_ifPattern]
    cases hbraced : bracedIf U s with
    | none =>
      cases s with
      | nil => exact .nil
      | cons c s =>
        have hs := (readable_skip_iff hbraced).1 h
        exact .char c (ih (Nat.le_of_succ_le_succ hn) hs)
    | some r =>
      obtain ⟨cond, rest⟩ := r
      obtain ⟨-, ws, ws', htext⟩ := bracedIf_eq_some_iff.1 hbraced
      obtain ⟨⟨-, -, hcond⟩, hrest⟩ := (readable_braced_iff hbraced).1 h
      have hlen : rest.length ≤ n := by
        have := congrArg List.length htext.text
        simp only [List.length_append, List.length_cons] at this
        omega
      have hgroup : (Found.group? ⟨⟨some '{', rest⟩, [(1, cond)]⟩ 1).getD [] = cond := rfl
      simp only [Option.map_some, hgroup]
      rw [complexifyCondition_eq]
      exact .condition htext hcond
        (balanced_text hcond _ (plainConsts_rewrittenExpr (draws rest.length))) (ih hlen hrest)

/-- Every match of the pattern is a keyword `if` with its whole condition, and the rewritten
text has the structure of the original, exactly if the text is readable. -/
theorem conditions_found_iff (U : Classes) (draws : ℕ → ConditionDraw) (code : Text) :
    ((∀ p ∈ finditerStarts U (ifPattern U) code, RightMatch U code p.1 p.2) ∧
      SameStructure U code (complexifyConditions U draws code)) ↔
      Readable U .code none code := by
  have hmatches := matchesFrom_right_iff (U := U) (le_refl code.length) []
  rw [List.nil_append] at hmatches
  refine ⟨fun h => hmatches.1 h.1, fun h => ⟨hmatches.2 h, ?_⟩⟩
  exact sameStructure_scanWith draws le_rfl h

/-- Of an `if` without a brace and one with a brace after it, the first is found, with the
text up to the condition of the second. -/
theorem unbraced_if_swallows :
    complexifyConditions Sample.classes (fun _ => ⟨0, 0, 2⟩) "if(a)x();if(b)\x7b".toList =
      "if (!!(a)x();if(b)) \x7b".toList ∧
    ¬ ∀ p ∈ finditerStarts Sample.classes (ifPattern Sample.classes) "if(a)x();if(b)\x7b".toList,
      RightMatch Sample.classes "if(a)x();if(b)\x7b".toList p.1 p.2 := by
  have hfound : (finditerStarts Sample.classes (ifPattern Sample.classes)
      "if(a)x();if(b)\x7b".toList).map (fun p => p.2.group? 1) = [some "a)x();if(b".toList] := by
    decide +kernel
  refine ⟨by decide +kernel, fun h => ?_⟩
  obtain ⟨p, hp, hgroup⟩ := List.mem_map.1 (hfound ▸ List.mem_singleton_self _)
  obtain ⟨s, ws, cond, ws', -, -, -, -, hcond, hcaptured⟩ := h p hp
  rw [hgroup] at hcaptured
  obtain rfl := Option.some.inj hcaptured
  exact absurd hcond (by decide)

end Mesh.Obfuscator
