import MeshMessenger.Lib.Captures
import MeshMessenger.Lib.Words
import MeshMessenger.Obfuscator.ControlFlow

/-! When a rewritten condition keeps the truth value of the original one, and where in the
text that `obfuscate_control_flow` writes such conditions stand. -/

namespace Mesh.Obfuscator

open CLib Regex

/-! ### Reading the templates -/

theorem complexExprs_text (draw : ConditionDraw) (condition : Text) :
    (complexExprs draw).map (CExpr.text condition) = complexConditions draw condition := by
  simp [complexExprs, complexConditions, CExpr.text]

/-- The text between the parentheses of the rewritten `if`. -/
theorem complexifyCondition_eq (draw : ConditionDraw) (condition : Text) :
    complexifyCondition draw condition =
      "if (".toList ++ (rewrittenExpr draw).text condition ++ ") \x7b".toList := by
  have hlength : draw.choice.val < (complexExprs draw).length := draw.choice.isLt
  have hget : (complexConditions draw condition).getD draw.choice [] =
      (rewrittenExpr draw).text condition := by
    rw [← complexExprs_text, rewrittenExpr, List.getD_eq_getElem?_getD, List.getElem?_map,
      List.getD_eq_getElem?_getD, List.getElem?_eq_getElem hlength]
    rfl
  rw [complexifyCondition, hget]

theorem digitValue_upperHexDigit : ∀ n < 16, digitValue (upperHexDigit n) = n := by decide

theorem constantValue_hex04 (n : Fin 0x10000) : constantValue (hex04 n) = n := by
  have hn := n.isLt
  simp only [hex04, constantValue, ofDigitText, List.map_cons, List.map_nil, List.foldl_cons,
    List.foldl_nil]
  rw [digitValue_upperHexDigit _ (by omega), digitValue_upperHexDigit _ (by omega),
    digitValue_upperHexDigit _ (by omega), digitValue_upperHexDigit _ (by omega)]
  omega

/-! ### The text of the pass -/

/-- The text `out` is the text `code` in which conditions of `if` statements have been put into
the templates drawn for them. -/
inductive Rewritten (U : Classes) (draws : ℕ → ConditionDraw) : Text → Text → Prop
  | nil : Rewritten U draws [] []
  | kept {code out : Text} (c : Char) (h : Rewritten U draws code out) :
      Rewritten U draws (c :: code) (c :: out)
  | condition {code out : Text} (blanks condition blanks' : Text)
      (hblanks : ∀ c ∈ blanks ++ blanks', U.isSpace c = true) (hline : '\n' ∉ condition)
      (h : Rewritten U draws code out) :
      Rewritten U draws
        ("if".toList ++ (blanks ++ '(' :: (condition ++ ')' :: (blanks' ++ '{' :: code))))
        ("if (".toList ++ (rewrittenExpr (draws code.length)).text condition ++
          ") \x7b".toList ++ out)

section Pass

variable {U : Classes}

/-- What stands where the pattern of conditions matches, and what its group captures. -/
theorem ifPattern_match {cur : Cursor} {m : Found} (h : matchAt U (ifPattern U) cur = some m) :
    ∃ blanks condition blanks', (∀ c ∈ blanks ++ blanks', U.isSpace c = true) ∧
      '\n' ∉ condition ∧ m.group? 1 = some condition ∧ cur.rest =
        "if".toList ++ (blanks ++ '(' :: (condition ++ ')' :: (blanks' ++ '{' :: m.cur.rest))) := by
  have hrun := mem_run_of_matchAt h
  simp only [ifPattern, Re.cat, List.foldr_cons, List.foldr_nil, run_seq, List.mem_flatMap]
    at hrun
  obtain ⟨s1, h1, s2, h2, s3, h3, s4, h4, s5, h5, s6, h6, s7, h7, hm⟩ := hrun
  obtain rfl := List.mem_singleton.1 hm
  rw [run_group, List.mem_map] at h4
  obtain ⟨s, hs, rfl⟩ := h4
  -- the text, piece by piece
  obtain ⟨_, hif, rfl⟩ := takes_text _ _ _ h1
  obtain ⟨blanks, hblanks, hspace⟩ := takes_star_one _ _ _ h2
  obtain ⟨_, hopen, rfl⟩ := takes_char _ _ _ h3
  obtain ⟨condition, hcondition, hline⟩ := takes_lazyStar_one _ _ _ hs
  obtain ⟨_, hclose, rfl⟩ := takes_char _ _ _ h5
  obtain ⟨blanks', hblanks', hspace'⟩ := takes_star_one _ _ _ h6
  obtain ⟨_, hbrace, rfl⟩ := takes_char _ _ _ h7
  refine ⟨blanks, condition, blanks', List.forall_mem_append.2 ⟨hspace, hspace'⟩, ?_, ?_, ?_⟩
  · intro hnewline
    have hnot := hline _ hnewline
    simp at hnot
  · have hgroups : m.groups = (1, s3.cur.rest.take (s3.cur.rest.length - s.cur.rest.length)) ::
        s.groups := by
      have hchar (c : Char) : Groupless (.char c) := trivial
      have hspaces : Groupless (spaces U) := trivial
      rw [groups_of_groupless (hchar '{') s6 _ h7, groups_of_groupless hspaces s5 _ h6,
        groups_of_groupless (hchar ')') _ _ h5]
    rw [Found.group?, hgroups, List.lookup_cons_self, hcondition, List.length_append,
      Nat.add_sub_cancel, List.take_left' rfl]
  · rw [hif, hblanks, hopen, hcondition, hclose, hblanks', hbrace]
    rfl

/-- The first substitution of the pass puts conditions into their templates and leaves the
rest as it is. -/
theorem rewritten_subFrom (draws : ℕ → ConditionDraw) {n : ℕ} {cur : Cursor}
    (hn : cur.rest.length ≤ n) :
    Rewritten U draws cur.rest (subFrom U (ifPattern U)
      (fun m => complexifyCondition (draws m.cur.rest.length) ((m.group? 1).getD [])) cur) := by
  induction n generalizing cur with
  | zero =>
    obtain ⟨prev, rest⟩ := cur
    obtain rfl : rest = [] := List.length_eq_zero_iff.1 (Nat.le_zero.1 hn)
    exact .nil
  | succ n ih =>
    cases hmatch : matchAt U (ifPattern U) cur with
    | some m =>
      obtain ⟨blanks, condition, blanks', hblanks, hline, hgroup, hrest⟩ := ifPattern_match hmatch
      have hlt := matchAt_length_lt hmatch
      rw [subFrom_of_some hmatch, hgroup, Option.getD_some, complexifyCondition_eq, hrest]
      exact .condition blanks condition blanks' hblanks hline (ih (by omega))
    | none =>
      obtain ⟨prev, rest⟩ := cur
      cases rest with
      | nil => exact .nil
      | cons c rest =>
        rw [subFrom_of_none hmatch]
        have htail : (⟨some c, rest⟩ : Cursor).rest.length ≤ n := Nat.le_of_succ_le_succ hn
        exact .kept c (ih htail)

/-- A false branch, as the pass indents it. -/
def IsFalseBranch (line : Text) : Prop := ∃ r ∈ falseReturns, line = "    ".toList ++ r

theorem newline_notMem_falseBranch {line : Text} (h : IsFalseBranch line) : '\n' ∉ line := by
  obtain ⟨r, hr, rfl⟩ := h
  have hall : falseReturns.all (fun r => !("    ".toList ++ r).contains '\n') = true := rfl
  simpa using List.all_eq_true.1 hall r hr

theorem notMem_of_mem_splitOn {c : Char} {s line : Text} (h : line ∈ s.splitOn c) : c ∉ line := by
  induction s generalizing line with
  | nil =>
    rw [List.splitOn_nil, List.mem_singleton] at h
    simp [h]
  | cons d s ih =>
    obtain ⟨first, lines, hsplit⟩ := List.exists_cons_of_ne_nil (List.splitOn_ne_nil c s)
    rw [hsplit] at ih
    rw [List.splitOn_cons_eq_if_modifyHead] at h
    split_ifs at h with hd
    · rw [hsplit, List.mem_cons] at h
      rcases h with rfl | h
      · simp
      · exact ih h
    · rw [hsplit, List.modifyHead_cons, List.mem_cons] at h
      rcases h with rfl | h
      · simp only [List.mem_cons, not_or]
        exact ⟨fun heq => hd (by simp [heq]), ih List.mem_cons_self⟩
      · exact ih (List.mem_cons_of_mem first h)

/-- What is put after each item leaves the items in their order. -/
theorem map_sublist_flatMap {α β : Type} {f : α → β} {g : α → List β} (l : List α)
    (hg : ∀ x, ∃ extra, g x = f x :: extra) : (l.map f).Sublist (l.flatMap g) := by
  induction l with
  | nil => exact List.Sublist.slnil
  | cons x l ih =>
    obtain ⟨extra, hx⟩ := hg x
    rw [List.map_cons, List.flatMap_cons, hx, List.cons_append]
    exact (ih.trans (List.sublist_append_right extra _)).cons_cons (f x)

/-- The lines stay, in their order, and those that come between them are false branches. -/
theorem lines_addFalseReturns (returns : ℕ → Option (Fin 3)) (code : Text) :
    (code.splitOn '\n').Sublist ((addFalseReturns returns code).splitOn '\n') ∧
      ∀ line ∈ (addFalseReturns returns code).splitOn '\n',
        line ∈ code.splitOn '\n' ∨ IsFalseBranch line := by
  obtain ⟨step, hstep, hcode⟩ : ∃ step : Text × ℕ → List Text,
      (∀ p, ∃ extra, step p = p.1 :: extra ∧ ∀ line ∈ extra, IsFalseBranch line) ∧
      addFalseReturns returns code =
        ['\n'].intercalate ((code.splitOn '\n').zipIdx.flatMap step) := by
    refine ⟨_, fun ⟨line, i⟩ => ?_, rfl⟩
    dsimp only
    split_ifs
    · split
      · exact ⟨[], rfl, by simp⟩
      · rename_i k hk
        have hlength : k.val < falseReturns.length := k.isLt
        have hmem : falseReturns.getD k [] ∈ falseReturns := by
          rw [List.getD_eq_getElem?_getD, List.getElem?_eq_getElem hlength]
          exact List.getElem_mem hlength
        exact ⟨_, rfl, List.forall_mem_singleton.2 ⟨_, hmem, rfl⟩⟩
    · exact ⟨[], rfl, by simp⟩
  have hlines : (code.splitOn '\n').Sublist ((code.splitOn '\n').zipIdx.flatMap step) := by
    have hsub := map_sublist_flatMap (f := Prod.fst) (g := step) (code.splitOn '\n').zipIdx
      fun p => (hstep p).imp fun _ h => h.1
    rwa [List.zipIdx_map_fst] at hsub
  have hmem : ∀ line ∈ (code.splitOn '\n').zipIdx.flatMap step,
      line ∈ code.splitOn '\n' ∨ IsFalseBranch line := by
    intro line hline
    obtain ⟨p, hp, hline⟩ := List.mem_flatMap.1 hline
    obtain ⟨extra, heq, hextra⟩ := hstep p
    rw [heq, List.mem_cons] at hline
    rcases hline with rfl | hline
    · exact .inl (List.fst_mem_of_mem_zipIdx hp)
    · exact .inr (hextra line hline)
  have hsplit : (addFalseReturns returns code).splitOn '\n' =
      (code.splitOn '\n').zipIdx.flatMap step := by
    rw [hcode]
    refine List.splitOn_intercalate _ (fun line hline => ?_) ?_
    · rcases hmem line hline with hline | hline
      · exact notMem_of_mem_splitOn hline
      · exact newline_notMem_falseBranch hline
    · intro hnil
      rw [hnil] at hlines
      exact List.splitOn_ne_nil _ _ (List.sublist_nil.1 hlines)
  rw [hsplit]
  exact ⟨hlines, hmem⟩

/-- The text that `obfuscate_control_flow` writes: the lines of a text in which conditions are
in their templates, and false branches between them. -/
theorem obfuscateControlFlow_text (draws : ℕ → ConditionDraw) (returns : ℕ → Option (Fin 3))
    (code : Text) :
    ∃ rewritten, Rewritten U draws code rewritten ∧
      (rewritten.splitOn '\n').Sublist
        ((obfuscateControlFlow U draws returns code).splitOn '\n') ∧
      ∀ line ∈ (obfuscateControlFlow U draws returns code).splitOn '\n',
        line ∈ rewritten.splitOn '\n' ∨ IsFalseBranch line := by
  have hrewritten := rewritten_subFrom (U := U) draws (le_refl (⟨none, code⟩ : Cursor).rest.length)
  exact ⟨complexifyConditions U draws code, hrewritten, lines_addFalseReturns returns _⟩

end Pass

/-! ### Their values -/

section Templates

variable (first second : Fin 0x10000) (v : CInt)

theorem eval_zero : (CExpr.const "0".toList).eval v = .int 0 := rfl

theorem not_zero_nonZero : ¬ (CInt.int 0).NonZero := by decide

theorem and_template_iff :
    ((rewrittenExpr ⟨first, second, 0⟩).eval v).NonZero ↔
      v.NonZero ∧ first.val ≠ 0xDEAD := by
  have hfirst := first.isLt
  have hdead : constantValue "0xDEAD".toList = 0xDEAD := by decide
  have hsame : ((CExpr.const (hex04 first)).eval v).same
      ((CExpr.const "0xDEAD".toList).eval v) ↔ first.val = 0xDEAD := by
    rw [CExpr.eval, CExpr.eval, constantValue_hex04, hdead]
    exact CInt.same_int_iff (by omega) (by omega)
  rw [show rewrittenExpr ⟨first, second, 0⟩ = .and (.paren .operand)
    (.paren (.ne (.const (hex04 first)) (.const "0xDEAD".toList))) from rfl]
  rw [CExpr.and_nonZero_iff, CExpr.eval_paren, CExpr.eval_paren, CExpr.eval_operand,
    CExpr.ne_nonZero_iff, hsame]

theorem or_template_iff :
    ((rewrittenExpr ⟨first, second, 1⟩).eval v).NonZero ↔ v.NonZero := by
  rw [show rewrittenExpr ⟨first, second, 1⟩ = .or (.paren .operand) (.paren (.and
    (.const "0".toList) (.paren (.eq (.const (hex04 second)) (.const "0xBEEF".toList)))))
    from rfl]
  simp [eval_zero, not_zero_nonZero, -String.reduceToList]

theorem not_template_iff :
    ((rewrittenExpr ⟨first, second, 2⟩).eval v).NonZero ↔ v.NonZero := by
  rw [show rewrittenExpr ⟨first, second, 2⟩ = .not (.not (.paren .operand)) from rfl]
  simp

theorem xor_template_iff :
    ((rewrittenExpr ⟨first, second, 3⟩).eval v).NonZero ↔ v.NonZero :=
  CExpr.xor_nonZero_iff (eval_zero v)

theorem add_template_iff :
    ((rewrittenExpr ⟨first, second, 4⟩).eval v).NonZero ↔ v.NonZero := by
  rw [show rewrittenExpr ⟨first, second, 4⟩ = .ne (.paren (.add (.paren .operand)
    (.const "0".toList))) (.const "0".toList) from rfl]
  rw [CExpr.ne_nonZero_iff, eval_zero, CInt.same_zero_iff, not_not, CExpr.eval_paren,
    CExpr.add_nonZero_iff (eval_zero v)]
  rfl

end Templates

/-- The rewritten condition, as it is written in the new source, is non-zero exactly when the
original one is, unless the first template is chosen with 0xDEAD as its number and the
condition is true. -/
theorem complexify_keeps_truth_iff (draw : ConditionDraw) (condition : Text) (v : CInt) :
    complexifyCondition draw condition =
      "if (".toList ++ (rewrittenExpr draw).text condition ++ ") \x7b".toList ∧
    ((((rewrittenExpr draw).eval v).NonZero ↔ v.NonZero) ↔
      ¬ (draw.choice = 0 ∧ draw.first.val = 0xDEAD ∧ v.NonZero)) := by
  refine ⟨complexifyCondition_eq draw condition, ?_⟩
  obtain ⟨first, second, choice⟩ := draw
  match choice with
  | 0 =>
    rw [and_template_iff]
    tauto
  | 1 => exact iff_of_true (or_template_iff first second v) (by simp)
  | 2 => exact iff_of_true (not_template_iff first second v) (by simp)
  | 3 => exact iff_of_true (xor_template_iff first second v) (by simp)
  | 4 => exact iff_of_true (add_template_iff first second v) (by simp)

/-- A condition with the value 1, in the first template with the number 0xDEAD. -/
theorem dead_condition :
    complexifyCondition ⟨0xDEAD, 0, 0⟩ "x > 0".toList =
      "if ((x > 0) && (0xDEAD != 0xDEAD)) \x7b".toList ∧
    (CInt.int 1).NonZero ∧ ¬ ((rewrittenExpr ⟨0xDEAD, 0, 0⟩).eval (.int 1)).NonZero := by
  refine ⟨by decide, by decide, by decide⟩

end Mesh.Obfuscator
