import MeshMessenger.Lib.CTokens

/-! What may be taken out of a C text without a change to its tokens: blanks and comments
between two tokens that do not run together, and line ends that end no directive. -/

namespace CLib.Lex

open Regex (Text Classes)

variable (U : Classes)

/-! ### Tokens that run together -/

def Pending.isCode : Pending → Bool
  | .gap | .word _ | .number _ | .punct _ => true
  | _ => false

/-- A text that directly follows what is pending goes on with it. -/
def joins (p : Pending) : Text → Bool
  | [] => false
  | c :: z =>
    match advance U p c with
    | some q => (release q).1.isEmpty || z.head?.any fun d => (advance U q d).isSome
    | none => (advance U (release p).2 c).isSome

variable {U}

theorem emit_append (l : LineKind) (ts us : List Text) :
    l.emit (ts ++ us) =
      ((l.emit ts).1 ++ ((l.emit ts).2.emit us).1, ((l.emit ts).2.emit us).2) := by
  induction ts generalizing l with
  | nil => rfl
  | cons t ts ih => simp only [List.cons_append, LineKind.emit, ih, List.append_assoc]

/-- All but two of the texts that start a punctuator are one themselves. -/
theorem release_cases (p : Pending) :
    p = .punct ['.', '.'] ∨ p = .punct ['%', ':', '%'] ∨ release p = ([], p) := by
  unfold release
  split
  · exact .inl rfl
  · exact .inr (.inl rfl)
  · exact .inr (.inr rfl)

theorem tokens_eq_release {p : Pending} (hp : p.isCode = true) :
    p.tokens = (release p).2.tokens.map ((release p).1 ++ ·) := by
  rcases release_cases p with rfl | rfl | h
  · rfl
  · rfl
  · rw [h]
    cases p.tokens <;> rfl

@[simp] theorem tokens_gap : Pending.gap.tokens = some [] := rfl

theorem feed_of_isCode {s : State} (hs : s.pending.isCode = true) (c : Char) :
    feed U s c = feedCode U s c := by
  obtain ⟨p, l⟩ := s
  cases p <;> first | rfl | cases hs

theorem feed_gap (l : LineKind) (c : Char) : feed U ⟨.gap, l⟩ c = start U l c := by
  have hstart : feed U ⟨.gap, l⟩ c = (start U l c).map fun r => (r.1, [] ++ ([] ++ r.2)) := rfl
  rw [hstart]
  cases start U l c <;> rfl

/-- A character that goes on with nothing ends the pending tokens. -/
theorem feed_of_advance_none {s : State} (hs : s.pending.isCode = true) {ts : List Text}
    (hts : s.pending.tokens = some ts) {c : Char} (hadv : advance U s.pending c = none)
    (hlast : advance U (release s.pending).2 c = none) :
    feed U s c =
      (start U (s.line.emit ts).2 c).map fun r => (r.1, (s.line.emit ts).1 ++ r.2) := by
  rw [tokens_eq_release hs] at hts
  obtain ⟨us, hus, rfl⟩ := Option.map_eq_some_iff.1 hts
  simp only [feed_of_isCode hs, feedCode, hadv, hlast, hus, emit_append, Option.bind_some,
    List.append_assoc]

theorem punct_of_advance {p : Pending} {c : Char} {v : Text}
    (h : advance U p c = some (.punct v)) : ∃ w, p = .punct w ∧ v = w ++ [c] := by
  cases p with
  | punct w =>
    rw [advance] at h
    split_ifs at h <;> cases h
    exact ⟨w, rfl, rfl⟩
  | word | number =>
    rw [advance] at h
    split_ifs at h <;> cases h
  | _ => cases h

theorem start_punct {c : Char} (hc : c = '.' ∨ c = '%' ∨ c = '#') (l : LineKind) :
    start U l c = some (⟨.punct [c], l⟩, []) := by
  have hdot : startsPunctuator ['.'] = true := by decide
  have hpercent : startsPunctuator ['%'] = true := by decide
  have hhash : startsPunctuator ['#'] = true := by decide
  rcases hc with rfl | rfl | rfl <;>
    simp [start, isSpace, isQuote, continues, identChar, hdot, hpercent, hhash, singleQuote,
      doubleQuote, backslash]

/-- The two ways in which a longer punctuator may not come about. -/
theorem released {w : Text} {c : Char} (h : (release (.punct (w ++ [c]))).1 ≠ []) :
    release (.punct (w ++ [c])) = ([w], .punct [c]) ∧ release (.punct [c]) = ([], .punct [c]) ∧
      release (.punct w) = ([], .punct w) ∧ (c = '.' ∨ c = '%') := by
  rcases release_cases (.punct (w ++ [c])) with hdot | hpercent | hrel
  · have hwc : w ++ [c] = ['.'] ++ ['.'] := Pending.punct.inj hdot
    obtain ⟨rfl, rfl⟩ := List.append_singleton_inj.1 hwc
    exact ⟨rfl, rfl, rfl, .inl rfl⟩
  · have hwc : w ++ [c] = ['%', ':'] ++ ['%'] := Pending.punct.inj hpercent
    obtain ⟨rfl, rfl⟩ := List.append_singleton_inj.1 hwc
    exact ⟨rfl, rfl, rfl, .inr rfl⟩
  · exact absurd (by rw [hrel]) h

/-- Where a longer punctuator does not come about, what it would have started with is given
back, and the last character stands by itself. -/
theorem lexFrom_release {w : Text} {c : Char} (hq : release (.punct (w ++ [c])) = ([w], .punct [c]))
    (hc : release (.punct [c]) = ([], .punct [c])) (l : LineKind) {z : Text}
    (hz : z.head?.any (fun d => (advance U (.punct (w ++ [c])) d).isSome) = false) :
    lexFrom U ⟨.punct (w ++ [c]), l⟩ z =
      (lexFrom U ⟨.punct [c], l.next w⟩ z).map (l.items w ++ ·) := by
  have hemit : l.emit [w] = (l.items w, l.next w) := by simp [LineKind.emit]
  have htokens : (Pending.punct [c]).tokens = some [[c]] := by simp [Pending.tokens, hc]
  cases z with
  | nil =>
    have htokens' : (Pending.punct (w ++ [c])).tokens = some [w, [c]] := by
      simp [Pending.tokens, hq]
    simp [lexFrom, finish, htokens, htokens', LineKind.emit]
  | cons d z =>
    have hd : advance U (.punct (w ++ [c])) d = none := by simpa using hz
    simp only [lexFrom, feed, feedCode, hd, hq, hc, hemit]
    cases hadv : advance U (.punct [c]) d with
    | some p => simp
    | none =>
      simp only [htokens, LineKind.emit, Option.bind_some, List.append_nil, List.nil_append]
      cases start U ((l.next w).next [c]) d with
      | none => rfl
      | some r => simp [Function.comp_def]

/-- Tokens that do not run together with what follows are read as if a blank stood there. -/
theorem lexFrom_of_not_joins {s : State} (hs : s.pending.isCode = true) {ts : List Text}
    (hts : s.pending.tokens = some ts) {z : Text} (h : joins U s.pending z = false) :
    lexFrom U s z =
      (lexFrom U ⟨.gap, (s.line.emit ts).2⟩ z).map ((s.line.emit ts).1 ++ ·) := by
  cases z with
  | nil => simp [lexFrom, finish, hts, LineKind.emit]
  | cons c z =>
    unfold joins at h
    cases hadv : advance U s.pending c with
    | none =>
      simp only [hadv, Option.isSome_eq_false_iff, Option.isNone_iff_eq_none] at h
      simp only [lexFrom, feed_of_advance_none hs hts hadv h, feed_gap]
      cases start U (s.line.emit ts).2 c with
      | none => rfl
      | some r => simp [Function.comp_def]
    | some q =>
      simp only [hadv, Bool.or_eq_false_iff, List.isEmpty_eq_false_iff] at h
      have hz : z.head?.any (fun d => (advance U q d).isSome) = false := h.2
      obtain ⟨w, hp, hw⟩ : ∃ w, s.pending = .punct w ∧ q = .punct (w ++ [c]) := by
        cases q with
        | punct v =>
          obtain ⟨w, hp, rfl⟩ := punct_of_advance hadv
          exact ⟨w, hp, rfl⟩
        | _ => exact absurd rfl h.1
      subst hw
      obtain ⟨hq, hc, hrel, hchar⟩ := released h.1
      have htokens : s.pending.tokens = some [w] := by simp [hp, Pending.tokens, hrel]
      obtain rfl : ts = [w] := Option.some.inj (hts.symm.trans htokens)
      obtain ⟨p, l⟩ := s
      obtain rfl : p = .punct w := hp
      have hemit : l.emit [w] = (l.items w, l.next w) := by simp [LineKind.emit]
      rw [lexFrom, lexFrom, feed_gap, start_punct (hchar.imp_right .inl), feed_of_isCode rfl, feedCode, hadv, hemit]
      simpa using lexFrom_release hq hc l hz

/-! ### Blanks -/

theorem isAlphanum_lt {c : Char} (h : c.isAlphanum = true) : c.toNat < 128 := by
  have hcases : (c.isUpper = true ∨ c.isLower = true) ∨ c.isDigit = true :=
    (Bool.or_eq_true_iff.1 h).imp_left Bool.or_eq_true_iff.1
  rcases hcases with (hupper | hlower) | hdigit
  · have hle := UInt32.le_iff_toNat_le.1 (of_decide_eq_true hupper).2
    exact lt_of_le_of_lt hle (by decide)
  · have hle := UInt32.le_iff_toNat_le.1 (of_decide_eq_true (Bool.and_eq_true_iff.1 hlower).2)
    exact lt_of_le_of_lt hle (by decide)
  · exact lt_of_le_of_lt (Char.isDigit_iff_toNat.1 hdigit).2 (by decide)

theorem not_isSpace_of_isAlphanum {c : Char} (h : c.isAlphanum = true) :
    U.isSpace c = false := by
  have hword : U.isWord c = true := by rw [U.isWord_ascii c (isAlphanum_lt h), h, Bool.true_or]
  by_contra hspace
  rw [Bool.not_eq_false] at hspace
  rw [U.not_word_of_space c hspace] at hword
  cases hword

/-- A printing character. -/
def isGraph (c : Char) : Bool := 32 < c.toNat && c.toNat < 128

theorem not_isSpace_of_isGraph {c : Char} (h : isGraph c = true) : U.isSpace c = false := by
  simp only [isGraph, Bool.and_eq_true, decide_eq_true_eq] at h
  have hspace : c ≠ ' ' := by
    rintro rfl
    exact absurd h.1 (by decide)
  rw [U.isSpace_ascii c h.2]
  simp [hspace]
  omega

theorem ne_of_isSpace {c d : Char} (hc : U.isSpace c = true) (hd : isGraph d = true) : c ≠ d := by
  rintro rfl
  rw [not_isSpace_of_isGraph hd] at hc
  cases hc

theorem continues_of_isSpace {c : Char} (hc : U.isSpace c = true) (w : Text) :
    continues U w c = false := by
  have halnum : c.isAlphanum = false := by
    by_contra h
    rw [not_isSpace_of_isAlphanum (by simpa using h)] at hc
    cases hc
  have hu := ne_of_isSpace hc (d := 'u') (by decide)
  have hU := ne_of_isSpace hc (d := 'U') (by decide)
  have hlow := ne_of_isSpace hc (d := '_') (by decide)
  have hback := ne_of_isSpace hc (d := backslash) (by decide)
  simp [continues, identChar, halnum, hu, hU, hlow, hback, hc]

theorem isGraph_of_startsPunctuator {w : Text} (h : startsPunctuator w = true) :
    ∀ c ∈ w, isGraph c = true := by
  have hall : punctuators.all (fun p => p.all isGraph) = true := by decide
  obtain ⟨p, hp, hpre⟩ := List.any_eq_true.1 h
  have hchars := List.all_eq_true.1 (List.all_eq_true.1 hall p hp)
  exact fun c hc => hchars c ((List.isPrefixOf_iff_prefix.1 hpre).subset hc)

theorem startsPunctuator_of_isSpace {c : Char} (hc : U.isSpace c = true) (w : Text) :
    startsPunctuator (w ++ [c]) = false := by
  by_contra h
  rw [Bool.not_eq_false] at h
  have hgraph := isGraph_of_startsPunctuator h c (by simp)
  rw [not_isSpace_of_isGraph hgraph] at hc
  cases hc

theorem isQuote_of_isSpace {c : Char} (hc : U.isSpace c = true) : isQuote c = false := by
  have hsingle := ne_of_isSpace hc (d := singleQuote) (by decide)
  have hdouble := ne_of_isSpace hc (d := doubleQuote) (by decide)
  simp [isQuote, hsingle, hdouble]

theorem isDigit_of_isSpace {c : Char} (hc : U.isSpace c = true) : c.isDigit = false := by
  by_contra h
  rw [Bool.not_eq_false] at h
  have halnum : c.isAlphanum = true := by rw [Char.isAlphanum, h, Bool.or_true]
  rw [not_isSpace_of_isAlphanum halnum] at hc
  cases hc

/-- A blank goes on with nothing. -/
theorem advance_of_isSpace {c : Char} (hc : U.isSpace c = true) (p : Pending) :
    advance U p c = none := by
  have hdot := ne_of_isSpace hc (d := '.') (by decide)
  have hplus := ne_of_isSpace hc (d := '+') (by decide)
  have hminus := ne_of_isSpace hc (d := '-') (by decide)
  have hslash := ne_of_isSpace hc (d := '/') (by decide)
  have hstar := ne_of_isSpace hc (d := '*') (by decide)
  cases p <;>
    simp [advance, continues_of_isSpace hc, isQuote_of_isSpace hc, signs, hdot, hplus, hminus,
      hslash, hstar, isDigit_of_isSpace hc, startsPunctuator_of_isSpace hc]

/-- The blanks of C are blanks of Python. -/
theorem isSpace_imp {c : Char} (hc : isSpace c = true) : U.isSpace c = true := by
  have hlt : c.toNat < 128 := by
    simp only [isSpace, Bool.or_eq_true, beq_iff_eq, Bool.and_eq_true, decide_eq_true_eq] at hc
    rcases hc with rfl | hc
    · decide
    · omega
  rw [U.isSpace_ascii c hlt]
  simp only [isSpace] at hc
  rw [hc, Bool.true_or]

/-- A blank that C does not know is no part of a program. -/
theorem start_of_isSpace {c : Char} (hc : U.isSpace c = true) (hnot : isSpace c = false)
    (l : LineKind) : start U l c = none := by
  have hnewline : c ≠ '\n' := by
    rintro rfl
    exact absurd hnot (by decide)
  have hless := ne_of_isSpace hc (d := '<') (by decide)
  have hdouble := ne_of_isSpace hc (d := doubleQuote) (by decide)
  have hpunct := startsPunctuator_of_isSpace hc []
  rw [List.nil_append] at hpunct
  simp [start, hnewline, hnot, hless, hdouble, isQuote_of_isSpace hc, isDigit_of_isSpace hc,
    continues_of_isSpace hc, hpunct]

theorem joins_of_isSpace {c : Char} (hc : U.isSpace c = true) (p : Pending) (z : Text) :
    joins U p (c :: z) = false := by
  simp [joins, advance_of_isSpace hc]

/-- What blanks make of a line, with the items they are read as. -/
def LineKind.past (l : LineKind) (w : Text) : List Item × LineKind :=
  if w.contains '\n' then (l.ending, .fresh) else ([], l)

theorem start_blank {c : Char} (hc : isSpace c = true) (l : LineKind) :
    start U l c = some (⟨.gap, (l.past [c]).2⟩, (l.past [c]).1) := by
  by_cases hnewline : c = '\n'
  · subst hnewline
    rfl
  · have hpast : l.past [c] = ([], l) := by simp [LineKind.past, Ne.symm hnewline]
    rw [hpast, start, if_neg hnewline, if_pos hc]

theorem past_cons (l : LineKind) (c : Char) (w : Text) :
    l.past (c :: w) =
      ((l.past [c]).1 ++ ((l.past [c]).2.past w).1, ((l.past [c]).2.past w).2) := by
  by_cases hc : c = '\n'
  · subst hc
    by_cases hw : '\n' ∈ w <;> simp [LineKind.past, hw, LineKind.ending]
  · by_cases hw : '\n' ∈ w <;> simp [LineKind.past, Ne.symm hc, hw]

theorem lexFrom_cons_eq_some {s : State} {c : Char} {x : Text} {items : List Item}
    (h : lexFrom U s (c :: x) = some items) :
    ∃ r rest, feed U s c = some r ∧ lexFrom U r.1 x = some rest ∧ items = r.2 ++ rest := by
  rw [lexFrom] at h
  obtain ⟨r, hr, hmap⟩ := Option.bind_eq_some_iff.1 h
  obtain ⟨rest, hrest, rfl⟩ := Option.map_eq_some_iff.1 hmap
  exact ⟨r, rest, hr, hrest, rfl⟩

variable (U) in
/-- The state after a text, with its items. -/
def feedAll : State → Text → Option (State × List Item)
  | s, [] => some (s, [])
  | s, c :: x => (feed U s c).bind fun r => (feedAll r.1 x).map fun q => (q.1, r.2 ++ q.2)

theorem lexFrom_append {s s' : State} {w : Text} {items : List Item}
    (h : feedAll U s w = some (s', items)) (z : Text) :
    lexFrom U s (w ++ z) = (lexFrom U s' z).map (items ++ ·) := by
  induction w generalizing s items with
  | nil =>
    cases h
    simp
  | cons c w ih =>
    rw [feedAll] at h
    obtain ⟨r, hr, hmap⟩ := Option.bind_eq_some_iff.1 h
    obtain ⟨⟨t, rest⟩, hrest, hpair⟩ := Option.map_eq_some_iff.1 hmap
    cases hpair
    rw [List.cons_append, lexFrom, hr, Option.bind_some, ih hrest]
    simp [Function.comp_def]

theorem feedAll_of_lexFrom {s : State} {w z : Text} {items : List Item}
    (h : lexFrom U s (w ++ z) = some items) :
    ∃ q rest, feedAll U s w = some q ∧ lexFrom U q.1 z = some rest ∧ items = q.2 ++ rest := by
  induction w generalizing s items with
  | nil => exact ⟨(s, []), items, rfl, h, rfl⟩
  | cons c w ih =>
    obtain ⟨r, rest, hr, hrest, rfl⟩ := lexFrom_cons_eq_some h
    obtain ⟨q, tail, hq, htail, rfl⟩ := ih hrest
    exact ⟨(q.1, r.2 ++ q.2), tail, by rw [feedAll, hr, Option.bind_some, hq]; rfl, htail, by simp⟩

theorem feedAll_gap_blanks {w : Text} (hw : ∀ c ∈ w, isSpace c = true) (l : LineKind) :
    feedAll U ⟨.gap, l⟩ w = some (⟨.gap, (l.past w).2⟩, (l.past w).1) := by
  induction w generalizing l with
  | nil => rfl
  | cons c w ih =>
    have hc := start_blank (U := U) (hw c List.mem_cons_self) l
    have hnext := ih (fun d hd => hw d (List.mem_cons_of_mem c hd)) (l.past [c]).2
    rw [feedAll, feed_gap, hc, Option.bind_some, hnext, past_cons l c w]
    rfl

/-- Blanks end what is pending. -/
theorem feedAll_blanks {s : State} (hs : s.pending.isCode = true) {ts : List Text}
    (hts : s.pending.tokens = some ts) {w : Text} (hw : ∀ c ∈ w, isSpace c = true)
    (hne : w ≠ []) :
    feedAll U s w = some (⟨.gap, ((s.line.emit ts).2.past w).2⟩,
      (s.line.emit ts).1 ++ ((s.line.emit ts).2.past w).1) := by
  obtain ⟨c, w, rfl⟩ := List.exists_cons_of_ne_nil hne
  have hc : U.isSpace c = true := isSpace_imp (hw c List.mem_cons_self)
  have hfeed := feed_of_advance_none hs hts (advance_of_isSpace hc _) (advance_of_isSpace hc _)
  have hgap := feedAll_gap_blanks (U := U) hw (s.line.emit ts).2
  rw [feedAll, feed_gap] at hgap
  obtain ⟨r, hr, hmap⟩ := Option.bind_eq_some_iff.1 hgap
  obtain ⟨q, hq, hpast⟩ := Option.map_eq_some_iff.1 hmap
  obtain ⟨hstate, hitems⟩ := Prod.mk.inj hpast
  rw [feedAll, hfeed, hr, Option.map_some, Option.bind_some, hq, Option.map_some, hstate, ← hitems,
    List.append_assoc]

/-- Blanks in a lexically valid text of code are blanks of C. -/
theorem blanks_of_lexFrom_gap {w z : Text} (hw : ∀ c ∈ w, U.isSpace c = true) {l : LineKind}
    {items : List Item} (h : lexFrom U ⟨.gap, l⟩ (w ++ z) = some items) :
    ∀ c ∈ w, isSpace c = true := by
  induction w generalizing l items with
  | nil => exact fun c hc => absurd hc List.not_mem_nil
  | cons c w ih =>
    rw [List.cons_append, lexFrom, feed_gap] at h
    cases hc : isSpace c with
    | false =>
      rw [start_of_isSpace (hw c List.mem_cons_self) hc] at h
      cases h
    | true =>
      rw [start_blank hc, Option.bind_some] at h
      obtain ⟨rest, hrest, -⟩ := Option.map_eq_some_iff.1 h
      have hall := ih (fun d hd => hw d (List.mem_cons_of_mem c hd)) hrest
      exact List.forall_mem_cons.2 ⟨hc, hall⟩

theorem tokens_of_feed {s : State} (hs : s.pending.isCode = true) {c : Char}
    (hadv : advance U s.pending c = none) (hlast : advance U (release s.pending).2 c = none)
    {r : State × List Item} (h : feed U s c = some r) : ∃ ts, s.pending.tokens = some ts := by
  simp only [feed_of_isCode hs, feedCode, hadv, hlast] at h
  obtain ⟨us, hus, -⟩ := Option.bind_eq_some_iff.1 h
  exact ⟨_, by rw [tokens_eq_release hs, hus, Option.map_some]⟩

theorem tokens_of_blank {s : State} (hs : s.pending.isCode = true) {c : Char}
    (hc : U.isSpace c = true) {z : Text} {items : List Item}
    (h : lexFrom U s (c :: z) = some items) : ∃ ts, s.pending.tokens = some ts := by
  rw [lexFrom] at h
  obtain ⟨r, hr, -⟩ := Option.bind_eq_some_iff.1 h
  exact tokens_of_feed hs (advance_of_isSpace hc _) (advance_of_isSpace hc _) hr

theorem blanks_of_lexFrom {s : State} (hs : s.pending.isCode = true) {w z : Text}
    (hw : ∀ c ∈ w, U.isSpace c = true) {items : List Item}
    (h : lexFrom U s (w ++ z) = some items) : ∀ c ∈ w, isSpace c = true := by
  cases w with
  | nil => exact fun c hc => absurd hc List.not_mem_nil
  | cons c w =>
    have hc := hw c List.mem_cons_self
    obtain ⟨ts, hts⟩ := tokens_of_blank hs hc h
    have hjoins : joins U s.pending (c :: w ++ z) = false := joins_of_isSpace hc _ _
    rw [lexFrom_of_not_joins hs hts hjoins] at h
    obtain ⟨rest, hrest, -⟩ := Option.map_eq_some_iff.1 h
    exact blanks_of_lexFrom_gap hw hrest

/-! ### What can be seen of a text -/

variable (U) in
def visible (z : Text) : Text := z.filter fun c => !U.isSpace c

@[simp] theorem visible_nil : visible U [] = [] := rfl

theorem visible_cons_of_isSpace {c : Char} (hc : U.isSpace c = true) (z : Text) :
    visible U (c :: z) = visible U z := List.filter_cons_of_neg (by simp [hc])

theorem visible_cons {c : Char} (hc : U.isSpace c = false) (z : Text) :
    visible U (c :: z) = c :: visible U z := List.filter_cons_of_pos (by simp [hc])

/-- What joins with a text also does without the blanks in it. -/
theorem joins_visible {p : Pending} {z : Text} (h : joins U p (visible U z) = false)
    : joins U p z = false := by
  cases z with
  | nil => rfl
  | cons c z =>
    cases hc : U.isSpace c with
    | true => exact joins_of_isSpace hc p z
    | false =>
      rw [visible_cons hc] at h
      unfold joins at h ⊢
      cases hadv : advance U p c with
      | none => simpa only [hadv] using h
      | some q =>
        simp only [hadv, Bool.or_eq_false_iff] at h ⊢
        refine ⟨h.1, ?_⟩
        cases z with
        | nil => rfl
        | cons d z =>
          cases hd : U.isSpace d with
          | true => simp [advance_of_isSpace hd]
          | false => simpa [visible_cons hd] using h.2

/-! ### Line ends -/

/-- What is read otherwise at the start of a line, or may be followed by such: a directive,
or a comment. -/
def opensLine : Text → Bool
  | '#' :: _ | '%' :: ':' :: _ | '/' :: '/' :: _ | '/' :: '*' :: _ => true
  | _ => false

def notHash : Text → Bool
  | c :: _ => c != '#' && c != '%'
  | [] => false

variable (U) in
/-- What is pending is neither the start of a directive nor a comment. -/
def Plain (p : Pending) (z : Text) : Prop :=
  match p with
  | .gap => opensLine (visible U z) = false
  | .punct w => w ≠ [] ∧ opensLine (w ++ visible U z) = false
  | .word w | .number w | .literal _ _ w | .header _ w => notHash w = true
  | .line | .block _ => False

theorem emit_fresh {t : Text} (ht : isHash t = false) (ts : List Text) :
    LineKind.emit .fresh (t :: ts) = LineKind.emit .code (t :: ts) := by
  simp [LineKind.emit, LineKind.items, LineKind.next, ht]

theorem notHash_append {w : Text} (h : notHash w = true) (z : Text) :
    notHash (w ++ z) = true := by
  cases w with
  | nil => cases h
  | cons c w => exact h

theorem isHash_of_notHash {w : Text} (h : notHash w = true) : isHash w = false := by
  cases w with
  | nil => cases h
  | cons c w =>
    simp only [notHash, Bool.and_eq_true, bne_iff_ne, ne_eq] at h
    simp [isHash, h.1, h.2]

theorem isHash_of_opensLine {w z : Text} (h : opensLine (w ++ z) = false) : isHash w = false := by
  by_contra hw
  simp only [isHash, Bool.not_eq_false, Bool.or_eq_true, beq_iff_eq] at hw
  rcases hw with rfl | rfl
  · simp [opensLine] at h
  · simp [opensLine] at h

theorem start_fresh {c : Char} {z : Text} (h : opensLine (visible U (c :: z)) = false) :
    start U .fresh c = start U .code c ∨
      ∃ q, Plain U q z ∧ start U .fresh c = some (⟨q, .fresh⟩, []) ∧
        start U .code c = some (⟨q, .code⟩, []) := by
  unfold start
  by_cases hnewline : c = '\n'
  · rw [if_pos hnewline, if_pos hnewline]
    exact .inl rfl
  simp only [if_neg hnewline, reduceCtorEq, false_and, if_false]
  by_cases hspace : isSpace c = true
  · rw [visible_cons_of_isSpace (isSpace_imp hspace)] at h
    rw [if_pos hspace, if_pos hspace]
    exact .inr ⟨.gap, h, rfl, rfl⟩
  simp only [if_neg hspace]
  by_cases hquote : isQuote c = true
  · simp only [if_pos hquote]
    refine .inr ⟨_, ?_, rfl, rfl⟩
    rcases Bool.or_eq_true .. ▸ hquote with hc | hc
    · rw [beq_iff_eq.1 hc]
      rfl
    · rw [beq_iff_eq.1 hc]
      rfl
  simp only [if_neg hquote]
  by_cases hdigit : c.isDigit = true
  · simp only [if_pos hdigit]
    refine .inr ⟨_, ?_, rfl, rfl⟩
    have hhash : c ≠ '#' := by
      rintro rfl
      exact absurd hdigit (by decide)
    have hpercent : c ≠ '%' := by
      rintro rfl
      exact absurd hdigit (by decide)
    simp [Plain, notHash, hhash, hpercent]
  simp only [if_neg hdigit]
  by_cases hword : continues U [] c = true
  · simp only [if_pos hword]
    refine .inr ⟨_, ?_, rfl, rfl⟩
    have hhash : c ≠ '#' := by
      rintro rfl
      simp [continues, identChar, backslash] at hword
    have hpercent : c ≠ '%' := by
      rintro rfl
      simp [continues, identChar, backslash] at hword
    simp [Plain, notHash, hhash, hpercent]
  simp only [if_neg hword]
  by_cases hpunct : startsPunctuator [c] = true
  · have hgraph := isGraph_of_startsPunctuator hpunct c (by simp)
    rw [visible_cons (not_isSpace_of_isGraph hgraph)] at h
    simp only [if_pos hpunct]
    exact .inr ⟨.punct [c], ⟨by simp, h⟩, rfl, rfl⟩
  · simp only [if_neg hpunct]
    exact .inl trivial

theorem plain_of_advance {p q : Pending} {c : Char} {z : Text} (h : Plain U p (c :: z))
    (hadv : advance U p c = some q) : Plain U q z := by
  cases p with
  | word w | number w =>
    rw [advance] at hadv
    split_ifs at hadv <;> cases hadv <;> exact notHash_append h [c]
  | punct w =>
    have hspace : U.isSpace c = false := by
      by_contra hc
      rw [advance_of_isSpace (by simpa using hc)] at hadv
      cases hadv
    obtain ⟨hne, hopen⟩ := h
    rw [visible_cons hspace] at hopen
    rw [advance] at hadv
    split_ifs at hadv with hline hblock hnumber hpunct
    · obtain ⟨rfl, rfl⟩ := hline
      simp [opensLine] at hopen
    · obtain ⟨rfl, rfl⟩ := hblock
      simp [opensLine] at hopen
    · cases hadv
      obtain ⟨rfl, -⟩ := hnumber
      rfl
    · cases hadv
      refine ⟨by simp, ?_⟩
      rwa [List.append_assoc, List.singleton_append]
  | _ => cases hadv

theorem feedCode_fresh {p : Pending} {c : Char} {t : Text} (hadv : advance U p c = none)
    (hrel : release p = ([], p)) (ht : p.tokens = none ∨ p.tokens = some [t])
    (hhash : isHash t = false) : feedCode U ⟨p, .fresh⟩ c = feedCode U ⟨p, .code⟩ c := by
  simp only [feedCode, hadv, hrel, LineKind.emit]
  rcases ht with ht | ht
  · rw [ht]
    rfl
  · rw [ht, Option.bind_some, Option.bind_some, emit_fresh hhash]

/-- A line that starts with a token of code goes on as if the line before had not ended. -/
theorem feed_fresh {p : Pending} {c : Char} {z : Text} (h : Plain U p (c :: z)) :
    feed U ⟨p, .fresh⟩ c = feed U ⟨p, .code⟩ c ∨
      ∃ q, Plain U q z ∧ feed U ⟨p, .fresh⟩ c = some (⟨q, .fresh⟩, []) ∧
        feed U ⟨p, .code⟩ c = some (⟨q, .code⟩, []) := by
  have hword : ∀ w : Text, (Pending.word w).tokens = none ∨ (Pending.word w).tokens = some [w] := by
    intro w
    simp only [Pending.tokens]
    split_ifs <;> simp
  by_cases hcode : p.isCode = true ∧ p ≠ .gap
  · cases hadv : advance U p c with
    | some q =>
      refine .inr ⟨q, plain_of_advance h hadv, ?_, ?_⟩
      · rw [feed_of_isCode hcode.1, feedCode, hadv]
      · rw [feed_of_isCode hcode.1, feedCode, hadv]
    | none =>
      left
      rw [feed_of_isCode hcode.1, feed_of_isCode hcode.1]
      cases p with
      | word w => exact feedCode_fresh hadv rfl (hword w) (isHash_of_notHash h)
      | number w => exact feedCode_fresh hadv rfl (hword w) (isHash_of_notHash h)
      | punct w =>
        rcases release_cases (.punct w) with hdot | hpercent | hrel
        · obtain rfl := Pending.punct.inj hdot
          have hemit : LineKind.emit .fresh [['.']] = LineKind.emit .code [['.']] := rfl
          simp only [feedCode, hadv, release, hemit]
        · obtain rfl := Pending.punct.inj hpercent
          have hopen := h.2
          simp [opensLine] at hopen
        · have ht : (Pending.punct w).tokens = some [w] := by simp [Pending.tokens, hrel]
          exact feedCode_fresh hadv hrel (.inr ht) (isHash_of_opensLine h.2)
      | gap => exact absurd rfl hcode.2
      | _ => cases hcode.1
  · cases p with
    | gap =>
      rw [feed_gap, feed_gap]
      exact start_fresh h
    | literal double escaped w =>
      have hnot : notHash (w ++ [c]) = true := notHash_append h [c]
      have hhash := isHash_of_notHash hnot
      simp only [feed]
      split_ifs
      · exact .inl rfl
      · left
        simp [LineKind.next, LineKind.items, hhash]
      · exact .inr ⟨.literal double _ (w ++ [c]), hnot, rfl, rfl⟩
    | header double w =>
      have hnot : notHash (w ++ [c]) = true := notHash_append h [c]
      have hhash := isHash_of_notHash hnot
      simp only [feed]
      split_ifs
      · exact .inl rfl
      · left
        simp [LineKind.next, LineKind.items, hhash]
      · exact .inr ⟨.header double (w ++ [c]), hnot, rfl, rfl⟩
    | line => cases h
    | block => cases h
    | _ => exact absurd ⟨rfl, by simp⟩ hcode

theorem lexFrom_fresh {p : Pending} {z : Text} (h : Plain U p z) :
    lexFrom U ⟨p, .fresh⟩ z = lexFrom U ⟨p, .code⟩ z := by
  induction z generalizing p with
  | nil =>
    simp only [lexFrom, finish]
    cases p with
    | gap => rfl
    | word w | number w =>
      simp only [Pending.tokens]
      split_ifs
      · rfl
      · rw [Option.map_some, Option.map_some, emit_fresh (isHash_of_notHash h)]
    | punct w =>
      rcases release_cases (.punct w) with hdot | hpercent | hrel
      · obtain rfl := Pending.punct.inj hdot
        rfl
      · obtain rfl := Pending.punct.inj hpercent
        have hopen := h.2
        simp [opensLine] at hopen
      · have ht : (Pending.punct w).tokens = some [w] := by simp [Pending.tokens, hrel]
        rw [ht, Option.map_some, Option.map_some, emit_fresh (isHash_of_opensLine h.2)]
    | literal | header => rfl
    | _ => cases h
  | cons c z ih =>
    rw [lexFrom, lexFrom]
    rcases feed_fresh h with heq | ⟨q, hq, hfresh, hcode⟩
    · rw [heq]
    · rw [hfresh, hcode, Option.bind_some, Option.bind_some, ih hq]

/-- Two number signs, which are one token and open no directive. -/
def doublesHash (z : Text) : Bool := "##".toList.isPrefixOf z || "%:%:".toList.isPrefixOf z

variable (U) in
/-- A text is read otherwise where a line starts than after a token of code. -/
def opensAfter (z : Text) : Bool :=
  opensLine (visible U z) && !doublesHash (z.dropWhile U.isSpace)

theorem advance_double {w : Text} (hw : w = "##".toList ∨ w = "%:%:".toList) (c : Char) :
    advance U (.punct w) c = none := by
  have hall : ∀ p ∈ punctuators, p.length ≤ 2 ∨ ¬ "##".toList <+: p := by decide
  have hlong : ∀ p ∈ punctuators, p.length ≤ 4 := by decide
  have hnone : startsPunctuator (w ++ [c]) = false := by
    by_contra h
    rw [Bool.not_eq_false] at h
    obtain ⟨p, hp, hpre⟩ := List.any_eq_true.1 h
    have hle := (List.isPrefixOf_iff_prefix.1 hpre).length_le
    rcases hw with rfl | rfl
    · rcases hall p hp with hlen | hnot
      · exact absurd (hle.trans hlen) (by simp)
      · exact hnot ((List.prefix_append _ _).trans (List.isPrefixOf_iff_prefix.1 hpre))
    · exact absurd (hle.trans (hlong p hp)) (by simp)
  have hslash : w ≠ ['/'] ∧ w ≠ ['.'] := by
    rcases hw with rfl | rfl <;> decide
  simp [advance, hnone, hslash.1, hslash.2]

/-- Where two number signs have been read, the line has a token. -/
theorem lexFrom_double {w : Text} (hw : w = "##".toList ∨ w = "%:%:".toList) (z : Text) :
    lexFrom U ⟨.punct w, .fresh⟩ z = lexFrom U ⟨.punct w, .code⟩ z := by
  have hrel : release (.punct w) = ([], .punct w) := by
    rcases hw with rfl | rfl <;> rfl
  have htokens : (Pending.punct w).tokens = some [w] := by simp [Pending.tokens, hrel]
  have hhash : isHash w = false := by
    rcases hw with rfl | rfl <;> decide
  cases z with
  | nil => rw [lexFrom, lexFrom, finish, finish, htokens, Option.map_some, Option.map_some,
      emit_fresh hhash]
  | cons c z =>
    have hfeed := feedCode_fresh (advance_double (U := U) hw c) hrel (.inr htokens) hhash
    rw [lexFrom, lexFrom, feed_of_isCode rfl, feed_of_isCode rfl, hfeed]

theorem lexFrom_doublesHash {z : Text} (h : doublesHash z = true) :
    lexFrom U ⟨.gap, .fresh⟩ z = lexFrom U ⟨.gap, .code⟩ z := by
  have hread {c : Char} (hc : c = '.' ∨ c = '%' ∨ c = '#') {w : Text} {q : Pending}
      (hw : ∀ l, feedAll U ⟨.punct [c], l⟩ w = some (⟨q, l⟩, [])) (l : LineKind) (t : Text) :
      lexFrom U ⟨.gap, l⟩ (c :: (w ++ t)) = lexFrom U ⟨q, l⟩ t := by
    rw [lexFrom, feed_gap, start_punct hc, Option.bind_some, lexFrom_append (hw l)]
    simp
  rcases Bool.or_eq_true .. ▸ h with hpre | hpre
  · obtain ⟨t, rfl⟩ := List.isPrefixOf_iff_prefix.1 hpre
    have hsharp : ∀ l, feedAll U ⟨.punct ['#'], l⟩ ['#'] = some (⟨.punct "##".toList, l⟩, []) := by
      intro l
      rfl
    exact (hread (.inr (.inr rfl)) hsharp _ t).trans ((lexFrom_double (.inl rfl) t).trans
      (hread (.inr (.inr rfl)) hsharp _ t).symm)
  · obtain ⟨t, rfl⟩ := List.isPrefixOf_iff_prefix.1 hpre
    have hpercent : ∀ l, feedAll U ⟨.punct ['%'], l⟩ [':', '%', ':'] =
        some (⟨.punct "%:%:".toList, l⟩, []) := by
      intro l
      rfl
    exact (hread (.inr (.inl rfl)) hpercent _ t).trans ((lexFrom_double (.inr rfl) t).trans
      (hread (.inr (.inl rfl)) hpercent _ t).symm)

/-- A line that opens no directive goes on as if the line before had not ended. -/
theorem lexFrom_of_not_opensAfter {z : Text} (h : opensAfter U z = false) :
    lexFrom U ⟨.gap, .fresh⟩ z = lexFrom U ⟨.gap, .code⟩ z := by
  rcases Bool.and_eq_false_iff.1 h with hopens | hdouble
  · exact lexFrom_fresh (p := .gap) hopens
  · have hdoubles : doublesHash (z.dropWhile U.isSpace) = true := by simpa using hdouble
    clear h hdouble
    induction z with
    | nil => rfl
    | cons c z ih =>
      cases hc : U.isSpace c with
      | false =>
        rw [List.dropWhile_cons_of_neg (by simp [hc])] at hdoubles
        exact lexFrom_doublesHash hdoubles
      | true =>
        rw [List.dropWhile_cons_of_pos hc] at hdoubles
        rw [lexFrom, lexFrom, feed_gap, feed_gap]
        cases hspace : isSpace c with
        | false => rw [start_of_isSpace hc hspace, start_of_isSpace hc hspace]
        | true =>
          rw [start_blank hspace, start_blank hspace, LineKind.past, LineKind.past]
          split_ifs
          · rfl
          · rw [Option.bind_some, Option.bind_some, ih hdoubles]

/-! ### Blanks that go -/

/-- Blanks at the end of a text end the directive there. -/
theorem lexFrom_invisible {z : Text} (h : visible U z = []) {rest : List Item}
    (hz : lexFrom U ⟨.gap, .fresh⟩ z = some rest) (l : LineKind) :
    lexFrom U ⟨.gap, l⟩ z = some (l.ending ++ rest) := by
  have hspace : ∀ c ∈ z, U.isSpace c = true := by
    intro c hc
    by_contra hnot
    have hmem : c ∈ visible U z := List.mem_filter.2 ⟨hc, by simpa using hnot⟩
    rw [h] at hmem
    cases hmem
  rw [← List.append_nil z] at hz ⊢
  have hblank := blanks_of_lexFrom_gap hspace hz
  have hfinish : ∀ l : LineKind, lexFrom U ⟨.gap, l⟩ [] = some l.ending := fun l => rfl
  rw [lexFrom_append (feedAll_gap_blanks hblank .fresh), hfinish, Option.map_some] at hz
  rw [lexFrom_append (feedAll_gap_blanks hblank l), hfinish, ← Option.some.inj hz, Option.map_some]
  unfold LineKind.past
  split_ifs <;> simp [LineKind.ending]

/-- Where blanks go that kept nothing apart and ended no directive, the tokens stay. -/
theorem lexFrom_of_gone {s : State} (hs : s.pending.isCode = true) {ts : List Text}
    (hts : s.pending.tokens = some ts) {w z : Text} {rest : List Item}
    (hz : lexFrom U ⟨.gap, ((s.line.emit ts).2.past w).2⟩ z = some rest)
    (hjoins : joins U s.pending z = false)
    (hline : '\n' ∈ w → visible U z = [] ∨ (s.line.emit ts).2 = .fresh ∨
      (s.line.emit ts).2 = .code ∧ opensAfter U z = false) :
    lexFrom U s z = some ((s.line.emit ts).1 ++ ((s.line.emit ts).2.past w).1 ++ rest) := by
  generalize hl : (s.line.emit ts).2 = l at hz hline ⊢
  have hgap : lexFrom U ⟨.gap, l⟩ z = some ((l.past w).1 ++ rest) := by
    unfold LineKind.past at hz ⊢
    split_ifs at hz ⊢ with hnewline
    · rcases hline (by simpa using hnewline) with hnone | rfl | ⟨rfl, hopens⟩
      · exact lexFrom_invisible hnone hz l
      · exact hz
      · rw [← lexFrom_of_not_opensAfter hopens]
        exact hz
    · exact hz
  rw [lexFrom_of_not_joins hs hts hjoins, hl, hgap, Option.map_some, List.append_assoc]

/-- Other blanks, with a line end where there was one, keep the tokens. -/
theorem lexFrom_of_kept {s : State} (hs : s.pending.isCode = true) {ts : List Text}
    (hts : s.pending.tokens = some ts) {w v z : Text} {rest : List Item}
    (hz : lexFrom U ⟨.gap, ((s.line.emit ts).2.past w).2⟩ z = some rest)
    (hv : ∀ c ∈ v, isSpace c = true) (hne : v ≠ []) (hnewline : '\n' ∈ v ↔ '\n' ∈ w) :
    lexFrom U s (v ++ z) = some ((s.line.emit ts).1 ++ ((s.line.emit ts).2.past w).1 ++ rest) := by
  have hpast : ∀ l : LineKind, l.past v = l.past w := by
    intro l
    simp [LineKind.past, hnewline]
  rw [lexFrom_append (feedAll_blanks hs hts hv hne), hpast, hz, Option.map_some]

end CLib.Lex
