import MeshMessenger.Lib.Regex

/-! Where the characters of a C text stand: in code, in a literal or in a comment. Only the
parentheses that stand in code have to match. -/

namespace CLib

open Regex (Text)

inductive Mode where
  | code
  /-- In code, after a slash. -/
  | slash
  /-- In a literal that ends with the given quote; `escaped` after a backslash. -/
  | literal (quote : Char) (escaped : Bool)
  | line
  /-- In a block comment; `star` after an asterisk. -/
  | block (star : Bool)
deriving DecidableEq

def singleQuote : Char := Char.ofNat 39

def doubleQuote : Char := Char.ofNat 34

def backslash : Char := Char.ofNat 92

namespace Mode

def isCode : Mode → Bool
  | code | slash => true
  | _ => false

/-- After a character of code. -/
def ofChar (c : Char) : Mode :=
  if c = '/' then slash
  else if c = singleQuote ∨ c = doubleQuote then literal c false
  else code

def step : Mode → Char → Mode
  | code, c => ofChar c
  | slash, c => if c = '/' then line else if c = '*' then block false else ofChar c
  | literal quote true, _ => literal quote false
  | literal quote false, c =>
    if c = backslash then literal quote true else if c = quote then code else literal quote false
  | line, c => if c = '\n' then code else line
  | block star, c => if star ∧ c = '/' then code else block (c == '*')

def after (m : Mode) (s : Text) : Mode := s.foldl step m

@[simp] theorem after_nil (m : Mode) : m.after [] = m := rfl

@[simp] theorem after_cons (m : Mode) (c : Char) (s : Text) :
    m.after (c :: s) = (m.step c).after s := rfl

theorem after_append (m : Mode) (s t : Text) : m.after (s ++ t) = (m.after s).after t :=
  List.foldl_append

/-- A character that opens no literal and no comment. -/
def plainChar (c : Char) : Bool := c != '/' && c != singleQuote && c != doubleQuote && c != '*'

theorem step_plainChar {m : Mode} (hm : m.isCode = true) {c : Char} (hc : plainChar c = true) :
    m.step c = code := by
  simp only [plainChar, Bool.and_eq_true, bne_iff_ne, ne_eq] at hc
  obtain ⟨⟨⟨hslash, hsingle⟩, hdouble⟩, hstar⟩ := hc
  cases m with
  | code => simp [step, ofChar, hslash, hsingle, hdouble]
  | slash => simp [step, ofChar, hslash, hsingle, hdouble, hstar]
  | _ => cases hm

end Mode

/-! ### Parentheses -/

/-- The mode and the depth of parentheses after a text, unless one is closed that the text
did not open. -/
def parens : Mode → ℕ → Text → Option (Mode × ℕ)
  | m, depth, [] => some (m, depth)
  | m, depth, c :: s =>
    if m.isCode ∧ c = '(' then parens (m.step c) (depth + 1) s
    else if m.isCode ∧ c = ')' then
      if depth = 0 then none else parens (m.step c) (depth - 1) s
    else parens (m.step c) depth s

/-- A text in which every parenthesis of code has its match, and every literal and comment
its end. -/
def Balanced (s : Text) : Prop := parens .code 0 s = some (.code, 0)

instance (s : Text) : Decidable (Balanced s) := inferInstanceAs (Decidable (_ = _))

theorem parens_append (m : Mode) (depth : ℕ) (s t : Text) :
    parens m depth (s ++ t) = (parens m depth s).bind fun r => parens r.1 r.2 t := by
  induction s generalizing m depth with
  | nil => rfl
  | cons c s ih =>
    rw [List.cons_append, parens, parens]
    split_ifs
    · exact ih _ _
    · rfl
    · exact ih _ _
    · exact ih _ _

theorem parens_mode {m m' : Mode} {depth depth' : ℕ} {s : Text}
    (h : parens m depth s = some (m', depth')) : m.after s = m' := by
  induction s generalizing m depth with
  | nil => exact (Prod.mk.inj (Option.some.inj h)).1
  | cons c s ih =>
    rw [parens] at h
    rw [Mode.after_cons]
    split_ifs at h
    · exact ih h
    · exact ih h
    · exact ih h

/-- More open parentheses around a text change nothing in it. -/
theorem parens_add {m m' : Mode} {depth depth' : ℕ} {s : Text}
    (h : parens m depth s = some (m', depth')) (k : ℕ) :
    parens m (depth + k) s = some (m', depth' + k) := by
  induction s generalizing m depth with
  | nil =>
    obtain ⟨rfl, rfl⟩ := Prod.mk.inj (Option.some.inj h)
    rfl
  | cons c s ih =>
    rw [parens] at h ⊢
    split_ifs at h with hopen hclose hdepth
    · have hnext := ih h
      rw [if_pos hopen]
      rwa [Nat.add_right_comm] at hnext
    · have hnext := ih h
      rw [if_neg hopen, if_pos hclose, if_neg (by omega)]
      rwa [← Nat.sub_add_comm (by omega : 1 ≤ depth)] at hnext
    · rw [if_neg hopen, if_neg hclose]
      exact ih h

theorem Balanced.append {s t : Text} (hs : Balanced s) (ht : Balanced t) : Balanced (s ++ t) := by
  rw [Balanced, parens_append, hs]
  exact ht

theorem Balanced.paren {s : Text} (hs : Balanced s) : Balanced ('(' :: s ++ [')']) := by
  have hinner := parens_add hs 1
  rw [Balanced, List.cons_append, parens, if_pos ⟨rfl, rfl⟩, parens_append]
  exact (congrArg (Option.bind · _) hinner).trans rfl

/-- Text without parentheses, literals and comments. -/
theorem balanced_of_plain {s : Text}
    (h : ∀ c ∈ s, Mode.plainChar c = true ∧ c ≠ '(' ∧ c ≠ ')') : Balanced s := by
  induction s with
  | nil => rfl
  | cons c s ih =>
    obtain ⟨hplain, hopen, hclose⟩ := h c List.mem_cons_self
    rw [Balanced, parens, if_neg (by simp [hopen]), if_neg (by simp [hclose]),
      Mode.step_plainChar rfl hplain]
    exact ih fun d hd => h d (List.mem_cons_of_mem c hd)

end CLib
