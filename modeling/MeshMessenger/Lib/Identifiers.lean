import MeshMessenger.Lib.CText
import MeshMessenger.Lib.Words

/-! The identifiers of a C text: the words that stand in its code and are neither keywords
nor parts of numbers, literals or header names. -/

namespace CLib

open Regex

/-- Lines that end in a backslash are joined with the next. -/
def splice : Text → Text
  | c :: d :: rest => if c = backslash ∧ d = '\n' then splice rest else c :: splice (d :: rest)
  | s => s

/-- What the last character of a text of code belongs to. -/
inductive Lexeme where
  | other
  | word
  /-- A number; `exponent` after a letter that a sign may follow. -/
  | number (exponent : Bool)
deriving DecidableEq

namespace Lexeme

variable (U : Classes)

def start (c : Char) : Lexeme :=
  if c.isDigit then number false else if U.isWord c then word else other

def step : Lexeme → Char → Lexeme
  | number exponent, c =>
    if U.isWord c ∨ c = '.' then number ("eEpP".toList.contains c)
    else if exponent ∧ (c = '+' ∨ c = '-') then number false
    else start U c
  | word, c => if U.isWord c then word else start U c
  | other, c => start U c

def after (l : Lexeme) (s : Text) : Lexeme := s.foldl (step U) l

end Lexeme

def isBlank (c : Char) : Bool := c == ' ' || c == '\t'

/-- A text of one line ends within the header name of an `#include <...>`. -/
def inHeaderName (line : Text) : Bool :=
  match line.dropWhile isBlank with
  | '#' :: rest =>
    let rest := rest.dropWhile isBlank
    "include".toList.isPrefixOf rest &&
      match (rest.drop 7).dropWhile isBlank with
      | '<' :: name => !name.contains '>'
      | _ => false
  | _ => false

/-- The line that a text ends in. -/
def lastLine (s : Text) : Text := (s.reverse.takeWhile (· ≠ '\n')).reverse

def isQuote (c : Char) : Bool := c == singleQuote || c == doubleQuote

/-- What may stand before the quote of a literal. -/
def encodings : List Text := ["L", "u", "U", "u8"].map String.toList

/-- The word `w` stands between two texts as an identifier. -/
structure IdentifierAt (U : Classes) (keywords : List Text) (before w after : Text) : Prop where
  word : Regex.IsWord U w
  code : (Mode.code.after (splice before)).isCode = true
  alone : Lexeme.other.after U (splice before) = .other
  ends : wordAt U (splice after).head? = false
  digit : w.head?.any Char.isDigit = false
  keyword : keywords.contains w = false
  literal : (encodings.contains w && (splice after).head?.any isQuote) = false
  header : inHeaderName (lastLine (splice before)) = false

instance (U : Classes) (w : Text) : Decidable (Regex.IsWord U w) :=
  decidable_of_iff (w ≠ [] ∧ w.all U.isWord = true) (and_congr_right fun _ => List.all_eq_true)

instance (U : Classes) (keywords : List Text) (before w after : Text) :
    Decidable (IdentifierAt U keywords before w after) :=
  decidable_of_iff
    (Regex.IsWord U w ∧ (Mode.code.after (splice before)).isCode = true ∧
      Lexeme.other.after U (splice before) = .other ∧ wordAt U (splice after).head? = false ∧
      w.head?.any Char.isDigit = false ∧ keywords.contains w = false ∧
      (encodings.contains w && (splice after).head?.any isQuote) = false ∧
      inHeaderName (lastLine (splice before)) = false)
    ⟨fun ⟨h1, h2, h3, h4, h5, h6, h7, h8⟩ => ⟨h1, h2, h3, h4, h5, h6, h7, h8⟩,
      fun h => ⟨h.word, h.code, h.alone, h.ends, h.digit, h.keyword, h.literal, h.header⟩⟩

def cKeywords : List Text :=
  ["auto", "break", "case", "char", "const", "continue", "default", "do", "double", "else", "enum",
    "extern", "float", "for", "goto", "if", "inline", "int", "long", "register", "restrict",
    "return", "short", "signed", "sizeof", "static", "struct", "switch", "typedef", "union",
    "unsigned", "void", "volatile", "while", "_Alignas", "_Alignof", "_Atomic", "_Bool",
    "_Complex", "_Generic", "_Imaginary", "_Noreturn", "_Static_assert",
    "_Thread_local"].map String.toList

/-! ### The identifiers in their places -/

section Spots

variable (U : Classes)

/-- The words from a place on, each between what stands before it and after it, `cur` being
what has been read of the one it is in. -/
def spotsFrom : Text → Text → Text → List (Text × Text × Text)
  | before, cur, [] => if cur = [] then [] else [(before, cur, [])]
  | before, cur, c :: rest =>
    if U.isWord c then spotsFrom before (cur ++ [c]) rest
    else
      (if cur = [] then [] else [(before, cur, c :: rest)]) ++
        spotsFrom (before ++ (cur ++ [c])) [] rest

def spots (s : Text) : List (Text × Text × Text) := spotsFrom U [] [] s

/-- The identifiers of a text, each with whether an opening bracket follows and with its place
among the words. -/
def identifiers (keywords : List Text) (s : Text) : List ((Text × Bool) × ℕ) :=
  ((spots U s).zipIdx.filter fun p => IdentifierAt U keywords p.1.1 p.1.2.1 p.1.2.2).map
    fun p => ((p.1.2.1, isCall U p.1.2.2), p.2)

variable {U}

theorem usesFrom_eq_spotsFrom (before cur rest : Text) :
    usesFrom U cur rest = (spotsFrom U before cur rest).map fun p => (p.2.1, isCall U p.2.2) := by
  induction rest generalizing before cur with
  | nil =>
    rw [usesFrom, spotsFrom]
    split_ifs
    · rfl
    · rfl
  | cons c rest ih =>
    rw [usesFrom, spotsFrom]
    split_ifs
    · exact ih _ _
    · rw [List.nil_append, List.nil_append]
      exact ih _ _
    · rw [List.map_append, ← ih]
      rfl

/-- An identifier is the word that stands in its place. -/
theorem getElem?_uses_of_mem_identifiers {keywords : List Text} {s : Text}
    {o : (Text × Bool) × ℕ} (h : o ∈ identifiers U keywords s) : (uses U s)[o.2]? = some o.1 := by
  obtain ⟨p, hp, rfl⟩ := List.mem_map.1 h
  have hplace := List.mem_zipIdx_iff_getElem?.1 (List.mem_of_mem_filter hp)
  rw [uses, usesFrom_eq_spotsFrom [], List.getElem?_map, ← spots, hplace]
  rfl

end Spots

end CLib
