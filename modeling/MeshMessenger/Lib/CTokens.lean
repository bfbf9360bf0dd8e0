import MeshMessenger.Lib.Identifiers

/-! The tokens of a C text. The lexer reads a text whose lines are joined, takes the longest
token it can, and also says where a directive starts and where its line ends. -/

namespace CLib.Lex

open Regex (Text Classes)

inductive Item where
  | token (t : Text)
  | directive
  | lineEnd
deriving DecidableEq

/-- What has been read of a token or of a comment. -/
inductive Pending where
  | gap
  | word (w : Text)
  | number (w : Text)
  | punct (w : Text)
  /-- A literal in double or single quotes; `escaped` after a backslash. -/
  | literal (double : Bool) (escaped : Bool) (w : Text)
  /-- The name after `include`, in double quotes or in angle brackets. -/
  | header (double : Bool) (w : Text)
  | line
  /-- A block comment; `star` after an asterisk. -/
  | block (star : Bool)
deriving DecidableEq

/-- What stands on a line before the token that is read. -/
inductive LineKind where
  | fresh
  | code
  /-- The number sign of a directive. -/
  | hash
  /-- A directive up to `include`. -/
  | incl
  | directive
deriving DecidableEq

structure State where
  pending : Pending
  line : LineKind
deriving DecidableEq

variable (U : Classes)

/-! ### Tokens -/

def isSpace (c : Char) : Bool := c == ' ' || (9 ≤ c.toNat && c.toNat ≤ 13)

def identChar (c : Char) : Bool :=
  c.isAlphanum || c == '_' || (128 ≤ c.toNat && !U.isSpace c)

/-- A character that goes on with a word; a backslash in it starts a universal character
name. -/
def continues (w : Text) (c : Char) : Bool :=
  if w.getLast? = some backslash then c == 'u' || c == 'U' else identChar U c || c == backslash

def signs (w : Text) (c : Char) : Bool :=
  (c == '+' || c == '-') && w.getLast?.any "eEpP".toList.contains

def punctuators : List Text :=
  ["[", "]", "(", ")", "\x7b", "\x7d", ".", "->", "++", "--", "&", "*", "+", "-", "~", "!", "/",
    "%", "<<", ">>", "<", ">", "<=", ">=", "==", "!=", "^", "|", "&&", "||", "?", ":", ";", "...",
    "=", "*=", "/=", "%=", "+=", "-=", "<<=", ">>=", "&=", "^=", "|=", ",", "#", "##", "<:", ":>",
    "<%", "%>", "%:", "%:%:"].map String.toList

def startsPunctuator (w : Text) : Bool := punctuators.any w.isPrefixOf

/-- A character that goes on with what is pending. -/
def advance : Pending → Char → Option Pending
  | .word w, c =>
    if continues U w c then some (.word (w ++ [c]))
    else if isQuote c ∧ encodings.contains w then some (.literal (c == doubleQuote) false (w ++ [c]))
    else none
  | .number w, c =>
    if continues U w c ∨ (c = '.' ∧ w.getLast? ≠ some backslash) ∨ signs w c then
      some (.number (w ++ [c]))
    else none
  | .punct w, c =>
    if w = ['/'] ∧ c = '/' then some .line
    else if w = ['/'] ∧ c = '*' then some (.block false)
    else if w = ['.'] ∧ c.isDigit then some (.number (w ++ [c]))
    else if w ≠ [] ∧ startsPunctuator (w ++ [c]) then some (.punct (w ++ [c]))
    else none
  | _, _ => none

/-- The tokens that are over where two characters more would have made a longer one, and
what is pending after them. -/
def release : Pending → List Text × Pending
  | .punct ['.', '.'] => ([['.']], .punct ['.'])
  | .punct ['%', ':', '%'] => ([['%', ':']], .punct ['%'])
  | p => ([], p)

/-- What is pending, as tokens, unless something of it is still to come. -/
def Pending.tokens : Pending → Option (List Text)
  | .gap | .line => some []
  | .word w | .number w => if w.getLast? = some backslash then none else some [w]
  | .punct w => some ((release (.punct w)).1 ++
      match (release (.punct w)).2 with | .punct v => [v] | _ => [])
  | .literal .. | .header .. | .block _ => none

/-! ### Lines -/

def isHash (t : Text) : Bool := t == ['#'] || t == ['%', ':']

def LineKind.items (l : LineKind) (t : Text) : List Item :=
  if l = .fresh ∧ isHash t then [.directive, .token t] else [.token t]

def LineKind.next : LineKind → Text → LineKind
  | .fresh, t => if isHash t then .hash else .code
  | .code, _ => .code
  | .hash, t => if t = "include".toList then .incl else .directive
  | .incl, _ | .directive, _ => .directive

def LineKind.ending : LineKind → List Item
  | .fresh | .code => []
  | .hash | .incl | .directive => [.lineEnd]

/-- The items of tokens on a line, and the line after them. -/
def LineKind.emit : LineKind → List Text → List Item × LineKind
  | l, [] => ([], l)
  | l, t :: ts => (l.items t ++ ((l.next t).emit ts).1, ((l.next t).emit ts).2)

/-! ### The lexer -/

/-- A character where no token is pending. -/
def start (l : LineKind) (c : Char) : Option (State × List Item) :=
  if c = '\n' then some (⟨.gap, .fresh⟩, l.ending)
  else if isSpace c then some (⟨.gap, l⟩, [])
  else if l = .incl ∧ (c = '<' ∨ c = doubleQuote) then
    some (⟨.header (c == doubleQuote) [c], l⟩, [])
  else if isQuote c then some (⟨.literal (c == doubleQuote) false [c], l⟩, [])
  else if c.isDigit then some (⟨.number [c], l⟩, [])
  else if continues U [] c then some (⟨.word [c], l⟩, [])
  else if startsPunctuator [c] then some (⟨.punct [c], l⟩, [])
  else none

/-- A character of code. -/
def feedCode (s : State) (c : Char) : Option (State × List Item) :=
  match advance U s.pending c with
  | some p => some (⟨p, s.line⟩, [])
  | none =>
    let (done, last) := release s.pending
    let (items, l) := s.line.emit done
    match advance U last c with
    | some p => some (⟨p, l⟩, items)
    | none =>
      last.tokens.bind fun ts =>
        (start U (l.emit ts).2 c).map fun r => (r.1, items ++ ((l.emit ts).1 ++ r.2))

def literalEnd (double : Bool) : Char := if double then doubleQuote else singleQuote

def headerEnd (double : Bool) : Char := if double then doubleQuote else '>'

def feed (s : State) (c : Char) : Option (State × List Item) :=
  match s.pending with
  | .literal double escaped w =>
    if c = '\n' then none
    else if !escaped ∧ c = literalEnd double then
      some (⟨.gap, s.line.next (w ++ [c])⟩, s.line.items (w ++ [c]))
    else some (⟨.literal double (!escaped && c == backslash) (w ++ [c]), s.line⟩, [])
  | .header double w =>
    if c = '\n' then none
    else if c = headerEnd double then
      some (⟨.gap, s.line.next (w ++ [c])⟩, s.line.items (w ++ [c]))
    else some (⟨.header double (w ++ [c]), s.line⟩, [])
  | .line => if c = '\n' then start U s.line c else some (s, [])
  | .block star =>
    if star ∧ c = '/' then some (⟨.gap, s.line⟩, []) else some (⟨.block (c == '*'), s.line⟩, [])
  | _ => feedCode U s c

def finish (s : State) : Option (List Item) :=
  s.pending.tokens.map fun ts => (s.line.emit ts).1 ++ (s.line.emit ts).2.ending

def lexFrom : State → Text → Option (List Item)
  | s, [] => finish s
  | s, c :: x => (feed U s c).bind fun r => (lexFrom r.1 x).map (r.2 ++ ·)

def init : State := ⟨.gap, .fresh⟩

/-- The items of a source text; none if it is not lexically valid. -/
def lex (code : Text) : Option (List Item) := lexFrom U init (splice code)

end CLib.Lex
