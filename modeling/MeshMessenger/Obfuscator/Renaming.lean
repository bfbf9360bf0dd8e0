import MeshMessenger.Lib.Regex

/-! `brootfrouce.py` up to the three passes that rename: every file of a directory goes
through an obfuscator of its own, with maps of its own. The steps that follow (strings,
added functions, control flow, junk) give no identifier another name. -/

namespace Mesh.Obfuscator

open Regex Re

variable (U : Classes)

inductive Level where
  | low | medium | high | extreme
deriving DecidableEq

def Level.text : Level → Text
  | .low => "low".toList
  | .medium => "medium".toList
  | .high => "high".toList
  | .extreme => "extreme".toList

inductive Language where
  | c | cpp
deriving DecidableEq

/-! ### Before the passes -/

/-- The maps are still empty when this counts them. -/
def addMetadata (now : Text) (level : Level) (code : Text) : Text :=
  let comment : List Text :=
    ["\n/*\n * === BROOTFROUCE ".toList, "OBFUSCATED CODE ===\n".toList,
      " * Generated: ".toList, now, "\n".toList,
      " * Obfuscation level: ".toList, level.text, "\n".toList,
      " * Security: ANTI-DEBUG + ".toList, "STRING ENCRYPTION + ".toList,
      "CONTROL FLOW OBFUSCATION\n".toList,
      " * Variables obfuscated: 0\n".toList, " * Functions obfuscated: 0\n".toList,
      " * Types obfuscated: 0\n * \n".toList,
      " * WARNING: This code ".toList, "is protected against ".toList,
      "reverse engineering\n".toList,
      " *          and contains ".toList, "anti-debugging techniques.\n */\n".toList]
  comment.flatten ++ code

def word : Re := plus (one U.isWord)

def spaces : Re := star (one U.isSpace)

def spaces1 : Re := plus (one U.isSpace)

def anyChar : Re := one fun _ => true

/-- `[=+-\/*&|!<>(){}\[\].,;:]`, in which `+-\/` is a range. -/
def punctuation : Re :=
  one fun c => "=*&|!<>()\x7b\x7d[].,;:".toList.contains c || ('+' ≤ c && c ≤ '/')

def removeCommentsAndSpaces (level : Level) (code : Text) : Text :=
  let code := sub U (cat [lit "/*", lazyStar anyChar, lit "*/"]) (fun _ => []) code
  let code := sub U (cat [lit "//", star (noneOf "\n"), lineEnd]) (fun _ => []) code
  if level = .high then
    let code := sub U (plus (oneOf " \t")) (fun _ => [' ']) code
    let code := sub U (cat [spaces U, group 1 punctuation, spaces U])
      (fun m => (m.group? 1).getD []) code
    let code := sub U (cat [char '\n', spaces U, char '\n']) (fun _ => ['\n']) code
    sub U (cat [lineStart, spaces1 U]) (fun _ => []) code
  else code

/-! ### New names -/

/-- A candidate of `generate_complex_name`: 8 to 20 letters, digits and underscores. -/
abbrev Candidate : Type :=
  { s : Text // 8 ≤ s.length ∧ s.length ≤ 20 ∧ ∀ c ∈ s, (c.isAlphanum || c == '_') = true }

structure Namer where
  used : List Text
  draws : List Candidate

/-- The loop of `generate_complex_name`; `none` when the candidates run out. -/
def generateComplexName (used : List Text) : List Candidate → Option (Text × Namer)
  | [] => none
  | name :: draws =>
    if name.val ∉ used ∧ ¬ (name.val.head?.any Char.isDigit) then
      some (name.val, ⟨name.val :: used, draws⟩)
    else generateComplexName used draws

/-- A `dict`, its items in the order in which they were added. -/
abbrev Dict := List (Text × Text)

def nameAll : List Text → Dict → Namer → Option (Dict × Namer)
  | [], dict, namer => some (dict, namer)
  | w :: picks, dict, namer =>
    if w ∈ dict.map Prod.fst then nameAll picks dict namer
    else
      match generateComplexName namer.used namer.draws with
      | none => none
      | some (name, namer) => nameAll picks (dict ++ [(w, name)]) namer

/-! ### The passes -/

structure Pass where
  dict : Dict
  code : Text
  namer : Namer

def renamingPass (picks : Text → List Text) (order : Dict → Dict)
    (substitute : Text → Text → Text → Text) (code : Text) (namer : Namer) : Option Pass :=
  match nameAll (picks code) [] namer with
  | none => none
  | some (dict, namer) =>
    some ⟨dict, (order dict).foldl (fun code item => substitute item.1 item.2 code) code, namer⟩

/-- The names that one group of the patterns captures, in order, less those not kept. -/
def captured (n : ℕ) (keep : Text → Bool) (patterns : List Re) (code : Text) : List Text :=
  patterns.flatMap fun r => ((finditer U r code).filterMap fun m => m.group? n).filter keep

/-- `sorted(..., key=lambda x: len(x[0]), reverse=True)`. -/
def byLength (dict : Dict) : Dict := dict.insertionSort fun a b => b.1.length ≤ a.1.length

/-- `re.sub(r'\b' + re.escape(old) + r'\b', new, code)`. -/
def substituteWord (old new code : Text) : Text :=
  sub U (cat [boundary, text old, boundary]) (fun _ => new) code

/-- `re.sub(r'\b' + re.escape(old) + r'\s*\(', new + '(', code)`. -/
def substituteCall (old new code : Text) : Text :=
  sub U (cat [boundary, text old, spaces U, char '(']) (fun _ => new ++ ['(']) code

def typePatterns : List Re :=
  [cat [boundary, lit "typedef", spaces1 U, lazyStar anyChar, spaces1 U, group 1 (word U),
      spaces U, char ';'],
    cat [boundary, lit "struct", spaces1 U, group 1 (word U), spaces U, char '{'],
    cat [boundary, lit "class", spaces1 U, group 1 (word U), spaces U, char '{'],
    cat [boundary, lit "enum", spaces1 U, group 1 (word U), spaces U, char '{']]

def typePicks : Text → List Text := captured U 1 (fun name => !name.isEmpty) (typePatterns U)

def obfuscateTypes : Text → Namer → Option Pass :=
  renamingPass (typePicks U) id (substituteWord U)

def funcPattern (last : Char) : Re :=
  cat [boundary, group 1 (word U), spaces1 U, group 2 (word U), spaces U, char '(',
    star (noneOf ")"), char ')', spaces U, char last]

def keepFunc (name : Text) : Bool :=
  1 < name.length &&
    !(["main", "printf", "scanf", "malloc", "free", "if", "for", "while"].map
      String.toList).contains name &&
    !"__".toList.isPrefixOf name

def funcPicks : Text → List Text := captured U 2 keepFunc [funcPattern U '{', funcPattern U ';']

def obfuscateFunctions : Text → Namer → Option Pass :=
  renamingPass (funcPicks U) byLength (substituteCall U)

def varPatterns : List Re :=
  let declared : Re := group 2 (seq (star (char '*')) (word U))
  [cat [boundary, group 1 (choice (["int", "float", "double", "char", "void", "bool", "long",
      "short", "unsigned", "const", "static", "auto", "register", "volatile"].map lit)),
      spaces1 U, group 2 (word U), spaces U, oneOf ";=,["],
    cat [boundary, group 1 (choice (["struct", "class", "enum", "union"].map lit)), spaces1 U,
      group 2 (word U), spaces U, char '{'],
    cat [boundary, group 1 (word U), spaces U, declared, spaces U, char '=', spaces U,
      plus (noneOf ";"), char ';'],
    cat [boundary, group 1 (word U), spaces U, declared, spaces U, char ';']]

def keepVar (name : Text) : Bool :=
  1 < name.length &&
    !(["main", "printf", "scanf", "malloc", "free", "sizeof", "if", "for", "while"].map
      String.toList).contains name &&
    !"_".toList.isPrefixOf name

def varPicks : Text → List Text := captured U 2 keepVar (varPatterns U)

def obfuscateVariables : Text → Namer → Option Pass :=
  renamingPass (varPicks U) byLength (substituteWord U)

/-! ### Files and directories -/

structure SourceFile where
  path : Text
  code : Text
deriving DecidableEq

structure ObfuscatedFile where
  source : SourceFile
  stripped : Text
  types : Pass
  functions : Pass
  vars : Pass

/-- `process_single_file`: a new obfuscator, no names in use. -/
def processSingleFile (level : Level) (now : Text) (draws : List Candidate) (file : SourceFile) :
    Option ObfuscatedFile :=
  let stripped := removeCommentsAndSpaces U level (addMetadata now level file.code)
  match obfuscateTypes U stripped ⟨[], draws⟩ with
  | none => none
  | some types =>
    match obfuscateFunctions U types.code types.namer with
    | none => none
    | some functions =>
      match obfuscateVariables U functions.code functions.namer with
      | none => none
      | some vars => some ⟨file, stripped, types, functions, vars⟩

def extensions : Language → List Text
  | .c => [".c", ".h"].map String.toList
  | .cpp => [".cpp", ".hpp", ".h", ".cc"].map String.toList

/-- The files in the order in which they are processed. -/
def selected (language : Language) (files : List SourceFile) : List SourceFile :=
  (extensions language).flatMap fun ext => files.filter fun file => ext.isSuffixOf file.path

/-- One file after the other, all from one sequence of draws; `now` is when each is read. -/
def processFiles (level : Level) (now : Text → Text) :
    List Candidate → List SourceFile → Option (List ObfuscatedFile)
  | _, [] => some []
  | draws, file :: files =>
    match processSingleFile U level (now file.path) draws file with
    | none => none
    | some out =>
      match processFiles level now out.vars.namer.draws files with
      | none => none
      | some outs => some (out :: outs)

def processDirectory (language : Language) (level : Level) (now : Text → Text)
    (draws : List Candidate) (files : List SourceFile) : Option (List ObfuscatedFile) :=
  processFiles U level now draws (selected language files)

end Mesh.Obfuscator
