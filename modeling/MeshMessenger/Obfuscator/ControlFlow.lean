import MeshMessenger.Lib.CExpr
import MeshMessenger.Obfuscator.Renaming

/-! `obfuscate_control_flow`: conditions of `if` statements are found by a pattern and put
into one of five templates, and lines that mention `return` may get a false branch. -/

namespace Mesh.Obfuscator

open CLib Regex Re

/-! ### Conditions -/

structure ConditionDraw where
  first : Fin 0x10000
  second : Fin 0x10000
  choice : Fin 5

def upperHexDigit (n : ℕ) : Char := if n < 10 then Char.ofNat (48 + n) else Char.ofNat (55 + n)

def hex04 (n : Fin 0x10000) : Text :=
  '0' :: 'x' :: [n.val / 4096, n.val / 256 % 16, n.val / 16 % 16, n.val % 16].map upperHexDigit

def complexConditions (draw : ConditionDraw) (condition : Text) : List Text :=
  ["(".toList ++ condition ++ ") && (".toList ++ hex04 draw.first ++ " != 0xDEAD)".toList,
    "(".toList ++ condition ++ ") || (0 && (".toList ++ hex04 draw.second ++
      " == 0xBEEF))".toList,
    "!!(".toList ++ condition ++ ")".toList,
    "(".toList ++ condition ++ ") ^ 0".toList,
    "((".toList ++ condition ++ ") + 0) != 0".toList]

def complexifyCondition (draw : ConditionDraw) (condition : Text) : Text :=
  "if (".toList ++ (complexConditions draw condition).getD draw.choice [] ++ ") \x7b".toList

/-- `if\s*\((.*?)\)\s*{`. -/
def ifPattern (U : Classes) : Re :=
  cat [lit "if", spaces U, char '(', group 1 (lazyStar (noneOf "\n")), char ')', spaces U,
    char '{']

/-- The first substitution. A match draws for itself: its draws are those for the length of
the text that is left after it. -/
def complexifyConditions (U : Classes) (draws : ℕ → ConditionDraw) (code : Text) : Text :=
  sub U (ifPattern U)
    (fun m => complexifyCondition (draws m.cur.rest.length) ((m.group? 1).getD [])) code

/-! ### False branches -/

def falseReturns : List Text :=
  ["if (0xDEADBEEF == 0xCAFEBABE) return 0;".toList,
    "if (time(NULL) % 2 == 0) \x7b /* ложный return */ \x7d".toList,
    "volatile int __false_flag = 1; if (__false_flag) \x7b /* ничего */ \x7d".toList]

/-- The loop over the lines; what `random` gives to the line of each number. -/
def addFalseReturns (draws : ℕ → Option (Fin 3)) (code : Text) : Text :=
  let newLines := (code.splitOn '\n').zipIdx.flatMap fun (line, i) =>
    if line.tails.any "return".toList.isPrefixOf then
      match draws i with
      | none => [line]
      | some k => [line, "    ".toList ++ falseReturns.getD k []]
    else [line]
  ['\n'].intercalate newLines

def obfuscateControlFlow (U : Classes) (draws : ℕ → ConditionDraw)
    (returns : ℕ → Option (Fin 3)) (code : Text) : Text :=
  addFalseReturns returns (complexifyConditions U draws code)

/-! ### What the templates mean -/

/-- The conditions as C reads them, the original one in the place of the operand. -/
def complexExprs (draw : ConditionDraw) : List CExpr :=
  let condition : CExpr := .paren .operand
  let zero : CExpr := .const "0".toList
  [.and condition (.paren (.ne (.const (hex04 draw.first)) (.const "0xDEAD".toList))),
    .or condition (.paren (.and zero (.paren
      (.eq (.const (hex04 draw.second)) (.const "0xBEEF".toList))))),
    .not (.not condition),
    .xor condition zero,
    .ne (.paren (.add condition zero)) zero]

def rewrittenExpr (draw : ConditionDraw) : CExpr := (complexExprs draw).getD draw.choice .operand

end Mesh.Obfuscator
