import MeshMessenger.Lib.Regex

/-! C expressions around one operand whose value is not known: values of the integer types
with the promotions and conversions of the operators, and how an expression is written. -/

namespace CLib

open Regex (Text)

/-- A value of an integer type. -/
structure CInt where
  bits : ℕ
  signed : Bool
  val : BitVec bits

namespace CInt

def int (n : ℕ) : CInt := ⟨32, true, BitVec.ofNat 32 n⟩

/-- What a controlling expression is tested for. -/
def NonZero (v : CInt) : Prop := v.val ≠ 0

instance (v : CInt) : Decidable v.NonZero := inferInstanceAs (Decidable (v.val ≠ 0))

/-- The result of a logical operator or a comparison. -/
def ofProp (p : Prop) [Decidable p] : CInt := int (if p then 1 else 0)

/-- The value in a type of `w` bits. -/
def convert (v : CInt) (w : ℕ) : BitVec w :=
  if v.signed then v.val.signExtend w else v.val.setWidth w

/-- A type narrower than `int` becomes `int`. -/
def promote (v : CInt) : CInt := if v.bits < 32 then ⟨32, true, v.convert 32⟩ else v

/-- An operator on operands converted to a common type: the wider one, or the unsigned one
where both have the same width. -/
def arith (f : (w : ℕ) → BitVec w → BitVec w → BitVec w) (a b : CInt) : CInt :=
  let a := a.promote
  let b := b.promote
  let w := max a.bits b.bits
  let signed := if a.bits = b.bits then a.signed && b.signed
    else if a.bits < b.bits then b.signed else a.signed
  ⟨w, signed, f w (a.convert w) (b.convert w)⟩

/-- A comparison of operands converted to a common type. -/
def same (a b : CInt) : Prop :=
  let w := max a.promote.bits b.promote.bits
  a.promote.convert w = b.promote.convert w

instance (a b : CInt) : Decidable (a.same b) :=
  inferInstanceAs (Decidable (a.promote.convert _ = b.promote.convert _))

end CInt

def digitValue (c : Char) : ℕ :=
  if c.isDigit then c.toNat - 48
  else if c.isUpper then c.toNat - 55
  else c.toNat - 87

/-- The number that digits write in a base. -/
def ofDigitText (base : ℕ) (digits : Text) : ℕ :=
  digits.foldl (fun n c => n * base + digitValue c) 0

/-- An integer constant as it is written, hexadecimal, octal or decimal. -/
def constantValue : Text → ℕ
  | '0' :: 'x' :: digits => ofDigitText 16 digits
  | '0' :: digits => ofDigitText 8 digits
  | digits => ofDigitText 10 digits

/-- The operand is evaluated once, wherever it stands in the expression. -/
inductive CExpr where
  | operand
  | const (text : Text)
  | paren (e : CExpr)
  | not (e : CExpr)
  | and (a b : CExpr)
  | or (a b : CExpr)
  | xor (a b : CExpr)
  | add (a b : CExpr)
  | eq (a b : CExpr)
  | ne (a b : CExpr)

namespace CExpr

/-- The value where the operand has the value `v`. -/
def eval (v : CInt) : CExpr → CInt
  | operand => v
  | const text => .int (constantValue text)
  | paren e => e.eval v
  | not e => .ofProp (¬ (e.eval v).NonZero)
  | and a b => .ofProp ((a.eval v).NonZero ∧ (b.eval v).NonZero)
  | or a b => .ofProp ((a.eval v).NonZero ∨ (b.eval v).NonZero)
  | xor a b => .arith (fun _ x y => x ^^^ y) (a.eval v) (b.eval v)
  | add a b => .arith (fun _ x y => x + y) (a.eval v) (b.eval v)
  | eq a b => .ofProp ((a.eval v).same (b.eval v))
  | ne a b => .ofProp (¬ (a.eval v).same (b.eval v))

/-- The text where the operand is written as `s`. -/
def text (s : Text) : CExpr → Text
  | operand => s
  | const t => t
  | paren e => '(' :: e.text s ++ [')']
  | not e => '!' :: e.text s
  | and a b => a.text s ++ " && ".toList ++ b.text s
  | or a b => a.text s ++ " || ".toList ++ b.text s
  | xor a b => a.text s ++ " ^ ".toList ++ b.text s
  | add a b => a.text s ++ " + ".toList ++ b.text s
  | eq a b => a.text s ++ " == ".toList ++ b.text s
  | ne a b => a.text s ++ " != ".toList ++ b.text s

end CExpr

/-! ### Conversions keep what is zero -/

namespace CInt

theorem convert_eq_zero_iff {v : CInt} {w : ℕ} (h : v.bits ≤ w) : v.convert w = 0 ↔ v.val = 0 := by
  unfold convert
  split
  · rw [← BitVec.toInt_inj, BitVec.toInt_signExtend_of_le h, ← BitVec.toInt_inj (x := v.val)]
    simp
  · rw [← BitVec.toNat_inj, BitVec.toNat_setWidth_of_le h, ← BitVec.toNat_inj (x := v.val)]
    simp

theorem promote_nonZero_iff (v : CInt) : v.promote.NonZero ↔ v.NonZero := by
  unfold promote
  split_ifs with h
  · exact not_congr (convert_eq_zero_iff h.le)
  · exact Iff.rfl

theorem promote_int (n : ℕ) : (int n).promote = int n := rfl

@[simp] theorem ofProp_nonZero_iff (p : Prop) [Decidable p] : (ofProp p).NonZero ↔ p := by
  by_cases hp : p
  · simp [ofProp, hp, NonZero, int]
  · simp [ofProp, hp, NonZero, int]

theorem convert_zero (w : ℕ) : (int 0).convert w = 0 := by
  have hmsb : (BitVec.ofNat 32 0).msb = false := rfl
  rw [convert, int, if_pos rfl, BitVec.signExtend_eq_setWidth_of_msb_false hmsb]
  simp

theorem same_zero_iff (v : CInt) : v.same (int 0) ↔ ¬ v.NonZero := by
  have hconvert := convert_eq_zero_iff (Nat.le_max_left v.promote.bits (int 0).promote.bits)
  rw [same, promote_int, convert_zero, ← promote_int, hconvert, ← promote_nonZero_iff, NonZero,
    not_not]

theorem same_int_iff {m n : ℕ} (hm : m < 2 ^ 32) (hn : n < 2 ^ 32) :
    (int m).same (int n) ↔ m = n := by
  rw [same, promote_int, promote_int]
  change ((int m).convert 32 = (int n).convert 32) ↔ _
  simp only [convert, int, if_true, BitVec.signExtend_eq]
  rw [← BitVec.toNat_inj, BitVec.toNat_ofNat, BitVec.toNat_ofNat, Nat.mod_eq_of_lt hm,
    Nat.mod_eq_of_lt hn]

/-- An operator that leaves its left operand alone where the right one is zero. -/
theorem arith_zero_nonZero_iff {f : (w : ℕ) → BitVec w → BitVec w → BitVec w}
    (hf : ∀ w x, f w x 0 = x) (v : CInt) : (arith f v (int 0)).NonZero ↔ v.NonZero := by
  have hconvert := convert_eq_zero_iff (Nat.le_max_left v.promote.bits (int 0).promote.bits)
  unfold NonZero
  change f _ (v.promote.convert _) ((int 0).convert _) ≠ 0 ↔ _
  rw [convert_zero, hf]
  exact (not_congr hconvert).trans (promote_nonZero_iff v)

end CInt

/-! ### When an expression is non-zero -/

namespace CExpr

variable (v : CInt) (a b : CExpr)

@[simp] theorem eval_operand : operand.eval v = v := rfl

@[simp] theorem eval_paren : (paren a).eval v = a.eval v := rfl

@[simp] theorem not_nonZero_iff : ((not a).eval v).NonZero ↔ ¬ (a.eval v).NonZero :=
  CInt.ofProp_nonZero_iff _

@[simp] theorem and_nonZero_iff :
    ((and a b).eval v).NonZero ↔ (a.eval v).NonZero ∧ (b.eval v).NonZero :=
  CInt.ofProp_nonZero_iff _

@[simp] theorem or_nonZero_iff :
    ((or a b).eval v).NonZero ↔ (a.eval v).NonZero ∨ (b.eval v).NonZero :=
  CInt.ofProp_nonZero_iff _

@[simp] theorem ne_nonZero_iff : ((ne a b).eval v).NonZero ↔ ¬ (a.eval v).same (b.eval v) :=
  CInt.ofProp_nonZero_iff _

variable {v a b}

theorem xor_nonZero_iff (hb : b.eval v = .int 0) :
    ((xor a b).eval v).NonZero ↔ (a.eval v).NonZero := by
  rw [eval, hb]
  exact CInt.arith_zero_nonZero_iff (fun _ _ => BitVec.xor_zero) _

theorem add_nonZero_iff (hb : b.eval v = .int 0) :
    ((add a b).eval v).NonZero ↔ (a.eval v).NonZero := by
  rw [eval, hb]
  exact CInt.arith_zero_nonZero_iff (fun _ _ => BitVec.add_zero _) _

end CExpr

end CLib
