import MeshMessenger.Lib.CString

/-! The bytes a C compiler stores for a string literal, from the text between its quotes:
source and execution character set are UTF-8, and a text that is no literal has no value. -/

namespace CLib

def hexValue (c : UInt8) : Option ℕ :=
  if 48 ≤ c ∧ c ≤ 57 then some (c.toNat - 48)
  else if 65 ≤ c ∧ c ≤ 70 then some (c.toNat - 55)
  else if 97 ≤ c ∧ c ≤ 102 then some (c.toNat - 87)
  else none

def isHex (c : UInt8) : Bool := (hexValue c).isSome

def isOctal (c : UInt8) : Bool := 48 ≤ c && c ≤ 55

/-- The number that digits write in a base; the octal digits are hexadecimal ones too. -/
def ofDigitBytes (base : ℕ) (digits : Bytes) : ℕ :=
  digits.foldl (fun n c => n * base + (hexValue c).getD 0) 0

/-- The escapes of one letter, and the end of a line, which is taken out of the text. -/
def simpleEscape (c : UInt8) : Option Bytes :=
  [(39, [39]), (34, [34]), (63, [63]), (92, [92]), (97, [7]), (98, [8]), (102, [12]), (110, [10]),
    (114, [13]), (116, [9]), (118, [11]), (newline, [])].lookup c

/-- A byte written with `n` digits, if it is one. -/
def numericEscape (base : ℕ) (digits : Bytes) (taken : ℕ) : Option (Bytes × ℕ) :=
  if digits ≠ [] ∧ ofDigitBytes base digits < 256 then
    some ([UInt8.ofNat (ofDigitBytes base digits)], taken)
  else none

/-- A character written with its code in `n` digits. -/
def universalEscape (n : ℕ) (rest : Bytes) : Option (Bytes × ℕ) :=
  let digits := (rest.take n).takeWhile isHex
  if digits.length = n ∧ 0xA0 ≤ ofDigitBytes 16 digits ∧ (ofDigitBytes 16 digits).isValidChar then
    some (String.utf8EncodeChar (Char.ofNat (ofDigitBytes 16 digits)), n + 1)
  else none

/-- What a backslash and the text after it stand for, and how much of that text they take. -/
def escape : Bytes → Option (Bytes × ℕ)
  | [] => none
  | c :: rest =>
    if c = 120 then
      let digits := rest.takeWhile isHex
      numericEscape 16 digits (digits.length + 1)
    else if isOctal c then
      let digits := ((c :: rest).take 3).takeWhile isOctal
      numericEscape 8 digits digits.length
    else if c = 117 then universalEscape 4 rest
    else if c = 85 then universalEscape 8 rest
    else (simpleEscape c).map fun value => (value, 1)

/-- Reads on after skipping what belongs to the last escape. -/
def literalAfter : ℕ → Bytes → Option Bytes
  | _, [] => some []
  | k + 1, _ :: rest => literalAfter k rest
  | 0, c :: rest =>
    if c = 92 then
      match escape rest with
      | none => none
      | some (value, k) => (literalAfter k rest).map (value ++ ·)
    else if c = newline ∨ c = 34 then none
    else (literalAfter 0 rest).map (c :: ·)

def literalValue (body : Bytes) : Option Bytes := literalAfter 0 body

/-- A text without escapes stands for itself. -/
theorem literalValue_eq_self {s : Bytes} (h : ∀ c ∈ s, c ≠ 92 ∧ c ≠ newline ∧ c ≠ 34) :
    literalValue s = some s := by
  induction s with
  | nil => rfl
  | cons c s ih =>
    obtain ⟨⟨hescape, hnewline, hquote⟩, hs⟩ := List.forall_mem_cons.1 h
    have htail := ih hs
    rw [literalValue] at htail
    rw [literalValue, literalAfter, if_neg hescape, if_neg (by simp [hnewline, hquote]), htail]
    rfl

/-! ### What an escape takes -/

/-- An escape takes what is there, no NUL among it, and stands for no more bytes than it takes. -/
structure EscapeTakes (rest value : Bytes) (k : ℕ) : Prop where
  le : k ≤ rest.length
  length : value.length ≤ k
  nulFree : NulFree (rest.take k)

theorem nulFree_of_all {p : UInt8 → Bool} (hp : p 0 = false) {s : Bytes}
    (h : ∀ c ∈ s, p c = true) : NulFree s := by
  intro h0
  rw [h 0 h0] at hp
  exact absurd hp (by simp)

theorem nulFree_takeWhile {p : UInt8 → Bool} (hp : p 0 = false) (s : Bytes) :
    NulFree (s.take (s.takeWhile p).length) := by
  rw [← List.prefix_iff_eq_take.1 (List.takeWhile_prefix p)]
  exact nulFree_of_all hp fun c hc => List.mem_takeWhile_imp hc

theorem nulFree_cons {c : UInt8} {s : Bytes} (hc : c ≠ 0) (hs : NulFree s) : NulFree (c :: s) := by
  intro h0
  obtain h0 | h0 := List.mem_cons.1 h0
  · exact hc h0.symm
  · exact hs h0

theorem numericEscape_takes {base taken k : ℕ} {digits value : Bytes}
    (h : numericEscape base digits taken = some (value, k)) :
    digits ≠ [] ∧ value.length = 1 ∧ k = taken := by
  unfold numericEscape at h
  split_ifs at h with hd
  obtain ⟨rfl, rfl⟩ := Prod.mk.inj (Option.some.inj h)
  exact ⟨hd.1, rfl, rfl⟩

theorem universalEscape_takes {n k : ℕ} (hn : 3 ≤ n) {c : UInt8} (hc : c ≠ 0) {rest value : Bytes}
    (h : universalEscape n rest = some (value, k)) : EscapeTakes (c :: rest) value k := by
  simp only [universalEscape] at h
  split_ifs at h with hd
  obtain ⟨rfl, rfl⟩ := Prod.mk.inj (Option.some.inj h)
  have hfour : (String.utf8EncodeChar (Char.ofNat
      (ofDigitBytes 16 ((rest.take n).takeWhile isHex)))).length ≤ 4 := by
    rw [String.length_utf8EncodeChar]
    exact Char.utf8Size_le_four _
  have hall : (rest.take n).takeWhile isHex = rest.take n := by
    refine (List.takeWhile_prefix isHex).eq_of_length_le ?_
    rw [hd.1, List.length_take]
    exact min_le_left _ _
  have hlen : n ≤ rest.length := by
    have := hd.1
    rw [hall, List.length_take] at this
    omega
  refine ⟨Nat.succ_le_succ hlen, by omega, ?_⟩
  rw [List.take_succ_cons]
  refine nulFree_cons hc (nulFree_of_all (p := isHex) rfl fun d hd' => ?_)
  rw [← hall] at hd'
  exact List.mem_takeWhile_imp hd'

theorem simpleEscape_takes : ∀ c : UInt8, ∀ value ∈ simpleEscape c, value.length ≤ 1 ∧ c ≠ 0 :=
  forall_byte (by decide +kernel)

theorem escape_takes {rest value : Bytes} {k : ℕ} (h : escape rest = some (value, k)) :
    EscapeTakes rest value k := by
  cases rest with
  | nil => cases h
  | cons c rest =>
    rw [escape] at h
    split_ifs at h with hx ho hu hU
    · obtain ⟨-, hvalue, rfl⟩ := numericEscape_takes h
      refine ⟨Nat.succ_le_succ (List.takeWhile_prefix _).length_le, by omega, ?_⟩
      rw [List.take_succ_cons]
      exact nulFree_cons (by simp [hx]) (nulFree_takeWhile rfl rest)
    · obtain ⟨hne, hvalue, rfl⟩ := numericEscape_takes h
      have hdigits := (List.takeWhile_prefix (l := (c :: rest).take 3) isOctal).trans
        (List.take_prefix 3 (c :: rest))
      refine ⟨hdigits.length_le, ?_, ?_⟩
      · have := List.length_pos_iff.2 hne
        omega
      · rw [← List.prefix_iff_eq_take.1 hdigits]
        exact nulFree_of_all (p := isOctal) rfl fun d hd => List.mem_takeWhile_imp hd
    · exact universalEscape_takes (by omega) (by simp [hu]) h
    · exact universalEscape_takes (by omega) (by simp [hU]) h
    · obtain ⟨value', hsimple, heq⟩ := Option.map_eq_some_iff.1 h
      obtain ⟨rfl, rfl⟩ := Prod.mk.inj heq
      obtain ⟨hlen, hne⟩ := simpleEscape_takes c _ hsimple
      exact ⟨Nat.succ_le_succ (Nat.zero_le _), hlen, nulFree_cons hne (by simp [NulFree])⟩

/-! ### The value of a literal -/

/-- No byte of the text stands for more than one byte of the value. -/
theorem literalAfter_length {k : ℕ} {s value : Bytes} (hk : k ≤ s.length)
    (h : literalAfter k s = some value) : value.length + k ≤ s.length := by
  induction s generalizing k value with
  | nil =>
    rw [literalAfter] at h
    rw [← Option.some.inj h]
    simpa using hk
  | cons c rest ih =>
    cases k with
    | succ k =>
      have := ih (Nat.le_of_succ_le_succ hk) h
      rw [List.length_cons]
      omega
    | zero =>
      rw [literalAfter] at h
      split_ifs at h with hc hbad
      · cases he : escape rest with
        | none =>
          rw [he] at h
          cases h
        | some found =>
          obtain ⟨v, k⟩ := found
          rw [he] at h
          obtain ⟨tail, htail, rfl⟩ := Option.map_eq_some_iff.1 h
          have htakes := escape_takes he
          have := ih htakes.le htail
          have := htakes.length
          rw [List.length_append, List.length_cons]
          omega
      · obtain ⟨tail, htail, rfl⟩ := Option.map_eq_some_iff.1 h
        have := ih (Nat.zero_le _) htail
        rw [List.length_cons, List.length_cons]
        omega

/-- A NUL in the text is one in the value. -/
theorem literalAfter_nulFree {k : ℕ} {s value : Bytes} (hs : NulFree (s.take k))
    (h : literalAfter k s = some value) (hvalue : NulFree value) : NulFree s := by
  induction s generalizing k value with
  | nil => simp [NulFree]
  | cons c rest ih =>
    cases k with
    | succ k =>
      rw [List.take_succ_cons] at hs
      have hc : c ≠ 0 := fun h0 => hs (h0 ▸ List.mem_cons_self)
      have hrest := hs.of_sublist (List.sublist_cons_self _ _)
      exact nulFree_cons hc (ih hrest h hvalue)
    | zero =>
      rw [literalAfter] at h
      split_ifs at h with hc hbad
      · cases he : escape rest with
        | none =>
          rw [he] at h
          cases h
        | some found =>
          obtain ⟨v, k⟩ := found
          rw [he] at h
          obtain ⟨tail, htail, rfl⟩ := Option.map_eq_some_iff.1 h
          have htakes := escape_takes he
          have htailFree := hvalue.of_sublist (List.sublist_append_right _ _)
          exact nulFree_cons (by simp [hc]) (ih htakes.nulFree htail htailFree)
      · obtain ⟨tail, htail, rfl⟩ := Option.map_eq_some_iff.1 h
        have hc0 : c ≠ 0 := fun h0 => hvalue (h0 ▸ List.mem_cons_self)
        have htailFree := hvalue.of_sublist (List.sublist_cons_self _ _)
        exact nulFree_cons hc0 (ih (by simp [NulFree]) htail htailFree)

end CLib
