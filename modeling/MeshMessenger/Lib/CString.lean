import Mathlib.Data.List.Basic
import Mathlib.Data.List.TakeWhile
import Mathlib.Tactic

/-! C strings and the parts of the C library that read and write them. A string
is represented by the bytes before its terminator, so `strlen` is the length of
the list and `strcmp` is equality; a raw buffer becomes a string through `cstr`.
Character classes are those of the C locale. -/

namespace CLib

abbrev Bytes := List UInt8

/-- The bytes of an ASCII literal. -/
def ascii (s : String) : Bytes := s.toList.map Char.toUInt8

def newline : UInt8 := 10

/-- The string that starts a raw buffer: everything before the first NUL. -/
def cstr (buf : Bytes) : Bytes := buf.takeWhile (· != 0)

def NulFree (s : Bytes) : Prop := (0 : UInt8) ∉ s

theorem cstr_nulFree (buf : Bytes) : NulFree (cstr buf) := by
  intro h
  have := List.mem_takeWhile_imp h
  simp at this

theorem cstr_of_nulFree {s : Bytes} (h : NulFree s) : cstr s = s := by
  refine List.takeWhile_eq_self_iff.2 fun c hc => ?_
  have : c ≠ 0 := fun h0 => h (h0 ▸ hc)
  simpa using this

theorem NulFree.of_sublist {s t : Bytes} (h : NulFree t) (hs : s.Sublist t) : NulFree s :=
  fun h0 => h (hs.subset h0)

theorem NulFree.append {s t : Bytes} (hs : NulFree s) (ht : NulFree t) : NulFree (s ++ t) := by
  simp only [NulFree, List.mem_append, not_or]
  exact ⟨hs, ht⟩

/-! ### Character classes -/

/-- A property of bytes can be checked on the 256 values. -/
theorem forall_byte {p : UInt8 → Prop} (h : ∀ n : Fin 256, p (UInt8.ofNat n.val)) (c : UInt8) :
    p c := by
  simpa using h ⟨c.toNat, c.toNat_lt⟩

def isSpace (c : UInt8) : Bool := c == 32 || (9 ≤ c && c ≤ 13)

def isAlnum (c : UInt8) : Bool :=
  (48 ≤ c && c ≤ 57) || (65 ≤ c && c ≤ 90) || (97 ≤ c && c ≤ 122)

def toLower (c : UInt8) : UInt8 := if 65 ≤ c && c ≤ 90 then c + 32 else c

/-- Equality of `strcasecmp` in the C locale, which is also sqlite's NOCASE. -/
def caseEq (s t : Bytes) : Bool := s.map toLower == t.map toLower

theorem caseEq_iff {s t : Bytes} : caseEq s t = true ↔ s.map toLower = t.map toLower := by
  simp [caseEq]

@[simp] theorem caseEq_refl (s : Bytes) : caseEq s s = true := by simp [caseEq]

theorem caseEq_comm (s t : Bytes) : caseEq s t = caseEq t s := BEq.comm

theorem caseEq_symm {s t : Bytes} (h : caseEq s t = true) : caseEq t s = true :=
  caseEq_comm s t ▸ h

theorem caseEq_trans {s t u : Bytes} (h : caseEq s t = true) (h' : caseEq t u = true) :
    caseEq s u = true :=
  caseEq_iff.2 ((caseEq_iff.1 h).trans (caseEq_iff.1 h'))

/-! ### Fixed-size buffers -/

/-- What `snprintf` leaves in a buffer of `n` bytes. -/
def snprintf (n : ℕ) (s : Bytes) : Bytes := s.take (n - 1)

/-- What `strncpy` leaves in a zeroed array of more than `n` bytes. -/
def strncpy (n : ℕ) (s : Bytes) : Bytes := s.take n

def strncat (dst src : Bytes) (n : ℕ) : Bytes := dst ++ src.take n

theorem snprintf_of_lt {n : ℕ} {s : Bytes} (h : s.length < n) : snprintf n s = s :=
  List.take_of_length_le (by omega)

theorem strncpy_of_le {n : ℕ} {s : Bytes} (h : s.length ≤ n) : strncpy n s = s :=
  List.take_of_length_le h

/-- A string that an array of `n` bytes holds with its terminator. -/
abbrev CStr (n : ℕ) : Type := { s : Bytes // NulFree s ∧ s.length < n }

/-- What `strncpy` with `n` leaves in a zeroed array of `n + 1` bytes. -/
def CStr.strncpy (n : ℕ) (src : Bytes) : CStr (n + 1) :=
  ⟨CLib.strncpy n (cstr src), (cstr_nulFree src).of_sublist (List.take_sublist _ _), by
    rw [CLib.strncpy, List.length_take]
    omega⟩

/-! ### Numbers -/

def hexDigit (n : ℕ) : UInt8 := UInt8.ofNat (if n < 10 then 48 + n else 87 + n)

/-- `%02x` of one byte. -/
def hex2 (b : UInt8) : Bytes := [hexDigit (b.toNat / 16), hexDigit (b.toNat % 16)]

/-- `%lu`. -/
def natDec (n : ℕ) : Bytes := (Nat.toDigits 10 n).map Char.toUInt8

/-- `%d`. -/
def intDec (n : ℤ) : Bytes := if n < 0 then 45 :: natDec n.natAbs else natDec n.natAbs

theorem natDec_length_le {n k : ℕ} (hk : 0 < k) (h : n < 10 ^ k) : (natDec n).length ≤ k := by
  rw [natDec, List.length_map]
  exact (Nat.length_toDigits_le_iff (by decide) hk).2 h

theorem intDec_length_le {n : ℤ} {k : ℕ} (hk : 0 < k) (h : n.natAbs < 10 ^ k) :
    (intDec n).length ≤ k + 1 := by
  have hdec := natDec_length_le hk h
  unfold intDec
  split
  · exact Nat.succ_le_succ hdec
  · omega

theorem ofNat_toUInt8_of_isDigit {c : Char} (h : c.isDigit = true) :
    Char.ofNat c.toUInt8.toNat = c := by
  have hle : c.toNat ≤ 57 := by
    simp only [Char.isDigit, Bool.and_eq_true, decide_eq_true_eq] at h
    exact UInt32.le_iff_toNat_le.1 h.2
  have hnat : c.toUInt8.toNat = c.toNat := by
    change c.toNat % 256 = c.toNat
    exact Nat.mod_eq_of_lt (by omega)
  rw [hnat, Char.ofNat_toNat]

theorem natDec_injective : Function.Injective natDec := by
  have hback (k : ℕ) : (natDec k).map (fun b => Char.ofNat b.toNat) = Nat.toDigits 10 k := by
    rw [natDec, List.map_map]
    refine (List.map_congr_left fun c hc => ?_).trans (List.map_id _)
    exact ofNat_toUInt8_of_isDigit (Nat.isDigit_of_mem_toDigits (by decide) (by decide) hc)
  intro m n h
  have hdigits := congrArg (List.map fun b => Char.ofNat b.toNat) h
  rw [hback, hback] at hdigits
  rw [← Nat.ofDigitChars_ten_toDigits (n := m), hdigits, Nat.ofDigitChars_ten_toDigits]

theorem minus_not_mem_natDec (n : ℕ) : (45 : UInt8) ∉ natDec n := by
  intro hmem
  obtain ⟨c, hc, heq⟩ := List.mem_map.1 hmem
  have hdigit := Nat.isDigit_of_mem_toDigits (by decide) (by decide) hc
  have hback := ofNat_toUInt8_of_isDigit hdigit
  rw [heq] at hback
  rw [← hback] at hdigit
  exact absurd hdigit (by decide)

theorem intDec_injective : Function.Injective intDec := by
  intro m n h
  unfold intDec at h
  split_ifs at h with hm hn hn
  · have := natDec_injective (List.cons.inj h).2
    omega
  · exact absurd (h ▸ List.mem_cons_self) (minus_not_mem_natDec n.natAbs)
  · exact absurd (h.symm ▸ List.mem_cons_self) (minus_not_mem_natDec m.natAbs)
  · have := natDec_injective h
    omega

theorem hex2_length (b : UInt8) : (hex2 b).length = 2 := rfl

theorem flatMap_hex2_length (r : Bytes) : (r.flatMap hex2).length = 2 * r.length := by
  induction r with
  | nil => rfl
  | cons b r ih => simp only [List.flatMap_cons, List.length_append, hex2_length, ih,
      List.length_cons]; omega

/-! ### Integers in memory -/

/-- The `w` bytes of an unsigned integer on a little-endian host. -/
def leBytes : ℕ → ℕ → Bytes
  | 0, _ => []
  | w + 1, n => UInt8.ofNat n :: leBytes w (n / 256)

/-- The integer in a little-endian host's bytes. -/
def ofLeBytes (b : Bytes) : ℕ := Nat.ofDigits 256 (b.map UInt8.toNat)

theorem leBytes_length (w n : ℕ) : (leBytes w n).length = w := by
  induction w generalizing n with
  | zero => rfl
  | succ w ih => rw [leBytes, List.length_cons, ih]

theorem ofLeBytes_leBytes {w n : ℕ} (h : n < 256 ^ w) : ofLeBytes (leBytes w n) = n := by
  induction w generalizing n with
  | zero =>
    rw [pow_zero, Nat.lt_one_iff] at h
    rw [h]
    rfl
  | succ w ih =>
    have hdiv : n / 256 < 256 ^ w := Nat.div_lt_of_lt_mul (by rwa [← pow_succ'])
    have htail := ih hdiv
    rw [ofLeBytes] at htail ⊢
    rw [leBytes, List.map_cons, Nat.ofDigits_cons, htail, UInt8.toNat_ofNat']
    exact Nat.mod_add_div n 256

end CLib
