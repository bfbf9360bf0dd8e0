import MeshMessenger.Lib.Memory
import MeshMessenger.Lib.Scan

/-! The constants and the string utilities of `server.c`: the token comparison,
the token generator, the validators and the input filter. -/

namespace Mesh

open CLib

def bufferSize : ℕ := 8192
def maxClients : ℕ := 1000
def tokenLength : ℕ := 64
def maxNickLength : ℕ := 31
def maxMessageLength : ℕ := 2048
def maxRateLimit : ℕ := 10
def rateLimitWindow : ℤ := 60
def connectionTimeout : ℤ := 300

/-! ### Token comparison -/

/-- `a` and `b` are the memories at the two pointers: the loop reads `len` bytes
of both, past a terminator too. -/
def constantTimeCompare (a b : ℕ → UInt8) (len : ℕ) : Bool :=
  (List.range len).foldl (fun result i => result ||| (a i ^^^ b i)) 0 == 0

/-- `m` holds the string `s` and its terminator. What follows is unspecified. -/
structure Holds (m : ℕ → UInt8) (s : Bytes) : Prop where
  byte : ∀ i (h : i < s.length), m i = s[i]
  nul : m s.length = 0

/-- The string `s` in a zeroed memory. -/
def stored (s : Bytes) : ℕ → UInt8 := fun i => s.getD i 0

theorem stored_holds (s : Bytes) : Holds (stored s) s :=
  ⟨fun i h => by simp [stored, h], by simp [stored]⟩

private theorem or_eq_zero (a b : UInt8) : a ||| b = 0 ↔ a = 0 ∧ b = 0 := by
  rw [← UInt8.toNat_inj, ← UInt8.toNat_inj, ← UInt8.toNat_inj]
  simp

private theorem fold_or_eq_zero (f : ℕ → UInt8) (l : List ℕ) (acc : UInt8) :
    l.foldl (fun result i => result ||| f i) acc = 0 ↔ acc = 0 ∧ ∀ i ∈ l, f i = 0 := by
  induction l generalizing acc with
  | nil => simp
  | cons i l ih => rw [List.foldl_cons, ih, or_eq_zero]; simp [and_assoc]

theorem constantTimeCompare_iff (a b : ℕ → UInt8) (len : ℕ) :
    constantTimeCompare a b len = true ↔ ∀ i < len, a i = b i := by
  rw [constantTimeCompare, beq_iff_eq, fold_or_eq_zero]
  simp

/-- With the presented token's own length as the bound, the comparison accepts
exactly the prefixes of the stored token. -/
theorem constantTimeCompare_isPrefix {a b : ℕ → UInt8} {s t : Bytes} (ha : Holds a s)
    (hb : Holds b t) (ht : NulFree t) :
    constantTimeCompare a b t.length = true ↔ t <+: s := by
  rw [constantTimeCompare_iff]
  refine ⟨?_, ?_⟩
  · intro h
    have hlen : t.length ≤ s.length := by
      by_contra hlt
      push Not at hlt
      -- the stored terminator is compared with a byte of the presented token
      have h0 := h s.length hlt
      rw [ha.nul, hb.byte _ hlt] at h0
      exact ht (h0 ▸ List.getElem_mem hlt)
    rw [List.prefix_iff_eq_take]
    refine List.ext_getElem (by simp [hlen]) fun i hi hi' => ?_
    rw [List.getElem_take, ← hb.byte i hi, ← ha.byte i (by omega), h i hi]
  · rintro ⟨r, rfl⟩ i hi
    rw [ha.byte i (by simp; omega), hb.byte i hi, List.getElem_append_left hi]

/-! ### Token generation -/

/-- The array filled by `RAND_bytes`. -/
abbrev TokenBytes := { r : Bytes // r.length = tokenLength }

/-- `len` is the size of the caller's buffer and `random` what `RAND_bytes`
produced, if it succeeded. All the bytes are printed in hexadecimal, then the
terminator is stored at index `TOKEN_LENGTH`. -/
def generateSecureToken (len : ℕ) (random : Option TokenBytes) : Option Bytes :=
  if len < tokenLength + 1 then none
  else random.map fun r => (r.val.flatMap hex2).take tokenLength

/-- What the loop and the last assignment write through the buffer's pointer. -/
def tokenWrites (r : Bytes) : List Write :=
  (r.zipIdx.flatMap fun (b, i) => stringWrites (i * 2) (snprintf 3 (hex2 b))) ++ [(tokenLength, 0)]

/-- What `generate_secure_token` returns, and all it writes. -/
def generateSecureTokenWrites (len : ℕ) (random : Option TokenBytes) : Bool × List Write :=
  if len < tokenLength + 1 then (false, [])
  else
    match random with
    | none => (false, [])
    | some r => (true, tokenWrites r.val)

/-! ### Validation and filtering -/

def forbidden : List Bytes :=
  ["admin", "root", "system", "server", "null", "undefined"].map ascii

def isNickByte (c : UInt8) : Bool := isAlnum c || c == 95 || c == 45 || c == 46

def validateNickname (nick : Bytes) : Bool :=
  let len := min nick.length maxNickLength
  if len < 3 ∨ len > maxNickLength then false
  else if !(nick.take len).all isNickByte then false
  else forbidden.all fun w => !caseEq nick w

def validateMessage (message : Bytes) : Bool :=
  let len := min message.length maxMessageLength
  decide (len > 0) && decide (len ≤ maxMessageLength)

/-- The bytes `sanitize_input` drops: `< > " ' \ ; & |`. -/
def isFiltered (c : UInt8) : Bool := [60, 62, 34, 39, 92, 59, 38, 124].contains c

def sanitizeInput (s : Bytes) : Bytes := s.filter fun c => !isFiltered c

theorem validateNickname_iff {nick : Bytes} :
    validateNickname nick = true ↔
      3 ≤ nick.length ∧ (∀ c ∈ nick.take maxNickLength, isNickByte c = true) ∧
        ∀ w ∈ forbidden, caseEq nick w = false := by
  have htake : nick.take (min nick.length maxNickLength) = nick.take maxNickLength := by
    rw [Nat.min_comm, ← List.take_take, List.take_length]
  have hlen : (min nick.length maxNickLength < 3 ∨ min nick.length maxNickLength > maxNickLength) ↔
      ¬ 3 ≤ nick.length := by
    simp only [maxNickLength]; omega
  simp only [validateNickname, htake, hlen]
  by_cases h1 : 3 ≤ nick.length
  · by_cases h2 : (nick.take maxNickLength).all isNickByte = true
    · simp only [h1, h2, not_true_eq_false, Bool.not_true, Bool.false_eq_true, if_false]
      simp only [List.all_eq_true, Bool.not_eq_true', true_and] at h2 ⊢
      exact ⟨fun h => ⟨h2, h⟩, fun h => h.2⟩
    · simp only [h1, h2, not_true_eq_false, Bool.not_false, if_true, if_false, true_and]
      simp only [Bool.false_eq_true, false_iff, not_and]
      exact fun h => absurd (List.all_eq_true.2 h) h2
  · simp [h1]

theorem isNickByte_clean : ∀ c : UInt8, isNickByte c = true →
    isFiltered c = false ∧ isSpace c = false ∧ c ≠ 0 :=
  forall_byte (by decide +kernel)

theorem isNickByte_toLower : ∀ c : UInt8, isNickByte (toLower c) = isNickByte c :=
  forall_byte (by decide +kernel)

theorem isNickByte_hexDigit : ∀ n < 16, isNickByte (hexDigit n) = true := by decide

theorem isNickByte_hex2 (b : UInt8) : ∀ c ∈ hex2 b, isNickByte c = true := by
  intro c hc
  simp only [hex2, List.mem_cons, List.not_mem_nil, or_false] at hc
  have hb := b.toNat_lt
  rcases hc with rfl | rfl
  · exact isNickByte_hexDigit _ (by omega)
  · exact isNickByte_hexDigit _ (by omega)

/-- A generated token is 64 hexadecimal digits. -/
theorem generateSecureToken_spec {len : ℕ} {random : Option TokenBytes} {token : Bytes}
    (h : generateSecureToken len random = some token) :
    token.length = tokenLength ∧ ∀ c ∈ token, isNickByte c = true := by
  unfold generateSecureToken at h
  split_ifs at h
  obtain ⟨r, -, rfl⟩ := Option.map_eq_some_iff.1 h
  refine ⟨?_, ?_⟩
  · rw [List.length_take, flatMap_hex2_length, r.property]
    rfl
  · intro c hc
    obtain ⟨b, -, hcb⟩ := List.mem_flatMap.1 (List.mem_of_mem_take hc)
    exact isNickByte_hex2 b c hcb

/-- A valid nick of at most 31 bytes survives the filter and is one word. -/
theorem validateNickname_isWord {nick : Bytes} (h : validateNickname nick = true)
    (hlen : nick.length ≤ maxNickLength) :
    IsWord 31 nick ∧ ∀ c ∈ nick, isNickByte c = true := by
  obtain ⟨h3, hbytes, -⟩ := validateNickname_iff.1 h
  rw [List.take_of_length_le hlen] at hbytes
  refine ⟨⟨?_, hlen, fun c hc => (isNickByte_clean c (hbytes c hc)).2.1⟩, hbytes⟩
  rintro rfl
  simp at h3

/-- The bounded length makes every non-empty string acceptable. -/
theorem validateMessage_iff {message : Bytes} : validateMessage message = true ↔ message ≠ [] := by
  rw [← List.length_pos_iff, validateMessage, Bool.and_eq_true, decide_eq_true_eq,
    decide_eq_true_eq]
  simp only [maxMessageLength]
  omega

theorem sanitizeInput_sublist (s : Bytes) : (sanitizeInput s).Sublist s := List.filter_sublist

theorem sanitizeInput_append (s t : Bytes) :
    sanitizeInput (s ++ t) = sanitizeInput s ++ sanitizeInput t := List.filter_append _ _

theorem clean_word {s : Bytes} (h : s.all (fun c => !isFiltered c && c != 0) = true) :
    ∀ c ∈ s, isFiltered c = false ∧ c ≠ 0 := fun c hc => by simpa using List.all_eq_true.1 h c hc

theorem not_isFiltered_of_mem {s : Bytes} {c : UInt8} (h : c ∈ sanitizeInput s) :
    isFiltered c = false := by
  simpa using (List.mem_filter.1 h).2

end Mesh
