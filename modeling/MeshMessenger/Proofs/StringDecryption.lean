import MeshMessenger.Lib.Captures
import MeshMessenger.Lib.Utf8
import MeshMessenger.Proofs.Base64Decoder

/-! What the emitted decryption functions give back for the literals that `encrypt_strings`
replaced, against the bytes those literals had. -/

namespace Mesh.Obfuscator

open CLib Regex

/-! ### Hex escapes -/

theorem encode_append (s t : Text) : encode (s ++ t) = encode s ++ encode t :=
  List.flatMap_append

/-- The text of an escape, in bytes. -/
theorem encode_hexEscape : ∀ n < 256,
    encode (hexEscape n) = 92 :: 120 :: hex2 (UInt8.ofNat n) := by
  decide +kernel

theorem hex2_digits : ∀ b : UInt8, (hex2 b).all isHex = true ∧
    ofDigitBytes 16 (hex2 b) = b.toNat :=
  forall_byte (by decide +kernel)

/-- The compiler reads one escape as one byte, since the next one starts with a backslash. -/
theorem literalAfter_hexEscape (b : UInt8) {rest : Bytes}
    (hrest : rest.head?.any isHex = false) :
    literalAfter 0 (92 :: 120 :: hex2 b ++ rest) = (literalAfter 0 rest).map (b :: ·) := by
  obtain ⟨hhex, hvalue⟩ := hex2_digits b
  have hdigits : (hex2 b ++ rest).takeWhile isHex = hex2 b := by
    rw [List.takeWhile_append_of_pos (List.all_eq_true.1 hhex)]
    cases rest with
    | nil => exact List.append_nil _
    | cons c rest =>
      have hc : isHex c = false := by simpa using hrest
      rw [List.takeWhile_cons_of_neg (by simp [hc]), List.append_nil]
  have hescape : escape (120 :: (hex2 b ++ rest)) = some ([b], 3) := by
    have hb := b.toNat_lt
    simp only [escape, if_true, hdigits, numericEscape, hvalue, UInt8.ofNat_toNat]
    rw [if_pos ⟨by simp [hex2], hb⟩]
    rfl
  simp only [List.cons_append, literalAfter, if_true, hescape]
  rfl

/-- The bytes that the emitted literal stands for. -/
def xorBytes (s : Text) (key : ℕ) : Bytes := s.map fun c => UInt8.ofNat (c.toNat ^^^ key)

theorem xor_lt {m n : ℕ} (hm : m < 256) (hn : n < 256) : m ^^^ n < 256 :=
  Nat.xor_lt_two_pow (n := 8) hm hn

theorem literalValue_xorBody {s : Text} (hs : ∀ c ∈ s, c.toNat < 256) {key : ℕ} (hkey : key < 256) :
    literalValue (encode (xorBody s key)) = some (xorBytes s key) := by
  induction s with
  | nil => rfl
  | cons c s ih =>
    have hc := xor_lt (hs c List.mem_cons_self) hkey
    have htail := ih fun d hd => hs d (List.mem_cons_of_mem c hd)
    have hrest : (encode (xorBody s key)).head?.any isHex = false := by
      cases s with
      | nil => rfl
      | cons d s =>
        have hd := xor_lt (hs d (by simp)) hkey
        rw [xorBody, List.flatMap_cons, encode_append, encode_hexEscape _ hd]
        rfl
    rw [xorBody, List.flatMap_cons, ← xorBody, encode_append, encode_hexEscape _ hc, literalValue,
      literalAfter_hexEscape _ hrest, ← literalValue, htail]
    rfl

/-! ### The scan of the decoder -/

/-- No byte that the scan takes for the end or for the start of an escape. -/
structure Plain (e : Bytes) : Prop where
  nulFree : NulFree e
  no_escape : ¬ [92, 120] <:+: e

theorem infix_cons_iff {c : UInt8} {e : Bytes} :
    [92, 120] <:+: c :: e ↔ (c = 92 ∧ e.head? = some 120) ∨ [92, 120] <:+: e := by
  rw [List.infix_cons_iff, List.cons_prefix_cons]
  refine or_congr (and_congr eq_comm ?_) Iff.rfl
  cases e with
  | nil => simp
  | cons d e => simp [List.cons_prefix_cons, eq_comm]

theorem plain_cons {c : UInt8} {e : Bytes} :
    Plain (c :: e) ↔ c ≠ 0 ∧ ¬ (c = 92 ∧ e.head? = some 120) ∧ Plain e := by
  refine ⟨fun h => ⟨?_, ?_, ?_, ?_⟩, fun h => ⟨nulFree_cons h.1 h.2.2.nulFree, ?_⟩⟩
  · exact fun h0 => h.nulFree (h0 ▸ List.mem_cons_self)
  · exact fun hpair => h.no_escape (infix_cons_iff.2 (Or.inl hpair))
  · exact h.nulFree.of_sublist (List.sublist_cons_self _ _)
  · exact fun hin => h.no_escape (infix_cons_iff.2 (Or.inr hin))
  · intro hin
    exact (infix_cons_iff.1 hin).elim h.2.1 h.2.2.no_escape

theorem head?_append_nul {e : Bytes} : (e ++ [0]).head? = some 120 ↔ e.head? = some 120 := by
  cases e <;> simp

theorem xorScan_of_plain {e : Bytes} (h : Plain e) : xorScan (e ++ [0]) = some e := by
  induction e with
  | nil => rfl
  | cons c e ih =>
    obtain ⟨hc, hpair, he⟩ := plain_cons.1 h
    rw [List.cons_append, xorScan.eq_def]
    simp only [hc, head?_append_nul, hpair, if_false, ih he]
    rfl

/-- The scan stores fewer bytes than there are where it stops early or takes an escape. -/
theorem xorScan_length {e stored : Bytes} (h : xorScan (e ++ [0]) = some stored) :
    stored.length ≤ e.length ∧ (stored.length = e.length → Plain e) := by
  induction hn : e.length using Nat.strong_induction_on generalizing e stored with
  | _ n ih =>
    subst hn
    cases e with
    | nil =>
      obtain rfl := Option.some.inj h
      exact ⟨le_rfl, fun _ => ⟨by simp [NulFree], by simp⟩⟩
    | cons c e =>
      rw [List.cons_append, xorScan.eq_def] at h
      simp only [head?_append_nul] at h
      split_ifs at h with hc hpair
      · obtain rfl := Option.some.inj h
        simp
      · obtain ⟨rfl, hhead⟩ := hpair
        obtain ⟨e, rfl⟩ : ∃ t, e = 120 :: t := by
          cases e with
          | nil => simp at hhead
          | cons d e => exact ⟨e, by simpa using hhead⟩
        cases e with
        | nil => simp at h
        | cons a e =>
          cases e with
          | nil =>
            rw [List.cons_append, List.cons_append, List.nil_append] at h
            simp [xorScan] at h
          | cons b e =>
            simp only [List.cons_append] at h
            obtain ⟨tail, htail, rfl⟩ := Option.map_eq_some_iff.1 h
            have hle := (ih e.length (by simp only [List.length_cons]; omega) htail rfl).1
            simp only [List.length_cons]
            refine ⟨by omega, fun heq => ?_⟩
            omega
      · obtain ⟨tail, htail, rfl⟩ := Option.map_eq_some_iff.1 h
        obtain ⟨hle, hplain⟩ := ih e.length (by simp) htail rfl
        simp only [List.length_cons]
        exact ⟨by omega, fun heq => plain_cons.2 ⟨hc, hpair, hplain (by omega)⟩⟩

/-! ### XOR -/

/-- A literal body of printable ASCII without quote or backslash, which `result` has room
for. -/
structure PrintableBody (s : Text) : Prop where
  printable : ∀ c ∈ s, 32 ≤ c.toNat ∧ c.toNat ≤ 126 ∧ c ≠ '"' ∧ c ≠ '\\'
  length : 3 ≤ s.length ∧ s.length ≤ 1023

theorem encode_of_ascii {s : Text} (hs : ∀ c ∈ s, c.toNat < 128) :
    encode s = s.map fun c => UInt8.ofNat c.toNat := by
  induction s with
  | nil => rfl
  | cons c s ih =>
    have hc := hs c List.mem_cons_self
    have hchar : String.utf8EncodeChar c = [UInt8.ofNat c.toNat] := by
      unfold String.utf8EncodeChar
      exact if_pos (Nat.le_of_lt_succ hc)
    rw [encode, List.flatMap_cons, ← encode, hchar, ih fun d hd => hs d (List.mem_cons_of_mem c hd)]
    rfl

section Xor

variable {s : Text} {key : ℕ}

theorem xorBytes_xor (s : Text) (key : ℕ) :
    (xorBytes s key).map (· ^^^ UInt8.ofNat key) = s.map fun c => UInt8.ofNat c.toNat := by
  rw [xorBytes, List.map_map]
  refine List.map_congr_left fun c _ => ?_
  rw [Function.comp_apply, ← UInt8.ofNat_xor, Nat.xor_assoc, Nat.xor_self, Nat.xor_zero]

theorem ofNat_eq_ofNat {m n : ℕ} (hm : m < 256) (hn : n < 256) :
    UInt8.ofNat m = UInt8.ofNat n ↔ m = n := by
  refine ⟨fun h => ?_, fun h => h ▸ rfl⟩
  have := congrArg UInt8.toNat h
  rwa [UInt8.toNat_ofNat_of_lt' hm, UInt8.toNat_ofNat_of_lt' hn] at this

/-- A character that becomes a given byte under the key. -/
theorem xor_eq_byte_iff {c : Char} (hc : c.toNat < 256) (hkey : key < 256) {b : ℕ} (hb : b < 256) :
    UInt8.ofNat (c.toNat ^^^ key) = UInt8.ofNat b ↔ c.toNat = b ^^^ key := by
  rw [ofNat_eq_ofNat (xor_lt hc hkey) hb]
  refine ⟨fun h => ?_, fun h => ?_⟩
  · rw [← h, Nat.xor_assoc, Nat.xor_self, Nat.xor_zero]
  · rw [h, Nat.xor_assoc, Nat.xor_self, Nat.xor_zero]

theorem toNat_eq_iff {c : Char} {n : ℕ} (hn : n < 256) : c.toNat = n ↔ c = Char.ofNat n := by
  have hback : (Char.ofNat n).toNat = n := toNat_ofNat_of_isValidChar (Or.inl (by omega))
  refine ⟨fun h => ?_, fun h => h ▸ hback⟩
  rw [← h, Char.ofNat_toNat]

theorem infix_map_pair {f : Char → UInt8} {a b : UInt8} {s : Text} :
    [a, b] <:+: s.map f ↔ ∃ x y, [x, y] <:+: s ∧ f x = a ∧ f y = b := by
  rw [List.infix_map_iff]
  refine ⟨?_, ?_⟩
  · rintro ⟨l, hl, heq⟩
    match l, heq with
    | [x, y], heq =>
      simp only [List.map_cons, List.map_nil, List.cons.injEq, and_true] at heq
      exact ⟨x, y, hl, heq.1.symm, heq.2.symm⟩
  · rintro ⟨x, y, hin, rfl, rfl⟩
    exact ⟨[x, y], hin, rfl⟩

theorem plain_xorBytes_iff (hs : ∀ c ∈ s, c.toNat < 256) (hkey : key < 256) :
    Plain (xorBytes s key) ↔ (∀ c ∈ s, c.toNat ≠ key) ∧
      ¬ [Char.ofNat (92 ^^^ key), Char.ofNat (120 ^^^ key)] <:+: s := by
  have hbyte (b : ℕ) (hb : b < 256) (c : Char) (hc : c ∈ s) :
      UInt8.ofNat (c.toNat ^^^ key) = UInt8.ofNat b ↔ c = Char.ofNat (b ^^^ key) :=
    (xor_eq_byte_iff (hs c hc) hkey hb).trans (toNat_eq_iff (xor_lt hb hkey))
  have hnul : NulFree (xorBytes s key) ↔ ∀ c ∈ s, c.toNat ≠ key := by
    simp only [NulFree, xorBytes, List.mem_map, not_exists, not_and]
    refine forall₂_congr fun c hc => not_congr ?_
    have hzero := xor_eq_byte_iff (b := 0) (hs c hc) hkey (by omega)
    rwa [Nat.zero_xor] at hzero
  have hpair : [92, 120] <:+: xorBytes s key ↔
      [Char.ofNat (92 ^^^ key), Char.ofNat (120 ^^^ key)] <:+: s := by
    rw [xorBytes, infix_map_pair]
    refine ⟨?_, fun h => ⟨_, _, h, ?_, ?_⟩⟩
    · rintro ⟨x, y, hin, hx, hy⟩
      rw [(hbyte 92 (by omega) x (hin.subset (by simp))).1 hx,
        (hbyte 120 (by omega) y (hin.subset (by simp))).1 hy] at hin
      exact hin
    · exact (hbyte 92 (by omega) _ (h.subset (by simp))).2 rfl
    · exact (hbyte 120 (by omega) _ (h.subset (by simp))).2 rfl
  exact ⟨fun h => ⟨hnul.1 h.nulFree, hpair.not.1 h.no_escape⟩,
    fun h => ⟨hnul.2 h.1, hpair.not.2 h.2⟩⟩

/-- `__decrypt_xor`, run on the bytes the compiler makes of the emitted literal, stores the
characters of the original exactly if none of them is the key and no two in a row become a
backslash and an x. -/
theorem decrypt_xor_restores_iff (hs : PrintableBody s) (hkey : 1 ≤ key ∧ key ≤ 255) :
    (literalValue (encode (xorBody s key))).bind (decryptXor · key) = some (encode s) ↔
      (∀ c ∈ s, c.toNat ≠ key) ∧
      ¬ [Char.ofNat (92 ^^^ key), Char.ofNat (120 ^^^ key)] <:+: s := by
  have hascii : ∀ c ∈ s, c.toNat < 128 := fun c hc => by
    have := hs.printable c hc
    omega
  have hbyte : ∀ c ∈ s, c.toNat < 256 := fun c hc => (hascii c hc).trans (by omega)
  have hlength : (xorBytes s key).length = s.length := List.length_map _
  have hs' := hs.length
  rw [literalValue_xorBody hbyte (by omega), Option.bind_some, ← plain_xorBytes_iff hbyte (by omega),
    encode_of_ascii hascii, decryptXor]
  refine ⟨fun h => ?_, fun h => ?_⟩
  · cases hscan : xorScan (xorBytes s key ++ [0]) with
    | none =>
      rw [hscan] at h
      cases h
    | some stored =>
      simp only [hscan] at h
      split_ifs at h
      have hcount := congrArg List.length (Option.some.inj h)
      rw [List.length_map, List.length_map] at hcount
      exact (xorScan_length hscan).2 (hcount.trans hlength.symm)
  · simp only [xorScan_of_plain h, xorBytes_xor]
    rw [if_pos (by omega)]

/-- A text that the key leaves alone. -/
theorem decrypt_xor_restores_hello :
    (literalValue (encode (xorBody "hello".toList 7))).bind (decryptXor · 7) =
      some (encode "hello".toList) :=
  (decrypt_xor_restores_iff ⟨by simp, by simp⟩ ⟨by omega, by omega⟩).2 ⟨by simp, by decide +kernel⟩

/-- Under the key 104 the first letter of `hello` becomes the terminator. -/
theorem xor_hello_empty :
    PrintableBody "hello".toList ∧
    literalValue (encode (xorBody "hello".toList 104)) = some [0, 13, 4, 4, 7] ∧
    decryptXor [0, 13, 4, 4, 7] 104 = some [] ∧
    (literalValue (encode (xorBody "hello".toList 104))).bind (decryptXor · 104) ≠
      some (encode "hello".toList) := by
  exact ⟨⟨by simp, by simp⟩, by decide +kernel⟩

end Xor

/-! ### Base64 -/

/-- A literal body that `encrypt_strings` finds and accepts, short enough for the buffer. -/
structure Base64Literal (s : Text) : Prop where
  unquoted : '"' ∉ s
  kept : keepString s = true
  length : (encode s).length ≤ 1022

/-- The buffer between calls: no call has written to its last byte. -/
structure BufferOk (buffer : Bytes) : Prop where
  length : buffer.length = 1024
  last : buffer.drop 1023 = [0]

theorem bufferOk_init : BufferOk initBuffer := by
  refine ⟨List.length_replicate, ?_⟩
  rw [initBuffer, List.drop_replicate]
  rfl

theorem decryptB64_eq {buffer : Bytes} (hb : BufferOk buffer) {s : Text}
    (hs : (encode s).length ≤ 1022) :
    decryptB64 buffer (base64 (encode s)) =
      some (encode s ++ terminator :: buffer.drop ((encode s).length + 1)) := by
  have hlength := hb.length
  simp only [decryptB64, b64Decode_base64]
  rw [if_pos (by omega)]

theorem bufferOk_step {buffer : Bytes} (hb : BufferOk buffer) {s : Bytes} (hs : s.length ≤ 1022) :
    BufferOk (s ++ terminator :: buffer.drop (s.length + 1)) := by
  have hlength := hb.length
  refine ⟨?_, ?_⟩
  · rw [List.length_append, List.length_cons, List.length_drop]
    omega
  · have hsplit : 1023 = s.length + ((1022 - s.length) + 1) := by omega
    have hdrop : s.length + 1 + (1022 - s.length) = 1023 := by omega
    rw [hsplit, List.drop_length_add_append, List.drop_succ_cons, List.drop_drop, hdrop, hb.last]

theorem bufferAfter_ok {bodies : List Text} (h : ∀ s ∈ bodies, (encode s).length ≤ 1022) :
    ∃ buffer, bufferAfter bodies = some buffer ∧ BufferOk buffer := by
  suffices hfold : ∀ buffer, BufferOk buffer → ∃ buffer', bodies.foldlM
      (fun buffer s => decryptB64 buffer (base64 (encode s))) buffer = some buffer' ∧
      BufferOk buffer' from hfold initBuffer bufferOk_init
  induction bodies with
  | nil => exact fun buffer hb => ⟨buffer, rfl, hb⟩
  | cons s bodies ih =>
    intro buffer hb
    have hs := h s List.mem_cons_self
    rw [List.foldlM_cons, decryptB64_eq hb hs]
    exact ih (fun t ht => h t (List.mem_cons_of_mem s ht)) _ (bufferOk_step hb hs)

/-- The digit that is stored for the terminator makes the returned string longer than any
literal the same text can be. -/
theorem literalValue_ne_cstr {s rest : Bytes} :
    literalValue s ≠ some (cstr (s ++ terminator :: rest)) := by
  intro h
  have hfree := literalAfter_nulFree (by simp [NulFree]) h (cstr_nulFree _)
  have hlength := literalAfter_length (Nat.zero_le _) h
  have hsome : cstr (s ++ terminator :: rest) = s ++ terminator :: cstr rest := by
    have hs : ∀ c ∈ s, (c != 0) = true := by
      intro c hc
      have hne : c ≠ 0 := fun h0 => hfree (h0 ▸ hc)
      simpa using hne
    rw [cstr, List.takeWhile_append_of_pos hs, List.takeWhile_cons_of_pos (by decide), cstr]
  rw [hsome, List.length_append, List.length_cons] at hlength
  omega

/-- Whatever was decrypted before, the string that `__decrypt_b64` returns for a literal is
not the value of that literal. -/
theorem decrypt_b64_never_restores {earlier : List Text} {s : Text}
    (hearlier : ∀ t ∈ earlier, Base64Literal t) (hs : Base64Literal s) :
    ∃ buffer, bufferAfter (earlier ++ [s]) = some buffer ∧ (0 : UInt8) ∈ buffer ∧
      literalValue (encode s) ≠ some (cstr buffer) := by
  obtain ⟨buffer, hbuffer, hok⟩ := bufferAfter_ok fun t ht => (hearlier t ht).length
  refine ⟨encode s ++ terminator :: buffer.drop ((encode s).length + 1), ?_, ?_,
    literalValue_ne_cstr⟩
  · rw [bufferAfter, List.foldlM_append, ← bufferAfter, hbuffer]
    simp [decryptB64_eq hok hs.length]
  · have hlast := (bufferOk_step hok hs.length).last
    exact List.mem_of_mem_drop (hlast ▸ List.mem_singleton_self 0)

/-- After a longer string, what is left of it follows as well. -/
theorem decrypt_b64_abc : Base64Literal "hello".toList ∧ Base64Literal "abc".toList ∧
    ∃ buffer, bufferAfter (["hello".toList] ++ ["abc".toList]) = some buffer ∧
      (0 : UInt8) ∈ buffer ∧ literalValue (encode "abc".toList) ≠ some (cstr buffer) := by
  have hhello : Base64Literal "hello".toList := ⟨by simp, rfl, by decide⟩
  have habc : Base64Literal "abc".toList := ⟨by simp, rfl, by decide⟩
  exact ⟨hhello, habc, decrypt_b64_never_restores (fun t ht => by simp_all) habc⟩

/-- The first call of the program, for `abc`, returns `abc0`. -/
theorem decrypt_b64_abc0 :
    (bufferAfter ["abc".toList]).map cstr = some (ascii "abc0") ∧
    literalValue (encode "abc".toList) = some (ascii "abc") ∧
    literalValue (encode "abc".toList) ≠ (bufferAfter ["abc".toList]).map cstr := by
  decide +kernel

/-! ### The calls that are emitted -/

section Calls

variable {U : Classes}

/-- The text between the quotes of a call's argument. -/
def callBody (s : Text) : StringDraw → Text
  | .base64 => base64Body s
  | .xor key => xorBody s key

theorem quote_ne_digitChar : ∀ d < 16, '"' ≠ Nat.digitChar d := by decide

theorem quote_notMem_toDigits {b : ℕ} (hb : 1 < b ∧ b ≤ 16) (n : ℕ) : '"' ∉ Nat.toDigits b n := by
  induction n using Nat.strong_induction_on with
  | _ n ih =>
    rw [Nat.toDigits_eq_if hb.1]
    split_ifs with hn
    · rw [List.mem_singleton]
      exact quote_ne_digitChar n (by omega)
    · have hlast := quote_ne_digitChar (n % b) ((Nat.mod_lt n (by omega)).trans_le hb.2)
      have hfront := ih (n / b) (Nat.div_lt_self (by omega) hb.1)
      rw [List.mem_append, List.mem_singleton]
      exact not_or.2 ⟨hfront, hlast⟩

theorem quote_notMem_xorBody (s : Text) (key : ℕ) : '"' ∉ xorBody s key := by
  intro h
  obtain ⟨c, -, hc⟩ := List.mem_flatMap.1 h
  have hdigits := quote_notMem_toDigits (b := 16) (by omega) (c.toNat ^^^ key)
  rw [hexEscape] at hc
  split_ifs at hc
  · simp [hdigits] at hc
  · simp [hdigits] at hc

theorem toNat_ofNat_byte (b : UInt8) : (Char.ofNat b.toNat).toNat = b.toNat := by
  have hlt := b.toNat_lt
  exact toNat_ofNat_of_isValidChar (.inl (by omega))

theorem quote_notMem_base64Body (s : Text) : '"' ∉ base64Body s := by
  intro h
  obtain ⟨b, hb, heq⟩ := List.mem_map.1 h
  have hcode := congrArg Char.toNat heq
  rw [toNat_ofNat_byte] at hcode
  exact (isBase64_plain b (isBase64_base64 _ b hb)).2.1 (UInt8.toNat_inj.1 hcode)

theorem quote_notMem_callBody (s : Text) (draw : StringDraw) : '"' ∉ callBody s draw := by
  cases draw with
  | base64 => exact quote_notMem_base64Body s
  | xor key => exact quote_notMem_xorBody s key

/-- The compiler stores the base64 of the literal for the argument of `__decrypt_b64`. -/
theorem literalValue_base64Body (s : Text) :
    literalValue (encode (base64Body s)) = some (base64 (encode s)) := by
  have hplain := fun b hb => isBase64_plain b (isBase64_base64 (encode s) b hb)
  have hbytes : encode (base64Body s) = base64 (encode s) := by
    rw [encode_of_ascii, base64Body, List.map_map]
    · refine (List.map_congr_left fun b hb => ?_).trans (List.map_id _)
      rw [Function.comp_apply, toNat_ofNat_byte, UInt8.ofNat_toNat, id]
    · intro c hc
      obtain ⟨b, hb, rfl⟩ := List.mem_map.1 hc
      rw [toNat_ofNat_byte]
      exact (hplain b hb).2.2.2.2.2.2
  rw [hbytes]
  exact literalValue_eq_self fun b hb =>
    ⟨(hplain b hb).2.2.1, (hplain b hb).2.2.2.1, (hplain b hb).2.1⟩

theorem splitOn_quoted {a b c : Text} (ha : '"' ∉ a) (hb : '"' ∉ b) (hc : '"' ∉ c) :
    (a ++ '"' :: (b ++ '"' :: c)).splitOn '"' = [a, b, c] := by
  rw [List.splitOn_append_cons_self_of_not_mem ha, List.splitOn_append_cons_self_of_not_mem hb,
    List.splitOn_eq_singleton hc]

theorem append_quoted (a b c : Text) : a ++ ['"'] ++ b ++ '"' :: c = a ++ '"' :: (b ++ '"' :: c) := by
  simp

theorem append_append_quoted (a b c d : Text) :
    a ++ '"' :: b ++ c ++ d = a ++ '"' :: (b ++ c ++ d) := by
  simp

/-- A call has one literal, its argument. -/
theorem splitOn_decryptCall (s : Text) (draw : StringDraw) :
    ∃ before after, (decryptCall s draw).splitOn '"' = [before, callBody s draw, after] := by
  have hbody := quote_notMem_callBody s draw
  obtain ⟨first, last, hfirst, hlast, hcall⟩ : ∃ first last, '"' ∉ first ∧ '"' ∉ last ∧
      decryptCall s draw = first ++ '"' :: (callBody s draw ++ '"' :: last) := by
    cases draw with
    | base64 =>
      have hcall : decryptCall s .base64 =
          "__decrypt_b64(".toList ++ ['"'] ++ base64Body s ++ '"' :: ")".toList := rfl
      exact ⟨"__decrypt_b64(".toList, ")".toList, by simp, by simp,
        hcall.trans (append_quoted _ _ _)⟩
    | xor key =>
      have hcall : decryptCall s (.xor key) = "__decrypt_xor(".toList ++ ['"'] ++ xorBody s key ++
          '"' :: ", ".toList ++ Nat.toDigits 10 key ++ ")".toList := rfl
      have hkey := quote_notMem_toDigits (b := 10) (by omega) key
      exact ⟨"__decrypt_xor(".toList, ", ".toList ++ Nat.toDigits 10 key ++ ")".toList, by simp,
        by simp [hkey], (hcall.trans (append_append_quoted _ _ _ _)).trans (append_quoted _ _ _)⟩
  exact ⟨first, last, hcall ▸ splitOn_quoted hfirst hbody hlast⟩

/-- `code.replace` for one literal. -/
def putCall (U : Classes) (code : Text) (call : Text × StringDraw) : Text :=
  sub U (.text ('"' :: call.1 ++ ['"'])) (fun _ => decryptCall call.1 call.2) code

/-- The loop puts one call after the other, for the literals that it keeps. -/
theorem encryptAll_eq_some {strings : List Text} {draws : List StringDraw} {code out : Text}
    (h : encryptAll U strings draws code = some out) :
    ∃ calls : List (Text × StringDraw), calls.map Prod.fst = strings.filter keepString ∧
      calls.map Prod.snd <+: draws ∧ out = calls.foldl (putCall U) code := by
  induction strings generalizing draws code with
  | nil =>
    obtain rfl := Option.some.inj h
    exact ⟨[], rfl, List.nil_prefix, rfl⟩
  | cons s strings ih =>
    rw [encryptAll.eq_def] at h
    dsimp only at h
    split_ifs at h with hs
    · cases draws with
      | nil => cases h
      | cons draw draws =>
        obtain ⟨calls, hstrings, hdraws, rfl⟩ := ih h
        refine ⟨(s, draw) :: calls, ?_, List.cons_prefix_cons.2 ⟨rfl, hdraws⟩, rfl⟩
        rw [List.map_cons, hstrings, List.filter_cons_of_pos hs]
    · obtain ⟨calls, hstrings, hdraws, rfl⟩ := ih h
      exact ⟨calls, by rw [hstrings, List.filter_cons_of_neg hs], hdraws, rfl⟩

/-- What `encrypt_strings` writes: calls in place of literals that it finds and keeps. The
argument of each is the body that the decryption functions are given. -/
theorem encryptStrings_calls {draws : List StringDraw} {code out : Text}
    (h : encryptStrings U draws code = some out) :
    ∃ calls : List (Text × StringDraw),
      calls.map Prod.snd <+: draws ∧ out = calls.foldl (putCall U) code ∧
      ∀ call ∈ calls, '"' ∉ call.1 ∧ keepString call.1 = true ∧
        (∃ before after, (decryptCall call.1 call.2).splitOn '"' =
          [before, callBody call.1 call.2, after]) ∧
        (call.2 = .base64 → literalValue (encode (callBody call.1 call.2)) =
          some (base64 (encode call.1))) := by
  obtain ⟨calls, hstrings, hdraws, hout⟩ := encryptAll_eq_some h
  refine ⟨calls, hdraws, hout, fun call hcall => ?_⟩
  have hkept : call.1 ∈ (List.filterMap _ _).filter keepString :=
    hstrings ▸ List.mem_map_of_mem hcall
  obtain ⟨hfound, hkeep⟩ := List.mem_filter.1 hkept
  obtain ⟨m, hm, hgroup⟩ := List.mem_filterMap.1 hfound
  have hstored : call.2 = .base64 → literalValue (encode (callBody call.1 call.2)) =
      some (base64 (encode call.1)) := by
    intro hdraw
    rw [hdraw]
    exact literalValue_base64Body call.1
  refine ⟨?_, hkeep, splitOn_decryptCall _ _, hstored⟩
  refine of_group?_finditer (P := fun s => '"' ∉ s) ?_ hm hgroup
  have hbody : Takes U (.star (.noneOf "\"")) fun s => '"' ∉ s := by
    refine (takes_star_one _).imp fun s hs hquote => ?_
    have hnot := hs _ hquote
    simp at hnot
  exact ⟨trivial, ⟨trivial, fun _ => hbody⟩, trivial, trivial⟩

end Calls

end Mesh.Obfuscator
