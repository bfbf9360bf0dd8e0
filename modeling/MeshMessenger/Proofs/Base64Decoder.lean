import MeshMessenger.Obfuscator.Strings
import MeshMessenger.Proofs.Base64

/-! The emitted `__b64_decode` reads back what `base64.b64encode` writes: one group of four
characters at a time, and the padded group after the loop. -/

namespace Mesh.Obfuscator

open CLib

/-! ### Lookups and bytes -/

theorem base64Index_base64Char : ∀ n < 64, base64Index (base64Char n) = some (UInt8.ofNat n) := by
  decide

/-- An empty cell is looked up as the terminator, behind the 64 characters. -/
theorem base64Index_nul : base64Index 0 = some 64 := rfl

/-- The masks and shifts of the three bytes, each on its own. -/
theorem parts : ∀ n < 64,
    UInt8.ofNat n <<< 2 = UInt8.ofNat (n * 4) ∧
    (UInt8.ofNat n &&& 0x30) >>> 4 = UInt8.ofNat (n / 16) ∧
    (UInt8.ofNat n &&& 0xf) <<< 4 = UInt8.ofNat (n % 16 * 16) ∧
    (UInt8.ofNat n &&& 0x3c) >>> 2 = UInt8.ofNat (n / 4) ∧
    (UInt8.ofNat n &&& 0x3) <<< 6 = UInt8.ofNat (n % 4 * 64) := by
  decide

theorem first_byte {x y : ℕ} (hx : x < 64) (hy : y < 64) :
    (UInt8.ofNat x <<< 2) + ((UInt8.ofNat y &&& 0x30) >>> 4) = UInt8.ofNat (x * 4 + y / 16) := by
  rw [(parts x hx).1, (parts y hy).2.1, UInt8.ofNat_add]

theorem second_byte {y z : ℕ} (hy : y < 64) (hz : z < 64) :
    ((UInt8.ofNat y &&& 0xf) <<< 4) + ((UInt8.ofNat z &&& 0x3c) >>> 2) =
      UInt8.ofNat (y % 16 * 16 + z / 4) := by
  rw [(parts y hy).2.2.1, (parts z hz).2.2.2.1, UInt8.ofNat_add]

theorem third_byte {z : ℕ} (hz : z < 64) (w : ℕ) :
    ((UInt8.ofNat z &&& 0x3) <<< 6) + UInt8.ofNat w = UInt8.ofNat (z % 4 * 64 + w) := by
  rw [(parts z hz).2.2.2.2, UInt8.ofNat_add]

theorem ofNat_of_eq {n : ℕ} (a : UInt8) (h : n = a.toNat) : UInt8.ofNat n = a := by
  rw [h, UInt8.ofNat_toNat]

section Group

variable {x y z w : ℕ} (hx : x < 64) (hy : y < 64) (hz : z < 64) (hw : w < 64)

include hx hy hz hw in
theorem decodeFour_full :
    decodeFour (base64Char x) (base64Char y) (base64Char z) (base64Char w) =
      some [UInt8.ofNat (x * 4 + y / 16), UInt8.ofNat (y % 16 * 16 + z / 4),
        UInt8.ofNat (z % 4 * 64 + w)] := by
  simp only [decodeFour, base64Index_base64Char _ hx, base64Index_base64Char _ hy,
    base64Index_base64Char _ hz, base64Index_base64Char _ hw, Option.bind_eq_bind,
    Option.bind_some, Option.pure_def, threeBytes]
  rw [first_byte hx hy, second_byte hy hz, third_byte hz w]

include hx hy hz in
theorem decodeFour_three :
    (decodeFour (base64Char x) (base64Char y) (base64Char z) 0).map (List.take 2) =
      some [UInt8.ofNat (x * 4 + y / 16), UInt8.ofNat (y % 16 * 16 + z / 4)] := by
  simp only [decodeFour, base64Index_base64Char _ hx, base64Index_base64Char _ hy,
    base64Index_base64Char _ hz, base64Index_nul, Option.bind_eq_bind, Option.bind_some,
    Option.pure_def, threeBytes, Option.map_some]
  rw [first_byte hx hy, second_byte hy hz]
  rfl

include hx hy in
theorem decodeFour_two :
    (decodeFour (base64Char x) (base64Char y) 0 0).map (List.take 1) =
      some [UInt8.ofNat (x * 4 + y / 16)] := by
  simp only [decodeFour, base64Index_base64Char _ hx, base64Index_base64Char _ hy,
    base64Index_nul, Option.bind_eq_bind, Option.bind_some, Option.pure_def, threeBytes,
    Option.map_some]
  rw [first_byte hx hy]
  rfl

end Group

/-! ### The loop -/

section Loop

variable {encoded : Bytes} {i n : ℕ}

theorem getD_of_drop {c : UInt8} {t : Bytes} (h : encoded.drop i = c :: t) :
    encoded.getD i 0 = c ∧ encoded.drop (i + 1) = t := by
  have hget : encoded[i]? = some c := by
    rw [← List.head?_drop, h]
    rfl
  refine ⟨by rw [List.getD_eq_getElem?_getD, hget]; rfl, ?_⟩
  rw [← List.drop_drop, h]
  rfl

/-- A character for a cell that is not the last one. -/
theorem b64Loop_cell {c : UInt8} {t cells : Bytes} (h : encoded.drop i = c :: t) (hc : c ≠ 61)
    (hcells : cells.length < 3) :
    b64Loop encoded (n + 1) i cells = b64Loop encoded n (i + 1) (cells ++ [c]) := by
  rw [b64Loop, (getD_of_drop h).1, if_neg hc]
  split
  · rename_i hfour
    have := congrArg List.length hfour
    simp at this
    omega
  · rfl

theorem b64Loop_pad {t cells : Bytes} (h : encoded.drop i = 61 :: t) :
    b64Loop encoded (n + 1) i cells = some ([], cells) := by
  rw [b64Loop, (getD_of_drop h).1, if_pos rfl]

/-- The fourth character: the group is decoded. -/
theorem b64Loop_last {a b c d : UInt8} {t three : Bytes} (h : encoded.drop i = d :: t)
    (hd : d ≠ 61) (hthree : decodeFour a b c d = some three) :
    b64Loop encoded (n + 1) i [a, b, c] =
      (b64Loop encoded n (i + 1) []).map fun r => (three ++ r.1, r.2) := by
  rw [b64Loop, (getD_of_drop h).1, if_neg hd]
  simp only [List.cons_append, List.nil_append, hthree, Option.bind_eq_bind, Option.bind_some,
    Option.pure_def]
  cases b64Loop encoded n (i + 1) [] <;> rfl

theorem b64Loop_full_group {x y z w : ℕ} (hx : x < 64) (hy : y < 64) (hz : z < 64) (hw : w < 64)
    {t : Bytes} (h : encoded.drop i =
      base64Char x :: base64Char y :: base64Char z :: base64Char w :: t) :
    encoded.drop (i + 4) = t ∧
    b64Loop encoded (n + 4) i [] = (b64Loop encoded n (i + 4) []).map fun r =>
      ([UInt8.ofNat (x * 4 + y / 16), UInt8.ofNat (y % 16 * 16 + z / 4),
        UInt8.ofNat (z % 4 * 64 + w)] ++ r.1, r.2) := by
  have h1 := (getD_of_drop h).2
  have h2 := (getD_of_drop h1).2
  have h3 := (getD_of_drop h2).2
  refine ⟨(getD_of_drop h3).2, ?_⟩
  rw [b64Loop_cell h (base64Char_ne_pad x hx) (by simp),
    b64Loop_cell h1 (base64Char_ne_pad y hy) (by simp),
    b64Loop_cell h2 (base64Char_ne_pad z hz) (by simp)]
  exact b64Loop_last h3 (base64Char_ne_pad w hw) (decodeFour_full hx hy hz hw)

end Loop

/-- What the code after the loop stores for the cells that are left over. -/
def b64Tail (cells : Bytes) : Option Bytes :=
  if cells = [] then some []
  else
    let filled := cells ++ List.replicate (4 - cells.length) 0
    (decodeFour (filled.getD 0 0) (filled.getD 1 0) (filled.getD 2 0) (filled.getD 3 0)).map
      (List.take (cells.length - 1))

theorem b64Decode_eq (encoded : Bytes) (len : ℕ) :
    b64Decode encoded len =
      (b64Loop encoded len 0 []).bind fun r => (b64Tail r.2).map (r.1 ++ ·) := by
  simp only [b64Decode, b64Tail, Option.bind_eq_bind]
  congr 1
  funext r
  obtain ⟨stored, cells⟩ := r
  by_cases hcells : cells = []
  · simp [hcells]
  · simp only [hcells, if_false]
    cases decodeFour _ _ _ _ <;> rfl

theorem b64Loop_base64 (s : Bytes) {encoded : Bytes} {i : ℕ} (h : encoded.drop i = base64 s) :
    (b64Loop encoded (base64 s).length i []).bind (fun r => (b64Tail r.2).map (r.1 ++ ·)) =
      some s := by
  fun_induction base64 s generalizing i with
  | case1 => rfl
  | case2 a =>
    have ha := a.toNat_lt
    have h1 := (getD_of_drop h).2
    have h2 := (getD_of_drop h1).2
    have htwo := decodeFour_two (x := a.toNat / 4) (y := a.toNat % 4 * 16) (by omega) (by omega)
    simp only [List.length_cons, List.length_nil]
    rw [b64Loop_cell h (base64Char_ne_pad _ (by omega)) (by simp),
      b64Loop_cell h1 (base64Char_ne_pad _ (by omega)) (by simp), b64Loop_pad h2]
    rw [ofNat_of_eq a (by omega)] at htwo
    simpa [b64Tail] using htwo
  | case3 a b =>
    have ha := a.toNat_lt
    have hb := b.toNat_lt
    have h1 := (getD_of_drop h).2
    have h2 := (getD_of_drop h1).2
    have h3 := (getD_of_drop h2).2
    have hthree := decodeFour_three (x := a.toNat / 4) (y := a.toNat % 4 * 16 + b.toNat / 16)
      (z := b.toNat % 16 * 4) (by omega) (by omega) (by omega)
    simp only [List.length_cons, List.length_nil]
    rw [b64Loop_cell h (base64Char_ne_pad _ (by omega)) (by simp),
      b64Loop_cell h1 (base64Char_ne_pad _ (by omega)) (by simp),
      b64Loop_cell h2 (base64Char_ne_pad _ (by omega)) (by simp), b64Loop_pad h3]
    rw [ofNat_of_eq a (by omega), ofNat_of_eq b (by omega)] at hthree
    simpa [b64Tail] using hthree
  | case4 a b c rest ih =>
    have ha := a.toNat_lt
    have hb := b.toNat_lt
    have hc := c.toNat_lt
    obtain ⟨hrest, hloop⟩ := b64Loop_full_group (n := (base64 rest).length) (by omega) (by omega)
      (by omega) (by omega) h
    simp only [List.length_cons]
    rw [hloop, ofNat_of_eq a (by omega), ofNat_of_eq b (by omega), ofNat_of_eq c (by omega)]
    have htail := ih hrest
    cases hr : b64Loop encoded (base64 rest).length (i + 4) [] with
    | none =>
      rw [hr] at htail
      cases htail
    | some r =>
      rw [hr, Option.bind_some] at htail
      obtain ⟨stored, hstored, heq⟩ := Option.map_eq_some_iff.1 htail
      simp [hstored, heq]

theorem b64Decode_base64 (s : Bytes) : b64Decode (base64 s) (base64 s).length = some s := by
  rw [b64Decode_eq]
  exact b64Loop_base64 s rfl

theorem base64Index_isSome : ∀ c : UInt8, isBase64 c = true → c ≠ 61 → (base64Index c).isSome :=
  forall_byte (by decide +kernel)

/-- The emitted decoder stores exactly the bytes that were encoded, and finds every character
that it looks up, the empty cells of a padded group behind the 64 characters. -/
theorem b64_decode_inverts_base64 (s : Bytes) :
    b64Decode (base64 s) (base64 s).length = some s ∧
    (∀ c ∈ base64 s, c ≠ 61 → (base64Index c).isSome) ∧ base64Index 0 = some 64 :=
  ⟨b64Decode_base64 s, fun c hc => base64Index_isSome c (isBase64_base64 s c hc), base64Index_nul⟩

end Mesh.Obfuscator
