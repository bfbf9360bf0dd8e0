import MeshMessenger.Lib.CString

/-! Decoding UTF-8 with replacement: a byte at which no valid sequence starts becomes
the replacement character, and decoding goes on at the next byte. -/

namespace CLib

def isContinuation (b : UInt8) : Bool := 0x80 ≤ b && b ≤ 0xBF

/-- How many continuation bytes a lead byte announces. -/
def utf8Extra (b : UInt8) : Option ℕ :=
  if b < 0x80 then some 0
  else if 0xC2 ≤ b ∧ b ≤ 0xDF then some 1
  else if 0xE0 ≤ b ∧ b ≤ 0xEF then some 2
  else if 0xF0 ≤ b ∧ b ≤ 0xF4 then some 3
  else none

/-- The bits of a lead byte with `k` continuation bytes. -/
def utf8Lead (k : ℕ) (b : UInt8) : ℕ := if k = 0 then b.toNat else b.toNat % 2 ^ (6 - k)

/-- The first code point that needs `k` continuation bytes. -/
def utf8Min : ℕ → ℕ
  | 0 => 0
  | 1 => 0x80
  | 2 => 0x800
  | _ => 0x10000

/-- The character that starts with byte `b` and the continuation bytes it takes. -/
def utf8Head (b : UInt8) (rest : Bytes) : Option (Char × ℕ) :=
  match utf8Extra b with
  | none => none
  | some k =>
    let tail := rest.take k
    let code := tail.foldl (fun n c => n * 64 + c.toNat % 64) (utf8Lead k b)
    if tail.length = k ∧ tail.all isContinuation ∧ utf8Min k ≤ code ∧ code.isValidChar then
      some (Char.ofNat code, k)
    else none

def replacementChar : Char := Char.ofNat 0xFFFD

/-- Decodes after skipping bytes that belong to the last character. -/
def decodeAfter : ℕ → Bytes → List Char
  | _, [] => []
  | k + 1, _ :: rest => decodeAfter k rest
  | 0, b :: rest =>
    match utf8Head b rest with
    | none => replacementChar :: decodeAfter 0 rest
    | some (c, k) => c :: decodeAfter k rest

def fromUtf8 (s : Bytes) : List Char := decodeAfter 0 s

/-! ### Boundaries at ASCII bytes -/

theorem toNat_ofNat_of_isValidChar {n : ℕ} (h : n.isValidChar) : (Char.ofNat n).toNat = n := by
  rw [Char.ofNat, dif_pos h]
  rfl

theorem utf8Head_ascii {b : UInt8} (hb : b < 0x80) (rest : Bytes) :
    utf8Head b rest = some (Char.ofNat b.toNat, 0) := by
  have hlt : b.toNat < 0x80 := hb
  have hvalid : b.toNat.isValidChar := .inl (by omega)
  simp [utf8Head, utf8Extra, hb, utf8Lead, utf8Min, hvalid]

theorem not_isContinuation {b : UInt8} (hb : b < 0x80) : isContinuation b = false := by
  have hlt : b.toNat < 0x80 := hb
  simp only [isContinuation, Bool.and_eq_false_iff, decide_eq_false_iff_not, UInt8.le_iff_toNat_le]
  left
  simp only [UInt8.reduceToNat]
  omega

/-- A sequence never reaches over an ASCII byte. -/
theorem utf8Head_append {a : UInt8} (ha : a < 0x80) (b : UInt8) (s t : Bytes) :
    utf8Head b (s ++ a :: t) = utf8Head b s := by
  unfold utf8Head
  cases utf8Extra b with
  | none => rfl
  | some k =>
    by_cases hk : k ≤ s.length
    · simp only [List.take_append_of_le_length hk]
    · have hmem : a ∈ (s ++ a :: t).take k := by
        rw [List.take_append]
        obtain ⟨m, hm⟩ : ∃ m, k - s.length = m + 1 := ⟨k - s.length - 1, by omega⟩
        rw [hm, List.take_succ_cons]
        simp
      have hall : ¬ ((s ++ a :: t).take k).all isContinuation = true := by
        intro hall
        rw [List.all_eq_true] at hall
        exact absurd (hall a hmem) (by simp [not_isContinuation ha])
      have hlen : ¬ (s.take k).length = k := by
        rw [List.length_take]
        omega
      simp only
      rw [if_neg fun h => hall h.2.1, if_neg fun h => hlen h.1]

theorem utf8Head_le {b : UInt8} {s : Bytes} {c : Char} {k : ℕ} (h : utf8Head b s = some (c, k)) :
    k ≤ s.length := by
  unfold utf8Head at h
  cases hk : utf8Extra b with
  | none => simp [hk] at h
  | some k' =>
    simp only [hk] at h
    split_ifs at h with hcond
    obtain ⟨-, rfl⟩ := Prod.mk.inj (Option.some.inj h)
    have := hcond.1
    rw [List.length_take] at this
    omega

theorem decodeAfter_append {a : UInt8} (ha : a < 0x80) (t : Bytes) :
    ∀ (s : Bytes) (k : ℕ), k ≤ s.length →
      decodeAfter k (s ++ a :: t) = decodeAfter k s ++ decodeAfter 0 (a :: t) := by
  intro s
  induction s with
  | nil =>
    intro k hk
    obtain rfl : k = 0 := by simpa using hk
    rfl
  | cons b s ih =>
    intro k hk
    cases k with
    | succ k => exact ih k (by simpa using hk)
    | zero =>
      simp only [List.cons_append, decodeAfter]
      rw [utf8Head_append ha]
      cases h : utf8Head b s with
      | none =>
        simp only [List.cons_append]
        rw [ih 0 (Nat.zero_le _)]
        rfl
      | some p =>
        obtain ⟨c, k⟩ := p
        simp only [List.cons_append]
        rw [ih k (utf8Head_le h)]
        rfl

/-- Decoding splits in front of an ASCII byte. -/
theorem fromUtf8_append {a : UInt8} (ha : a < 0x80) (s t : Bytes) :
    fromUtf8 (s ++ a :: t) = fromUtf8 s ++ Char.ofNat a.toNat :: fromUtf8 t := by
  unfold fromUtf8
  rw [decodeAfter_append ha t s 0 (Nat.zero_le _)]
  simp only [decodeAfter, utf8Head_ascii ha]

theorem fromUtf8_cons {a : UInt8} (ha : a < 0x80) (s : Bytes) :
    fromUtf8 (a :: s) = Char.ofNat a.toNat :: fromUtf8 s := fromUtf8_append ha [] s

theorem fromUtf8_ofAscii {t : List Char} (ht : t.all (fun c => decide (c.toNat < 0x80)) = true) :
    fromUtf8 (t.map Char.toUInt8) = t := by
  induction t with
  | nil => rfl
  | cons c t ih =>
    rw [List.all_cons, Bool.and_eq_true, decide_eq_true_eq] at ht
    have hbyte : c.toUInt8.toNat = c.toNat := by
      show (UInt8.ofNat c.toNat).toNat = c.toNat
      rw [UInt8.toNat_ofNat', Nat.mod_eq_of_lt (by omega)]
    rw [List.map_cons, fromUtf8_cons, ih ht.2, hbyte, Char.ofNat_toNat]
    rw [UInt8.lt_iff_toNat_lt, hbyte]
    exact ht.1

/-- An ASCII literal decodes to its characters. -/
theorem fromUtf8_ascii {s : String} (h : s.toList.all (fun c => decide (c.toNat < 0x80)) = true) :
    fromUtf8 (ascii s) = s.toList := fromUtf8_ofAscii h

theorem ascii_lt {s : Bytes} (h : s.all (fun b => decide (b < 0x80)) = true) : ∀ b ∈ s, b < 0x80 :=
  fun b hb => of_decide_eq_true (List.all_eq_true.1 h b hb)

/-- Decoding splits after an ASCII text. -/
theorem fromUtf8_ascii_append {s : Bytes} (hs : ∀ b ∈ s, b < 0x80) (t : Bytes) :
    fromUtf8 (s ++ t) = fromUtf8 s ++ fromUtf8 t := by
  induction s with
  | nil => rfl
  | cons b s ih =>
    have hb := hs b (by simp)
    rw [List.cons_append, fromUtf8_cons hb, fromUtf8_cons hb, ih fun c hc => hs c (by simp [hc])]
    rfl

/-- Decoding splits in front of a text that starts with an ASCII byte. -/
theorem fromUtf8_append_ascii {t : Bytes} {a : UInt8} (ht : t.head? = some a) (ha : a < 0x80)
    (s : Bytes) : fromUtf8 (s ++ t) = fromUtf8 s ++ fromUtf8 t := by
  obtain ⟨t, rfl⟩ := List.head?_eq_some_iff.1 ht
  rw [fromUtf8_append ha, fromUtf8_cons ha]

/-- ASCII texts are determined by what they decode to. -/
theorem fromUtf8_ascii_inj {s t : Bytes} (hs : ∀ b ∈ s, b < 0x80) (ht : ∀ b ∈ t, b < 0x80)
    (h : fromUtf8 s = fromUtf8 t) : s = t := by
  induction s generalizing t with
  | nil =>
    cases t with
    | nil => rfl
    | cons b t =>
      rw [fromUtf8_cons (ht b (by simp))] at h
      exact absurd h (by simp [fromUtf8, decodeAfter])
  | cons a s ih =>
    have ha := hs a (by simp)
    rw [fromUtf8_cons ha] at h
    cases t with
    | nil => exact absurd h (by simp [fromUtf8, decodeAfter])
    | cons b t =>
      have hb := ht b (by simp)
      rw [fromUtf8_cons hb] at h
      obtain ⟨hab, hst⟩ := List.cons.inj h
      have hcode := congrArg Char.toNat hab
      have ha' : a.toNat < 0x80 := ha
      have hb' : b.toNat < 0x80 := hb
      rw [toNat_ofNat_of_isValidChar (.inl (by omega)),
        toNat_ofNat_of_isValidChar (.inl (by omega))] at hcode
      rw [UInt8.toNat_inj.1 hcode, ih (fun c hc => hs c (by simp [hc]))
        (fun c hc => ht c (by simp [hc])) hst]

theorem utf8Extra_ne_zero {b : UInt8} (hb : ¬ b < 0x80) {k : ℕ} (h : utf8Extra b = some k) :
    0x80 ≤ utf8Min k := by
  unfold utf8Extra at h
  rw [if_neg hb] at h
  split_ifs at h <;> obtain rfl := Option.some.inj h <;> decide

/-- Longer sequences encode no ASCII character. -/
theorem utf8Head_toNat {b : UInt8} {s : Bytes} {c : Char} {k : ℕ}
    (h : utf8Head b s = some (c, k)) (hc : c.toNat < 0x80) : UInt8.ofNat c.toNat = b := by
  by_cases hb : b < 0x80
  · rw [utf8Head_ascii hb] at h
    obtain ⟨rfl, -⟩ := Prod.mk.inj (Option.some.inj h)
    have hlt : b.toNat < 0x80 := hb
    rw [toNat_ofNat_of_isValidChar (.inl (by omega)), UInt8.ofNat_toNat]
  · unfold utf8Head at h
    cases hk : utf8Extra b with
    | none => simp [hk] at h
    | some k' =>
      simp only [hk] at h
      split_ifs at h with hcond
      obtain ⟨rfl, -⟩ := Prod.mk.inj (Option.some.inj h)
      have hmin := utf8Extra_ne_zero hb hk
      rw [toNat_ofNat_of_isValidChar hcond.2.2.2] at hc
      exact absurd (hmin.trans hcond.2.2.1) (not_le.2 hc)

/-- An ASCII character of a decoded text was a byte of it. -/
theorem mem_decodeAfter {c : Char} (hc : c.toNat < 0x80) :
    ∀ (s : Bytes) (k : ℕ), c ∈ decodeAfter k s → UInt8.ofNat c.toNat ∈ s := by
  intro s
  induction s with
  | nil => intro k h; simp [decodeAfter] at h
  | cons b s ih =>
    intro k h
    cases k with
    | succ k => exact List.mem_cons_of_mem _ (ih k h)
    | zero =>
      simp only [decodeAfter] at h
      cases hhead : utf8Head b s with
      | none =>
        rw [hhead] at h
        rcases List.mem_cons.1 h with rfl | h
        · exact absurd hc (by decide)
        · exact List.mem_cons_of_mem _ (ih 0 h)
      | some p =>
        obtain ⟨d, k⟩ := p
        rw [hhead] at h
        rcases List.mem_cons.1 h with rfl | h
        · rw [utf8Head_toNat hhead hc]
          exact List.mem_cons_self
        · exact List.mem_cons_of_mem _ (ih k h)

theorem mem_fromUtf8 {c : Char} (hc : c.toNat < 0x80) {s : Bytes} (h : c ∈ fromUtf8 s) :
    UInt8.ofNat c.toNat ∈ s := mem_decodeAfter hc s 0 h

/-! ### From characters back to bytes -/

theorem decodeAfter_eq_append {c : Char} (hc : c.toNat < 0x80) {t u : List Char} :
    ∀ {s : Bytes} {k : ℕ}, decodeAfter k s = t ++ c :: u →
      ∃ s₁ s₂, s = s₁ ++ UInt8.ofNat c.toNat :: s₂ ∧ decodeAfter k s₁ = t ∧ fromUtf8 s₂ = u := by
  have hascii : UInt8.ofNat c.toNat < 0x80 := by
    have hnat : (UInt8.ofNat c.toNat).toNat = c.toNat := by
      rw [UInt8.toNat_ofNat']
      exact Nat.mod_eq_of_lt (by omega)
    rw [UInt8.lt_iff_toNat_lt, hnat]
    exact hc
  intro s
  induction s generalizing t with
  | nil => intro k h; simp [decodeAfter] at h
  | cons b s ih =>
    intro k h
    cases k with
    | succ k =>
      obtain ⟨s₁, s₂, rfl, ht, hu⟩ := ih (k := k) h
      exact ⟨b :: s₁, s₂, rfl, ht, hu⟩
    | zero =>
      simp only [decodeAfter] at h
      cases hhead : utf8Head b s with
      | none =>
        simp only [hhead] at h
        cases t with
        | nil =>
          obtain ⟨rfl, -⟩ := List.cons.inj h
          exact absurd hc (by decide)
        | cons d t =>
          rw [List.cons_append] at h
          obtain ⟨rfl, hrest⟩ := List.cons.inj h
          obtain ⟨s₁, s₂, rfl, ht, hu⟩ := ih hrest
          rw [utf8Head_append hascii] at hhead
          exact ⟨b :: s₁, s₂, rfl, by simp [decodeAfter, hhead, ht], hu⟩
      | some p =>
        obtain ⟨d, k⟩ := p
        simp only [hhead] at h
        cases t with
        | nil =>
          obtain ⟨rfl, hrest⟩ := List.cons.inj h
          have hb := utf8Head_toNat hhead hc
          rw [← hb, utf8Head_ascii hascii] at hhead
          obtain ⟨-, rfl⟩ := Prod.mk.inj (Option.some.inj hhead)
          exact ⟨[], s, by rw [hb]; rfl, rfl, hrest⟩
        | cons d' t =>
          rw [List.cons_append] at h
          obtain ⟨rfl, hrest⟩ := List.cons.inj h
          obtain ⟨s₁, s₂, rfl, ht, hu⟩ := ih hrest
          rw [utf8Head_append hascii] at hhead
          exact ⟨b :: s₁, s₂, rfl, by simp [decodeAfter, hhead, ht], hu⟩

/-- Where a decoded text has an ASCII character, the bytes have it too. -/
theorem fromUtf8_eq_append {c : Char} (hc : c.toNat < 0x80) {s : Bytes} {t u : List Char}
    (h : fromUtf8 s = t ++ c :: u) :
    ∃ s₁ s₂, s = s₁ ++ UInt8.ofNat c.toNat :: s₂ ∧ fromUtf8 s₁ = t ∧ fromUtf8 s₂ = u :=
  decodeAfter_eq_append hc h

theorem fromUtf8_eq_nil {s : Bytes} (h : fromUtf8 s = []) : s = [] := by
  cases s with
  | nil => rfl
  | cons b s =>
    simp only [fromUtf8, decodeAfter] at h
    cases hhead : utf8Head b s with
    | none => simp [hhead] at h
    | some p => simp [hhead] at h

/-- What decodes to an ASCII text is that text. -/
theorem eq_of_fromUtf8_ascii {s : Bytes} {t : List Char} (ht : ∀ c ∈ t, c.toNat < 0x80)
    (h : fromUtf8 s = t) : s = t.map fun c => UInt8.ofNat c.toNat := by
  induction t generalizing s with
  | nil => exact fromUtf8_eq_nil h
  | cons c t ih =>
    obtain ⟨s₁, s₂, rfl, hs₁, hs₂⟩ :=
      fromUtf8_eq_append (ht c (by simp)) (t := []) (u := t) h
    rw [fromUtf8_eq_nil hs₁, ih (fun d hd => ht d (by simp [hd])) hs₂]
    rfl

/-- An ASCII byte is found in the decoded text. -/
theorem mem_fromUtf8_of_mem {b : UInt8} (hb : b < 0x80) {s : Bytes} (h : b ∈ s) :
    Char.ofNat b.toNat ∈ fromUtf8 s := by
  obtain ⟨s₁, s₂, rfl⟩ := List.append_of_mem h
  rw [fromUtf8_append hb]
  simp

end CLib
