import MeshMessenger.Lib.Scan

/-! The words of a text, and when the `%ws` conversions of a format read whole ones. A
conversion takes at most its width of a word; what is left over is the next one's. -/

namespace CLib

/-- The words of a text: what stands between white space. -/
def words (s : Bytes) : List Bytes := (s.splitOnP isSpace).filter (· ≠ [])

/-- Nothing follows, or white space does. -/
def WordEnds (rest : Bytes) : Prop := ∀ c ∈ rest.head?, isSpace c = true

instance (rest : Bytes) : Decidable (WordEnds rest) :=
  inferInstanceAs (Decidable (∀ c ∈ rest.head?, isSpace c = true))

theorem words_nil : words [] = [] := rfl

theorem words_space_cons {c : UInt8} (hc : isSpace c = true) (s : Bytes) :
    words (c :: s) = words s := by
  have hnone : ∀ d ∈ ([] : Bytes), isSpace d = false := by simp
  have hsplit := List.splitOnP_append_cons_of_forall_mem hnone c hc s
  rw [List.nil_append] at hsplit
  rw [words, hsplit, List.filter_cons_of_neg (by simp)]
  rfl

theorem words_skipSpace (s : Bytes) : words (skipSpace s) = words s := by
  induction s with
  | nil => rfl
  | cons c s ih =>
    by_cases hc : isSpace c = true
    · rw [words_space_cons hc, ← ih, skipSpace, List.dropWhile_cons_of_pos hc]
      rfl
    · rw [skipSpace, List.dropWhile_cons_of_neg hc]

/-- A text that starts with no white space starts with a word. -/
theorem exists_word {s : Bytes} (h : ¬ WordEnds s) :
    ∃ u rest, s = u ++ rest ∧ u ≠ [] ∧ (∀ c ∈ u, isSpace c = false) ∧ WordEnds rest := by
  refine ⟨s.takeWhile fun c => !isSpace c, s.dropWhile fun c => !isSpace c,
    (List.takeWhile_append_dropWhile).symm, fun hnil => h ?_, fun c hc => ?_, fun c hc => ?_⟩
  · intro c hc
    obtain ⟨t, rfl⟩ := List.head?_eq_some_iff.1 hc
    by_contra hspace
    rw [List.takeWhile_cons_of_pos (by simpa using hspace)] at hnil
    exact absurd hnil (by simp)
  · simpa using List.mem_takeWhile_imp hc
  · have hstop := List.head?_dropWhile_not (fun c => !isSpace c) s
    rw [Option.mem_def.1 hc] at hstop
    simpa using hstop

section word

variable {word : Bytes} (hne : word ≠ []) (hword : ∀ c ∈ word, isSpace c = false)

include hne hword

theorem words_append {rest : Bytes} (hrest : WordEnds rest) :
    words (word ++ rest) = word :: words rest := by
  cases rest with
  | nil =>
    rw [List.append_nil, words, List.splitOnP_eq_singleton hword,
      List.filter_cons_of_pos (by simpa using hne)]
    rfl
  | cons c rest =>
    have hc : isSpace c = true := hrest c rfl
    rw [words, List.splitOnP_append_cons_of_forall_mem hword c hc,
      List.filter_cons_of_pos (by simpa using hne), ← words, words_space_cons hc]

/-- Where more of a word follows, the first word is longer. -/
theorem words_glued {rest : Bytes} (hrest : ¬ WordEnds rest) :
    ∃ u us, words (word ++ rest) = u :: us ∧ word.length < u.length := by
  obtain ⟨more, rest', rfl, hmore, hspace, hends⟩ := exists_word hrest
  have hjoined : ∀ c ∈ word ++ more, isSpace c = false := by
    intro c hc
    rcases List.mem_append.1 hc with hc | hc
    · exact hword c hc
    · exact hspace c hc
  refine ⟨word ++ more, words rest', ?_, ?_⟩
  · rw [← List.append_assoc, words_append (by simp [hne]) hjoined hends]
  · have := List.length_pos_iff.2 hmore
    rw [List.length_append]
    omega

/-- A word and the words after it begin the text exactly where the word ends. -/
theorem cons_isPrefix_words {rest : Bytes} {fields : List Bytes} :
    word :: fields <+: words (word ++ rest) ↔ WordEnds rest ∧ fields <+: words rest := by
  by_cases hrest : WordEnds rest
  · rw [words_append hne hword hrest, List.cons_prefix_cons]
    simp [hrest]
  · obtain ⟨u, us, hwords, hlt⟩ := words_glued hne hword hrest
    rw [hwords, List.cons_prefix_cons]
    refine iff_of_false (fun h => ?_) fun h => hrest h.1
    rw [h.1] at hlt
    exact lt_irrefl _ hlt

end word

/-! ### Conversions -/

/-- A text without its leading white space is empty or starts with its first word. -/
theorem skipSpace_cases (s : Bytes) :
    (skipSpace s = [] ∧ words s = []) ∨
    ∃ u rest, skipSpace s = u ++ rest ∧ u ≠ [] ∧ (∀ c ∈ u, isSpace c = false) ∧ WordEnds rest ∧
      words s = u :: words rest := by
  cases hskip : skipSpace s with
  | nil => exact .inl ⟨rfl, by rw [← words_skipSpace, hskip, words_nil]⟩
  | cons c t =>
    right
    have hstart : ¬ WordEnds (c :: t) := by
      intro hends
      have hstop := List.head?_dropWhile_not isSpace s
      rw [show s.dropWhile isSpace = c :: t from hskip] at hstop
      exact absurd (hends c rfl) (by simpa using hstop)
    obtain ⟨u, rest, hsplit, hne, hspace, hends⟩ := exists_word hstart
    refine ⟨u, rest, hsplit, hne, hspace, hends, ?_⟩
    rw [← words_skipSpace, hskip, hsplit, words_append hne hspace hends]

theorem scanWord_eq_none {w : ℕ} {s : Bytes} (h : words s = []) : scanWord w s = none := by
  rcases skipSpace_cases s with ⟨hskip, -⟩ | ⟨u, rest, -, -, -, -, hwords⟩
  · simp [scanWord, hskip]
  · rw [h] at hwords
    exact absurd hwords (by simp)

theorem takeWhile_take_word {u rest : Bytes} (hspace : ∀ c ∈ u, isSpace c = false)
    (hends : WordEnds rest) (w : ℕ) :
    ((u ++ rest).take w).takeWhile (fun c => !isSpace c) = u.take w := by
  have hall : ∀ c ∈ u.take w, (!isSpace c) = true := fun c hc => by
    simp [hspace c (List.mem_of_mem_take hc)]
  rw [List.take_append, List.takeWhile_append_of_pos hall]
  have hstop : (rest.take (w - u.length)).takeWhile (fun c => !isSpace c) = [] := by
    cases rest with
    | nil => simp
    | cons c rest =>
      cases w - u.length with
      | zero => rfl
      | succ n => simp [hends c rfl]
  rw [hstop, List.append_nil]

/-- `%ws` takes what it can of the first word. -/
theorem scanWord_of_words {w : ℕ} (hw : 0 < w) {s u : Bytes} {us : List Bytes}
    (h : words s = u :: us) :
    ∃ rest, words rest = us ∧ WordEnds rest ∧ (∀ c ∈ u, isSpace c = false) ∧ u ≠ [] ∧
      scanWord w s = some (u.take w, u.drop w ++ rest) := by
  rcases skipSpace_cases s with ⟨-, hwords⟩ | ⟨v, rest, hskip, hne, hspace, hends, hwords⟩
  · rw [h] at hwords
    exact absurd hwords (by simp)
  · rw [h] at hwords
    obtain ⟨rfl, rfl⟩ := List.cons.inj hwords
    refine ⟨rest, rfl, hends, hspace, hne, ?_⟩
    refine scanWord_eq_some.2 ⟨by rw [hskip, takeWhile_take_word hspace hends], ?_, ?_⟩
    · rw [ne_eq, List.take_eq_nil_iff, not_or]
      exact ⟨by omega, hne⟩
    · rw [hskip, List.length_take]
      rcases le_total w u.length with hle | hle
      · rw [Nat.min_eq_left hle, List.drop_append_of_le_length hle]
      · rw [Nat.min_eq_right hle, List.drop_left, List.drop_eq_nil_of_le hle, List.nil_append]

/-- Nothing is left of a word that fits. -/
theorem words_drop_append_eq_nil {u rest : Bytes} (hspace : ∀ c ∈ u, isSpace c = false)
    (hends : WordEnds rest) {w : ℕ} :
    words (u.drop w ++ rest) = [] ↔ u.length ≤ w ∧ words rest = [] := by
  by_cases hle : u.length ≤ w
  · rw [List.drop_eq_nil_of_le hle, List.nil_append]
    simp [hle]
  · have hne : u.drop w ≠ [] := by
      rw [ne_eq, List.drop_eq_nil_iff]
      exact hle
    rw [words_append hne (fun c hc => hspace c (List.mem_of_mem_drop hc)) hends]
    simp [hle]

/-- One `%ws` after the other. -/
def scanWords : List ℕ → Bytes → Option (List Bytes × Bytes)
  | [], s => some ([], s)
  | w :: ws, s => do
    let (word, rest) ← scanWord w s
    let (fields, rest) ← scanWords ws rest
    return (word :: fields, rest)

/-- The words that conversions read are whole if and only if each fits its width. -/
theorem scanWords_whole_iff {ws : List ℕ} (hpos : ∀ w ∈ ws, 0 < w) {s rest : Bytes}
    {fields : List Bytes} (h : scanWords ws s = some (fields, rest)) :
    fields <+: words s ↔ ∀ p ∈ (words s).zip ws, p.1.length ≤ p.2 := by
  induction ws generalizing s fields with
  | nil =>
    obtain ⟨rfl, -⟩ := Prod.mk.inj (Option.some.inj h)
    simp
  | cons w ws ih =>
    simp only [scanWords, Option.bind_eq_bind, Option.bind_eq_some_iff, Option.pure_def,
      Option.some.injEq, Prod.exists, Prod.mk.injEq] at h
    obtain ⟨word, mid, hword, fields', rest', hfields, rfl, rfl⟩ := h
    cases hwords : words s with
    | nil =>
      rw [scanWord_eq_none hwords] at hword
      exact absurd hword (by simp)
    | cons u us =>
      obtain ⟨tail, htail, -, -, -, hscan⟩ := scanWord_of_words (hpos w (by simp)) hwords
      rw [hscan] at hword
      obtain ⟨rfl, rfl⟩ := Prod.mk.inj (Option.some.inj hword)
      rw [List.cons_prefix_cons, List.take_eq_self_iff, List.zip_cons_cons, List.forall_mem_cons]
      refine and_congr_right fun hfits => ?_
      rw [List.drop_eq_nil_of_le hfits, List.nil_append] at hfields
      rw [← htail]
      exact ih (fun w' hw' => hpos w' (by simp [hw'])) hfields

end CLib
