import Mathlib.Data.List.DropRight
import MeshMessenger.Lib.CString

/-! The `sscanf` directives as functions from the unread input to the converted
field and the rest. A literal must match exactly, a blank in the format skips
any amount of white space (also none), `%ws` skips white space and takes a word
of at most `w` bytes, and `%w[^\n]` takes at most `w` bytes of the current line
without skipping anything. Each conversion fails when it takes no byte. -/

namespace CLib

def scanLiteral (lit s : Bytes) : Option Bytes :=
  if lit.isPrefixOf s then some (s.drop lit.length) else none

def skipSpace (s : Bytes) : Bytes := s.dropWhile isSpace

def scanWord (w : ℕ) (s : Bytes) : Option (Bytes × Bytes) :=
  let word := ((skipSpace s).take w).takeWhile (fun c => !isSpace c)
  if word = [] then none else some (word, (skipSpace s).drop word.length)

def scanLine (w : ℕ) (s : Bytes) : Option (Bytes × Bytes) :=
  let line := (s.take w).takeWhile (· != newline)
  if line = [] then none else some (line, s.drop line.length)

theorem scanLiteral_append (lit s : Bytes) : scanLiteral lit (lit ++ s) = some s := by
  simp [scanLiteral]

theorem scanLiteral_eq_some {lit s rest : Bytes} :
    scanLiteral lit s = some rest ↔ s = lit ++ rest := by
  refine ⟨?_, ?_⟩
  · intro h
    unfold scanLiteral at h
    split_ifs at h with hpre
    obtain rfl := Option.some.inj h
    exact (List.prefix_iff_eq_append.1 (List.isPrefixOf_iff_prefix.1 hpre)).symm
  · rintro rfl
    exact scanLiteral_append lit rest

theorem scanLiteral_sublist {lit s rest : Bytes} (h : scanLiteral lit s = some rest) :
    rest.Sublist s := by
  rw [scanLiteral_eq_some.1 h]
  exact List.sublist_append_right _ _

theorem skipSpace_sublist (s : Bytes) : (skipSpace s).Sublist s := List.dropWhile_sublist _

/-- The text before the first delimiter. -/
theorem takeWhile_delimiter {word : Bytes} {c : UInt8} (h : c ∉ word) (rest : Bytes) :
    (word ++ c :: rest).takeWhile (· != c) = word := by
  have hword : ∀ a ∈ word, (a != c) = true := by
    intro a ha
    simpa using fun heq : a = c => h (heq ▸ ha)
  rw [List.takeWhile_append_of_pos hword]
  simp

/-! ### Words -/

theorem scanWord_eq_some {w : ℕ} {s word rest : Bytes} :
    scanWord w s = some (word, rest) ↔
      word = ((skipSpace s).take w).takeWhile (fun c => !isSpace c) ∧ word ≠ [] ∧
        rest = (skipSpace s).drop word.length := by
  unfold scanWord
  refine ⟨?_, ?_⟩
  · intro h
    simp only at h
    split_ifs at h with hw
    obtain ⟨rfl, rfl⟩ := Prod.mk.inj (Option.some.inj h)
    exact ⟨rfl, hw, rfl⟩
  · rintro ⟨rfl, hw, rfl⟩
    rw [if_neg hw]

/-- A scanned word is a non-empty run of at most `w` bytes without white space. -/
structure IsWord (w : ℕ) (word : Bytes) : Prop where
  ne_nil : word ≠ []
  length_le : word.length ≤ w
  no_space : ∀ c ∈ word, isSpace c = false

theorem scanWord_isWord {w : ℕ} {s word rest : Bytes} (h : scanWord w s = some (word, rest)) :
    IsWord w word := by
  obtain ⟨rfl, hne, -⟩ := scanWord_eq_some.1 h
  refine ⟨hne, ?_, fun c hc => by simpa using List.mem_takeWhile_imp hc⟩
  calc _ ≤ ((skipSpace s).take w).length := (List.takeWhile_prefix _).length_le
    _ ≤ w := by simp

theorem scanWord_sublist {w : ℕ} {s word rest : Bytes} (h : scanWord w s = some (word, rest)) :
    word.Sublist s := by
  obtain ⟨rfl, -, -⟩ := scanWord_eq_some.1 h
  exact (List.takeWhile_sublist _).trans ((List.take_sublist _ _).trans (skipSpace_sublist s))

theorem scanWord_rest_sublist {w : ℕ} {s word rest : Bytes}
    (h : scanWord w s = some (word, rest)) : rest.Sublist s := by
  obtain ⟨-, -, rfl⟩ := scanWord_eq_some.1 h
  exact (List.drop_sublist _ _).trans (skipSpace_sublist s)

theorem IsWord.skipSpace_append {w : ℕ} {word : Bytes} (h : IsWord w word) (rest : Bytes) :
    skipSpace (word ++ rest) = word ++ rest := by
  obtain ⟨c, cs, rfl⟩ := List.exists_cons_of_ne_nil h.ne_nil
  simp [skipSpace, h.no_space c (by simp)]

theorem takeWhile_word_append {word : Bytes} (h : ∀ c ∈ word, isSpace c = false)
    (c : UInt8) (hc : isSpace c = true) (rest : Bytes) (w : ℕ) (hw : word.length ≤ w) :
    ((word ++ c :: rest).take w).takeWhile (fun c => !isSpace c) = word := by
  rw [List.take_append, List.take_of_length_le hw]
  have hall : ∀ x ∈ word, (!isSpace x) = true := fun x hx => by simp [h x hx]
  rw [List.takeWhile_append_of_pos hall]
  cases w - word.length with
  | zero => simp
  | succ n => simp [hc]

/-- A word that fits the width and is followed by white space is read whole. -/
theorem scanWord_word_space {w : ℕ} {word : Bytes} (h : IsWord w word) {c : UInt8}
    (hc : isSpace c = true) (rest : Bytes) :
    scanWord w (word ++ c :: rest) = some (word, c :: rest) := by
  apply scanWord_eq_some.2
  rw [h.skipSpace_append, takeWhile_word_append h.no_space c hc rest w h.length_le]
  exact ⟨rfl, h.ne_nil, by simp⟩

/-- The last word of the input is read up to the width. -/
theorem scanWord_last {w : ℕ} (hw : 0 < w) {word : Bytes} (hne : word ≠ [])
    (h : ∀ c ∈ word, isSpace c = false) :
    scanWord w word = some (word.take w, word.drop w) := by
  have hs : skipSpace word = word := by
    simpa using (IsWord.mk hne (le_refl _) h).skipSpace_append []
  have htake : (word.take w).takeWhile (fun c => !isSpace c) = word.take w :=
    List.takeWhile_eq_self_iff.2 fun c hc => by simp [h c (List.mem_of_mem_take hc)]
  refine scanWord_eq_some.2 ⟨by rw [hs, htake], ?_, ?_⟩
  · simp [hne]; omega
  · rw [hs, List.length_take]
    rcases le_total w word.length with hl | hl
    · rw [Nat.min_eq_left hl]
    · rw [Nat.min_eq_right hl, List.drop_length, List.drop_eq_nil_of_le hl]

theorem scanWord_skipSpace (w : ℕ) (s : Bytes) : scanWord w (skipSpace s) = scanWord w s := by
  have h : skipSpace (skipSpace s) = skipSpace s :=
    List.dropWhile_idempotent _ _
  simp only [scanWord, h]

theorem scanWord_space_cons (w : ℕ) {c : UInt8} (hc : isSpace c = true) (s : Bytes) :
    scanWord w (c :: s) = scanWord w s := by
  rw [← scanWord_skipSpace w (c :: s), ← scanWord_skipSpace w s]
  simp [skipSpace, hc]

/-! ### Rest of the line -/

theorem scanLine_eq_some {w : ℕ} {s line rest : Bytes} :
    scanLine w s = some (line, rest) ↔
      line = (s.take w).takeWhile (· != newline) ∧ line ≠ [] ∧ rest = s.drop line.length := by
  unfold scanLine
  refine ⟨?_, ?_⟩
  · intro h
    simp only at h
    split_ifs at h with hl
    obtain ⟨rfl, rfl⟩ := Prod.mk.inj (Option.some.inj h)
    exact ⟨rfl, hl, rfl⟩
  · rintro ⟨rfl, hl, rfl⟩
    rw [if_neg hl]

/-- A scanned line is a run of at most `w` bytes without a newline. -/
theorem scanLine_spec {w : ℕ} {s line rest : Bytes} (h : scanLine w s = some (line, rest)) :
    newline ∉ line ∧ line.length ≤ w ∧ line.Sublist s := by
  obtain ⟨rfl, -, -⟩ := scanLine_eq_some.1 h
  refine ⟨fun hnl => ?_, ?_, ?_⟩
  · exact absurd (List.mem_takeWhile_imp hnl) (by simp)
  · exact (List.takeWhile_prefix _).length_le.trans (List.length_take_le w s)
  · exact (List.takeWhile_sublist _).trans (List.take_sublist _ _)

theorem scanLine_ne_nil {w : ℕ} {s line rest : Bytes} (h : scanLine w s = some (line, rest)) :
    line ≠ [] := (scanLine_eq_some.1 h).2.1

end CLib
