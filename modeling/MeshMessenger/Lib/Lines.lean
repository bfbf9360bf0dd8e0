import Mathlib.Data.List.Basic
import Mathlib.Data.List.Infix
import Mathlib.Tactic

/-! Text divided by a delimiter, and a reader that sees such a text in pieces. The
reader hands on what it has gathered when a piece ends in the delimiter or when its
buffer is full; what it hands on are the bursts of the cut text. -/

namespace Lines

variable {α : Type} (d : α)

def joinLines (ls : List (List α)) : List α := ls.flatMap (· ++ [d])

/-- The pieces of a text, as its elements with a mark on the last one of each piece. -/
def mark : List α → List (α × Bool)
  | [] => []
  | [a] => [(a, true)]
  | a :: b :: s => (a, false) :: mark (b :: s)

variable {d}

theorem joinLines_append (ls ms : List (List α)) :
    joinLines d (ls ++ ms) = joinLines d ls ++ joinLines d ms := List.flatMap_append

theorem joinLines_getLast? {ls : List (List α)} (h : ls ≠ []) :
    (joinLines d ls).getLast? = some d := by
  obtain ⟨ms, l, rfl⟩ := List.eq_nil_or_concat ls |>.resolve_left h
  simp [joinLines, ← List.append_assoc]

theorem map_fst_mark (s : List α) : (mark s).map Prod.fst = s := by
  induction s with
  | nil => rfl
  | cons a s ih =>
    cases s with
    | nil => rfl
    | cons b s => rw [mark, List.map_cons, ih]

/-- A stretch without the delimiter lies within a line. -/
theorem length_le_of_infix {ls : List (List α)} {n : ℕ} (hn : ∀ l ∈ ls, l.length ≤ n)
    {w : List α} (hw : d ∉ w) (h : w <:+: joinLines d ls) : w.length ≤ n := by
  induction ls with
  | nil =>
    rw [List.eq_nil_of_infix_nil h]
    exact Nat.zero_le n
  | cons l ls ih =>
    have hjoin : joinLines d (l :: ls) = l ++ d :: joinLines d ls := by simp [joinLines]
    have hl := hn l (by simp)
    obtain ⟨s, t, heq⟩ := h
    rw [hjoin, List.append_assoc] at heq
    -- where the stretch starts: within the line, or after its delimiter
    rcases List.append_eq_append_iff.1 heq with ⟨a, rfl, hwt⟩ | ⟨c, rfl, hrest⟩
    · rcases List.append_eq_append_iff.1 hwt with ⟨b, rfl, -⟩ | ⟨b, rfl, hb⟩
      · simp only [List.length_append] at hl
        omega
      · cases b with
        | nil => simp only [List.length_append, List.length_nil] at hl ⊢; omega
        | cons e b =>
          obtain ⟨rfl, -⟩ := List.cons.inj hb
          exact absurd (by simp) hw
    · cases c with
      | nil =>
        cases w with
        | nil => exact Nat.zero_le n
        | cons e w =>
          obtain ⟨rfl, -⟩ := List.cons.inj hrest
          exact absurd List.mem_cons_self hw
      | cons e c =>
        simp only [List.cons_append, List.cons.injEq] at hrest
        exact ih (fun l' hl' => hn l' (by simp [hl']))
          ⟨c, t, by rw [hrest.2, List.append_assoc]⟩

variable [DecidableEq α] (d)

/-- The delimited lines of a text, and what follows the last delimiter. -/
def splitLines : List α → List (List α) × List α
  | [] => ([], [])
  | a :: s =>
    if a = d then ([] :: (splitLines s).1, (splitLines s).2)
    else
      match splitLines s with
      | ([], rest) => ([], a :: rest)
      | (l :: ls, rest) => ((a :: l) :: ls, rest)

variable {d}

theorem splitLines_line {l : List α} (h : d ∉ l) (t : List α) :
    splitLines d (l ++ d :: t) = (l :: (splitLines d t).1, (splitLines d t).2) := by
  induction l with
  | nil => rw [List.nil_append, splitLines, if_pos rfl]
  | cons a l ih =>
    simp only [List.mem_cons, not_or] at h
    rw [List.cons_append, splitLines, if_neg (Ne.symm h.1), ih h.2]

/-- A text can be split as it arrives: what is left over goes before the rest. -/
theorem splitLines_append (s t : List α) :
    splitLines d (s ++ t) =
      ((splitLines d s).1 ++ (splitLines d ((splitLines d s).2 ++ t)).1,
        (splitLines d ((splitLines d s).2 ++ t)).2) := by
  induction s with
  | nil => rfl
  | cons a s ih =>
    rw [List.cons_append, splitLines, ih, splitLines]
    by_cases ha : a = d
    · simp [ha]
    · simp only [if_neg ha]
      cases h : splitLines d s with
      | mk ls rest =>
        cases ls with
        | nil => simp [splitLines, ha]
        | cons l ls => rfl

/-- There are as many lines as delimiters. -/
theorem splitLines_length (s : List α) : (splitLines d s).1.length = s.count d := by
  induction s with
  | nil => rfl
  | cons a s ih =>
    rw [splitLines]
    by_cases ha : a = d
    · simp [ha, ih]
    · rw [if_neg ha, List.count_cons_of_ne ha, ← ih]
      cases h : splitLines d s with
      | mk ls rest => cases ls <;> rfl

theorem splitLines_rest (s : List α) : d ∉ (splitLines d s).2 := by
  induction s with
  | nil => simp [splitLines]
  | cons a s ih =>
    rw [splitLines]
    by_cases ha : a = d
    · rwa [if_pos ha]
    · rw [if_neg ha]
      cases h : splitLines d s with
      | mk ls rest =>
        rw [h] at ih
        cases ls with
        | nil => simp [ih, Ne.symm ha]
        | cons l ls => exact ih

theorem splitLines_joinLines {ls : List (List α)} (h : ∀ l ∈ ls, d ∉ l) :
    splitLines d (joinLines d ls) = (ls, []) := by
  induction ls with
  | nil => rfl
  | cons l ls ih =>
    have hjoin : joinLines d (l :: ls) = l ++ d :: joinLines d ls := by simp [joinLines]
    rw [hjoin, splitLines_line (h l (by simp)), ih fun l' hl' => h l' (by simp [hl'])]

theorem splitLines_of_notMem {s : List α} (h : d ∉ s) : splitLines d s = ([], s) := by
  induction s with
  | nil => rfl
  | cons a s ih =>
    simp only [List.mem_cons, not_or] at h
    rw [splitLines, if_neg (Ne.symm h.1), ih h.2]

/-- The lines and the rest are the text. -/
theorem joinLines_splitLines (s : List α) :
    joinLines d (splitLines d s).1 ++ (splitLines d s).2 = s := by
  induction s with
  | nil => rfl
  | cons a s ih =>
    rw [splitLines]
    by_cases ha : a = d
    · rw [if_pos ha]
      change [] ++ [d] ++ joinLines d (splitLines d s).1 ++ (splitLines d s).2 = a :: s
      rw [List.append_assoc, ih, ha]
      rfl
    · rw [if_neg ha]
      cases h : splitLines d s with
      | mk ls rest =>
        rw [h] at ih
        cases ls with
        | nil => simpa [joinLines] using ih
        | cons l ls => simpa [joinLines] using ih

theorem joinLines_inj {ls ms : List (List α)} (hl : ∀ l ∈ ls, d ∉ l) (hm : ∀ l ∈ ms, d ∉ l)
    (h : joinLines d ls = joinLines d ms) : ls = ms := by
  have := splitLines_joinLines hl
  rw [h, splitLines_joinLines hm] at this
  exact (Prod.mk.inj this).1.symm

/-! ### Bursts -/

variable (d)

/-- What a reader with room for `limit` elements hands on, `acc` being gathered already. -/
def burstsFrom (limit : ℕ) (acc : List α) : List (α × Bool) → List (List α)
  | [] => if acc = [] then [] else [acc]
  | (a, last) :: rest =>
    if (last = true ∧ a = d) ∨ (acc ++ [a]).length = limit then
      (acc ++ [a]) :: burstsFrom limit [] rest
    else burstsFrom limit (acc ++ [a]) rest

variable {d}

theorem burstsFrom_flatten (limit : ℕ) (cut : List (α × Bool)) (acc : List α) :
    (burstsFrom d limit acc cut).flatten = acc ++ cut.map Prod.fst := by
  induction cut generalizing acc with
  | nil =>
    rw [burstsFrom]
    split_ifs with h
    · simp [h]
    · simp
  | cons p cut ih =>
    obtain ⟨a, last⟩ := p
    rw [burstsFrom]
    split_ifs
    · simp [ih]
    · simp [ih]

/-- A piece that fits with room to spare is gathered, and handed on if it ends in `d`. -/
theorem burstsFrom_short {limit : ℕ} {acc s : List α} (hs : s ≠ [])
    (h : acc.length + s.length < limit) (rest : List (α × Bool)) :
    burstsFrom d limit acc (mark s ++ rest) =
      if s.getLast? = some d then (acc ++ s) :: burstsFrom d limit [] rest
      else burstsFrom d limit (acc ++ s) rest := by
  induction s generalizing acc with
  | nil => exact absurd rfl hs
  | cons a s ih =>
    have hlen : (acc ++ [a]).length ≠ limit := by
      simp only [List.length_append, List.length_cons, List.length_nil] at h ⊢
      omega
    cases s with
    | nil =>
      simp only [mark, List.singleton_append, burstsFrom, true_and, hlen, or_false,
        List.getLast?_singleton, Option.some.injEq]
    | cons b s =>
      have hfits : (acc ++ [a]).length + (b :: s).length < limit := by
        simp only [List.length_append, List.length_cons, List.length_nil] at h ⊢
        omega
      rw [mark, List.cons_append, burstsFrom, if_neg (by simpa using hlen), ih (by simp) hfits]
      simp

/-- A piece that does not is cut where the room ends. -/
theorem burstsFrom_long {limit : ℕ} {acc s : List α} (hacc : acc.length < limit)
    (h : limit ≤ acc.length + s.length) (rest : List (α × Bool)) :
    burstsFrom d limit acc (mark s ++ rest) =
      (acc ++ s.take (limit - acc.length)) ::
        burstsFrom d limit [] (mark (s.drop (limit - acc.length)) ++ rest) := by
  induction s generalizing acc with
  | nil => simp only [List.length_nil] at h; omega
  | cons a s ih =>
    by_cases hfull : acc.length + 1 = limit
    · have hone : limit - acc.length = 1 := by omega
      have hcond (last : Bool) : (last = true ∧ a = d) ∨ (acc ++ [a]).length = limit :=
        .inr (by simp [hfull])
      cases s with
      | nil =>
        rw [mark, List.singleton_append, burstsFrom, if_pos (hcond _), hone]
        rfl
      | cons b s =>
        rw [mark, List.cons_append, burstsFrom, if_pos (hcond _), hone]
        rfl
    · cases s with
      | nil => simp only [List.length_cons, List.length_nil] at h; omega
      | cons b s =>
        have hlen : (acc ++ [a]).length ≠ limit := by simpa using hfull
        have hsucc : limit - acc.length = limit - (acc ++ [a]).length + 1 := by
          simp only [List.length_append, List.length_cons, List.length_nil]
          omega
        have hacc' : (acc ++ [a]).length < limit := by
          simp only [List.length_append, List.length_cons, List.length_nil]
          omega
        have hlong : limit ≤ (acc ++ [a]).length + (b :: s).length := by
          simp only [List.length_append, List.length_cons, List.length_nil] at h ⊢
          omega
        rw [mark, List.cons_append, burstsFrom, if_neg (by simpa using hlen), ih hacc' hlong, hsucc]
        simp

/-- Where lines are shorter than the buffer and the text ends in the delimiter, every
burst contains one. -/
theorem mem_of_mem_burstsFrom {limit : ℕ} {cut : List (α × Bool)} {acc : List α}
    (hline : ∀ w, w <:+: acc ++ cut.map Prod.fst → d ∉ w → w.length < limit)
    (hlast : acc ++ cut.map Prod.fst ≠ [] → (acc ++ cut.map Prod.fst).getLast? = some d) :
    ∀ b ∈ burstsFrom d limit acc cut, d ∈ b := by
  induction cut generalizing acc with
  | nil =>
    intro b hb
    rw [burstsFrom] at hb
    split_ifs at hb with hacc
    · simp at hb
    · rw [List.mem_singleton.1 hb]
      simp only [List.map_nil, List.append_nil] at hlast
      exact List.mem_of_getLast? (hlast hacc)
  | cons p cut ih =>
    obtain ⟨a, last⟩ := p
    have hshift : acc ++ List.map Prod.fst ((a, last) :: cut) =
        (acc ++ [a]) ++ cut.map Prod.fst := by simp
    rw [hshift] at hline hlast
    intro b hb
    rw [burstsFrom] at hb
    split_ifs at hb with hcond
    · rcases List.mem_cons.1 hb with rfl | hb
      · rcases hcond with ⟨-, rfl⟩ | hfull
        · simp
        · by_contra hd
          have := hline _ (List.prefix_append _ _).isInfix hd
          omega
      · refine ih ?_ ?_ b hb
        · intro w hw
          exact hline w (hw.trans (List.suffix_append _ _).isInfix)
        · intro hne
          rw [List.nil_append] at hne ⊢
          have := hlast (by simp)
          rwa [List.getLast?_append_of_ne_nil _ hne] at this
    · exact ih hline hlast b hb

end Lines
