import MeshMessenger.Lib.Words

/-! All the words of a text replaced at once, and the places where a word stands in a text:
what the replacement of one word by `re.sub` does, in these terms, and what the words of a
replaced text come from. -/

namespace Regex

variable (U : Classes)

/-- The text from a place on with every word replaced, `cur` being what has been read of the
one it is in. -/
def mapWordsFrom (f : Text → Text) : Text → Text → Text
  | cur, [] => if cur = [] then [] else f cur
  | cur, c :: rest =>
    if U.isWord c then mapWordsFrom f (cur ++ [c]) rest
    else (if cur = [] then [] else f cur) ++ c :: mapWordsFrom f [] rest

/-- Every word of a text replaced, all at once. -/
def mapWords (f : Text → Text) (s : Text) : Text := mapWordsFrom U f [] s

def words (s : Text) : List Text := (uses U s).map Prod.fst

variable {U}

/-! ### Texts as words and what is between them -/

/-- A text is built from characters that are in no word, and words. -/
theorem text_induction {P : Text → Prop} (nil : P [])
    (char : ∀ c rest, U.isWord c = false → P rest → P (c :: rest))
    (word : ∀ w rest, IsWord U w → wordAt U rest.head? = false → P rest → P (w ++ rest))
    (s : Text) : P s := by
  obtain ⟨n, hn⟩ : ∃ n, s.length = n := ⟨_, rfl⟩
  induction n using Nat.strong_induction_on generalizing s with
  | _ n ih =>
    obtain rfl | ⟨c, rest, rfl, hc⟩ | ⟨w, rest, rfl, hw, hrest⟩ := text_cases (U := U) s
    · exact nil
    · apply char c rest hc
      exact ih rest.length (by simp at hn; omega) rest rfl
    · have hpos := List.length_pos_of_ne_nil hw.1
      apply word w rest hw hrest
      exact ih rest.length (by simp at hn; omega) rest rfl

section Map

variable {f g : Text → Text}

theorem mapWords_nil : mapWords U f [] = [] := rfl

theorem mapWords_cons {c : Char} (hc : U.isWord c = false) (rest : Text) :
    mapWords U f (c :: rest) = c :: mapWords U f rest := by
  simp [mapWords, mapWordsFrom, hc]

theorem mapWordsFrom_append {w : Text} (hw : ∀ c ∈ w, U.isWord c = true) (cur rest : Text) :
    mapWordsFrom U f cur (w ++ rest) = mapWordsFrom U f (cur ++ w) rest := by
  induction w generalizing cur with
  | nil => simp
  | cons c w ih =>
    rw [List.cons_append, mapWordsFrom, if_pos (hw c (by simp)),
      ih (fun d hd => hw d (by simp [hd])), List.append_assoc, List.singleton_append]

theorem mapWords_word {w rest : Text} (hw : IsWord U w) (hrest : wordAt U rest.head? = false) :
    mapWords U f (w ++ rest) = f w ++ mapWords U f rest := by
  rw [mapWords, mapWordsFrom_append hw.2, List.nil_append]
  cases rest with
  | nil => simp [mapWordsFrom, hw.1, mapWords]
  | cons c rest =>
    have hc : U.isWord c = false := hrest
    simp [mapWordsFrom, hw.1, hc, mapWords]

theorem words_cons {c : Char} (hc : U.isWord c = false) (rest : Text) :
    words U (c :: rest) = words U rest := by
  rw [words, words, uses_cons_of_not_word hc]

theorem words_word {w rest : Text} (hw : IsWord U w) (hrest : wordAt U rest.head? = false) :
    words U (w ++ rest) = w :: words U rest := by
  rw [words, words, uses_word hw hrest, List.map_cons]

theorem isWord_of_mem_words {w s : Text} (h : w ∈ words U s) : IsWord U w := by
  induction s using text_induction (U := U) with
  | nil => cases h
  | char c rest hc ih =>
    rw [words_cons hc] at h
    exact ih h
  | word v rest hv hrest ih =>
    rw [words_word hv hrest] at h
    rcases List.mem_cons.1 h with rfl | h
    · exact hv
    · exact ih h

theorem mapWords_congr {s : Text} (h : ∀ w ∈ words U s, f w = g w) :
    mapWords U f s = mapWords U g s := by
  induction s using text_induction (U := U) with
  | nil => rfl
  | char c rest hc ih =>
    rw [words_cons hc] at h
    rw [mapWords_cons hc, mapWords_cons hc, ih h]
  | word w rest hw hrest ih =>
    rw [words_word hw hrest] at h
    obtain ⟨hfirst, hlater⟩ := List.forall_mem_cons.1 h
    rw [mapWords_word hw hrest, mapWords_word hw hrest, hfirst, ih hlater]

theorem mapWords_id (s : Text) : mapWords U id s = s := by
  induction s using text_induction (U := U) with
  | nil => rfl
  | char c rest hc ih => rw [mapWords_cons hc, ih]
  | word w rest hw hrest ih => rw [mapWords_word hw hrest, ih, id]

/-! ### Maps that keep words words -/

/-- A map of words. -/
def KeepsWords (U : Classes) (f : Text → Text) : Prop := ∀ w, IsWord U w → IsWord U (f w)

theorem head?_mapWords (hf : KeepsWords U f) (s : Text) :
    wordAt U (mapWords U f s).head? = wordAt U s.head? := by
  induction s using text_induction (U := U) with
  | nil => rfl
  | char c rest hc _ =>
    rw [mapWords_cons hc]
    rfl
  | word w rest hw hrest _ =>
    rw [mapWords_word hw hrest, (hf w hw).wordAt_head?, hw.wordAt_head?]

theorem words_mapWords (hf : KeepsWords U f) (s : Text) :
    words U (mapWords U f s) = (words U s).map f := by
  induction s using text_induction (U := U) with
  | nil => rfl
  | char c rest hc ih => rw [mapWords_cons hc, words_cons hc, words_cons hc, ih]
  | word w rest hw hrest ih =>
    have hhead : wordAt U (mapWords U f rest).head? = false := by rw [head?_mapWords hf, hrest]
    rw [mapWords_word hw hrest, words_word (hf w hw) hhead, words_word hw hrest, ih, List.map_cons]

theorem mapWords_mapWords (hf : KeepsWords U f) (s : Text) :
    mapWords U g (mapWords U f s) = mapWords U (g ∘ f) s := by
  induction s using text_induction (U := U) with
  | nil => rfl
  | char c rest hc ih => rw [mapWords_cons hc, mapWords_cons hc, mapWords_cons hc, ih]
  | word w rest hw hrest ih =>
    have hhead : wordAt U (mapWords U f rest).head? = false := by rw [head?_mapWords hf, hrest]
    rw [mapWords_word hw hrest, mapWords_word (hf w hw) hhead, mapWords_word hw hrest, ih,
      Function.comp_apply]

/-- Two maps give the same text only if they agree on its words. -/
theorem eq_of_mapWords_eq (hf : KeepsWords U f) (hg : KeepsWords U g) {s : Text}
    (h : mapWords U f s = mapWords U g s) : ∀ w ∈ words U s, f w = g w := by
  have hwords : (words U s).map f = (words U s).map g := by
    rw [← words_mapWords hf, ← words_mapWords hg, h]
  exact List.map_inj_left.1 hwords

/-! ### Cutting a text between words -/

/-- No word goes on from the end of `x` into `y`. -/
def Apart (U : Classes) (x y : Text) : Prop :=
  wordAt U x.getLast? = true → wordAt U y.head? = false

theorem Apart.of_append {x x' y : Text} (h : Apart U (x ++ x') y) : Apart U x' y := by
  intro hlast
  apply h
  rw [List.getLast?_append]
  cases hx : x'.getLast? with
  | none =>
    rw [hx] at hlast
    cases hlast
  | some c =>
    rw [hx] at hlast
    exact hlast

theorem Apart.of_cons {c : Char} {x y : Text} (h : Apart U (c :: x) y) : Apart U x y :=
  Apart.of_append (x := [c]) h

/-- What follows a word up to the cut and beyond starts no character of a word. -/
theorem Apart.head?_append {w rest y : Text} (hw : IsWord U w)
    (hrest : wordAt U rest.head? = false) (h : Apart U (w ++ rest) y) :
    wordAt U (rest ++ y).head? = false := by
  cases rest with
  | nil =>
    apply h
    rw [List.append_nil]
    exact hw.wordAt_getLast?
  | cons c rest => exact hrest

theorem mapWords_append {x y : Text} (h : Apart U x y) :
    mapWords U f (x ++ y) = mapWords U f x ++ mapWords U f y := by
  induction x using text_induction (U := U) with
  | nil => rfl
  | char c rest hc ih =>
    rw [List.cons_append, mapWords_cons hc, mapWords_cons hc, ih h.of_cons, List.cons_append]
  | word w rest hw hrest ih =>
    rw [List.append_assoc, mapWords_word hw (h.head?_append hw hrest), mapWords_word hw hrest,
      ih h.of_append, List.append_assoc]

theorem words_append {x y : Text} (h : Apart U x y) :
    words U (x ++ y) = words U x ++ words U y := by
  induction x using text_induction (U := U) with
  | nil => rfl
  | char c rest hc ih => rw [List.cons_append, words_cons hc, words_cons hc, ih h.of_cons]
  | word w rest hw hrest ih =>
    rw [List.append_assoc, words_word hw (h.head?_append hw hrest), words_word hw hrest,
      ih h.of_append, List.cons_append]

theorem mapWords_ne_nil (hf : KeepsWords U f) {s : Text} (hs : s ≠ []) : mapWords U f s ≠ [] := by
  intro hnil
  obtain rfl | ⟨c, rest, rfl, hc⟩ | ⟨w, rest, rfl, hw, hrest⟩ := text_cases (U := U) s
  · exact hs rfl
  · rw [mapWords_cons hc] at hnil
    cases hnil
  · rw [mapWords_word hw hrest] at hnil
    exact (hf w hw).1 (List.append_eq_nil_iff.1 hnil).1

theorem getLast?_mapWords (hf : KeepsWords U f) (s : Text) :
    wordAt U (mapWords U f s).getLast? = wordAt U s.getLast? := by
  have happend {x x' rest : Text} (hx : wordAt U x'.getLast? = wordAt U x.getLast?)
      (ih : wordAt U (mapWords U f rest).getLast? = wordAt U rest.getLast?) :
      wordAt U (x' ++ mapWords U f rest).getLast? = wordAt U (x ++ rest).getLast? := by
    by_cases hrest : rest = []
    · subst hrest
      rw [mapWords_nil, List.append_nil, List.append_nil, hx]
    · rw [List.getLast?_append_of_ne_nil _ (mapWords_ne_nil hf hrest),
        List.getLast?_append_of_ne_nil _ hrest, ih]
  induction s using text_induction (U := U) with
  | nil => rfl
  | char c rest hc ih =>
    rw [mapWords_cons hc]
    exact happend (rfl : wordAt U [c].getLast? = wordAt U [c].getLast?) ih
  | word w rest hw hrest ih =>
    rw [mapWords_word hw hrest]
    exact happend ((hf w hw).wordAt_getLast?.trans hw.wordAt_getLast?.symm) ih

/-- A cut of the replaced text between words is one of the text. -/
theorem exists_cut (hf : KeepsWords U f) {s x y : Text} (h : mapWords U f s = x ++ y)
    (hxy : Apart U x y) : ∃ a b, s = a ++ b ∧ mapWords U f a = x ∧ mapWords U f b = y := by
  induction s using text_induction (U := U) generalizing x with
  | nil =>
    obtain ⟨rfl, rfl⟩ := List.append_eq_nil_iff.1 h.symm
    exact ⟨[], [], rfl, rfl, rfl⟩
  | char c rest hc ih =>
    cases x with
    | nil => exact ⟨[], _, rfl, rfl, h⟩
    | cons d x =>
      rw [mapWords_cons hc, List.cons_append, List.cons.injEq] at h
      obtain ⟨rfl, h⟩ := h
      obtain ⟨a, b, rfl, rfl, rfl⟩ := ih h hxy.of_cons
      exact ⟨c :: a, b, rfl, mapWords_cons hc a, rfl⟩
  | word w rest hw hrest ih =>
    rw [mapWords_word hw hrest] at h
    have hword := hf w hw
    rcases List.append_eq_append_iff.1 h with ⟨z, rfl, hz⟩ | ⟨z, hz, rfl⟩
    · obtain ⟨a, b, rfl, rfl, rfl⟩ := ih hz hxy.of_append
      have ha : wordAt U a.head? = false := by
        cases a with
        | nil => rfl
        | cons c a => exact hrest
      exact ⟨w ++ a, b, (List.append_assoc _ _ _).symm, mapWords_word hw ha, rfl⟩
    · -- the cut is before, in or after the new word
      cases z with
      | nil =>
        rw [List.append_nil] at hz
        have hmap := mapWords_word (f := f) hw (rfl : wordAt U ([] : Text).head? = false)
        rw [List.append_nil, mapWords_nil, List.append_nil] at hmap
        exact ⟨w, rest, rfl, hmap.trans hz, rfl⟩
      | cons c z =>
        cases x with
        | nil => exact ⟨[], _, rfl, rfl, (mapWords_word hw hrest).trans h⟩
        | cons d x =>
          have hx : IsWord U (d :: x) :=
            ⟨by simp, fun e he => hword.2 e (hz ▸ List.mem_append_left _ he)⟩
          have hc : U.isWord c = true := hword.2 c (hz ▸ by simp)
          have hfalse := hxy hx.wordAt_getLast?
          rw [List.cons_append, List.head?_cons, wordAt, Option.any_some, hc] at hfalse
          cases hfalse

/-- What has no character of a word is what it was. -/
theorem eq_of_mapWords_eq_gap (hf : KeepsWords U f) {s gap : Text}
    (hgap : ∀ c ∈ gap, U.isWord c = false) (h : mapWords U f s = gap) : s = gap := by
  induction s using text_induction (U := U) generalizing gap with
  | nil => exact h
  | char c rest hc ih =>
    rw [mapWords_cons hc] at h
    subst h
    rw [← ih (fun d hd => hgap d (List.mem_cons_of_mem c hd)) rfl]
  | word w rest hw hrest _ =>
    rw [mapWords_word hw hrest] at h
    obtain ⟨c, v, hv⟩ := List.exists_cons_of_ne_nil (hf w hw).1
    have hc : U.isWord c = true := (hf w hw).2 c (hv ▸ List.mem_cons_self)
    rw [hgap c (by rw [← h, hv]; simp)] at hc
    cases hc

theorem mapWords_gap {gap : Text} (hgap : ∀ c ∈ gap, U.isWord c = false) :
    mapWords U f gap = gap := by
  induction gap with
  | nil => rfl
  | cons c gap ih =>
    rw [mapWords_cons (hgap c List.mem_cons_self),
      ih fun d hd => hgap d (List.mem_cons_of_mem c hd)]

/-- What became a word was one. -/
theorem isWord_of_mapWords {s : Text} (h : IsWord U (mapWords U f s)) :
    IsWord U s ∧ mapWords U f s = f s := by
  obtain rfl | ⟨c, rest, rfl, hc⟩ | ⟨w, rest, rfl, hw, hrest⟩ := text_cases (U := U) s
  · exact absurd rfl h.1
  · rw [mapWords_cons hc] at h
    rw [h.2 c List.mem_cons_self] at hc
    cases hc
  · cases rest with
    | nil =>
      have hmap := mapWords_word (f := f) hw hrest
      rw [List.append_nil, mapWords_nil, List.append_nil] at hmap
      rw [List.append_nil]
      exact ⟨hw, hmap⟩
    | cons c rest =>
      have hc : U.isWord c = false := hrest
      rw [mapWords_word hw hrest, mapWords_cons hc] at h
      rw [h.2 c (by simp)] at hc
      cases hc

end Map

/-! ### Where a name stands -/

/-- `k` stands in `s` between `a` and `b`, with a boundary on both sides. -/
structure Stands (U : Classes) (s k a b : Text) : Prop where
  text : s = a ++ (k ++ b)
  left : wordAt U a.getLast? ≠ wordAt U k.head?
  right : wordAt U k.getLast? ≠ wordAt U b.head?

/-- What `re.finditer` finds, if anything, it finds at some place. -/
theorem matchesFrom_ne_nil_iff {r : Re} {n : ℕ} {before : Text} {cur : Cursor}
    (hn : cur.rest.length ≤ n) :
    matchesFrom U r n before cur ≠ [] ↔
      ∃ a b, cur.rest = a ++ b ∧ (matchAt U r ⟨(a.getLast?).or cur.prev, b⟩).isSome := by
  obtain ⟨prev, rest⟩ := cur
  have hempty {prev : Option Char} : ¬ ∃ a b, ([] : Text) = a ++ b ∧
      (matchAt U r ⟨(a.getLast?).or prev, b⟩).isSome := by
    rintro ⟨a, b, hab, hmatch⟩
    obtain ⟨rfl, rfl⟩ := List.append_eq_nil_iff.1 hab.symm
    obtain ⟨m, hm⟩ := Option.isSome_iff_exists.1 hmatch
    exact absurd (matchAt_length_lt hm) (Nat.not_lt_zero _)
  induction n generalizing before prev rest with
  | zero =>
    obtain rfl : rest = [] := List.length_eq_zero_iff.1 (Nat.le_zero.1 hn)
    exact iff_of_false (by simp [matchesFrom]) hempty
  | succ n ih =>
    rw [matchesFrom]
    cases hmatch : matchAt U r ⟨prev, rest⟩ with
    | some m => exact iff_of_true (by simp) ⟨[], rest, rfl, Option.isSome_iff_exists.2 ⟨m, hmatch⟩⟩
    | none =>
      cases rest with
      | nil => exact iff_of_false (by simp) hempty
      | cons c cs =>
        refine (ih (some c) cs (Nat.le_of_succ_le_succ hn)).trans ⟨?_, ?_⟩
        · rintro ⟨a, b, hab, hfound⟩
          refine ⟨c :: a, b, congrArg (c :: ·) hab, ?_⟩
          rwa [← getLast?_or_some a c prev]
        · rintro ⟨a, b, hab, hfound⟩
          cases a with
          | nil =>
            obtain rfl : c :: cs = b := hab
            rw [List.getLast?_nil, Option.none_or, hmatch] at hfound
            cases hfound
          | cons d a =>
            rw [List.cons_append, List.cons.injEq] at hab
            obtain ⟨rfl, rfl⟩ := hab
            refine ⟨a, b, rfl, ?_⟩
            rwa [getLast?_or_some a c prev]

theorem matchAt_name_isSome_iff {k : Text} (hk : k ≠ []) (cur : Cursor) :
    (matchAt U (wordPattern U false k) cur).isSome ↔
      atBoundary U cur = true ∧
        ∃ b, cur.rest = k ++ b ∧ atBoundary U ⟨(k.getLast?).or cur.prev, b⟩ = true := by
  obtain ⟨prev, rest⟩ := cur
  have hnone (h : run U (wordPattern U false k) ⟨⟨prev, rest⟩, []⟩ = []) :
      ¬ (matchAt U (wordPattern U false k) ⟨prev, rest⟩).isSome := by
    rw [matchAt_eq_none_of_run h]
    exact Bool.false_ne_true
  cases hleft : atBoundary U ⟨prev, rest⟩ with
  | false =>
    exact iff_of_false (hnone (run_seq_of_eq_nil (run_boundary_of_not hleft))) (by simp)
  | true =>
    have hstart : run U (wordPattern U false k) ⟨⟨prev, rest⟩, []⟩ =
        run U (.seq (.text k) (wordEnd U false)) ⟨⟨prev, rest⟩, []⟩ :=
      run_seq_of_eq_singleton (run_boundary hleft [])
    by_cases hpre : k <+: rest
    · obtain ⟨b, rfl⟩ := hpre
      have hwhole : run U (wordPattern U false k) ⟨⟨prev, k ++ b⟩, []⟩ =
          run U .boundary ⟨⟨(k.getLast?).or prev, b⟩, []⟩ := by
        rw [hstart, run_seq_of_eq_singleton (run_text k prev b []), wordEnd, if_neg (by simp),
          run_seq_eps]
      cases hright : atBoundary U ⟨(k.getLast?).or prev, b⟩ with
      | false =>
        rw [run_boundary_of_not hright] at hwhole
        refine iff_of_false (hnone hwhole) ?_
        rintro ⟨-, b', hb, hb'⟩
        obtain rfl := List.append_cancel_left hb
        rw [hright] at hb'
        cases hb'
      | true =>
        have hpos := List.length_pos_of_ne_nil hk
        rw [run_boundary hright] at hwhole
        refine iff_of_true ?_ ⟨rfl, b, rfl, hright⟩
        rw [matchAt, hwhole]
        simp only [List.head?_cons, List.length_append]
        rw [if_pos (by omega)]
        rfl
    · refine iff_of_false (hnone ?_) ?_
      · rw [hstart]
        exact run_seq_of_eq_nil (run_text_of_not_isPrefix hpre)
      · rintro ⟨-, b, hb, -⟩
        exact hpre ⟨b, hb.symm⟩

/-- The places at which `re.sub` replaces a name: what stands before it, and after it. -/
def places (U : Classes) (k s : Text) : List (Text × Text) :=
  (finditerStarts U (wordPattern U false k) s).map fun p => (p.1, p.2.cur.rest)

theorem places_ne_nil_iff {k : Text} (hk : k ≠ []) (s : Text) :
    places U k s ≠ [] ↔ ∃ a b, Stands U s k a b := by
  obtain ⟨c, k', rfl⟩ := List.exists_cons_of_ne_nil hk
  have hlast (prev : Option Char) : ((c :: k').getLast?).or prev = (c :: k').getLast? := by
    rw [List.getLast?_eq_some_getLast hk, Option.some_or]
  rw [places, ne_eq, List.map_eq_nil_iff, ← ne_eq, finditerStarts,
    matchesFrom_ne_nil_iff (le_refl s.length)]
  simp only [matchAt_name_isSome_iff hk, Option.or_none, hlast, atBoundary, bne_iff_ne]
  constructor
  · rintro ⟨a, b', rfl, hleft, b, rfl, hright⟩
    exact ⟨a, b, rfl, hleft, hright⟩
  · rintro ⟨a, b, h⟩
    exact ⟨a, (c :: k') ++ b, h.text, h.left, b, rfl, h.right⟩

theorem exists_of_mem_words {k s : Text} (h : k ∈ words U s) :
    ∃ a b, s = a ++ (k ++ b) ∧ wordAt U a.getLast? = false ∧ wordAt U b.head? = false := by
  induction s using text_induction (U := U) with
  | nil => cases h
  | char c rest hc ih =>
    rw [words_cons hc] at h
    obtain ⟨a, b, rfl, hleft, hright⟩ := ih h
    refine ⟨c :: a, b, rfl, ?_, hright⟩
    cases a with
    | nil => exact hc
    | cons d a => exact hleft
  | word w rest hw hrest ih =>
    rw [words_word hw hrest] at h
    rcases List.mem_cons.1 h with rfl | h
    · exact ⟨[], rest, rfl, rfl, hrest⟩
    · obtain ⟨a, b, rfl, hleft, hright⟩ := ih h
      refine ⟨w ++ a, b, (List.append_assoc _ _ _).symm, ?_, hright⟩
      cases a with
      | nil =>
        rw [List.nil_append, (isWord_of_mem_words h).wordAt_head?] at hrest
        cases hrest
      | cons d a =>
        rw [List.getLast?_append_of_ne_nil _ (by simp)]
        exact hleft

theorem IsWord.head?_ne_iff {k : Text} (hk : IsWord U k) (b : Bool) :
    b ≠ wordAt U k.head? ↔ b = false := by
  have hhead := hk.wordAt_head? []
  rw [List.append_nil] at hhead
  rw [hhead, ne_eq, Bool.not_eq_true]

theorem IsWord.getLast?_ne_iff {k : Text} (hk : IsWord U k) (b : Bool) :
    wordAt U k.getLast? ≠ b ↔ b = false := by
  rw [hk.wordAt_getLast?, ne_comm, ne_eq, Bool.not_eq_true]

/-- A word stands where it is one of the words of the text. -/
theorem places_word_iff {k : Text} (hk : IsWord U k) (s : Text) :
    places U k s ≠ [] ↔ k ∈ words U s := by
  rw [places_ne_nil_iff hk.1]
  constructor
  · rintro ⟨a, b, rfl, hleft, hright⟩
    rw [hk.head?_ne_iff] at hleft
    rw [hk.getLast?_ne_iff] at hright
    have hapart : Apart U a (k ++ b) := fun hlast => absurd hlast (by simp [hleft])
    rw [words_append hapart, words_word hk hright]
    exact List.mem_append_right _ List.mem_cons_self
  · intro h
    obtain ⟨a, b, hs, hleft, hright⟩ := exists_of_mem_words h
    exact ⟨a, b, hs, (hk.head?_ne_iff _).2 hleft, (hk.getLast?_ne_iff _).2 hright⟩

section Gaps

variable {gap : Text} (hne : gap ≠ []) (hgap : ∀ c ∈ gap, U.isWord c = false)

include hgap in
theorem wordAt_head?_gap : wordAt U gap.head? = false := by
  cases gap with
  | nil => rfl
  | cons c gap => exact hgap c List.mem_cons_self

include hgap in
theorem wordAt_getLast?_gap : wordAt U gap.getLast? = false := by
  cases hlast : gap.getLast? with
  | none => rfl
  | some c => exact hgap c (List.mem_of_getLast? hlast)

include hne hgap

theorem stands_gap_iff {s v a b : Text} (hv : IsWord U v) :
    Stands U s (gap ++ v) a b ↔ s = a ++ (gap ++ (v ++ b)) ∧ wordAt U a.getLast? = true ∧
      wordAt U b.head? = false := by
  have hhead : (gap ++ v).head? = gap.head? := List.head?_append_of_ne_nil _ hne
  have hlast : (gap ++ v).getLast? = v.getLast? := List.getLast?_append_of_ne_nil _ hv.1
  constructor
  · rintro ⟨rfl, hleft, hright⟩
    rw [hhead, wordAt_head?_gap hgap, ne_eq, Bool.not_eq_false] at hleft
    rw [hlast, hv.getLast?_ne_iff] at hright
    exact ⟨by rw [List.append_assoc], hleft, hright⟩
  · rintro ⟨rfl, hleft, hright⟩
    refine ⟨by rw [List.append_assoc], ?_, ?_⟩
    · rw [hhead, wordAt_head?_gap hgap, hleft]
      exact Bool.false_ne_true.symm
    · rw [hlast]
      exact (hv.getLast?_ne_iff _).2 hright

theorem mem_words_of_places_gap {v : Text} (hv : IsWord U v) {s : Text}
    (h : places U (gap ++ v) s ≠ []) : v ∈ words U s := by
  obtain ⟨a, b, hstands⟩ := (places_ne_nil_iff (by simp [hne]) s).1 h
  obtain ⟨rfl, -, hright⟩ := (stands_gap_iff hne hgap hv).1 hstands
  have hlast : wordAt U (a ++ gap).getLast? = false := by
    rw [List.getLast?_append_of_ne_nil _ hne, wordAt_getLast?_gap hgap]
  have hapart : Apart U (a ++ gap) (v ++ b) := fun htrue => by
    rw [hlast] at htrue
    cases htrue
  rw [← List.append_assoc, words_append hapart, words_word hv hright]
  exact List.mem_append_right _ List.mem_cons_self

/-- After a word and a gap a word stands in the replaced text where one that becomes it
stood in the text. -/
theorem places_gap_iff {f : Text → Text} (hf : KeepsWords U f) {p : Text} (hp : IsWord U p)
    (s : Text) :
    places U (gap ++ p) (mapWords U f s) ≠ [] ↔
      ∃ v, IsWord U v ∧ f v = p ∧ places U (gap ++ v) s ≠ [] := by
  have hnonempty (v : Text) : gap ++ v ≠ [] := by simp [hne]
  have hbefore (a s : Text) : Apart U a (gap ++ s) := fun _ => by
    rw [List.head?_append_of_ne_nil _ hne]
    exact wordAt_head?_gap hgap
  have hafter (s : Text) : Apart U gap s := fun hlast => by
    rw [wordAt_getLast?_gap hgap] at hlast
    cases hlast
  simp only [places_ne_nil_iff (hnonempty _)]
  constructor
  · rintro ⟨x, y, hstands⟩
    obtain ⟨hs, hleft, hright⟩ := (stands_gap_iff hne hgap hp).1 hstands
    obtain ⟨a, s', rfl, rfl, hs'⟩ := exists_cut hf hs (hbefore x _)
    obtain ⟨g, s'', rfl, hg, hs''⟩ := exists_cut hf hs' (hafter _)
    obtain ⟨v, b, rfl, rfl, rfl⟩ := exists_cut hf hs'' fun _ => hright
    obtain rfl := eq_of_mapWords_eq_gap hf hgap hg
    obtain ⟨hv, hmap⟩ := isWord_of_mapWords hp
    rw [getLast?_mapWords hf] at hleft
    rw [head?_mapWords hf] at hright
    exact ⟨v, hv, hmap.symm, a, b, (stands_gap_iff hne hgap hv).2 ⟨rfl, hleft, hright⟩⟩
  · rintro ⟨v, hv, rfl, a, b, hstands⟩
    obtain ⟨rfl, hleft, hright⟩ := (stands_gap_iff hne hgap hv).1 hstands
    refine ⟨mapWords U f a, mapWords U f b, (stands_gap_iff hne hgap hp).2 ⟨?_, ?_, ?_⟩⟩
    · rw [mapWords_append (hbefore a _), mapWords_append (hafter _), mapWords_gap hgap,
        mapWords_word hv hright]
    · rw [getLast?_mapWords hf, hleft]
    · rw [head?_mapWords hf, hright]

end Gaps

/-! ### Replacing one word -/

theorem replaceFrom_eq_mapWords {old new : Text} (hold : IsWord U old) {cur : Cursor}
    (h : Between U cur) :
    replaceFrom U false old new cur =
      mapWords U (fun w => if w = old then new else w) cur.rest := by
  obtain ⟨prev, rest⟩ := cur
  induction rest using text_induction (U := U) generalizing prev with
  | nil => rfl
  | char c rest hc ih =>
    rw [replaceFrom_outside hold (.inr hc), mapWords_cons hc, ih (some c) (.inl hc)]
  | word w rest hw hrest ih =>
    have hlater := ih w.getLast? (.inr hrest)
    rw [replaceFrom_word hold (h.prev hw) hw hrest, mapWords_word hw hrest]
    by_cases hwo : w = old
    · rw [if_pos hwo, if_pos hwo, ← hlater]
      rfl
    · rw [if_neg hwo, if_neg hwo, ← hlater]

/-- `re.sub` of one word by another. -/
theorem sub_name_eq_mapWords {old : Text} (hold : IsWord U old) (new s : Text) :
    sub U (wordPattern U false old) (fun _ => new) s =
      mapWords U (fun w => if w = old then new else w) s :=
  replaceFrom_eq_mapWords hold (.inl rfl : Between U ⟨none, s⟩)

theorem scanWith_of_matchesFrom {r : Re} {repl : Found → Text} {n : ℕ} {before : Text}
    {cur : Cursor} (hn : cur.rest.length ≤ n) (h : matchesFrom U r n before cur = []) :
    scanWith U r repl (fun c => [c]) n cur = cur.rest := by
  obtain ⟨prev, rest⟩ := cur
  induction n generalizing before prev rest with
  | zero =>
    obtain rfl : rest = [] := List.length_eq_zero_iff.1 (Nat.le_zero.1 hn)
    rfl
  | succ n ih =>
    rw [matchesFrom] at h
    rw [scanWith]
    cases hmatch : matchAt U r ⟨prev, rest⟩ with
    | some m => simp [hmatch] at h
    | none =>
      cases rest with
      | nil => rfl
      | cons c cs =>
        simp only [hmatch] at h
        exact congrArg (c :: ·) (ih (some c) cs (Nat.le_of_succ_le_succ hn) h)

/-- `re.sub` of a name that stands nowhere. -/
theorem sub_name_eq_self {k s : Text} (h : places U k s = []) (repl : Found → Text) :
    sub U (wordPattern U false k) repl s = s := by
  have hmatches : matchesFrom U (wordPattern U false k) s.length [] ⟨none, s⟩ = [] :=
    List.map_eq_nil_iff.1 h
  exact scanWith_of_matchesFrom (le_refl s.length) hmatches

end Regex
