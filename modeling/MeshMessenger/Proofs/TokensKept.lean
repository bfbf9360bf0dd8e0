import MeshMessenger.Proofs.BlankRemoval

/-! Which C texts `remove_comments_and_spaces` leaves with the tokens they have. -/

namespace Mesh.Obfuscator

open CLib CLib.Lex Regex BlankRuns

variable (U : Classes)

def prevChar : Before → Option Char
  | .char c => some c
  | _ => none

/-- Blanks at a place start a run, or go on after the end of a joined line. -/
def startsRun : Before → Bool
  | .char c => !U.isSpace c
  | _ => true

def blanksAt (p : Place) : Text := p.rest.takeWhile U.isSpace

def afterBlanks (p : Place) : Text := p.rest.dropWhile U.isSpace

def blanksLeft (p : Place) : Text := squeezed (prevChar p.before) (blanksAt U p) (afterBlanks U p).head?

/-- The run of blanks at a place can be squeezed. -/
structure Squeezable (p : Place) : Prop where
  joined : p.before = .splice → ∀ c ∈ (afterBlanks U p).head?, isOperator c = false
  literal : p.state.pending.isCode = false → blanksAt U p ≠ [] → blanksLeft U p = blanksAt U p
  apart : p.state.pending.isCode = true → blanksAt U p ≠ [] → blanksLeft U p = [] →
    joins U p.state.pending (visible U (splice (afterBlanks U p))) = false
  lineEnd : p.state.pending.isCode = true → '\n' ∈ blanksAt U p → blanksLeft U p = [] →
    ∀ ts, p.state.pending.tokens = some ts → visible U (splice (afterBlanks U p)) = [] ∨
      (p.state.line.emit ts).2 = .fresh ∨
      (p.state.line.emit ts).2 = .code ∧ opensAfter U (splice (afterBlanks U p)) = false

set_option synthInstance.maxSize 256 in
instance (p : Place) : Decidable (Squeezable U p) :=
  decidable_of_iff ((p.before = .splice → (afterBlanks U p).head?.all fun c => !isOperator c) ∧
      _ ∧ _ ∧ (_ → _ → _ → ∀ ts ∈ p.state.pending.tokens, _))
    ⟨fun h => ⟨fun hj => by simpa [Option.all_eq_true] using h.1 hj, h.2.1, h.2.2.1, h.2.2.2⟩,
      fun h => ⟨fun hj => by simpa [Option.all_eq_true] using h.joined hj, h.literal, h.apart,
        h.lineEnd⟩⟩

variable {U}

theorem squeezed_blank : squeezed.Blank U.isSpace :=
  squeezed_eq ▸ lineStartRuns_blank.comp (operatorRuns_blank.comp squashRuns_blank)

theorem squeezed_none (w : Text) (next : Option Char) : squeezed none w next = [] :=
  if_pos (.inl rfl)

theorem splice_run {w : Text} (hw : ∀ c ∈ w, U.isSpace c = true) (x : Text) :
    splice (w ++ x) = w ++ splice x := by
  induction w with
  | nil => rfl
  | cons c w ih =>
    have hc : c ≠ backslash := ne_of_isSpace (hw c List.mem_cons_self) (by decide)
    rw [List.cons_append, splice_cons fun h => hc h.1,
      ih fun d hd => hw d (List.mem_cons_of_mem c hd), List.cons_append]

theorem visible_run {w : Text} (hw : ∀ c ∈ w, U.isSpace c = true) (x : Text) :
    visible U (w ++ x) = visible U x := by
  induction w with
  | nil => rfl
  | cons c w ih =>
    rw [List.cons_append, visible_cons_of_isSpace (hw c List.mem_cons_self),
      ih fun d hd => hw d (List.mem_cons_of_mem c hd)]

theorem squash_newline (within : Bool) (w : Text) : '\n' ∈ squash within w ↔ '\n' ∈ w := by
  induction w generalizing within with
  | nil => rfl
  | cons c w ih =>
    have htab : isTab '\n' = false := by decide
    rw [squash]
    by_cases hc : isTab c = true
    · have hne : '\n' ≠ c := by
        rintro rfl
        rw [htab] at hc
        cases hc
      cases within <;> simp [hc, hne, ih]
    · rw [if_neg hc, List.mem_cons, List.mem_cons, ih]

theorem newline_mem_keepLine (w : Text) : '\n' ∈ keepLine w ↔ '\n' ∈ w := by
  refine ⟨mem_keepLine, fun h => ?_⟩
  simp [keepLine, h]

theorem squeezed_newline {prev : Option Char} {w : Text} {next : Option Char}
    (h : squeezed prev w next ≠ []) : '\n' ∈ squeezed prev w next ↔ '\n' ∈ w := by
  unfold squeezed at h ⊢
  split_ifs at h ⊢
  · exact absurd rfl h
  · rw [newline_mem_keepLine, squash_newline]

theorem mem_squeezed {c : Char} {prev : Option Char} {w : Text} {next : Option Char}
    (h : c ∈ squeezed prev w next) : c = ' ' ∨ c ∈ w := by
  unfold squeezed at h
  split_ifs at h
  · cases h
  · exact mem_squash (mem_keepLine h)

theorem squeezed_head {prev : Option Char} {w : Text} {next : Option Char}
    (h : (squeezed prev w next).head? = some '\n') : w.head? = some '\n' := by
  unfold squeezed at h
  split_ifs at h
  · cases h
  · cases w with
    | nil => cases h
    | cons c w =>
      by_contra hc
      have hne : c ≠ '\n' := fun hcn => hc (by rw [hcn]; rfl)
      rw [squash] at h
      split_ifs at h
      · contradiction
      · rw [keepLine_cons (by decide)] at h
        cases h
      · rw [keepLine_cons hne] at h
        exact hne (Option.some.inj h)

/-- No line is joined with the next where blanks are squeezed. -/
theorem not_splice_mapRuns {c : Char} {y : Text} (h : ¬ Splice c y) :
    ¬ Splice c (mapRuns U.isSpace squeezed (some c) [] y) := by
  rintro ⟨hc, hhead⟩
  refine h ⟨hc, ?_⟩
  have hnewline : U.isSpace '\n' = true := isSpace_imp (by decide)
  rcases run_cases U.isSpace y with rfl | ⟨d, z, rfl, hd⟩ | ⟨w, z, rfl, hne, hw, hz⟩
  · rw [mapRuns, squeezed_blank (U := U).nil] at hhead
    cases hhead
  · rw [mapRuns_cons _ squeezed_blank hd] at hhead
    exact hhead
  · rw [mapRuns_run _ squeezed_blank hw hz (some c) none, List.head?_append] at hhead
    have hw' : (squeezed (some c) w z.head?).head? = some '\n' := by
      cases hleft : (squeezed (some c) w z.head?).head? with
      | some d => rwa [hleft] at hhead
      | none =>
        rw [hleft, Option.none_or] at hhead
        cases z with
        | nil =>
          rw [mapRuns, squeezed_none] at hhead
          cases hhead
        | cons d z =>
          rw [mapRuns_cons _ squeezed_blank (hz d rfl)] at hhead
          obtain rfl : d = '\n' := Option.some.inj hhead
          rw [hz '\n' rfl] at hnewline
          cases hnewline
    rw [List.head?_append, squeezed_head hw']
    rfl

/-- Blanks at the start of a line that is joined with the one before go. -/
theorem mapRuns_joined {y : Text} (hy : ∀ c ∈ (y.dropWhile U.isSpace).head?, isOperator c = false)
    (prev : Option Char) :
    mapRuns U.isSpace squeezed prev [] (backslash :: '\n' :: y) =
      backslash :: '\n' :: mapRuns U.isSpace squeezed none [] y := by
  have hback : U.isSpace backslash = false := not_isSpace_of_isGraph (by decide)
  have hnewline : U.isSpace '\n' = true := isSpace_imp (by decide)
  have hw : ∀ c ∈ y.takeWhile U.isSpace, U.isSpace c = true := fun c hc => List.mem_takeWhile_imp hc
  have hsplit : y.takeWhile U.isSpace ++ y.dropWhile U.isSpace = y :=
    List.takeWhile_append_dropWhile
  have hrun := mapRuns_run squeezed squeezed_blank hw (head?_dropWhile y) none none
  rw [hsplit, squeezed_none, List.nil_append] at hrun
  have hrun' := mapRuns_run squeezed squeezed_blank (List.forall_mem_cons.2 ⟨hnewline, hw⟩)
    (head?_dropWhile y) (some backslash) none
  have hkept : squeezed (some backslash) ('\n' :: y.takeWhile U.isSpace)
      (y.dropWhile U.isSpace).head? = ['\n'] := by
    have hbeside : besideOperator (some backslash) (y.dropWhile U.isSpace).head? = false := by
      have hop : isOperator backslash = false := by decide
      cases hhead : (y.dropWhile U.isSpace).head? with
      | none => simp [besideOperator, hop]
      | some c => simp [besideOperator, hop, hy c hhead]
    have htab : isTab '\n' = false := by decide
    rw [squeezed, if_neg (by simp [hbeside]), squash, if_neg (by simp [htab]), keepLine_newline]
  rw [List.cons_append, hsplit, hkept, ← hrun] at hrun'
  rw [mapRuns_cons _ squeezed_blank hback, hrun', List.singleton_append]

variable (U) in
/-- A text with the visible characters of another, those next to each other still so. -/
structure Alike (x y : Text) : Prop where
  visible : visible U x = visible U y
  starts : ∀ w, (∀ c ∈ w, U.isSpace c = false) → w <+: y → w <+: x
  goesOn : ∀ w, (∀ c ∈ w, U.isSpace c = false) →
    w <+: y.dropWhile U.isSpace → w <+: x.dropWhile U.isSpace

theorem Alike.refl (x : Text) : Alike U x x := ⟨rfl, fun _ _ h => h, fun _ _ h => h⟩

theorem Alike.cons {x y : Text} (h : Alike U x y) {c : Char} (hc : U.isSpace c = false) :
    Alike U (c :: x) (c :: y) := by
  have hstarts : ∀ w, (∀ d ∈ w, U.isSpace d = false) → w <+: c :: y → w <+: c :: x := by
    intro w hw hpre
    cases w with
    | nil => exact List.nil_prefix
    | cons d w =>
      rw [List.cons_prefix_cons] at hpre ⊢
      exact ⟨hpre.1, h.starts w (fun e he => hw e (List.mem_cons_of_mem d he)) hpre.2⟩
  refine ⟨?_, hstarts, ?_⟩
  · rw [visible_cons hc, visible_cons hc, h.visible]
  · rwa [List.dropWhile_cons_of_neg (by simp [hc]), List.dropWhile_cons_of_neg (by simp [hc])]

theorem Alike.blanks {x y v w : Text} (h : Alike U x y) (hv : ∀ c ∈ v, U.isSpace c = true)
    (hw : ∀ c ∈ w, U.isSpace c = true) (hne : w ≠ []) : Alike U (v ++ x) (w ++ y) := by
  refine ⟨?_, fun u hu hpre => ?_, fun u hu hpre => ?_⟩
  · rw [visible_run hv, visible_run hw, h.visible]
  · obtain ⟨d, w, rfl⟩ := List.exists_cons_of_ne_nil hne
    cases u with
    | nil => exact List.nil_prefix
    | cons c u =>
      rw [List.cons_append, List.cons_prefix_cons] at hpre
      have hspace := hw d List.mem_cons_self
      rw [← hpre.1, hu c List.mem_cons_self] at hspace
      cases hspace
  · rw [List.dropWhile_append_of_pos hw] at hpre
    rw [List.dropWhile_append_of_pos hv]
    exact h.goesOn u hu hpre

theorem Alike.opensAfter {x y : Text} (h : Alike U x y) (hy : opensAfter U y = false) :
    opensAfter U x = false := by
  have hsharp : ∀ w : String, w = "##" ∨ w = "%:%:" → ∀ c ∈ w.toList, U.isSpace c = false := by
    intro w hw c hc
    have hall : "##%:%:".toList.all isGraph = true := rfl
    refine not_isSpace_of_isGraph (List.all_eq_true.1 hall c ?_)
    rcases hw with rfl | rfl
    · exact List.mem_append_left "%:%:".toList hc
    · exact List.mem_append_right "##".toList hc
  simp only [CLib.Lex.opensAfter, Bool.and_eq_false_iff, Bool.not_eq_false', doublesHash,
    Bool.or_eq_true, List.isPrefixOf_iff_prefix] at hy ⊢
  rw [h.visible]
  refine hy.imp_right (Or.imp ?_ ?_)
  · exact h.goesOn _ (hsharp _ (.inl rfl))
  · exact h.goesOn _ (hsharp _ (.inr rfl))

/-- The lexer reads on as before after a run of blanks that is squeezed. -/
theorem lexFrom_squeezed_run {b : Before} {h : Bool} {s : State} {w y z : Text}
    (hplace : Squeezable U ⟨b, h, s, w ++ y⟩) (hne : w ≠ [])
    (hw : ∀ c ∈ w, U.isSpace c = true) (hy : ∀ c ∈ y.head?, U.isSpace c = false)
    {q : State × List Item} {rest : List Item} (hq : feedAll U s w = some q)
    (hrest : lexFrom U q.1 (splice y) = some rest) (hz : lexFrom U q.1 z = some rest)
    (halike : Alike U z (splice y)) :
    lexFrom U s (squeezed (prevChar b) w y.head? ++ z) = some (q.2 ++ rest) := by
  have hat : blanksAt U ⟨b, h, s, w ++ y⟩ = w := takeWhile_run hw hy
  have hafter : afterBlanks U ⟨b, h, s, w ++ y⟩ = y := dropWhile_run hw hy
  have hleft : blanksLeft U ⟨b, h, s, w ++ y⟩ = squeezed (prevChar b) w y.head? := by
    rw [blanksLeft, hat, hafter]
  have hlex : lexFrom U s (w ++ splice y) = some (q.2 ++ rest) := by
    rw [lexFrom_append hq, hrest, Option.map_some]
  cases hcode : s.pending.isCode with
  | false =>
    have hsame := hplace.literal hcode (by rwa [hat])
    rw [hleft, hat] at hsame
    rw [hsame, lexFrom_append hq, hz, Option.map_some]
  | true =>
    obtain ⟨ts, hts⟩ : ∃ ts, s.pending.tokens = some ts := by
      obtain ⟨c, w, rfl⟩ := List.exists_cons_of_ne_nil hne
      exact tokens_of_blank hcode (hw c List.mem_cons_self) hlex
    have hblanks := feedAll_blanks (U := U) hcode hts (blanks_of_lexFrom hcode hw hlex) hne
    obtain rfl := Option.some.inj (hq.symm.trans hblanks)
    by_cases hgone : squeezed (prevChar b) w y.head? = []
    · have hjoins := hplace.apart hcode (by rwa [hat]) (by rwa [hleft])
      have hline := fun h => hplace.lineEnd hcode h (by rwa [hleft]) ts hts
      rw [hafter, ← halike.visible] at hjoins
      rw [hat, hafter, ← halike.visible] at hline
      rw [hgone, List.nil_append]
      refine lexFrom_of_gone hcode hts hz (joins_visible hjoins) fun hmem => ?_
      exact (hline hmem).imp_right (Or.imp_right (And.imp_right halike.opensAfter))
    · refine lexFrom_of_kept hcode hts hz (fun c hc => ?_) hgone (squeezed_newline hgone)
      rcases mem_squeezed hc with rfl | hc
      · rfl
      · exact blanks_of_lexFrom hcode hw hlex c hc

/-- Squeezed blanks leave the tokens and what can be seen of the text. -/
theorem lexFrom_squeezed {n : ℕ} {x : Text} (hn : x.length ≤ n) {b : Before} {h : Bool}
    {s : State} {items : List Item} (hlex : lexFrom U s (splice x) = some items)
    (hplaces : ∀ p ∈ places U b h s x, startsRun U p.before = true → Squeezable U p)
    (hb : startsRun U b = true ∨ ∀ c ∈ x.head?, U.isSpace c = false) :
    lexFrom U s (splice (mapRuns U.isSpace squeezed (prevChar b) [] x)) = some items ∧
      Alike U (splice (mapRuns U.isSpace squeezed (prevChar b) [] x)) (splice x) := by
  induction n generalizing x b h s items with
  | zero =>
    obtain rfl : x = [] := List.length_eq_zero_iff.1 (Nat.le_zero.1 hn)
    rw [mapRuns, squeezed_blank (U := U).nil]
    exact ⟨hlex, Alike.refl _⟩
  | succ n ih =>
    rcases run_cases U.isSpace x with rfl | ⟨c, y, rfl, hspace⟩ | ⟨w, y, rfl, hne, hw, hy⟩
    · rw [mapRuns, squeezed_blank (U := U).nil]
      exact ⟨hlex, Alike.refl _⟩
    · by_cases hc : Splice c y
      · obtain ⟨rfl, hhead⟩ := hc
        obtain ⟨z, rfl⟩ := List.head?_eq_some_iff.1 hhead
        rw [splice_joined] at hlex
        have hnext : ∀ p ∈ places U .splice h s z, startsRun U p.before = true → Squeezable U p :=
          fun p hp => hplaces p (mem_places_of_joined hp)
        have hjoined := (hnext _ (mem_places _ _ _ _) rfl).joined rfl
        obtain ⟨hz, halike⟩ := ih (by simp at hn; omega) hlex hnext (.inl rfl)
        rw [mapRuns_joined hjoined, splice_joined, splice_joined]
        exact ⟨hz, halike⟩
      · rw [splice_cons hc] at hlex ⊢
        obtain ⟨r, rest, hr, hrest, rfl⟩ := lexFrom_cons_eq_some hlex
        have hnext : ∀ p ∈ places U (.char c) (Place.hides ⟨b, h, s, c :: y⟩) r.1 y,
            startsRun U p.before = true → Squeezable U p := fun p hp =>
          hplaces p (mem_places_of_next hc hr hp)
        have hstarts : startsRun U (.char c) = true := by rw [startsRun, hspace, Bool.not_false]
        obtain ⟨hz, halike⟩ := ih (by simpa using hn) hrest hnext (.inl hstarts)
        rw [mapRuns_cons _ squeezed_blank hspace, splice_cons (not_splice_mapRuns hc)]
        exact ⟨lexFrom_cons hr hz, halike.cons hspace⟩
    · have hstarts : startsRun U b = true := by
        refine hb.resolve_right fun h => ?_
        obtain ⟨c, w, rfl⟩ := List.exists_cons_of_ne_nil hne
        have hc := hw c List.mem_cons_self
        rw [h c rfl] at hc
        cases hc
      have hplace := hplaces _ (mem_places b h s (w ++ y)) hstarts
      have hback : ∀ c ∈ w, c ≠ backslash := fun c hc => ne_of_isSpace (hw c hc) (by decide)
      rw [splice_run hw] at hlex
      obtain ⟨q, rest, hq, hrest, rfl⟩ := feedAll_of_lexFrom hlex
      obtain ⟨b', h', hmem⟩ := places_append hback hq b h y
      have hlen : y.length ≤ n := by
        have := List.length_pos_iff.2 hne
        simp only [List.length_append] at hn
        omega
      obtain ⟨hz, halike⟩ := ih hlen hrest (fun p hp => hplaces p (hmem p hp)) (.inr hy)
      rw [mapRuns_run _ squeezed_blank hw hy (prevChar b) (prevChar b')]
      generalize mapRuns U.isSpace squeezed (prevChar b') [] y = z at hz halike
      have hblank := squeezed_blank (U := U).blanks (prevChar b) w y.head? hw
      rw [splice_run hw, splice_run hblank]
      exact ⟨lexFrom_squeezed_run hplace hne hw hy hq hrest hz halike,
        halike.blanks hblank hw hne⟩

variable (U) in
/-- Removing comments and blanks leaves the tokens and the directives of a text as they are. -/
def PreservesTokens (level : Level) (code : Text) : Prop :=
  lex U (removeCommentsAndSpaces U level code) = lex U code

variable (U) in
/-- The comment patterns match the comments of a text and nothing else, and what they and the
patterns of blanks take out keeps no two tokens apart, stands in no literal and ends no
directive. -/
structure Strippable (level : Level) (code : Text) : Prop where
  comments : ∀ p ∈ places U .start false init code, p.Removable U ∧ Fit p
  blanks : level = .high →
    ∀ p ∈ places U .start false init (uncomment U code), startsRun U p.before = true → Squeezable U p

instance (level : Level) (code : Text) : Decidable (Strippable U level code) :=
  decidable_of_iff (_ ∧ _) ⟨fun h => ⟨h.1, h.2⟩, fun h => ⟨h.comments, h.blanks⟩⟩

end Mesh.Obfuscator
