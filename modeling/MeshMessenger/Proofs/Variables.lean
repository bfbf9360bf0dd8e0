import MeshMessenger.Lib.Captures
import MeshMessenger.Lib.Identifiers
import MeshMessenger.Lib.WordMaps
import MeshMessenger.Proofs.Linkage

/-! Whether the substitutions of `obfuscate_variables` act as one injective renaming of the
identifiers of the text. They are made one after the other, for what the patterns pick, with
names that are compared only with each other. -/

namespace Mesh.Obfuscator

open Regex
open CLib (IdentifierAt cKeywords)

variable (U : Classes) (keywords : List Text)

/-- The substitutions, one after the other. -/
def substituteAll (items : Dict) (code : Text) : Text :=
  items.foldl (fun code item => substituteWord U item.1 item.2 code) code

/-- What a word becomes when all are replaced at once. -/
def renamed (dict : Dict) (w : Text) : Text := (dict.lookup w).getD w

def IsIdentifier (code w : Text) : Prop :=
  ∃ p ∈ places U w code, IdentifierAt U keywords p.1 w p.2

/-- One simultaneous injective renaming of identifiers. A substitution that finds something
replaces an identifier of the text, wherever it stands. -/
structure RenamesIdentifiers (code : Text) (dict : Dict) (out : Text) : Prop where
  identifiers : ∀ before item after, byLength dict = before ++ item :: after →
    places U item.1 (substituteAll U before code) ≠ [] →
      places U item.1 code ≠ [] ∧
        ∀ p ∈ places U item.1 code, IdentifierAt U keywords p.1 item.1 p.2
  injective : Set.InjOn (renamed dict) { w | IsIdentifier U keywords code w }
  simultaneous : out = mapWords U (renamed dict) code

/-- The stars that were picked with a name, and the name. -/
def stars (k : Text) : Text := k.takeWhile (· == '*')

def unstarred (k : Text) : Text := k.dropWhile (· == '*')

/-- What the picks, the names drawn for them and the text have to be: what is picked is an
identifier, wherever it stands; a new name is no identifier that keeps its name; and where it
is put, it does not make a pick whose turn is still to come. -/
structure Renameable (code : Text) (dict : Dict) : Prop where
  picked : ∀ item ∈ dict, ∀ p ∈ places U item.1 code, IdentifierAt U keywords p.1 item.1 p.2
  free : ∀ item ∈ dict, places U item.1 code ≠ [] →
    ∀ w, IsIdentifier U keywords code w → w ∉ dict.map Prod.fst → item.2 ≠ w
  turn : (byLength dict).Pairwise fun a b => places U a.1 code ≠ [] →
    places U (stars b.1 ++ a.1) code ≠ [] → a.2 ≠ unstarred b.1

variable {U keywords}

/-! ### Names -/

theorem generateComplexName_fresh {used : List Text} {draws : List Candidate} {name : Text}
    {namer : Namer} (h : generateComplexName used draws = some (name, namer)) :
    name ∉ used ∧ namer.used = name :: used := by
  induction draws with
  | nil => exact absurd h (by simp [generateComplexName])
  | cons candidate draws ih =>
    rw [generateComplexName] at h
    split_ifs at h with hfresh
    · simp only [Option.some.injEq, Prod.mk.injEq] at h
      obtain ⟨rfl, rfl⟩ := h
      exact ⟨hfresh.1, rfl⟩
    · exact ih h

/-- Every name is new, and every pick gets one. -/
theorem nameAll_nodup {picks : List Text} {dict dict' : Dict} {namer namer' : Namer}
    (h : nameAll picks dict namer = some (dict', namer')) (hkeys : (dict.map Prod.fst).Nodup)
    (hvalues : (dict.map Prod.snd).Nodup) (hused : ∀ item ∈ dict, item.2 ∈ namer.used) :
    (dict'.map Prod.fst).Nodup ∧ (dict'.map Prod.snd).Nodup := by
  induction picks generalizing dict namer with
  | nil =>
    simp only [nameAll, Option.some.injEq, Prod.mk.injEq] at h
    exact h.1 ▸ ⟨hkeys, hvalues⟩
  | cons w picks ih =>
    rw [nameAll] at h
    split_ifs at h with hw
    · exact ih h hkeys hvalues hused
    · split at h
      · cases h
      · rename_i name next hname
        obtain ⟨hfresh, hnext⟩ := generateComplexName_fresh hname
        have hnew : name ∉ dict.map Prod.snd := by
          intro hmem
          obtain ⟨item, hitem, rfl⟩ := List.mem_map.1 hmem
          exact hfresh (hused item hitem)
        refine ih h ?_ ?_ ?_
        · rw [List.map_append, List.map_singleton, ← List.concat_eq_append]
          exact hkeys.concat hw
        · rw [List.map_append, List.map_singleton, ← List.concat_eq_append]
          exact hvalues.concat hnew
        · intro item hitem
          rw [hnext]
          rcases List.mem_append.1 hitem with hitem | hitem
          · exact List.mem_cons_of_mem _ (hused item hitem)
          · rw [List.mem_singleton.1 hitem]
            exact List.mem_cons_self

/-! ### Picks -/

theorem star_not_word : U.isWord '*' = false := by
  rw [U.isWord_ascii _ (by decide)]
  decide

theorem stars_append_unstarred (k : Text) : stars k ++ unstarred k = k :=
  List.takeWhile_append_dropWhile

theorem not_isWord_of_mem_stars {k : Text} : ∀ c ∈ stars k, U.isWord c = false := by
  intro c hc
  rw [beq_iff_eq.1 (List.mem_takeWhile_imp (p := (· == '*')) hc)]
  exact star_not_word

/-- A word was picked without stars. -/
theorem stars_of_isWord {k : Text} (hk : IsWord U k) : stars k = [] ∧ unstarred k = k := by
  obtain ⟨c, k, rfl⟩ := List.exists_cons_of_ne_nil hk.1
  have hc : (c == '*') = false := by
    by_contra h
    rw [Bool.not_eq_false, beq_iff_eq] at h
    have hword := hk.2 c List.mem_cons_self
    rw [h, star_not_word] at hword
    cases hword
  exact ⟨List.takeWhile_cons_of_neg (by simp [hc]), List.dropWhile_cons_of_neg (by simp [hc])⟩

/-- Stars and a word. -/
def Starred (U : Classes) (k : Text) : Prop := IsWord U (unstarred k)

theorem starred_append {v w : Text} (hv : ∀ c ∈ v, (c == '*') = true) (hw : IsWord U w) :
    Starred U (v ++ w) := by
  rw [Starred, unstarred, List.dropWhile_append_of_pos hv, ← unstarred, (stars_of_isWord hw).2]
  exact hw

theorem takes_declared :
    Takes U (.seq (.star (.char '*')) (word U)) (Starred U) := by
  apply ((takes_star_one (· == '*')).seq takes_word).imp
  rintro u ⟨v, w, rfl, hv, hw⟩
  exact starred_append hv hw

theorem captures_varPatterns : ∀ r ∈ varPatterns U, Captures U 2 (Starred U) r := by
  have hword : Takes U (word U) (Starred U) :=
    takes_word.imp fun u hu => starred_append (v := []) (by simp) hu
  have hwords (ws : List String) : Captures U 2 (Starred U) (.choice (ws.map Re.lit)) := by
    apply captures_choice
    intro r hr
    obtain ⟨w, -, rfl⟩ := List.mem_map.1 hr
    exact captures_text _
  have htwo : Captures U 2 (Starred U) (.group 2 (.seq (.star (.char '*')) (word U))) :=
    ⟨⟨trivial, trivial, trivial⟩, fun _ => takes_declared⟩
  simp only [varPatterns, List.forall_mem_cons]
  refine ⟨?_, ?_, ?_, ?_, by simp⟩
  · exact ⟨trivial, ⟨hwords _, by simp⟩, ⟨trivial, trivial⟩, ⟨⟨trivial, trivial⟩, fun _ => hword⟩,
      trivial, trivial, trivial⟩
  · exact ⟨trivial, ⟨hwords _, by simp⟩, ⟨trivial, trivial⟩, ⟨⟨trivial, trivial⟩, fun _ => hword⟩,
      trivial, trivial, trivial⟩
  · exact ⟨trivial, ⟨⟨trivial, trivial⟩, by simp⟩, trivial, htwo, trivial, trivial, trivial,
      ⟨trivial, trivial⟩, trivial, trivial⟩
  · exact ⟨trivial, ⟨⟨trivial, trivial⟩, by simp⟩, trivial, htwo, trivial, trivial, trivial⟩

/-- Every pick is a word with the stars that stand right before it. -/
theorem starred_of_mem_varPicks {code w : Text} (h : w ∈ varPicks U code) : Starred U w :=
  of_mem_captured captures_varPatterns h

/-! ### Maps in order -/

/-- What the items of a map are, in the order in which they are substituted. -/
structure Ordered (U : Classes) (items : Dict) : Prop where
  keys : (items.map Prod.fst).Nodup
  values : (items.map Prod.snd).Nodup
  words : ∀ item ∈ items, IsWord U item.2
  starred : ∀ item ∈ items, Starred U item.1
  lengths : items.Pairwise fun a b => b.1.length ≤ a.1.length

theorem byLength_perm (dict : Dict) : (byLength dict).Perm dict := List.perm_insertionSort _ dict

theorem byLength_lengths (dict : Dict) :
    (byLength dict).Pairwise fun a b => b.1.length ≤ a.1.length := by
  have : Std.Total fun a b : Text × Text => b.1.length ≤ a.1.length :=
    ⟨fun a b => Nat.le_total b.1.length a.1.length⟩
  have : IsTrans (Text × Text) fun a b => b.1.length ≤ a.1.length :=
    ⟨fun a b c hab hbc => hbc.trans hab⟩
  exact List.pairwise_insertionSort _ dict

theorem ordered_byLength {code : Text} {namer namer' : Namer} {dict : Dict}
    (h : nameAll (varPicks U code) [] namer = some (dict, namer')) :
    Ordered U (byLength dict) := by
  obtain ⟨hkeys, hvalues⟩ := nameAll_nodup h (by simp) (by simp) (by simp)
  have hperm := byLength_perm dict
  refine ⟨((hperm.map _).nodup_iff).2 hkeys, ((hperm.map _).nodup_iff).2 hvalues, ?_, ?_,
    byLength_lengths dict⟩
  · intro item hitem
    exact nameAll_isWord h (by simp) item (hperm.mem_iff.1 hitem)
  · intro item hitem
    have hpick := (nameAll_keys h item.1).1 (List.mem_map_of_mem (hperm.mem_iff.1 hitem))
    exact starred_of_mem_varPicks (hpick.resolve_left (by simp))

section Items

variable {items before after : Dict} {item : Text × Text} {w : Text}

theorem Ordered.left (h : Ordered U (before ++ after)) : Ordered U before := by
  obtain ⟨hkeys, hvalues, hwords, hstarred, hlengths⟩ := h
  rw [List.map_append] at hkeys hvalues
  exact ⟨hkeys.of_append_left, hvalues.of_append_left,
    fun item hitem => hwords item (List.mem_append_left _ hitem),
    fun item hitem => hstarred item (List.mem_append_left _ hitem),
    (List.pairwise_append.1 hlengths).1⟩

theorem Ordered.right (h : Ordered U (before ++ after)) : Ordered U after := by
  obtain ⟨hkeys, hvalues, hwords, hstarred, hlengths⟩ := h
  rw [List.map_append] at hkeys hvalues
  exact ⟨hkeys.of_append_right, hvalues.of_append_right,
    fun item hitem => hwords item (List.mem_append_right _ hitem),
    fun item hitem => hstarred item (List.mem_append_right _ hitem),
    (List.pairwise_append.1 hlengths).2.1⟩

theorem renamed_of_notMem (h : w ∉ items.map Prod.fst) : renamed items w = w := by
  have hnone : items.lookup w = none := by
    rw [List.lookup_eq_none_iff]
    intro p hp
    rw [bne_iff_ne]
    rintro rfl
    exact h (List.mem_map_of_mem hp)
  rw [renamed, hnone, Option.getD_none]

theorem renamed_of_mem (hkeys : (items.map Prod.fst).Nodup) (h : item ∈ items) :
    renamed items item.1 = item.2 := by
  obtain ⟨before, after, rfl⟩ := List.append_of_mem h
  have hsome : (before ++ item :: after).lookup item.1 = some item.2 := by
    rw [List.lookup_eq_some_iff]
    refine ⟨before, after, rfl, fun p hp => ?_⟩
    rw [bne_iff_ne]
    intro heq
    rw [List.map_append, List.map_cons] at hkeys
    exact List.disjoint_of_nodup_append hkeys (List.mem_map_of_mem hp)
      (heq ▸ List.mem_cons_self)
  rw [renamed, hsome, Option.getD_some]

/-- A word that is in the map, or is not. -/
theorem renamed_cases (hkeys : (items.map Prod.fst).Nodup) (w : Text) :
    (∃ item ∈ items, item.1 = w ∧ renamed items w = item.2) ∨
      (w ∉ items.map Prod.fst ∧ renamed items w = w) := by
  by_cases hw : w ∈ items.map Prod.fst
  · obtain ⟨item, hitem, rfl⟩ := List.mem_map.1 hw
    exact Or.inl ⟨item, hitem, rfl, renamed_of_mem hkeys hitem⟩
  · exact Or.inr ⟨hw, renamed_of_notMem hw⟩

theorem renamed_perm {items' : Dict} (hperm : items.Perm items')
    (hkeys : (items.map Prod.fst).Nodup) : renamed items = renamed items' := by
  funext w
  have hkeys' := ((hperm.map Prod.fst).nodup_iff).1 hkeys
  obtain ⟨item, hitem, rfl, heq⟩ | ⟨hw, heq⟩ := renamed_cases hkeys w
  · rw [heq, renamed_of_mem hkeys' (hperm.mem_iff.1 hitem)]
  · rw [heq, renamed_of_notMem (fun hmem => hw ((hperm.map Prod.fst).mem_iff.2 hmem))]

theorem Ordered.keepsWords_renamed (h : Ordered U items) : KeepsWords U (renamed items) := by
  intro w hw
  obtain ⟨item, hitem, -, heq⟩ | ⟨-, heq⟩ := renamed_cases h.keys w
  · rw [heq]
    exact h.words item hitem
  · rwa [heq]

theorem renameBy_append (before after : Dict) (w : Text) :
    renameBy (before ++ after) w = renameBy after (renameBy before w) :=
  List.foldl_append

theorem renameBy_singleton (item : Text × Text) (w : Text) :
    renameBy [item] w = if w = item.1 then item.2 else w := rfl

/-- The key of an item is still there when its turn comes. -/
theorem Ordered.renameBy_before (h : Ordered U (before ++ item :: after)) :
    renameBy before item.1 = item.1 := by
  apply renameBy_of_notMem
  have hkeys := h.keys
  rw [List.map_append, List.map_cons] at hkeys
  exact fun hmem => List.disjoint_of_nodup_append hkeys hmem List.mem_cons_self

/-- So is a word that is shorter than the key. -/
theorem Ordered.renameBy_shorter (h : Ordered U (before ++ item :: after))
    (hw : w.length < item.1.length) : renameBy before w = w := by
  apply renameBy_of_notMem
  intro hmem
  obtain ⟨item', hitem', rfl⟩ := List.mem_map.1 hmem
  have hle := (List.pairwise_append.1 h.lengths).2.2 item' hitem' item List.mem_cons_self
  omega

/-- One more item. -/
theorem Ordered.renamed_concat (h : Ordered U (before ++ [item])) (w : Text) :
    renamed (before ++ [item]) w = if w = item.1 then item.2 else renamed before w := by
  split_ifs with hw
  · rw [hw]
    exact renamed_of_mem h.keys (by simp)
  · have hnone : [item].lookup w = none := by simp [List.lookup_eq_none_iff, hw]
    rw [renamed, List.lookup_append, hnone, Option.or_none, renamed]

theorem Ordered.renamed_before (h : Ordered U (before ++ item :: after)) :
    renamed before item.1 = item.1 := by
  apply renamed_of_notMem
  have hkeys := h.keys
  rw [List.map_append, List.map_cons] at hkeys
  exact fun hmem => List.disjoint_of_nodup_append hkeys hmem List.mem_cons_self

end Items

theorem substituteAll_append (before after : Dict) (code : Text) :
    substituteAll U (before ++ after) code = substituteAll U after (substituteAll U before code) :=
  List.foldl_append

/-- One substitution, after a map of the words. -/
theorem substituteWord_mapWords {f : Text → Text} (hf : KeepsWords U f) {item : Text × Text}
    (hitem : IsWord U item.1) (code : Text) :
    substituteWord U item.1 item.2 (mapWords U f code) =
      mapWords U (fun w => renameBy [item] (f w)) code := by
  have hsub := sub_name_eq_mapWords hitem item.2 (mapWords U f code)
  rw [mapWords_mapWords hf] at hsub
  exact hsub

theorem substituteWord_of_places {k new code : Text} (h : places U k code = []) :
    substituteWord U k new code = code :=
  sub_name_eq_self h _

theorem noneGlued_of_splits {items : Dict} {code : Text}
    (hstars : ∀ before item after, items = before ++ item :: after → ¬ IsWord U item.1 →
      places U item.1 (substituteAll U before code) = []) : NoneGlued U items code := by
  induction items generalizing code with
  | nil => trivial
  | cons item items ih =>
    refine ⟨?_, ih fun before item' after heq => ?_⟩
    · by_cases hitem : IsWord U item.1
      · exact .inl hitem
      · exact .inr (hstars [] item items rfl hitem)
    · exact hstars (item :: before) item' after (by rw [heq, List.cons_append])

/-- As long as no pick with stars is found, the substitutions act on the words. -/
theorem substituteAll_eq {items : Dict} (h : Ordered U items) {code : Text}
    (hstars : ∀ before item after, items = before ++ item :: after → ¬ IsWord U item.1 →
      places U item.1 (substituteAll U before code) = []) :
    substituteAll U items code = mapWords U (renameBy items) code :=
  foldl_substituteWord h.words (noneGlued_of_splits hstars)

/-! ### Picks with stars -/

section Stars

variable {k : Text} (hk : Starred U k) (hstar : ¬ IsWord U k)

include hk hstar in
theorem stars_ne_nil : stars k ≠ [] := by
  intro hnil
  have hsplit := stars_append_unstarred k
  rw [hnil, List.nil_append] at hsplit
  exact hstar (hsplit ▸ hk)

include hk hstar in
theorem unstarred_shorter : (unstarred k).length < k.length := by
  have hpos := List.length_pos_of_ne_nil (stars_ne_nil hk hstar)
  have hlength := congrArg List.length (stars_append_unstarred k)
  rw [List.length_append] at hlength
  omega

include hk hstar in
/-- A pick with stars is found where the stars stand between a word and one that has become
the name. -/
theorem places_starred_iff {f : Text → Text} (hf : KeepsWords U f) (code : Text) :
    places U k (mapWords U f code) ≠ [] ↔
      ∃ v, IsWord U v ∧ f v = unstarred k ∧ places U (stars k ++ v) code ≠ [] := by
  have hgap := places_gap_iff (stars_ne_nil hk hstar) not_isWord_of_mem_stars hf hk code
  rwa [stars_append_unstarred] at hgap

end Stars

theorem mem_words_of_places {k v code : Text} (hv : IsWord U v)
    (h : places U (stars k ++ v) code ≠ []) : v ∈ words U code := by
  by_cases hnil : stars k = []
  · rw [hnil, List.nil_append] at h
    exact (places_word_iff hv code).1 h
  · exact mem_words_of_places_gap hnil not_isWord_of_mem_stars hv h

/-! ### A map that is renameable -/

section Renameable

variable {code : Text} {dict before after : Dict} {item : Text × Text}

theorem Renameable.isWord (h : Renameable U keywords code dict) (hitem : item ∈ dict)
    (hplaces : places U item.1 code ≠ []) : IsWord U item.1 := by
  obtain ⟨p, hp⟩ := List.exists_mem_of_ne_nil _ hplaces
  exact (h.picked item hitem p hp).word

/-- A new name that has been put in place is not the key whose turn it is. -/
theorem Renameable.ne_unstarred (h : Renameable U keywords code dict)
    (hsplit : byLength dict = before ++ item :: after) {earlier : Text × Text}
    (hearlier : earlier ∈ before) (hword : IsWord U earlier.1)
    (hplaces : places U (stars item.1 ++ earlier.1) code ≠ []) :
    earlier.2 ≠ unstarred item.1 := by
  have hturn := h.turn
  rw [hsplit] at hturn
  have hmem := mem_words_of_places hword hplaces
  exact (List.pairwise_append.1 hturn).2.2 earlier hearlier item List.mem_cons_self
    ((places_word_iff hword code).2 hmem) hplaces

/-- A pick with stars is never found. -/
theorem Renameable.places_starred (h : Renameable U keywords code dict)
    (hordered : Ordered U (byLength dict)) (hsplit : byLength dict = before ++ item :: after)
    (hstar : ¬ IsWord U item.1) : places U item.1 (mapWords U (renamed before) code) = [] := by
  have hitem : item ∈ byLength dict := hsplit ▸ by simp
  have hbefore : Ordered U before := (hsplit ▸ hordered).left
  by_contra hplaces
  obtain ⟨v, hv, heq, hstands⟩ :=
    (places_starred_iff (hordered.starred item hitem) hstar hbefore.keepsWords_renamed code).1
      hplaces
  obtain ⟨earlier, hearlier, rfl, hnew⟩ | ⟨-, hsame⟩ := renamed_cases hbefore.keys v
  · exact h.ne_unstarred hsplit hearlier hv hstands (hnew.symm.trans heq)
  · rw [hsame] at heq
    rw [heq, stars_append_unstarred] at hstands
    exact hstar (h.isWord (mem_byLength.1 hitem) hstands)

/-- No word of the text has become the key whose turn it is, other than the key itself. -/
theorem Renameable.renamed_ne_key (h : Renameable U keywords code dict)
    (hordered : Ordered U (byLength dict)) (hsplit : byLength dict = before ++ item :: after)
    (hitem : IsWord U item.1) {w : Text} (hw : w ∈ words U code) (hkey : w ≠ item.1) :
    renamed before w ≠ item.1 := by
  have hbefore : Ordered U before := (hsplit ▸ hordered).left
  have hword := isWord_of_mem_words hw
  obtain ⟨hstars, hunstarred⟩ := stars_of_isWord hitem
  obtain ⟨earlier, hearlier, rfl, hnew⟩ | ⟨-, hsame⟩ := renamed_cases hbefore.keys w
  · have hplaces : places U (stars item.1 ++ earlier.1) code ≠ [] := by
      rw [hstars, List.nil_append]
      exact (places_word_iff hword code).2 hw
    rw [hnew]
    have hne := h.ne_unstarred hsplit hearlier hword hplaces
    rwa [hunstarred] at hne
  · rwa [hsame]

/-- At every turn, what has been done is the renaming by the items so far. -/
theorem Renameable.substituteAll_eq (h : Renameable U keywords code dict)
    (hordered : Ordered U (byLength dict)) (hsplit : byLength dict = before ++ after) :
    substituteAll U before code = mapWords U (renamed before) code := by
  induction before using List.reverseRecOn generalizing after with
  | nil => exact (mapWords_id code).symm
  | append_singleton before item ih =>
    rw [List.append_assoc, List.singleton_append] at hsplit
    have hbefore : Ordered U before := (hsplit ▸ hordered).left
    have hsplit' : byLength dict = (before ++ [item]) ++ after := by
      rw [hsplit, List.append_assoc, List.singleton_append]
    have hnow : Ordered U (before ++ [item]) := (hsplit' ▸ hordered).left
    have hstep : substituteAll U (before ++ [item]) code =
        substituteWord U item.1 item.2 (substituteAll U before code) :=
      substituteAll_append before [item] code
    rw [hstep, ih hsplit]
    by_cases hitem : IsWord U item.1
    · rw [substituteWord_mapWords hbefore.keepsWords_renamed hitem]
      refine mapWords_congr fun w hw => ?_
      rw [hnow.renamed_concat, renameBy_singleton]
      split_ifs with hnew hkey hkey
      · rfl
      · exact absurd hnew (h.renamed_ne_key hordered hsplit hitem hw hkey)
      · rw [hkey, hnow.renamed_before] at hnew
        exact absurd rfl hnew
      · rfl
    · rw [substituteWord_of_places (h.places_starred hordered hsplit hitem)]
      refine mapWords_congr fun w hw => ?_
      rw [hnow.renamed_concat, if_neg]
      exact fun heq => hitem (heq ▸ isWord_of_mem_words hw)

theorem places_of_isIdentifier {w : Text} (h : IsIdentifier U keywords code w) :
    places U w code ≠ [] := by
  obtain ⟨p, hp, -⟩ := h
  exact List.ne_nil_of_mem hp

/-- A substitution that finds something replaces an identifier. -/
theorem Renameable.identifiers (h : Renameable U keywords code dict)
    (hordered : Ordered U (byLength dict)) (hsplit : byLength dict = before ++ item :: after)
    (hplaces : places U item.1 (substituteAll U before code) ≠ []) :
    places U item.1 code ≠ [] ∧
      ∀ p ∈ places U item.1 code, IdentifierAt U keywords p.1 item.1 p.2 := by
  have hitem : item ∈ dict := mem_byLength.1 (hsplit ▸ by simp)
  have hbefore : Ordered U before := (hsplit ▸ hordered).left
  refine ⟨?_, h.picked item hitem⟩
  rw [h.substituteAll_eq hordered hsplit] at hplaces
  by_cases hword : IsWord U item.1
  · rw [places_word_iff hword, words_mapWords hbefore.keepsWords_renamed] at hplaces
    obtain ⟨w, hw, heq⟩ := List.mem_map.1 hplaces
    by_cases hkey : w = item.1
    · exact (places_word_iff hword code).2 (hkey ▸ hw)
    · exact absurd heq (h.renamed_ne_key hordered hsplit hword hw hkey)
  · exact absurd (h.places_starred hordered hsplit hword) hplaces

/-- Identifiers stay different. -/
theorem Renameable.injOn (h : Renameable U keywords code dict)
    (hkeys : (dict.map Prod.fst).Nodup) (hvalues : (dict.map Prod.snd).Nodup) :
    Set.InjOn (renamed dict) { w | IsIdentifier U keywords code w } := by
  have hfree {item : Text × Text} (hitem : item ∈ dict) {w : Text}
      (hkey : IsIdentifier U keywords code item.1) (hw : IsIdentifier U keywords code w)
      (hnew : w ∉ dict.map Prod.fst) : item.2 ≠ w :=
    h.free item hitem (places_of_isIdentifier hkey) w hw hnew
  intro v hv w hw heq
  obtain ⟨a, ha, rfl, hva⟩ | ⟨hv', hvsame⟩ := renamed_cases hkeys v
  · obtain ⟨b, hb, rfl, hwb⟩ | ⟨hw', hwsame⟩ := renamed_cases hkeys w
    · rw [hva, hwb] at heq
      rw [List.inj_on_of_nodup_map hvalues ha hb heq]
    · rw [hva, hwsame] at heq
      exact absurd heq (hfree ha hv hw hw')
  · obtain ⟨b, hb, rfl, hwb⟩ | ⟨hw', hwsame⟩ := renamed_cases hkeys w
    · rw [hvsame, hwb] at heq
      exact absurd heq.symm (hfree hb hw hv hv')
    · rwa [hvsame, hwsame] at heq

end Renameable

/-! ### A renaming of identifiers -/

section Renaming

variable {code out : Text} {dict before after : Dict} {item : Text × Text}

/-- A pick with stars has not been found at its turn. -/
theorem RenamesIdentifiers.places_starred (h : RenamesIdentifiers U keywords code dict out)
    (hsplit : byLength dict = before ++ item :: after) (hstar : ¬ IsWord U item.1) :
    places U item.1 (substituteAll U before code) = [] := by
  by_contra hplaces
  obtain ⟨hne, hall⟩ := h.identifiers before item after hsplit hplaces
  obtain ⟨p, hp⟩ := List.exists_mem_of_ne_nil _ hne
  exact hstar (hall p hp).word

theorem RenamesIdentifiers.substituteAll_eq (h : RenamesIdentifiers U keywords code dict out)
    (hordered : Ordered U (byLength dict)) (hsplit : byLength dict = before ++ after) :
    substituteAll U before code = mapWords U (renameBy before) code := by
  refine Obfuscator.substituteAll_eq (hsplit ▸ hordered).left ?_
  intro before' item after' heq hstar
  have hsplit' : byLength dict = before' ++ item :: (after' ++ after) := by
    rw [hsplit, heq, List.append_assoc, List.cons_append]
  exact h.places_starred hsplit' hstar

/-- What is picked and stands in the text is found at its turn, so it is an identifier. -/
theorem RenamesIdentifiers.picked (h : RenamesIdentifiers U keywords code dict out)
    (hordered : Ordered U (byLength dict)) (hitem : item ∈ dict) :
    ∀ p ∈ places U item.1 code, IdentifierAt U keywords p.1 item.1 p.2 := by
  obtain ⟨before, after, hsplit⟩ := List.append_of_mem (mem_byLength.2 hitem)
  have hsorted : Ordered U (before ++ item :: after) := hsplit ▸ hordered
  intro p hp
  refine (h.identifiers before item after hsplit ?_).2 p hp
  have hplaces : places U item.1 code ≠ [] := List.ne_nil_of_mem hp
  rw [h.substituteAll_eq hordered hsplit]
  by_cases hword : IsWord U item.1
  · rw [places_word_iff hword] at hplaces ⊢
    rw [words_mapWords (keepsWords_renameBy hsorted.left.words)]
    exact List.mem_map.2 ⟨item.1, hplaces, hsorted.renameBy_before⟩
  · have hstarred : Starred U item.1 := hsorted.starred item (by simp)
    rw [places_starred_iff hstarred hword (keepsWords_renameBy hsorted.left.words)]
    refine ⟨unstarred item.1, hstarred, ?_, ?_⟩
    · exact hsorted.renameBy_shorter (unstarred_shorter hstarred hword)
    · rwa [stars_append_unstarred]

theorem RenamesIdentifiers.free (h : RenamesIdentifiers U keywords code dict out)
    (hordered : Ordered U (byLength dict)) (hkeys : (dict.map Prod.fst).Nodup)
    (hitem : item ∈ dict) (hplaces : places U item.1 code ≠ []) {w : Text}
    (hw : IsIdentifier U keywords code w) (hnew : w ∉ dict.map Prod.fst) : item.2 ≠ w := by
  intro heq
  obtain ⟨p, hp⟩ := List.exists_mem_of_ne_nil _ hplaces
  have hitem' : IsIdentifier U keywords code item.1 := ⟨p, hp, h.picked hordered hitem p hp⟩
  have hsame : renamed dict item.1 = renamed dict w := by
    rw [renamed_of_mem hkeys hitem, renamed_of_notMem hnew, heq]
  have hkey : item.1 = w := h.injective hitem' hw hsame
  exact hnew (hkey ▸ List.mem_map_of_mem hitem)

/-- What the substitutions make of a word is what the map says. -/
theorem RenamesIdentifiers.renameBy_eq (h : RenamesIdentifiers U keywords code dict out)
    (hordered : Ordered U (byLength dict)) (hout : out = substituteAll U (byLength dict) code) :
    ∀ w ∈ words U code, renameBy (byLength dict) w = renamed (byLength dict) w := by
  have hall := h.substituteAll_eq hordered (List.append_nil _).symm
  rw [← hout, h.simultaneous, ← renamed_perm (byLength_perm dict) hordered.keys] at hall
  exact eq_of_mapWords_eq (keepsWords_renameBy hordered.words) hordered.keepsWords_renamed
    hall.symm

theorem RenamesIdentifiers.turn (h : RenamesIdentifiers U keywords code dict out)
    (hordered : Ordered U (byLength dict)) (hout : out = substituteAll U (byLength dict) code) :
    (byLength dict).Pairwise fun a b => places U a.1 code ≠ [] →
      places U (stars b.1 ++ a.1) code ≠ [] → a.2 ≠ unstarred b.1 := by
  rw [List.pairwise_iff_forall_sublist]
  intro a b hab hplaces hstars hnew
  obtain ⟨left, right, hsplit, ha, hb⟩ := List.cons_sublist_iff.1 hab
  obtain ⟨before, mid, rfl⟩ := List.append_of_mem ha
  obtain ⟨mid', after, rfl⟩ := List.append_of_mem (List.singleton_sublist.1 hb)
  have hsplit' : byLength dict = before ++ a :: ((mid ++ mid') ++ b :: after) := by
    simp [hsplit]
  have hfirst : Ordered U (before ++ a :: ((mid ++ mid') ++ b :: after)) := hsplit' ▸ hordered
  have hlater : Ordered U (a :: ((mid ++ mid') ++ b :: after)) := hfirst.right
  have hword : IsWord U a.1 := by
    obtain ⟨p, hp⟩ := List.exists_mem_of_ne_nil _ hplaces
    have ha : a ∈ dict := mem_byLength.1 (hsplit' ▸ by simp)
    exact (h.picked hordered ha p hp).word
  have hgoes (rest : Dict) : renameBy (before ++ a :: rest) a.1 = renameBy rest a.2 := by
    rw [renameBy_append, hfirst.renameBy_before, renameBy, List.foldl_cons, if_pos rfl, ← renameBy]
  by_cases hb : IsWord U b.1
  · -- the new name is replaced in its turn, by another one
    have hmem := (places_word_iff hword code).1 hplaces
    have hkept := h.renameBy_eq hordered hout a.1 hmem
    rw [renamed_of_mem hordered.keys (hsplit' ▸ by simp), hsplit', hgoes] at hkept
    have hkey : a.2 ∈ ((mid ++ mid') ++ b :: after).map Prod.fst := by
      rw [hnew, (stars_of_isWord hb).2]
      exact List.mem_map_of_mem (by simp)
    have hvalue := renameBy_of_mem hkey fun item hitem => List.mem_map_of_mem hitem
    rw [hkept] at hvalue
    exact (List.nodup_cons.1 hlater.values).1 hvalue
  · -- the new name completes a pick with stars
    have hsplit'' : byLength dict = (before ++ a :: (mid ++ mid')) ++ b :: after := by
      simp [hsplit]
    have hturn : Ordered U ((before ++ a :: (mid ++ mid')) ++ b :: after) := hsplit'' ▸ hordered
    have hstarred : Starred U b.1 := hturn.starred b (by simp)
    have hrest : Ordered U ([a] ++ ((mid ++ mid') ++ b :: after)) := hlater
    have hname : renameBy (mid ++ mid') a.2 = unstarred b.1 := by
      rw [hnew]
      exact hrest.right.renameBy_shorter (unstarred_shorter hstarred hb)
    have hnone := h.places_starred hsplit'' hb
    rw [h.substituteAll_eq hordered hsplit''] at hnone
    refine (places_starred_iff hstarred hb (keepsWords_renameBy hturn.left.words) code).2 ?_ hnone
    exact ⟨a.1, hword, (hgoes _).trans hname, hstars⟩

end Renaming

/-- The substitutions of `obfuscate_variables` act as one simultaneous injective renaming of
identifiers exactly if the picks and the names drawn for them are renameable. -/
theorem variables_renamed_iff (keywords : List Text) {code : Text} {namer namer' : Namer} {dict : Dict}
    (hnames : nameAll (varPicks U code) [] namer = some (dict, namer')) :
    ∃ pass, obfuscateVariables U code namer = some pass ∧
      (RenamesIdentifiers U keywords code dict pass.code ↔ Renameable U keywords code dict) := by
  refine ⟨⟨dict, substituteAll U (byLength dict) code, namer'⟩, ?_, fun h => ?_, fun h => ?_⟩
  · rw [obfuscateVariables, renamingPass, hnames]
    rfl
  · have hordered := ordered_byLength hnames
    obtain ⟨hkeys, -⟩ := nameAll_nodup hnames (by simp) (by simp) (by simp)
    exact ⟨fun item hitem => h.picked hordered hitem,
      fun item hitem hplaces w hw hnew => h.free hordered hkeys hitem hplaces hw hnew,
      h.turn hordered rfl⟩
  · have hordered := ordered_byLength hnames
    obtain ⟨hkeys, hvalues⟩ := nameAll_nodup hnames (by simp) (by simp) (by simp)
    refine ⟨fun before item after hsplit => h.identifiers hordered hsplit,
      h.injOn hkeys hvalues, ?_⟩
    rw [← renamed_perm (byLength_perm dict) hordered.keys]
    exact h.substituteAll_eq hordered (List.append_nil _).symm

namespace Sample

/-- Two declared variables. The one that is picked last is the first to be replaced. -/
def sums : Text := "int sum;int count;sum=count;".toList

def sumsDict : Dict :=
  [("sum".toList, "aaaaaaaaaa".toList), ("count".toList, "bbbbbbbbbb".toList)]

/-- What is drawn for the only pick of a text. -/
def dictOf (pick : String) : Dict := [(pick.toList, "aaaaaaaaaa".toList)]

end Sample

/-- Both variables get their new names, each at all its places. -/
theorem variables_renamed_count :
    Renameable Sample.classes cKeywords Sample.sums Sample.sumsDict ∧
    ∃ pass, obfuscateVariables Sample.classes Sample.sums ⟨[], Sample.draws⟩ = some pass ∧
      RenamesIdentifiers Sample.classes cKeywords Sample.sums Sample.sumsDict pass.code := by
  have hnames : nameAll (varPicks Sample.classes Sample.sums) [] ⟨[], Sample.draws⟩ =
      some (Sample.sumsDict,
        ⟨["bbbbbbbbbb".toList, "aaaaaaaaaa".toList], Sample.draws.drop 2⟩) := by rfl
  have hnowhere : ∀ item ∈ Sample.sumsDict, places Sample.classes item.2 Sample.sums = [] := by
    decide +kernel
  have hok : Renameable Sample.classes cKeywords Sample.sums Sample.sumsDict := by
    refine ⟨by decide +kernel, fun item hitem _ w hw _ heq => ?_, by decide +kernel⟩
    subst heq
    exact places_of_isIdentifier hw (hnowhere item hitem)
  obtain ⟨pass, hpass, hiff⟩ := variables_renamed_iff cKeywords hnames
  exact ⟨hok, pass, hpass, hiff.2 hok⟩

/-- The number that is returned is picked as a variable. -/
theorem return_value_renamed :
    (obfuscateVariables Sample.classes "return 10;".toList ⟨[], Sample.draws⟩).map
        (fun pass => (pass.dict, pass.code)) =
      some (Sample.dictOf "10", "return aaaaaaaaaa;".toList) ∧
    ¬ RenamesIdentifiers Sample.classes cKeywords "return 10;".toList (Sample.dictOf "10")
      "return aaaaaaaaaa;".toList := by
  have hplaces : places Sample.classes "10".toList "return 10;".toList =
      [("return ".toList, ";".toList)] := by decide +kernel
  refine ⟨by decide +kernel, fun h => ?_⟩
  have hfound := h.identifiers [] _ [] rfl (by
    rw [substituteAll, List.foldl_nil]
    exact hplaces ▸ List.cons_ne_nil _ _)
  have hdigit := (hfound.2 _ (hplaces ▸ List.mem_singleton_self _)).digit
  exact absurd hdigit (by decide)

end Mesh.Obfuscator
