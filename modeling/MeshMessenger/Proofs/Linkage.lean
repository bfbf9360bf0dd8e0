import MeshMessenger.Lib.Captures
import MeshMessenger.Lib.Identifiers
import MeshMessenger.Lib.WordMaps
import MeshMessenger.Obfuscator.Renaming

/-! Files that were obfuscated one by one, taken together. Nothing ties the maps of two files
to each other, so a name that the files share is one name in what comes out exactly when
neither of them renames it. -/

namespace Mesh.Obfuscator

open Regex
open CLib (identifiers cKeywords)

variable (U : Classes)

/-! ### What the maps of a file say -/

/-- What replacing the items of a map one after the other makes of a word. -/
def renameBy (dict : Dict) (w : Text) : Text :=
  dict.foldl (fun cur item => if cur = item.1 then item.2 else cur) w

namespace ObfuscatedFile

variable (f : ObfuscatedFile)

/-- What becomes of a word of the file; the functions' map is for words that an opening
bracket follows. -/
def newName (use : Text × Bool) : Text :=
  let w := renameBy f.types.dict use.1
  let w := if use.2 then renameBy (byLength f.functions.dict) w else w
  renameBy (byLength f.vars.dict) w

/-- The names that were generated for the file. -/
def names : List Text :=
  f.types.dict.map Prod.snd ++ (f.functions.dict.map Prod.snd ++ f.vars.dict.map Prod.snd)

/-- One of the patterns of a pass captures the word in the text that the pass reads. -/
def Picked (use : Text × Bool) : Prop :=
  use.1 ∈ typePicks U f.stripped ∨
    (use.2 = true ∧ use.1 ∈ funcPicks U f.types.code) ∨ use.1 ∈ varPicks U f.functions.code

instance (use : Text × Bool) : Decidable (f.Picked U use) :=
  inferInstanceAs (Decidable (_ ∨ _ ∧ _ ∨ _))

end ObfuscatedFile

/-! ### Linkage -/

/-- The identifiers of a C text, in order. -/
def identifierNames (code : Text) : List Text := (identifiers U cKeywords code).map fun o => o.1.1

/-- A name that occurs as an identifier in the sources of two files. -/
def Shared (a b : ObfuscatedFile) (w : Text) : Prop :=
  w ∈ identifierNames U a.source.code ∧ w ∈ identifierNames U b.source.code

instance (a b : ObfuscatedFile) (w : Text) : Decidable (Shared U a b w) :=
  inferInstanceAs (Decidable (_ ∧ _))

/-- Once comments and blanks are removed, the names that two files share still occur in both
as they do in the sources. -/
def SharedKept (a b : ObfuscatedFile) : Prop :=
  ∀ f ∈ [a, b], (identifierNames U f.stripped).filter (fun w => Shared U a b w) =
    (identifierNames U f.source.code).filter fun w => Shared U a b w

/-- The names that two files share are the same in what comes out of them: no occurrence is
lost, and one word stands at all the places that one name had in the two files. -/
def Linked (a b : ObfuscatedFile) : Prop :=
  SharedKept U a b ∧
    ∀ u ∈ identifiers U cKeywords a.stripped, ∀ v ∈ identifiers U cKeywords b.stripped,
      Shared U a b u.1.1 → u.1.1 = v.1.1 → ((words U a.vars.code)[u.2]?).isSome ∧
        (words U a.vars.code)[u.2]? = (words U b.vars.code)[v.2]?

/-- No name that two files share is picked in either. -/
def NoSharedPick (a b : ObfuscatedFile) : Prop :=
  ∀ u ∈ identifiers U cKeywords a.stripped, ∀ v ∈ identifiers U cKeywords b.stripped,
    Shared U a b u.1.1 → u.1.1 = v.1.1 → ¬ a.Picked U u.1 ∧ ¬ b.Picked U v.1

/-- No item with stars is found at its turn; it would run the word before the stars together
with the new name. -/
def NoneGlued : Dict → Text → Prop
  | [], _ => True
  | item :: items, code =>
    (IsWord U item.1 ∨ places U item.1 code = []) ∧
      NoneGlued items (substituteWord U item.1 item.2 code)

def ObfuscatedFile.Unglued (f : ObfuscatedFile) : Prop :=
  NoneGlued U (byLength f.vars.dict) f.functions.code

def SharesNames (a b : ObfuscatedFile) : Prop :=
  ∃ w ∈ identifierNames U a.source.code, w ∈ identifierNames U b.source.code

/-- What keeps the names that two files share, if they share any. -/
structure LeavesShared (a b : ObfuscatedFile) : Prop where
  kept : SharedKept U a b
  unglued : SharesNames U a b → a.Unglued U ∧ b.Unglued U
  unpicked : NoSharedPick U a b

/-- The names generated for a file are no identifiers of another, nor generated for it. -/
def Fresh (a b : ObfuscatedFile) : Prop :=
  ∀ name ∈ a.names, name ∉ b.names ∧ name ∉ identifierNames U b.source.code

section Decide

instance (a b : ObfuscatedFile) : Decidable (SharedKept U a b) :=
  inferInstanceAs (Decidable (∀ f ∈ [a, b], _))

instance (a b : ObfuscatedFile) : Decidable (Linked U a b) :=
  inferInstanceAs (Decidable (_ ∧ ∀ u ∈ _, ∀ v ∈ _, _ → _ → _))

instance (a b : ObfuscatedFile) : Decidable (NoSharedPick U a b) :=
  inferInstanceAs (Decidable (∀ u ∈ _, ∀ v ∈ _, _ → _ → _))

instance decidableNoneGlued : (items : Dict) → (code : Text) → Decidable (NoneGlued U items code)
  | [], _ => isTrue trivial
  | item :: items, code =>
    have := decidableNoneGlued items (substituteWord U item.1 item.2 code)
    inferInstanceAs (Decidable ((_ ∨ _) ∧ _))

instance (f : ObfuscatedFile) : Decidable (f.Unglued U) :=
  inferInstanceAs (Decidable (NoneGlued U _ _))

instance (a b : ObfuscatedFile) : Decidable (SharesNames U a b) :=
  inferInstanceAs (Decidable (∃ w ∈ _, _))

instance (a b : ObfuscatedFile) : Decidable (LeavesShared U a b) :=
  decidable_of_iff
    (SharedKept U a b ∧ (SharesNames U a b → a.Unglued U ∧ b.Unglued U) ∧ NoSharedPick U a b)
    ⟨fun ⟨hkept, hunglued, hunpicked⟩ => ⟨hkept, hunglued, hunpicked⟩,
      fun h => ⟨h.kept, h.unglued, h.unpicked⟩⟩

end Decide

variable {U}

/-! ### Maps -/

theorem renameBy_of_notMem {dict : Dict} {w : Text} (h : w ∉ dict.map Prod.fst) :
    renameBy dict w = w := by
  induction dict with
  | nil => rfl
  | cons item dict ih =>
    simp only [List.map_cons, List.mem_cons, not_or] at h
    rw [renameBy, List.foldl_cons, if_neg h.1, ← renameBy, ih h.2]

/-- A name that comes from a map is replaced, if at all, by another one from it. -/
theorem renameBy_mem_values {dict : Dict} {w : Text} {names : List Text} (hw : w ∈ names)
    (h : ∀ item ∈ dict, item.2 ∈ names) : renameBy dict w ∈ names := by
  induction dict generalizing w with
  | nil => exact hw
  | cons item dict ih =>
    rw [renameBy, List.foldl_cons, ← renameBy]
    refine ih ?_ fun item' hitem' => h item' (List.mem_cons_of_mem item hitem')
    split_ifs
    · exact h item List.mem_cons_self
    · exact hw

theorem renameBy_of_mem {dict : Dict} {w : Text} (hw : w ∈ dict.map Prod.fst)
    {names : List Text} (h : ∀ item ∈ dict, item.2 ∈ names) : renameBy dict w ∈ names := by
  induction dict generalizing w with
  | nil => exact absurd hw (by simp)
  | cons item dict ih =>
    have htail : ∀ item' ∈ dict, item'.2 ∈ names := fun item' hitem' =>
      h item' (List.mem_cons_of_mem item hitem')
    rw [renameBy, List.foldl_cons, ← renameBy]
    by_cases hitem : w = item.1
    · rw [if_pos hitem]
      exact renameBy_mem_values (h item List.mem_cons_self) htail
    · rw [if_neg hitem]
      rw [List.map_cons, List.mem_cons] at hw
      exact ih (hw.resolve_left hitem) htail

theorem keepsWords_item {item : Text × Text} (h : IsWord U item.2) :
    KeepsWords U fun w => if w = item.1 then item.2 else w := by
  intro w hw
  beta_reduce
  split_ifs
  · exact h
  · exact hw

theorem keepsWords_renameBy {dict : Dict} (h : ∀ item ∈ dict, IsWord U item.2) :
    KeepsWords U (renameBy dict) := by
  induction dict with
  | nil => exact fun w hw => hw
  | cons item dict ih =>
    obtain ⟨hitem, hdict⟩ := List.forall_mem_cons.1 h
    intro w hw
    rw [renameBy, List.foldl_cons, ← renameBy]
    exact ih hdict _ (keepsWords_item hitem w hw)

/-- A pass names exactly what it picks. -/
theorem nameAll_keys {picks : List Text} {dict dict' : Dict} {namer namer' : Namer}
    (h : nameAll picks dict namer = some (dict', namer')) (w : Text) :
    w ∈ dict'.map Prod.fst ↔ w ∈ dict.map Prod.fst ∨ w ∈ picks := by
  induction picks generalizing dict namer with
  | nil =>
    simp only [nameAll, Option.some.injEq, Prod.mk.injEq] at h
    obtain ⟨rfl, -⟩ := h
    simp
  | cons v picks ih =>
    rw [nameAll] at h
    split_ifs at h with hv
    · rw [ih h, List.mem_cons]
      refine ⟨Or.imp_right .inr, ?_⟩
      rintro (hw | rfl | hw)
      · exact .inl hw
      · exact .inl hv
      · exact .inr hw
    · split at h
      · exact absurd h (by simp)
      · rw [ih h, List.map_append, List.map_singleton, List.mem_append, List.mem_singleton,
          List.mem_cons, or_assoc]

theorem mem_byLength {dict : Dict} {item : Text × Text} :
    item ∈ byLength dict ↔ item ∈ dict :=
  (List.perm_insertionSort _ dict).mem_iff

theorem mem_keys_byLength {dict : Dict} {w : Text} :
    w ∈ (byLength dict).map Prod.fst ↔ w ∈ dict.map Prod.fst :=
  ((List.perm_insertionSort _ dict).map Prod.fst).mem_iff

theorem renamingPass_eq_some {picks : Text → List Text} {order : Dict → Dict}
    {substitute : Text → Text → Text → Text} {code : Text} {namer : Namer} {pass : Pass}
    (h : renamingPass picks order substitute code namer = some pass) :
    nameAll (picks code) [] namer = some (pass.dict, pass.namer) ∧
      pass.code = (order pass.dict).foldl (fun code item => substitute item.1 item.2 code)
        code := by
  simp only [renamingPass] at h
  split at h
  · exact absurd h (by simp)
  · rename_i hnames
    rw [Option.some.injEq] at h
    subst h
    exact ⟨hnames, rfl⟩

theorem renamingPass_keys {picks : Text → List Text} {order : Dict → Dict}
    {substitute : Text → Text → Text → Text} {code : Text} {namer : Namer} {pass : Pass}
    (h : renamingPass picks order substitute code namer = some pass) (w : Text) :
    w ∈ pass.dict.map Prod.fst ↔ w ∈ picks code := by
  rw [nameAll_keys (renamingPass_eq_some h).1]
  simp

/-! ### One file -/

/-- The passes that made a file, each on what the one before it left. -/
structure Made (U : Classes) (f : ObfuscatedFile) : Prop where
  types : ∃ namer, obfuscateTypes U f.stripped namer = some f.types
  functions : obfuscateFunctions U f.types.code f.types.namer = some f.functions
  vars : obfuscateVariables U f.functions.code f.functions.namer = some f.vars

theorem processSingleFile_made {level : Level} {now : Text} {draws : List Candidate}
    {file : SourceFile} {f : ObfuscatedFile}
    (h : processSingleFile U level now draws file = some f) : f.source = file ∧ Made U f := by
  simp only [processSingleFile] at h
  split at h
  · exact absurd h (by simp)
  · rename_i htypes
    split at h
    · exact absurd h (by simp)
    · rename_i hfunctions
      split at h
      · exact absurd h (by simp)
      · rename_i hvars
        rw [Option.some.injEq] at h
        subst h
        exact ⟨rfl, ⟨_, htypes⟩, hfunctions, hvars⟩

section File

variable {f : ObfuscatedFile} {use : Text × Bool}

theorem newName_of_not_picked (hf : Made U f) (h : ¬ f.Picked U use) : f.newName use = use.1 := by
  simp only [ObfuscatedFile.Picked, not_or, not_and] at h
  obtain ⟨htypes, hfunctions, hvars⟩ := h
  obtain ⟨namer, hnamer⟩ := hf.types
  have ht : renameBy f.types.dict use.1 = use.1 :=
    renameBy_of_notMem fun hmem => htypes ((renamingPass_keys hnamer _).1 hmem)
  have hv : renameBy (byLength f.vars.dict) use.1 = use.1 := by
    refine renameBy_of_notMem fun hmem => hvars ?_
    rwa [mem_keys_byLength, renamingPass_keys hf.vars] at hmem
  simp only [ObfuscatedFile.newName, ht]
  split_ifs with hcall
  · have hfn : renameBy (byLength f.functions.dict) use.1 = use.1 := by
      refine renameBy_of_notMem fun hmem => hfunctions hcall ?_
      rwa [mem_keys_byLength, renamingPass_keys hf.functions] at hmem
    rw [hfn, hv]
  · exact hv

theorem newName_mem_names (hf : Made U f) (h : f.Picked U use) : f.newName use ∈ f.names := by
  obtain ⟨namer, hnamer⟩ := hf.types
  have htypes : ∀ item ∈ f.types.dict, item.2 ∈ f.names := fun item hitem =>
    List.mem_append_left _ (List.mem_map_of_mem hitem)
  have hfunctions : ∀ item ∈ byLength f.functions.dict, item.2 ∈ f.names := fun item hitem =>
    List.mem_append_right _ (List.mem_append_left _ (List.mem_map_of_mem (mem_byLength.1 hitem)))
  have hvars : ∀ item ∈ byLength f.vars.dict, item.2 ∈ f.names := fun item hitem =>
    List.mem_append_right _ (List.mem_append_right _ (List.mem_map_of_mem (mem_byLength.1 hitem)))
  have hkeep {w : Text} (hw : w ∈ f.names) : renameBy (byLength f.vars.dict)
      (if use.2 = true then renameBy (byLength f.functions.dict) w else w) ∈ f.names := by
    apply renameBy_mem_values _ hvars
    split_ifs
    · exact renameBy_mem_values hw hfunctions
    · exact hw
  simp only [ObfuscatedFile.newName]
  by_cases ht : use.1 ∈ typePicks U f.stripped
  · exact hkeep (renameBy_of_mem ((renamingPass_keys hnamer _).2 ht) htypes)
  · have hsame : renameBy f.types.dict use.1 = use.1 :=
      renameBy_of_notMem fun hmem => ht ((renamingPass_keys hnamer _).1 hmem)
    rw [hsame]
    by_cases hfn : use.2 = true ∧ use.1 ∈ funcPicks U f.types.code
    · rw [if_pos hfn.1]
      refine renameBy_mem_values (renameBy_of_mem ?_ hfunctions) hvars
      rw [mem_keys_byLength, renamingPass_keys hf.functions]
      exact hfn.2
    · have hinner : (if use.2 = true then renameBy (byLength f.functions.dict) use.1 else use.1) =
          use.1 := by
        split_ifs with hcall
        · refine renameBy_of_notMem fun hmem => hfn ⟨hcall, ?_⟩
          rwa [mem_keys_byLength, renamingPass_keys hf.functions] at hmem
        · rfl
      rw [hinner]
      refine renameBy_of_mem ?_ hvars
      rw [mem_keys_byLength, renamingPass_keys hf.vars]
      exact (h.resolve_left ht).resolve_left hfn

end File

/-! ### The maps and the text -/

theorem toNat_of_isAlphanum {c : Char} (h : c.isAlphanum = true) :
    48 ≤ c.toNat ∧ c.toNat ≤ 122 := by
  have hcases : (c.isUpper = true ∨ c.isLower = true) ∨ c.isDigit = true :=
    (Bool.or_eq_true_iff.1 h).imp_left Bool.or_eq_true_iff.1
  have hbounds {low high : Char} (hlow : low.val ≤ c.val) (hhigh : c.val ≤ high.val) :
      low.toNat ≤ c.toNat ∧ c.toNat ≤ high.toNat :=
    ⟨UInt32.le_iff_toNat_le.1 hlow, UInt32.le_iff_toNat_le.1 hhigh⟩
  rcases hcases with (hupper | hlower) | hdigit
  · obtain ⟨hlow, hhigh⟩ := of_decide_eq_true hupper
    exact (hbounds hlow hhigh).imp (le_trans (by decide)) (le_trans · (by decide))
  · obtain ⟨hlow, hhigh⟩ := Bool.and_eq_true_iff.1 hlower
    exact (hbounds (of_decide_eq_true hlow) (of_decide_eq_true hhigh)).imp
      (le_trans (by decide)) (le_trans · (by decide))
  · exact (Char.isDigit_iff_toNat.1 hdigit).imp_right (le_trans · (by decide))

theorem isWord_candidate (name : Candidate) : IsWord U name.val := by
  obtain ⟨s, hlen, -, hchars⟩ := name
  refine ⟨fun hnil => ?_, fun c hc => ?_⟩
  · subst hnil
    exact absurd hlen (by decide)
  · have hascii : c.toNat < 128 := by
      rcases Bool.or_eq_true_iff.1 (hchars c hc) with halnum | hunderscore
      · exact lt_of_le_of_lt (toNat_of_isAlphanum halnum).2 (by decide)
      · rw [beq_iff_eq.1 hunderscore]
        decide
    rw [U.isWord_ascii c hascii]
    exact hchars c hc

theorem generateComplexName_isWord {used : List Text} {draws : List Candidate} {name : Text}
    {namer : Namer} (h : generateComplexName used draws = some (name, namer)) :
    IsWord U name := by
  induction draws with
  | nil => exact absurd h (by simp [generateComplexName])
  | cons candidate draws ih =>
    rw [generateComplexName] at h
    split_ifs at h
    · simp only [Option.some.injEq, Prod.mk.injEq] at h
      exact h.1 ▸ isWord_candidate candidate
    · exact ih h

theorem nameAll_isWord {picks : List Text} {dict dict' : Dict} {namer namer' : Namer}
    (h : nameAll picks dict namer = some (dict', namer'))
    (hdict : ∀ item ∈ dict, IsWord U item.2) : ∀ item ∈ dict', IsWord U item.2 := by
  induction picks generalizing dict namer with
  | nil =>
    simp only [nameAll, Option.some.injEq, Prod.mk.injEq] at h
    exact h.1 ▸ hdict
  | cons w picks ih =>
    rw [nameAll] at h
    split_ifs at h
    · exact ih h hdict
    · split at h
      · exact absurd h (by simp)
      · rename_i name namer hname
        refine ih h fun item hitem => ?_
        rcases List.mem_append.1 hitem with hitem | hitem
        · exact hdict item hitem
        · rw [List.mem_singleton.1 hitem]
          exact generateComplexName_isWord hname

/-- What a pass makes of a word: `call` when it is for words that an opening bracket follows. -/
def renameUse (call : Bool) (dict : Dict) (use : Text × Bool) : Text × Bool :=
  if call = true → use.2 = true then (renameBy dict use.1, use.2) else use

theorem foldl_replaceUse (call : Bool) (dict : Dict) (use : Text × Bool) :
    dict.foldl (fun use item => replaceUse call item.1 item.2 use) use =
      renameUse call dict use := by
  induction dict generalizing use with
  | nil => simp [renameUse, renameBy]
  | cons item dict ih =>
    rw [List.foldl_cons, ih]
    by_cases hcall : call = true → use.2 = true
    · have hone : replaceUse call item.1 item.2 use =
          (if use.1 = item.1 then item.2 else use.1, use.2) := by
        by_cases hitem : use.1 = item.1
        · rw [replaceUse, if_pos ⟨hitem, hcall⟩, if_pos hitem]
        · rw [replaceUse, if_neg fun h => hitem h.1, if_neg hitem]
      rw [hone, renameUse, if_pos hcall, renameUse, if_pos hcall, renameBy, renameBy,
        List.foldl_cons]
    · have hone : replaceUse call item.1 item.2 use = use := if_neg fun h => hcall h.2
      rw [hone, renameUse, if_neg hcall, renameUse, if_neg hcall]

/-- Replacing one word after the other does to the words of the text what the map says. -/
theorem uses_foldl_substitute {call : Bool} {substitute : Text → Text → Text → Text}
    (hsub : ∀ old new code, IsWord U old → IsWord U new →
      uses U (substitute old new code) = (uses U code).map (replaceUse call old new))
    {dict : Dict} (hdict : ∀ item ∈ dict, IsWord U item.1 ∧ IsWord U item.2) (code : Text) :
    uses U (dict.foldl (fun code item => substitute item.1 item.2 code) code) =
      (uses U code).map (renameUse call dict) := by
  induction dict generalizing code with
  | nil =>
    have hid : renameUse call [] = id := by
      funext use
      simp [renameUse, renameBy]
    rw [hid, List.map_id]
    rfl
  | cons item dict ih =>
    obtain ⟨hold, hnew⟩ := hdict item List.mem_cons_self
    have htail := ih fun item' hitem' => hdict item' (List.mem_cons_of_mem item hitem')
    rw [List.foldl_cons, htail, hsub _ _ _ hold hnew, List.map_map]
    refine List.map_congr_left fun use _ => ?_
    rw [Function.comp_apply, ← foldl_replaceUse, ← foldl_replaceUse, List.foldl_cons]

/-- A pass whose picks are words does to the words of the text what its map says. -/
theorem uses_renamingPass {call : Bool} {picks : Text → List Text} {order : Dict → Dict}
    (horder : ∀ dict item, item ∈ order dict ↔ item ∈ dict)
    {substitute : Text → Text → Text → Text}
    (hsub : ∀ old new code, IsWord U old → IsWord U new →
      uses U (substitute old new code) = (uses U code).map (replaceUse call old new))
    {code : Text} {namer : Namer} {pass : Pass}
    (h : renamingPass picks order substitute code namer = some pass)
    (hkeys : ∀ w ∈ pass.dict.map Prod.fst, IsWord U w) :
    uses U pass.code = (uses U code).map (renameUse call (order pass.dict)) := by
  obtain ⟨hnames, hcode⟩ := renamingPass_eq_some h
  rw [hcode]
  refine uses_foldl_substitute hsub (fun item hitem => ?_) code
  rw [horder] at hitem
  exact ⟨hkeys _ (List.mem_map_of_mem hitem), nameAll_isWord hnames (by simp) item hitem⟩

theorem takes_word : Takes U (word U) (IsWord U) := by
  apply ((takes_one U.isWord).seq (takes_star_one U.isWord)).imp
  rintro u ⟨v, w, rfl, ⟨c, rfl, hc⟩, hw⟩
  exact ⟨by simp, List.forall_mem_cons.2 ⟨hc, hw⟩⟩

theorem of_mem_captured {n : ℕ} {keep : Text → Bool} {patterns : List Re} {P : Text → Prop}
    (hcaptures : ∀ r ∈ patterns, Captures U n P r) {code w : Text}
    (h : w ∈ captured U n keep patterns code) : P w := by
  rw [captured, List.mem_flatMap] at h
  obtain ⟨r, hr, hw⟩ := h
  obtain ⟨m, hm, hgroup⟩ := List.mem_filterMap.1 (List.mem_of_mem_filter hw)
  exact of_group?_finditer (hcaptures r hr) hm hgroup

theorem isWord_of_mem_typePicks {code w : Text} (h : w ∈ typePicks U code) : IsWord U w := by
  refine of_mem_captured ?_ h
  have hname : Captures U 1 (IsWord U) (.group 1 (word U)) :=
    ⟨⟨trivial, trivial⟩, fun _ => takes_word⟩
  simp only [typePatterns, List.forall_mem_cons]
  refine ⟨⟨trivial, captures_text _, ⟨trivial, trivial⟩, trivial, ⟨trivial, trivial⟩, hname,
    trivial, trivial, trivial⟩, ?_, ?_, ?_, by simp⟩
  all_goals exact ⟨trivial, captures_text _, ⟨trivial, trivial⟩, hname, trivial, trivial, trivial⟩

theorem isWord_of_mem_funcPicks {code w : Text} (h : w ∈ funcPicks U code) : IsWord U w := by
  refine of_mem_captured ?_ h
  have hpattern (last : Char) : Captures U 2 (IsWord U) (funcPattern U last) :=
    ⟨trivial, ⟨⟨trivial, trivial⟩, by simp⟩, ⟨trivial, trivial⟩,
      ⟨⟨trivial, trivial⟩, fun _ => takes_word⟩, trivial, trivial, trivial, trivial, trivial,
      trivial, trivial⟩
  simp only [List.forall_mem_cons]
  exact ⟨hpattern _, hpattern _, by simp⟩

/-- One substitution acts on the words of a text, unless it finds stars after one. -/
theorem substituteWord_eq_mapWords {item : Text × Text} {code : Text}
    (h : IsWord U item.1 ∨ places U item.1 code = []) :
    substituteWord U item.1 item.2 code =
      mapWords U (fun w => if w = item.1 then item.2 else w) code := by
  by_cases hitem : IsWord U item.1
  · exact sub_name_eq_mapWords hitem item.2 code
  · have hsame : substituteWord U item.1 item.2 code = mapWords U id code := by
      rw [mapWords_id]
      exact sub_name_eq_self (h.resolve_left hitem) _
    rw [hsame]
    refine mapWords_congr fun w hw => (if_neg ?_).symm
    exact fun heq => hitem (heq ▸ isWord_of_mem_words hw)

theorem foldl_substituteWord {items : Dict} (hitems : ∀ item ∈ items, IsWord U item.2)
    {code : Text} (h : NoneGlued U items code) :
    items.foldl (fun code item => substituteWord U item.1 item.2 code) code =
      mapWords U (renameBy items) code := by
  induction items generalizing code with
  | nil => exact (mapWords_id code).symm
  | cons item items ih =>
    obtain ⟨hitem, hrest⟩ := List.forall_mem_cons.1 hitems
    rw [List.foldl_cons, ih hrest h.2, substituteWord_eq_mapWords h.1,
      mapWords_mapWords (keepsWords_item hitem)]
    rfl

/-- The words of what comes out of a file are those that its maps say. -/
theorem words_vars_code {f : ObfuscatedFile} (hf : Made U f) (h : f.Unglued U) :
    words U f.vars.code = (uses U f.stripped).map f.newName := by
  obtain ⟨namer, hnamer⟩ := hf.types
  have hword (old new code : Text) (hold : IsWord U old) (hnew : IsWord U new) :
      uses U (substituteWord U old new code) = (uses U code).map (replaceUse false old new) :=
    uses_sub false hold hnew code
  have hcall (old new code : Text) (hold : IsWord U old) (hnew : IsWord U new) :
      uses U (substituteCall U old new code) = (uses U code).map (replaceUse true old new) :=
    uses_sub true hold hnew code
  have htypes := uses_renamingPass (fun _ _ => Iff.rfl) hword hnamer fun w hw =>
    isWord_of_mem_typePicks ((renamingPass_keys hnamer w).1 hw)
  have hfunctions := uses_renamingPass (fun _ _ => mem_byLength) hcall hf.functions fun w hw =>
    isWord_of_mem_funcPicks ((renamingPass_keys hf.functions w).1 hw)
  obtain ⟨hnames, hcode⟩ := renamingPass_eq_some hf.vars
  have hvalues : ∀ item ∈ byLength f.vars.dict, IsWord U item.2 := fun item hitem =>
    nameAll_isWord hnames (by simp) item (mem_byLength.1 hitem)
  have hkeeps : KeepsWords U (renameBy (byLength f.vars.dict)) := keepsWords_renameBy hvalues
  rw [hcode, foldl_substituteWord hvalues h, words_mapWords hkeeps, words, hfunctions, htypes,
    List.map_map, List.map_map, List.map_map]
  refine List.map_congr_left fun use _ => ?_
  simp only [Function.comp_apply, renameUse, ObfuscatedFile.newName, Bool.false_eq_true,
    false_implies, if_true, true_implies]
  split_ifs <;> rfl

/-! ### Directories -/

theorem processFiles_made {level : Level} {now : Text → Text} {draws : List Candidate}
    {files : List SourceFile} {outs : List ObfuscatedFile}
    (h : processFiles U level now draws files = some outs) :
    outs.map ObfuscatedFile.source = files ∧ ∀ f ∈ outs, Made U f := by
  induction files generalizing draws outs with
  | nil =>
    simp only [processFiles, Option.some.injEq] at h
    subst h
    exact ⟨rfl, fun f hf => absurd hf (by simp)⟩
  | cons file files ih =>
    simp only [processFiles] at h
    split at h
    · exact absurd h (by simp)
    · rename_i out hout
      split at h
      · exact absurd h (by simp)
      · rename_i rest hrest
        rw [Option.some.injEq] at h
        subst h
        obtain ⟨hsource, hmade⟩ := processSingleFile_made hout
        obtain ⟨hsources, hmades⟩ := ih hrest
        refine ⟨by rw [List.map_cons, hsource, hsources], fun f hf => ?_⟩
        rcases List.mem_cons.1 hf with rfl | hf
        · exact hmade
        · exact hmades f hf

section Pair

variable {a b : ObfuscatedFile}

/-- Where no words are run together, the word in the place of an identifier is its new name. -/
theorem getElem?_words_vars_code {f : ObfuscatedFile} (hf : Made U f) (h : f.Unglued U)
    {u : (Text × Bool) × ℕ} (hu : u ∈ identifiers U cKeywords f.stripped) :
    (words U f.vars.code)[u.2]? = some (f.newName u.1) := by
  rw [words_vars_code hf h, List.getElem?_map, CLib.getElem?_uses_of_mem_identifiers hu]
  rfl

theorem Shared.sharesNames {w : Text} (h : Shared U a b w) : SharesNames U a b := ⟨w, h⟩

theorem LeavesShared.linked (h : LeavesShared U a b) (ha : Made U a) (hb : Made U b) :
    Linked U a b := by
  refine ⟨h.kept, fun u hu v hv hshared huv => ?_⟩
  obtain ⟨hglueda, hgluedb⟩ := h.unglued hshared.sharesNames
  obtain ⟨hnotu, hnotv⟩ := h.unpicked u hu v hv hshared huv
  have hwu := getElem?_words_vars_code ha hglueda hu
  have hwv := getElem?_words_vars_code hb hgluedb hv
  rw [newName_of_not_picked ha hnotu] at hwu
  rw [newName_of_not_picked hb hnotv, ← huv] at hwv
  rw [hwu, hwv]
  exact ⟨rfl, rfl⟩

/-- A generated name is no identifier of another file and is not generated for it, so a
shared identifier that is renamed in one file is another in the other. -/
theorem Linked.noSharedPick (h : Linked U a b) (ha : Made U a) (hb : Made U b)
    (hunglued : SharesNames U a b → a.Unglued U ∧ b.Unglued U)
    (hab : Fresh U a b) (hba : Fresh U b a) : NoSharedPick U a b := by
  have hdiffer {a b : ObfuscatedFile} (ha : Made U a) (hb : Made U b) (hfresh : Fresh U a b)
      {u v : Text × Bool} (hv : v.1 ∈ identifierNames U b.source.code) (hpick : a.Picked U u) :
      a.newName u ≠ b.newName v := by
    intro heq
    have hname := hfresh _ (newName_mem_names ha hpick)
    by_cases hpick' : b.Picked U v
    · exact hname.1 (heq ▸ newName_mem_names hb hpick')
    · rw [heq, newName_of_not_picked hb hpick'] at hname
      exact hname.2 hv
  intro u hu v hv hshared huv
  obtain ⟨hglueda, hgluedb⟩ := hunglued hshared.sharesNames
  have heq := (h.2 u hu v hv hshared huv).2
  rw [getElem?_words_vars_code ha hglueda hu, getElem?_words_vars_code hb hgluedb hv,
    Option.some.injEq] at heq
  exact ⟨fun hpick => hdiffer ha hb hab (huv ▸ hshared.2) hpick heq,
    fun hpick => hdiffer hb ha hba hshared.1 hpick heq.symm⟩

end Pair

namespace Sample

/-- The interpreter's classes, as far as ASCII goes. -/
def classes : Classes where
  isWord c := c.isAlphanum || c == '_'
  isSpace c := c == ' ' || (9 ≤ c.toNat && c.toNat ≤ 13) || (28 ≤ c.toNat && c.toNat ≤ 31)
  isWord_ascii _ _ := rfl
  isSpace_ascii _ _ := rfl
  not_word_of_space c h := by
    have hsmall : c.toNat ≤ 32 := by
      simp only [Bool.or_eq_true, Bool.and_eq_true, beq_iff_eq, decide_eq_true_eq] at h
      rcases h with (rfl | h) | h
      · decide
      · omega
      · omega
    rw [Bool.or_eq_false_iff, beq_eq_false_iff_ne]
    refine ⟨?_, ?_⟩
    · by_contra halnum
      have hlarge := toNat_of_isAlphanum (Bool.eq_true_of_not_eq_false halnum)
      omega
    · rintro rfl
      exact absurd hsmall (by decide)

def file (path code : String) : SourceFile := ⟨path.toList, code.toList⟩

def candidate (c : Char) (h : c.isAlphanum = true) : Candidate :=
  ⟨List.replicate 10 c, by simp, by simp, by simp [h]⟩

def draws : List Candidate :=
  [candidate 'a' (by decide), candidate 'b' (by decide), candidate 'c' (by decide)]

/-- A function in one file and its call in another. The first declares a variable that is
picked with its star. -/
def directory (name : String) : List SourceFile :=
  [file "lib.c" ("int " ++ name ++ "(char*p)\x7bchar *q;q=p;return q[0];\x7d"),
    file "main.c" ("int main()\x7breturn " ++ name ++ "(0);\x7d")]

end Sample

end Mesh.Obfuscator
