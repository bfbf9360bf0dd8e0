import MeshMessenger.Client.JsonArrays
import MeshMessenger.Lib.Nesting

/-! What the client relies on where a line is not the text of one object: a string member
stands between quotes in the text, and an object is one group of braces. -/

namespace Mesh

open Lines Nesting

/-- The quotes and the brackets of JSON. -/
def jsonMarks : Marks Char where
  isQuote c := c == '"'
  weight c := if c = '{' ∨ c = '[' then 1 else if c = '}' ∨ c = ']' then -1 else 0

def isJsonSpace (c : Char) : Bool := c == ' ' || c == '\t' || c == '\n' || c == '\r'

/-- What can stand between a key and its value. -/
def IsColon (gap : QString) : Prop :=
  ∃ w w', gap = w ++ ':' :: w' ∧ (∀ c ∈ w, isJsonSpace c = true) ∧ ∀ c ∈ w', isJsonSpace c = true

/-- The text has this key and this string after it. -/
def Named (key value s : QString) : Prop :=
  ∃ before gap after, IsColon gap ∧
    s = before ++ '"' :: (key ++ '"' :: (gap ++ '"' :: (value ++ '"' :: after)))

/-- `%d`, as characters. -/
def decimal (n : ℤ) : QString :=
  if n < 0 then '-' :: Nat.toDigits 10 n.natAbs else Nat.toDigits 10 n.natAbs

/-- The members after the first, each with its comma. -/
def restText (rest : List (QString × QString)) : QString :=
  rest.flatMap fun m => ',' :: memberText m

/-- The text of an object with string members and a number as its last member. -/
def levelObjectText (first : QString × QString) (rest : List (QString × QString)) (key : QString)
    (n : ℤ) : QString :=
  ['{'] ++ (memberText first ++ (restText rest ++
    ([',', '"'] ++ (key ++ (['"', ':'] ++ (decimal n ++ ['}']))))))

/-- A reader of which also the following is known. -/
structure StrictReader extends ListReader where
  reads_level : ∀ first rest key n, (∀ m ∈ first :: rest, PlainText m.1 ∧ PlainText m.2) →
    PlainText key → ((first :: rest).map Prod.fst ++ [key]).Nodup →
    ∃ object, fromJson (levelObjectText first rest key n) = some object ∧
      ∀ m ∈ first :: rest, object m.1 = .string m.2
  named : ∀ s object key value, '\\' ∉ s → fromJson s = some object →
    object key = .string value → Named key value s
  group : ∀ s object, '\\' ∉ s → s.head? = some '{' → s.getLast? = some '}' →
    fromJson s = some object → jsonMarks.Group s

/-! ### Balanced texts -/

theorem not_quote_of {s : QString} (h : '"' ∉ s) : ∀ c ∈ s, jsonMarks.isQuote c = false := by
  intro c hc
  have hne : c ≠ '"' := fun heq => h (heq ▸ hc)
  simp [jsonMarks, hne]

theorem balanced_quoted {s : QString} (h : '"' ∉ s) : jsonMarks.Balanced ('"' :: (s ++ ['"'])) :=
  Marks.balanced_quotes rfl (not_quote_of h)

theorem balanced_colon : jsonMarks.Balanced [':'] := Marks.balanced_plain (by simp [jsonMarks])

theorem balanced_comma : jsonMarks.Balanced [','] := Marks.balanced_plain (by simp [jsonMarks])

theorem balanced_memberText {m : QString × QString} (hkey : '"' ∉ m.1) (hvalue : '"' ∉ m.2) :
    jsonMarks.Balanced (memberText m) := by
  have htext : memberText m = '"' :: (m.1 ++ ['"']) ++ ([':'] ++ '"' :: (m.2 ++ ['"'])) := by
    simp [memberText]
  rw [htext]
  exact (balanced_quoted hkey).append (balanced_colon.append (balanced_quoted hvalue))

theorem balanced_restText {rest : List (QString × QString)}
    (h : ∀ m ∈ rest, '"' ∉ m.1 ∧ '"' ∉ m.2) : jsonMarks.Balanced (restText rest) := by
  induction rest with
  | nil => exact Marks.balanced_nil
  | cons m rest ih =>
    have hm := h m (by simp)
    exact (balanced_comma.append (balanced_memberText hm.1 hm.2)).append
      (ih fun m' hm' => h m' (by simp [hm']))

theorem membersTail_eq (rest : List (QString × QString)) :
    membersTail rest = restText rest ++ ['}'] := by
  induction rest with
  | nil => rfl
  | cons m rest ih => simp [membersTail, restText, ih]

theorem group_braces {s : QString} (h : jsonMarks.Balanced s) :
    jsonMarks.Group ('{' :: (s ++ ['}'])) := h.group rfl rfl rfl rfl

theorem group_objectText {first : QString × QString} {rest : List (QString × QString)}
    (h : ∀ m ∈ first :: rest, '"' ∉ m.1 ∧ '"' ∉ m.2) :
    jsonMarks.Group (objectText first rest) := by
  have hfirst := h first (by simp)
  have htext : objectText first rest = '{' :: ((memberText first ++ restText rest) ++ ['}']) := by
    simp [objectText, membersTail_eq]
  rw [htext]
  exact group_braces ((balanced_memberText hfirst.1 hfirst.2).append
    (balanced_restText fun m hm => h m (by simp [hm])))

theorem isDigit_decimal (n : ℤ) : ∀ c ∈ decimal n, c = '-' ∨ c.isDigit = true := by
  intro c hc
  have hdigits {k : ℕ} (h : c ∈ Nat.toDigits 10 k) : c.isDigit = true :=
    Nat.isDigit_of_mem_toDigits (by decide) (by decide) h
  unfold decimal at hc
  split_ifs at hc
  · rcases List.mem_cons.1 hc with rfl | hc
    · exact .inl rfl
    · exact .inr (hdigits hc)
  · exact .inr (hdigits hc)

/-- A number has no punctuation in it. -/
theorem notMem_decimal (n : ℤ) {c : Char} (hc : c.isDigit = false) (hminus : c ≠ '-') :
    c ∉ decimal n := by
  intro hmem
  rcases isDigit_decimal n c hmem with h | h
  · exact hminus h
  · rw [hc] at h
    exact absurd h (by simp)

theorem balanced_decimal (n : ℤ) : jsonMarks.Balanced (decimal n) := by
  refine Marks.balanced_plain fun c hc => ?_
  have hne {d : Char} (hd : d.isDigit = false) (hminus : d ≠ '-') : c ≠ d := fun heq =>
    notMem_decimal n hd hminus (heq ▸ hc)
  have h1 := hne (d := '"') (by decide) (by decide)
  have h2 := hne (d := '{') (by decide) (by decide)
  have h3 := hne (d := '[') (by decide) (by decide)
  have h4 := hne (d := '}') (by decide) (by decide)
  have h5 := hne (d := ']') (by decide) (by decide)
  simp [jsonMarks, h1, h2, h3, h4, h5]

theorem group_levelObjectText {first : QString × QString} {rest : List (QString × QString)}
    {key : QString} (h : ∀ m ∈ first :: rest, '"' ∉ m.1 ∧ '"' ∉ m.2) (hkey : '"' ∉ key) (n : ℤ) :
    jsonMarks.Group (levelObjectText first rest key n) := by
  have hfirst := h first (by simp)
  have htext : levelObjectText first rest key n = '{' :: ((memberText first ++ (restText rest ++
      ([','] ++ ('"' :: (key ++ ['"']) ++ ([':'] ++ decimal n))))) ++ ['}']) := by
    simp [levelObjectText]
  rw [htext]
  exact group_braces ((balanced_memberText hfirst.1 hfirst.2).append
    ((balanced_restText fun m hm => h m (by simp [hm])).append
      (balanced_comma.append ((balanced_quoted hkey).append (balanced_colon.append (balanced_decimal n))))))

theorem balanced_elementsTail {values : List QString} (h : ∀ v ∈ values, '"' ∉ v) :
    jsonMarks.Balanced (elementsTail values) := by
  induction values with
  | nil => exact Marks.balanced_nil
  | cons v values ih =>
    have htext : elementsTail (v :: values) =
        ([','] ++ '"' :: (v ++ ['"'])) ++ elementsTail values := by simp [elementsTail]
    rw [htext]
    exact (balanced_comma.append (balanced_quoted (h v (by simp)))).append
      (ih fun v' hv' => h v' (by simp [hv']))

theorem balanced_elementsText {values : List QString} (h : ∀ v ∈ values, '"' ∉ v) :
    jsonMarks.Balanced (elementsText values) := by
  cases values with
  | nil => exact Marks.balanced_nil
  | cons v values =>
    have htext : elementsText (v :: values) = '"' :: (v ++ ['"']) ++ elementsTail values := by
      simp [elementsText]
    rw [htext]
    exact (balanced_quoted (h v (by simp))).append
      (balanced_elementsTail fun v' hv' => h v' (by simp [hv']))

theorem group_listObjectText {first : QString × QString} {key : QString} {values : List QString}
    (hfirst : '"' ∉ first.1 ∧ '"' ∉ first.2) (hkey : '"' ∉ key) (hvalues : ∀ v ∈ values, '"' ∉ v) :
    jsonMarks.Group (listObjectText first key values) := by
  have hlist : jsonMarks.Balanced ('[' :: (elementsText values ++ [']'])) :=
    (balanced_elementsText hvalues).brackets rfl rfl rfl rfl
  have htext : listObjectText first key values = '{' :: ((memberText first ++ ([','] ++
      ('"' :: (key ++ ['"']) ++ ([':'] ++ '[' :: (elementsText values ++ [']']))))) ++ ['}']) := by
    simp [listObjectText]
  rw [htext]
  exact group_braces ((balanced_memberText hfirst.1 hfirst.2).append
    (balanced_comma.append ((balanced_quoted hkey).append (balanced_colon.append hlist))))

/-! ### A reader of flat objects that keeps to these laws -/

namespace FlatJson

def isDecimal : QString → Bool
  | '-' :: s => !s.isEmpty && s.all Char.isDigit
  | s => !s.isEmpty && s.all Char.isDigit

/-- What follows the last quote of an object that ends in a number. -/
def isNumberEnd (last : QString) : Bool :=
  last.head? == some ':' && last.getLast? == some '}' && isDecimal last.tail.dropLast

def levelMembers : List QString → QString → Option (List (QString × QString))
  | [_], last => if isNumberEnd last then some [] else none
  | key :: [':'] :: value :: [','] :: rest, last =>
    (levelMembers rest last).map ((key, value) :: ·)
  | _, _ => none

def fromJsonLevel (s : QString) : Option JsonObject :=
  match splitLines '"' s with
  | (['{'] :: texts, last) => (levelMembers texts last).map object
  | _ => none

/-- The three readers on the texts that are groups. -/
def fromJsonGroup (s : QString) : Option JsonObject :=
  if jsonMarks.Group s then ((fromJson s).or (fromJsonList s)).or (fromJsonLevel s) else none

theorem isDecimal_decimal (n : ℤ) : isDecimal (decimal n) = true := by
  have hdigits (k : ℕ) : (Nat.toDigits 10 k).all Char.isDigit = true :=
    List.all_eq_true.2 fun c hc => Nat.isDigit_of_mem_toDigits (by decide) (by decide) hc
  have hne (k : ℕ) : (Nat.toDigits 10 k).isEmpty = false := by
    rw [List.isEmpty_eq_false_iff]
    exact Nat.toDigits_ne_nil
  unfold decimal
  split_ifs
  · simp [isDecimal, hdigits, hne]
  · have hfirst : (Nat.toDigits 10 n.natAbs).head? ≠ some '-' := by
      intro h
      have := Nat.isDigit_of_mem_toDigits (by decide) (by decide) (List.mem_of_head? h)
      exact absurd this (by decide)
    unfold isDecimal
    split
    · next s heq =>
      rw [heq] at hfirst
      exact absurd rfl hfirst
    · simp [hdigits, hne]

theorem isNumberEnd_decimal (n : ℤ) : isNumberEnd (':' :: (decimal n ++ ['}'])) = true := by
  have hlast : (':' :: (decimal n ++ ['}'])).getLast? = some '}' := by
    rw [← List.cons_append, List.getLast?_concat]
  simp [isNumberEnd, hlast, isDecimal_decimal]

theorem levelMembers_length {texts : List QString} {last : QString}
    {ms : List (QString × QString)} (h : levelMembers texts last = some ms) :
    texts.length % 4 = 1 := by
  induction texts, last using levelMembers.induct generalizing ms with
  | case1 => rfl
  | case2 => rfl
  | case3 key value rest last ih =>
    rw [levelMembers, Option.map_eq_some_iff] at h
    obtain ⟨ms', hms, -⟩ := h
    have := ih hms
    simp only [List.length_cons]
    omega
  | case4 texts last h1 h2 => rw [levelMembers.eq_3 texts last h1 h2] at h; exact absurd h (by simp)

/-- The texts between the quotes of members that are followed by a comma and a key. -/
def commaTexts (key : QString) : List (QString × QString) → List QString
  | [] => [key]
  | m :: rest => m.1 :: [':'] :: m.2 :: [','] :: commaTexts key rest

theorem levelMembers_commaTexts (key : QString) (ms : List (QString × QString)) {last : QString}
    (h : isNumberEnd last = true) : levelMembers (commaTexts key ms) last = some ms := by
  induction ms with
  | nil => simp [commaTexts, levelMembers, h]
  | cons m ms ih => simp [commaTexts, levelMembers, ih]

theorem splitLines_levelObjectText {first : QString × QString} {rest : List (QString × QString)}
    {key : QString} (h : ∀ m ∈ first :: rest, '"' ∉ m.1 ∧ '"' ∉ m.2) (hkey : '"' ∉ key) (n : ℤ) :
    splitLines '"' (levelObjectText first rest key n) =
      (['{'] :: commaTexts key (first :: rest), ':' :: (decimal n ++ ['}'])) := by
  have hend : '"' ∉ ':' :: (decimal n ++ ['}']) := by
    simp [notMem_decimal n (c := '"') (by decide) (by decide)]
  have hlast : splitLines '"' (':' :: (decimal n ++ ['}'])) =
      ([], ':' :: (decimal n ++ ['}'])) := splitLines_of_notMem hend
  have hnum : [',', '"'] ++ (key ++ (['"', ':'] ++ (decimal n ++ ['}']))) =
      [','] ++ '"' :: (key ++ '"' :: (':' :: (decimal n ++ ['}']))) := by simp
  have htail (ms : List (QString × QString)) (hms : ∀ m ∈ ms, '"' ∉ m.1 ∧ '"' ∉ m.2) :
      splitLines '"' (restText ms ++
        ([',', '"'] ++ (key ++ (['"', ':'] ++ (decimal n ++ ['}']))))) =
      ([','] :: commaTexts key ms, ':' :: (decimal n ++ ['}'])) := by
    induction ms with
    | nil =>
      rw [restText, List.flatMap_nil, List.nil_append, hnum, splitLines_line (by decide),
        splitLines_line hkey, hlast]
      rfl
    | cons m ms ih =>
      have hm := hms m (by simp)
      have htext : restText (m :: ms) ++
          ([',', '"'] ++ (key ++ (['"', ':'] ++ (decimal n ++ ['}'])))) =
          [','] ++ (memberText m ++ (restText ms ++
            ([',', '"'] ++ (key ++ (['"', ':'] ++ (decimal n ++ ['}'])))))) := by
        simp [restText]
      rw [htext, splitLines_memberText (by decide) hm.1 hm.2,
        ih fun m' hm' => hms m' (by simp [hm'])]
      rfl
  have hfirst := h first (by simp)
  rw [levelObjectText, splitLines_memberText (by decide) hfirst.1 hfirst.2,
    htail rest fun m hm => h m (by simp [hm])]
  rfl

theorem commaTexts_length (key : QString) (ms : List (QString × QString)) :
    (commaTexts key ms).length % 4 = 1 := by
  induction ms with
  | nil => rfl
  | cons m ms ih =>
    simp only [commaTexts, List.length_cons]
    omega

/-- The other two readers leave such a text to the third. -/
theorem fromJson_levelObjectText {first : QString × QString} {rest : List (QString × QString)}
    {key : QString} (h : ∀ m ∈ first :: rest, '"' ∉ m.1 ∧ '"' ∉ m.2) (hkey : '"' ∉ key) (n : ℤ) :
    fromJson (levelObjectText first rest key n) = none ∧
      fromJsonList (levelObjectText first rest key n) = none ∧
      fromJsonLevel (levelObjectText first rest key n) = some (object (first :: rest)) := by
  have hsplit := splitLines_levelObjectText h hkey n
  refine ⟨?_, ?_, ?_⟩
  · unfold fromJson
    rw [hsplit]
    cases hms : members (commaTexts key (first :: rest)) (':' :: (decimal n ++ ['}'])) with
    | none => simp [hms]
    | some ms =>
      have h3 := members_length hms
      have h1 := commaTexts_length key (first :: rest)
      omega
  · unfold fromJsonList
    rw [hsplit]
    cases rest with
    | nil =>
      have hne : decimal n ++ ['}'] ≠ ['[', ']', '}'] := by
        intro heq
        have hmem : '[' ∈ decimal n ++ ['}'] := by simp [heq]
        simp [notMem_decimal n (c := '[') (by decide) (by decide)] at hmem
      simp [commaTexts, listMembers, hne]
    | cons m rest => cases rest <;> simp [commaTexts, listMembers]
  · unfold fromJsonLevel
    rw [hsplit]
    simp only
    rw [levelMembers_commaTexts key _ (isNumberEnd_decimal n)]
    rfl

/-! ### The members it reads stand in the text -/

theorem isColon_colon : IsColon [':'] := ⟨[], [], rfl, by simp, by simp⟩

/-- A member is found where its texts follow each other. -/
theorem named_of_texts {s : QString} {p : QString} {before after : List QString}
    {key value last : QString}
    (h : splitLines '"' s = (p :: (before ++ key :: [':'] :: value :: after), last)) :
    Named key value s := by
  have htext := joinLines_splitLines (d := '"') s
  have hjoin (l : QString) (ls : List QString) :
      joinLines '"' (l :: ls) = l ++ '"' :: joinLines '"' ls := by simp [joinLines]
  obtain ⟨lead, hlead⟩ : ∃ lead, joinLines '"' (p :: before) = lead ++ ['"'] := by
    obtain ⟨init, l, heq⟩ := List.eq_nil_or_concat (p :: before) |>.resolve_left (by simp)
    rw [heq]
    exact ⟨joinLines '"' init ++ l, by simp [joinLines]⟩
  refine ⟨lead, [':'], joinLines '"' after ++ last, isColon_colon, ?_⟩
  rw [h, ← List.cons_append, joinLines_append, hlead, hjoin, hjoin, hjoin] at htext
  rw [← htext]
  simp

theorem members_split {texts : List QString} {last : QString} {ms : List (QString × QString)}
    (h : members texts last = some ms) :
    ∀ m ∈ ms, ∃ before after, texts = before ++ m.1 :: [':'] :: m.2 :: after := by
  induction texts, last using members.induct generalizing ms with
  | case1 key value =>
    rw [members, if_pos rfl, Option.some.injEq] at h
    subst h
    intro m hm
    rw [List.mem_singleton.1 hm]
    exact ⟨[], [], rfl⟩
  | case2 key value last hne => rw [members, if_neg hne] at h; exact absurd h (by simp)
  | case3 key value rest last ih =>
    rw [members, Option.map_eq_some_iff] at h
    obtain ⟨ms', hms, rfl⟩ := h
    intro m hm
    rcases List.mem_cons.1 hm with rfl | hm
    · exact ⟨[], [','] :: rest, rfl⟩
    · obtain ⟨before, after, rfl⟩ := ih hms m hm
      exact ⟨key :: [':'] :: value :: [','] :: before, after, rfl⟩
  | case4 texts last h1 h2 => rw [members.eq_3 texts last h1 h2] at h; exact absurd h (by simp)

theorem levelMembers_split {texts : List QString} {last : QString}
    {ms : List (QString × QString)} (h : levelMembers texts last = some ms) :
    ∀ m ∈ ms, ∃ before after, texts = before ++ m.1 :: [':'] :: m.2 :: after := by
  induction texts, last using levelMembers.induct generalizing ms with
  | case1 key last hend =>
    rw [levelMembers, if_pos hend, Option.some.injEq] at h
    subst h
    simp
  | case2 key last hend =>
    rw [levelMembers, if_neg hend] at h
    exact absurd h (by simp)
  | case3 key value rest last ih =>
    rw [levelMembers, Option.map_eq_some_iff] at h
    obtain ⟨ms', hms, rfl⟩ := h
    intro m hm
    rcases List.mem_cons.1 hm with rfl | hm
    · exact ⟨[], [','] :: rest, rfl⟩
    · obtain ⟨before, after, rfl⟩ := ih hms m hm
      exact ⟨key :: [':'] :: value :: [','] :: before, after, rfl⟩
  | case4 texts last h1 h2 => rw [levelMembers.eq_3 texts last h1 h2] at h; exact absurd h (by simp)

theorem object_eq_string {ms : List (QString × QString)} {key value : QString}
    (h : object ms key = .string value) : (key, value) ∈ ms := by
  unfold object at h
  cases hl : ms.lookup key with
  | none => rw [hl] at h; exact absurd h (by simp)
  | some v =>
    rw [hl] at h
    obtain rfl := JsonValue.string.inj h
    obtain ⟨l₁, l₂, rfl, -⟩ := List.lookup_eq_some_iff.1 hl
    simp

theorem listObject_eq_string {o : ListObject} {key value : QString}
    (h : o.object key = .string value) : (key, value) = o.first := by
  unfold ListObject.object at h
  split_ifs at h with hkey
  obtain rfl := JsonValue.string.inj h
  exact Prod.ext hkey rfl

theorem listMembers_split {texts : List QString} {last : QString} {o : ListObject}
    (h : listMembers texts last = some o) :
    ∃ after, texts = o.first.1 :: [':'] :: o.first.2 :: after := by
  unfold listMembers at h
  split at h
  · split_ifs at h
    obtain rfl := Option.some.inj h
    exact ⟨_, rfl⟩
  · split_ifs at h
    obtain ⟨values, -, rfl⟩ := Option.map_eq_some_iff.1 h
    exact ⟨_, rfl⟩
  · exact absurd h (by simp)

theorem fromJson_named {s : QString} {o : JsonObject} (h : fromJson s = some o)
    {key value : QString} (hvalue : o key = .string value) : Named key value s := by
  unfold fromJson at h
  split at h
  · next texts last heq =>
    obtain ⟨ms, hms, rfl⟩ := Option.map_eq_some_iff.1 h
    obtain ⟨before, after, rfl⟩ := members_split hms _ (object_eq_string hvalue)
    exact named_of_texts heq
  · exact absurd h (by simp)

theorem fromJsonList_named {s : QString} {o : JsonObject} (h : fromJsonList s = some o)
    {key value : QString} (hvalue : o key = .string value) : Named key value s := by
  unfold fromJsonList at h
  split at h
  · next texts last heq =>
    obtain ⟨lo, hlo, rfl⟩ := Option.map_eq_some_iff.1 h
    obtain ⟨after, rfl⟩ := listMembers_split hlo
    have hfirst := listObject_eq_string hvalue
    rw [← hfirst] at heq
    exact named_of_texts (by rw [heq, List.nil_append])
  · exact absurd h (by simp)

theorem fromJsonLevel_named {s : QString} {o : JsonObject} (h : fromJsonLevel s = some o)
    {key value : QString} (hvalue : o key = .string value) : Named key value s := by
  unfold fromJsonLevel at h
  split at h
  · next texts last heq =>
    obtain ⟨ms, hms, rfl⟩ := Option.map_eq_some_iff.1 h
    obtain ⟨before, after, rfl⟩ := levelMembers_split hms _ (object_eq_string hvalue)
    exact named_of_texts heq
  · exact absurd h (by simp)

theorem fromJsonLevel_unclosed {s : QString} (hodd : s.count '"' % 2 = 1) :
    fromJsonLevel s = none := by
  rw [← splitLines_length] at hodd
  unfold fromJsonLevel
  split
  · next texts last heq =>
    rw [heq] at hodd
    cases hms : levelMembers texts last with
    | none => rfl
    | some ms =>
      have := levelMembers_length hms
      simp only [List.length_cons] at hodd
      omega
  · rfl

theorem fromJsonGroup_objectText {first : QString × QString} {rest : List (QString × QString)}
    (hplain : ∀ m ∈ first :: rest, PlainText m.1 ∧ PlainText m.2)
    (hnodup : ((first :: rest).map Prod.fst).Nodup) :
    ∃ o, fromJsonGroup (objectText first rest) = some o ∧
      ∀ m ∈ first :: rest, o m.1 = .string m.2 := by
  obtain ⟨o, hread, hvalue⟩ := reader.reads first rest hplain hnodup
  have hgroup : jsonMarks.Group (objectText first rest) :=
    group_objectText fun m hm => ⟨(hplain m hm).1.1, (hplain m hm).2.1⟩
  have hflat : fromJson (objectText first rest) = some o := hread
  exact ⟨o, by rw [fromJsonGroup, if_pos hgroup, hflat]; rfl, hvalue⟩

theorem fromJsonGroup_unclosed {s : QString} (hbackslash : '\\' ∉ s)
    (hodd : s.count '"' % 2 = 1) : fromJsonGroup s = none := by
  have hflat : fromJson s = none := reader.unclosed s hbackslash hodd
  rw [fromJsonGroup, hflat, fromJsonList_unclosed hodd, fromJsonLevel_unclosed hodd]
  split_ifs <;> rfl

theorem fromJsonGroup_levelObjectText {first : QString × QString}
    {rest : List (QString × QString)} {key : QString}
    (hplain : ∀ m ∈ first :: rest, PlainText m.1 ∧ PlainText m.2) (hkey : PlainText key)
    (hnodup : ((first :: rest).map Prod.fst ++ [key]).Nodup) (n : ℤ) :
    ∃ o, fromJsonGroup (levelObjectText first rest key n) = some o ∧
      ∀ m ∈ first :: rest, o m.1 = .string m.2 := by
  have hquote : ∀ m ∈ first :: rest, '"' ∉ m.1 ∧ '"' ∉ m.2 := fun m hm =>
    ⟨(hplain m hm).1.1, (hplain m hm).2.1⟩
  obtain ⟨hflat, hlist, hlevel⟩ := fromJson_levelObjectText hquote hkey.1 n
  refine ⟨object (first :: rest), ?_, fun m hm => ?_⟩
  · rw [fromJsonGroup, if_pos (group_levelObjectText hquote hkey.1 n), hflat, hlist, hlevel]
    rfl
  · rw [object, lookup_of_mem (List.nodup_append.1 hnodup).1 hm]

theorem fromJsonGroup_named {s : QString} {o : JsonObject} (h : fromJsonGroup s = some o)
    {key value : QString} (hvalue : o key = .string value) : Named key value s := by
  unfold fromJsonGroup at h
  split_ifs at h
  rcases Option.or_eq_some_iff.1 h with h | ⟨-, h⟩
  · rcases Option.or_eq_some_iff.1 h with h | ⟨-, h⟩
    · exact fromJson_named h hvalue
    · exact fromJsonList_named h hvalue
  · exact fromJsonLevel_named h hvalue

theorem group_of_fromJsonGroup {s : QString} {o : JsonObject} (h : fromJsonGroup s = some o) :
    jsonMarks.Group s := by
  unfold fromJsonGroup at h
  split_ifs at h with hgroup
  exact hgroup

theorem fromJsonGroup_listObjectText {first : QString × QString} {key : QString}
    {values : List QString} (hkey : PlainText first.1) (hvalue : PlainText first.2)
    (hlist : PlainText key) (hvalues : ∀ v ∈ values, PlainText v) (hne : first.1 ≠ key) :
    ∃ o, fromJsonGroup (listObjectText first key values) = some o ∧
      o first.1 = .string first.2 ∧ o key = .array (values.map .string) := by
  obtain ⟨hflat, hread⟩ := fromJson_listObjectText hkey.1 hvalue.1 hlist.1
    fun v hv => (hvalues v hv).1
  have hgroup : jsonMarks.Group (listObjectText first key values) :=
    group_listObjectText ⟨hkey.1, hvalue.1⟩ hlist.1 fun v hv => (hvalues v hv).1
  exact ⟨ListObject.object ⟨first, key, values⟩,
    by rw [fromJsonGroup, if_pos hgroup, hflat, hread]; rfl, listObject_members values hne⟩

/-- The reader meets the laws. -/
def strictReader : StrictReader where
  fromJson := fromJsonGroup
  reads _ _ := fromJsonGroup_objectText
  unclosed _ := fromJsonGroup_unclosed
  reads_list _ _ _ := fromJsonGroup_listObjectText
  reads_level _ _ _ n hplain hkey hnodup := fromJsonGroup_levelObjectText hplain hkey hnodup n
  named _ _ _ _ _ h hvalue := fromJsonGroup_named h hvalue
  group _ _ _ _ _ := group_of_fromJsonGroup

end FlatJson

end Mesh
