import MeshMessenger.Client.ChatClient

/-! Objects with one string member and one array of strings, as the server writes them for
its lists, and what the client relies on when it reads one. -/

namespace Mesh

open Lines

def elementsTail : List QString → QString
  | [] => []
  | value :: values => [',', '"'] ++ (value ++ (['"'] ++ elementsTail values))

def elementsText : List QString → QString
  | [] => []
  | value :: values => ['"'] ++ (value ++ (['"'] ++ elementsTail values))

def listObjectText (first : QString × QString) (key : QString) (values : List QString) : QString :=
  ['{'] ++ (memberText first ++
    ([',', '"'] ++ (key ++ (['"', ':', '['] ++ (elementsText values ++ [']', '}'])))))

theorem listObjectText_getLast? (first : QString × QString) (key : QString)
    (values : List QString) : (listObjectText first key values).getLast? = some '}' := by
  simp only [listObjectText, List.getLast?_append]
  rfl

/-- A reader that also reads an array of plain strings as it stands. -/
structure ListReader extends JsonReader where
  reads_list : ∀ first key values, PlainText first.1 → PlainText first.2 → PlainText key →
    (∀ v ∈ values, PlainText v) → first.1 ≠ key →
    ∃ object, fromJson (listObjectText first key values) = some object ∧
      object first.1 = .string first.2 ∧ object key = .array (values.map .string)

/-! ### A reader of flat objects and lists -/

namespace FlatJson

/-- The elements from the texts between the quotes. -/
def elements : List QString → Option (List QString)
  | [value] => some [value]
  | value :: [','] :: rest => (elements rest).map (value :: ·)
  | _ => none

/-- An object with one string member and one list. -/
structure ListObject where
  first : QString × QString
  key : QString
  values : List QString

def listMembers : List QString → QString → Option ListObject
  | [k, [':'], v, [','], key], last =>
    if last = ":[]\x7d".toList then some ⟨(k, v), key, []⟩ else none
  | k :: [':'] :: v :: [','] :: key :: [':', '['] :: rest, last =>
    if last = "]\x7d".toList then (elements rest).map fun values => ⟨(k, v), key, values⟩ else none
  | _, _ => none

def ListObject.object (o : ListObject) : JsonObject := fun key =>
  if key = o.first.1 then .string o.first.2
  else if key = o.key then .array (o.values.map .string)
  else .other

def fromJsonList (s : QString) : Option JsonObject :=
  match splitLines '"' s with
  | (['{'] :: texts, last) => (listMembers texts last).map ListObject.object
  | _ => none

theorem elements_length {texts : List QString} {values : List QString}
    (h : elements texts = some values) : texts.length % 2 = 1 := by
  induction texts using elements.induct generalizing values with
  | case1 => rfl
  | case2 value rest ih =>
    rw [elements, Option.map_eq_some_iff] at h
    obtain ⟨values', hvalues, -⟩ := h
    have := ih hvalues
    simp only [List.length_cons]
    omega
  | case3 texts h1 h2 => rw [elements.eq_3 texts h1 h2] at h; exact absurd h (by simp)

theorem listMembers_length {texts : List QString} {last : QString} {o : ListObject}
    (h : listMembers texts last = some o) : texts.length % 2 = 1 := by
  unfold listMembers at h
  split at h
  · simp
  · split_ifs at h
    obtain ⟨values, hvalues, -⟩ := Option.map_eq_some_iff.1 h
    have := elements_length hvalues
    simp only [List.length_cons]
    omega
  · exact absurd h (by simp)

def tailTexts : List QString → List QString
  | [] => []
  | value :: values => [','] :: value :: tailTexts values

theorem splitLines_elementsTail {values : List QString} (h : ∀ v ∈ values, '"' ∉ v) :
    splitLines '"' (elementsTail values ++ [']', '}']) = (tailTexts values, [']', '}']) := by
  induction values with
  | nil => decide
  | cons v values ih =>
    have htext : elementsTail (v :: values) ++ [']', '}'] =
        [','] ++ '"' :: (v ++ '"' :: (elementsTail values ++ [']', '}'])) := by
      simp [elementsTail]
    rw [htext, splitLines_line (by decide), splitLines_line (h v (by simp)),
      ih fun v' hv' => h v' (by simp [hv'])]
    rfl

theorem elements_tailTexts (v : QString) (values : List QString) :
    elements (v :: tailTexts values) = some (v :: values) := by
  induction values generalizing v with
  | nil => rfl
  | cons w values ih => rw [tailTexts, elements, ih]; rfl

/-- The texts of a list object, and what follows its last quote. -/
theorem splitLines_listObjectText {first : QString × QString} {key : QString}
    {values : List QString} (hkey : '"' ∉ first.1) (hvalue : '"' ∉ first.2) (hlist : '"' ∉ key)
    (hvalues : ∀ v ∈ values, '"' ∉ v) :
    splitLines '"' (listObjectText first key values) =
      match values with
      | [] => ([['{'], first.1, [':'], first.2, [','], key], ":[]\x7d".toList)
      | v :: vs => (['{'] :: first.1 :: [':'] :: first.2 :: [','] :: key :: [':', '['] :: v ::
          tailTexts vs, "]\x7d".toList) := by
  have htail (rest : QString) : [',', '"'] ++ (key ++ (['"', ':', '['] ++ rest)) =
      [','] ++ '"' :: (key ++ '"' :: ([':', '['] ++ rest)) := by simp
  rw [listObjectText, splitLines_memberText (by decide) hkey hvalue, htail,
    splitLines_line (by decide), splitLines_line hlist]
  cases values with
  | nil => rfl
  | cons v vs =>
    have htext : [':', '['] ++ (elementsText (v :: vs) ++ [']', '}']) =
        [':', '['] ++ '"' :: (v ++ '"' :: (elementsTail vs ++ [']', '}'])) := by
      simp [elementsText]
    rw [htext, splitLines_line (by decide), splitLines_line (hvalues v (by simp)),
      splitLines_elementsTail fun v' hv' => hvalues v' (by simp [hv'])]
    rfl

theorem fromJson_listObjectText {first : QString × QString} {key : QString}
    {values : List QString} (hkey : '"' ∉ first.1) (hvalue : '"' ∉ first.2) (hlist : '"' ∉ key)
    (hvalues : ∀ v ∈ values, '"' ∉ v) :
    fromJson (listObjectText first key values) = none ∧
      fromJsonList (listObjectText first key values) =
        some (ListObject.object ⟨first, key, values⟩) := by
  have hsplit := splitLines_listObjectText hkey hvalue hlist hvalues
  unfold fromJson fromJsonList
  rw [hsplit]
  cases values with
  | nil => exact ⟨by simp [members], by simp [listMembers]⟩
  | cons v vs => exact ⟨by simp [members], by simp [listMembers, elements_tailTexts]⟩

/-- A text that leaves a string open is no list either. -/
theorem fromJsonList_unclosed {s : QString} (hodd : s.count '"' % 2 = 1) :
    fromJsonList s = none := by
  rw [← splitLines_length] at hodd
  unfold fromJsonList
  split
  · next texts last heq =>
    rw [heq] at hodd
    cases ho : listMembers texts last with
    | none => rfl
    | some o =>
      have := listMembers_length ho
      simp only [List.length_cons] at hodd
      omega
  · rfl

theorem listObject_members {first : QString × QString} {key : QString} (values : List QString)
    (hne : first.1 ≠ key) :
    (ListObject.object ⟨first, key, values⟩) first.1 = .string first.2 ∧
      (ListObject.object ⟨first, key, values⟩) key = .array (values.map .string) := by
  refine ⟨?_, ?_⟩
  · simp [ListObject.object]
  · simp [ListObject.object, hne.symm]

def listReader : ListReader where
  fromJson s := (fromJson s).or (fromJsonList s)
  reads first rest hplain hnodup := by
    obtain ⟨o, hread, hvalue⟩ := reader.reads first rest hplain hnodup
    have hflat : fromJson (objectText first rest) = some o := hread
    exact ⟨o, by rw [hflat]; rfl, hvalue⟩
  unclosed s hbackslash hodd := by
    have hflat : fromJson s = none := reader.unclosed s hbackslash hodd
    rw [hflat, Option.none_or]
    exact fromJsonList_unclosed hodd
  reads_list first key values hkey hvalue hlist hvalues hne := by
    obtain ⟨hflat, hread⟩ := fromJson_listObjectText hkey.1 hvalue.1 hlist.1
      fun v hv => (hvalues v hv).1
    exact ⟨ListObject.object ⟨first, key, values⟩, by rw [hflat, hread]; rfl,
      listObject_members values hne⟩

end FlatJson

end Mesh
