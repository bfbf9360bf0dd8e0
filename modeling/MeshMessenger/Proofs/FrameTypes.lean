import MeshMessenger.Proofs.PrivateFrames
import MeshMessenger.Proofs.Replies

/-! Which type the bytes of an object name. Between its quotes stand the keys and the
values by turns, so that only a value of the key `type` is named, whatever the fields. -/

namespace Mesh

open CLib Lines

/-! ### The type of a frame, between its quotes -/

/-- Somewhere among the texts between the quotes the key `type` is followed by this string. -/
def TypePiece (kind : String) : List Bytes → Prop
  | a :: gap :: b :: rest =>
    (a = ascii "type" ∧ IsColon (fromUtf8 gap) ∧ b = ascii kind) ∨ TypePiece kind (gap :: b :: rest)
  | _ => False

theorem TypePiece.cons {kind : String} {pieces : List Bytes} (h : TypePiece kind pieces)
    (p : Bytes) : TypePiece kind (p :: pieces) := by
  rcases pieces with _ | ⟨a, _ | ⟨b, rest⟩⟩
  · exact h.elim
  · exact h.elim
  · exact .inr h

theorem TypePiece.append {kind : String} {pieces : List Bytes} (h : TypePiece kind pieces)
    (before : List Bytes) : TypePiece kind (before ++ pieces) := by
  induction before with
  | nil => exact h
  | cons p before ih => exact ih.cons p

theorem quote_notMem_of_isColon {gap : Bytes} (h : IsColon (fromUtf8 gap)) :
    (34 : UInt8) ∉ gap := by
  intro hc
  have hmem := mem_fromUtf8_of_mem (by decide) hc
  obtain ⟨w, w', hgap, hw, hw'⟩ := h
  rw [hgap] at hmem
  rcases List.mem_append.1 hmem with hmem | hmem
  · exact absurd (hw _ hmem) (by decide)
  · rcases List.mem_cons.1 hmem with hmem | hmem
    · exact absurd hmem (by decide)
    · exact absurd (hw' _ hmem) (by decide)

/-- Bytes that name their type name it between their quotes. -/
theorem typePiece_of_tagged {kind : String} (hkind : (34 : UInt8) ∉ ascii kind) {s : Bytes}
    (h : Tagged kind s) : TypePiece kind (splitLines 34 s).1.tail := by
  obtain ⟨before, gap, after, hgap, rfl⟩ := h
  have hname : splitLines 34 (ascii "type" ++ 34 :: (gap ++ 34 :: (ascii kind ++ 34 :: after))) =
      (ascii "type" :: gap :: ascii kind :: (splitLines 34 after).1, (splitLines 34 after).2) := by
    rw [splitLines_line (by decide), splitLines_line (quote_notMem_of_isColon hgap),
      splitLines_line hkind]
  have htype : TypePiece kind (ascii "type" :: gap :: ascii kind :: (splitLines 34 after).1) :=
    .inl ⟨rfl, hgap, rfl⟩
  rw [splitLines_append, splitLines_line (splitLines_rest before), hname]
  cases hlines : (splitLines 34 before).1 with
  | nil => exact htype
  | cons l ls => exact (htype.cons _).append ls

theorem not_isColon_comma : ¬ IsColon (fromUtf8 [44]) := by
  rintro ⟨w, w', heq, -, -⟩
  have hcomma : fromUtf8 [44] = [','] := fromUtf8_ofAscii (t := [',']) rfl
  have hmem : ':' ∈ fromUtf8 [44] := by rw [heq]; simp
  rw [hcomma] at hmem
  exact absurd hmem (by decide)

/-- A member, and the comma after it. -/
theorem typePiece_member {kind : String} {key value : Bytes} {rest : List Bytes}
    (h : TypePiece kind (key :: [58] :: value :: [44] :: rest)) :
    (key, value) = (ascii "type", ascii kind) ∨ TypePiece kind rest := by
  have hcolon : ([58] : Bytes) ≠ ascii "type" := by decide
  have hcomma : ([44] : Bytes) ≠ ascii "type" := by decide
  rcases h with ⟨rfl, -, rfl⟩ | ⟨h, -, -⟩ | h
  · exact .inl rfl
  · exact absurd h hcolon
  · cases rest with
    | nil => exact h.elim
    | cons p rest =>
      rcases h with ⟨-, hgap, -⟩ | h
      · exact absurd hgap not_isColon_comma
      · cases rest with
        | nil => exact h.elim
        | cons q rest =>
          rcases h with ⟨h, -, -⟩ | h
          · exact absurd h hcomma
          · exact .inr h

/-- The last member. -/
theorem typePiece_last {kind : String} {key value : Bytes}
    (h : TypePiece kind [key, [58], value]) : (key, value) = (ascii "type", ascii kind) := by
  rcases h with ⟨rfl, -, rfl⟩ | h
  · rfl
  · exact h.elim

theorem splitLines_memberBytes {lead : Bytes} (hlead : (34 : UInt8) ∉ lead)
    {m : Bytes × Bytes} (hkey : (34 : UInt8) ∉ m.1) (hvalue : (34 : UInt8) ∉ m.2) (tail : Bytes) :
    splitLines 34 (lead ++ (memberBytes m ++ tail)) =
      (lead :: m.1 :: [58] :: m.2 :: (splitLines 34 tail).1, (splitLines 34 tail).2) := by
  have htext : lead ++ (memberBytes m ++ tail) =
      lead ++ 34 :: (m.1 ++ 34 :: ([58] ++ 34 :: (m.2 ++ 34 :: tail))) := by
    simp [memberBytes]
  rw [htext, splitLines_line hlead, splitLines_line hkey,
    splitLines_line (by decide : (34 : UInt8) ∉ ([58] : Bytes)), splitLines_line hvalue]

/-- The members after the first, each with its comma, before some text. -/
def restBytes (rest : List (Bytes × Bytes)) : Bytes := rest.flatMap fun m => 44 :: memberBytes m

theorem membersTailBytes_eq (rest : List (Bytes × Bytes)) :
    membersTailBytes rest = restBytes rest ++ [125] := by
  induction rest with
  | nil => rfl
  | cons m rest ih => simp [membersTailBytes, restBytes, ih]

/-- Members, and then pieces that name no type: the type is that of a member. -/
theorem typePiece_members {kind : String} {first : Bytes × Bytes} {rest : List (Bytes × Bytes)}
    (hquote : ∀ m ∈ first :: rest, (34 : UInt8) ∉ m.1 ∧ (34 : UInt8) ∉ m.2) {tail : Bytes}
    (htail : ∀ key value, TypePiece kind (key :: [58] :: value :: (splitLines 34 tail).1) →
      (key, value) = (ascii "type", ascii kind))
    (h : TypePiece kind (splitLines 34 ([123] ++ (memberBytes first ++
      (restBytes rest ++ tail)))).1.tail) : (ascii "type", ascii kind) ∈ first :: rest := by
  have hfirst := hquote first (by simp)
  rw [splitLines_memberBytes (by decide) hfirst.1 hfirst.2, List.tail_cons] at h
  induction rest generalizing first with
  | nil => exact List.mem_singleton.2 (htail _ _ h).symm
  | cons m rest ih =>
    have hm := hquote m (by simp)
    have hsplit : splitLines 34 (restBytes (m :: rest) ++ tail) =
        ([44] :: m.1 :: [58] :: m.2 :: (splitLines 34 (restBytes rest ++ tail)).1,
          (splitLines 34 (restBytes rest ++ tail)).2) := by
      have htext : restBytes (m :: rest) ++ tail =
          [44] ++ (memberBytes m ++ (restBytes rest ++ tail)) := by simp [restBytes]
      rw [htext, splitLines_memberBytes (by decide) hm.1 hm.2]
    rw [hsplit] at h
    rcases typePiece_member h with hhead | hrest
    · exact List.mem_cons.2 (.inl hhead.symm)
    · exact List.mem_cons_of_mem _ (ih (fun m' hm' => hquote m' (List.mem_cons_of_mem _ hm'))
        hrest hm)

theorem objectBytes_eq (first : Bytes × Bytes) (rest : List (Bytes × Bytes)) :
    objectBytes first rest = [123] ++ (memberBytes first ++ (restBytes rest ++ [125])) := by
  rw [objectBytes, membersTailBytes_eq]

/-- The type an object names is that of a member, whatever follows its members. -/
theorem tagged_members {kind : String} (hkind : (34 : UInt8) ∉ ascii kind)
    {first : Bytes × Bytes} {rest : List (Bytes × Bytes)}
    (hquote : ∀ m ∈ first :: rest, (34 : UInt8) ∉ m.1 ∧ (34 : UInt8) ∉ m.2) {tail : Bytes}
    (htail : (34 : UInt8) ∉ tail)
    (h : Tagged kind ([123] ++ (memberBytes first ++ (restBytes rest ++ tail)))) :
    (ascii "type", ascii kind) ∈ first :: rest := by
  refine typePiece_members hquote (fun key value hpiece => ?_) (typePiece_of_tagged hkind h)
  rw [splitLines_of_notMem htail] at hpiece
  exact typePiece_last hpiece

/-! ### Whole frames -/

theorem LineField.frameText {s : Bytes} (h : LineField s) : FrameText s :=
  ⟨h.nulFree, h.backslash_notMem⟩

theorem FieldText.frameText {s : Bytes} (h : FieldText s) : FrameText s :=
  ⟨h.nulFree, h.backslash_notMem⟩

theorem frameText_of {s : Bytes} (h : ∀ c ∈ s, c ≠ 0 ∧ c ≠ 92) : FrameText s where
  nulFree hc := (h 0 hc).1 rfl
  backslash_notMem hc := (h 92 hc).2 rfl

theorem frameText_word {s : Bytes} (h : s.all (fun c => c != 0 && c != 92) = true) :
    FrameText s := frameText_of fun c hc => by simpa using List.all_eq_true.1 h c hc

theorem frameText_memberBytes {m : Bytes × Bytes} (hkey : FrameText m.1)
    (hvalue : FrameText m.2) : FrameText (memberBytes m) :=
  (frameText_word rfl).append (hkey.append ((frameText_word rfl).append
    (hvalue.append (frameText_word rfl))))

theorem frameText_restBytes {rest : List (Bytes × Bytes)}
    (h : ∀ m ∈ rest, FrameText m.1 ∧ FrameText m.2) : FrameText (restBytes rest) := by
  induction rest with
  | nil => exact frameText_of (by simp [restBytes])
  | cons m rest ih =>
    have hm := h m (by simp)
    exact FrameText.append (s := 44 :: memberBytes m)
      ((frameText_word (s := [44]) rfl).append (frameText_memberBytes hm.1 hm.2))
      (ih fun m' hm' => h m' (by simp [hm']))

theorem frameText_members {first : Bytes × Bytes} {rest : List (Bytes × Bytes)} {tail : Bytes}
    (h : ∀ m ∈ first :: rest, FrameText m.1 ∧ FrameText m.2) (htail : FrameText tail) :
    FrameText ([123] ++ (memberBytes first ++ (restBytes rest ++ tail))) := by
  have hfirst := h first (by simp)
  exact (frameText_word rfl).append ((frameText_memberBytes hfirst.1 hfirst.2).append
    ((frameText_restBytes fun m hm => h m (by simp [hm])).append htail))

/-- An object with string members is a whole frame. -/
theorem wholeFrame_objectBytes {first : Bytes × Bytes} {rest : List (Bytes × Bytes)}
    (h : ∀ m ∈ first :: rest, LineField m.1 ∧ LineField m.2) :
    WholeFrame (objectBytes first rest ++ [newline]) where
  text := by
    rw [objectBytes_eq]
    exact (frameText_members (fun m hm => ⟨(h m hm).1.frameText, (h m hm).2.frameText⟩)
      (frameText_word rfl)).append (frameText_word rfl)
  line := by
    refine ⟨_, rfl, fun hnl => ?_, rfl, ?_, ?_⟩
    · obtain ⟨m, hm, hnl | hnl⟩ := (mem_objectBytes (by decide)).1 hnl
      · exact (h m hm).1.newline_notMem hnl
      · exact (h m hm).2.newline_notMem hnl
    · rw [fromUtf8_objectBytes]
      exact objectText_getLast? _ _
    · rw [fromUtf8_objectBytes]
      refine group_objectText fun m hm => ?_
      rw [← List.map_cons] at hm
      obtain ⟨m', hm', rfl⟩ := List.mem_map.1 hm
      exact ⟨(h m' hm').1.plainText.1, (h m' hm').2.plainText.1⟩

/-- The bytes of an object whose last member is a number. -/
def levelObjectBytes (first : Bytes × Bytes) (rest : List (Bytes × Bytes)) (key : Bytes)
    (n : ℤ) : Bytes :=
  [123] ++ (memberBytes first ++ (restBytes rest ++
    ([44, 34] ++ (key ++ ([34, 58] ++ (intDec n ++ [125]))))))

theorem fromUtf8_digits {s : Bytes} {t : List Char} (ht : ∀ c ∈ t, c.toNat < 0x80)
    (hs : s = t.map Char.toUInt8) : fromUtf8 s = t := by
  induction t generalizing s with
  | nil => rw [hs]; rfl
  | cons c t ih =>
    have hc := ht c (by simp)
    have hnat : c.toUInt8.toNat = c.toNat := by
      change c.toNat % 256 = c.toNat
      exact Nat.mod_eq_of_lt (by omega)
    have hlt : c.toUInt8 < 0x80 := by
      rw [UInt8.lt_iff_toNat_lt, hnat]
      exact hc
    rw [hs, List.map_cons, fromUtf8_cons hlt, hnat, Char.ofNat_toNat,
      ih (fun d hd => ht d (by simp [hd])) rfl]

theorem intDec_eq_map (n : ℤ) : intDec n = (decimal n).map Char.toUInt8 := by
  unfold intDec decimal natDec
  split_ifs <;> rfl

theorem decimal_ascii (n : ℤ) : ∀ c ∈ decimal n, c.toNat < 0x80 := by
  intro c hc
  rcases isDigit_decimal n c hc with rfl | hdigit
  · decide
  · simp only [Char.isDigit, Bool.and_eq_true, decide_eq_true_eq] at hdigit
    have : c.toNat ≤ 57 := UInt32.le_iff_toNat_le.1 hdigit.2
    omega

theorem fromUtf8_intDec (n : ℤ) : fromUtf8 (intDec n) = decimal n :=
  fromUtf8_digits (decimal_ascii n) (intDec_eq_map n)

theorem fromUtf8_restBytes (rest : List (Bytes × Bytes)) (tail : Bytes) :
    fromUtf8 (restBytes rest ++ tail) = restText (rest.map decoded) ++ fromUtf8 tail := by
  induction rest with
  | nil => rfl
  | cons m rest ih =>
    have htext : restBytes (m :: rest) ++ tail =
        44 :: (memberBytes m ++ (restBytes rest ++ tail)) := by simp [restBytes]
    rw [htext, fromUtf8_cons (by decide), fromUtf8_memberBytes, ih]
    simp [restText]

theorem fromUtf8_levelObjectBytes (first : Bytes × Bytes) (rest : List (Bytes × Bytes))
    (key : Bytes) (n : ℤ) :
    fromUtf8 (levelObjectBytes first rest key n) =
      levelObjectText (decoded first) (rest.map decoded) (fromUtf8 key) n := by
  have hclose (s : Bytes) : fromUtf8 (s ++ [125]) = fromUtf8 s ++ ['}'] :=
    fromUtf8_append (by decide) s []
  have hquote (s t : Bytes) : fromUtf8 (s ++ 34 :: t) = fromUtf8 s ++ '"' :: fromUtf8 t :=
    fromUtf8_append (by decide) s t
  have hbrace (s : Bytes) : fromUtf8 (123 :: s) = '{' :: fromUtf8 s := fromUtf8_cons (by decide) s
  have hcomma (s : Bytes) : fromUtf8 (44 :: s) = ',' :: fromUtf8 s := fromUtf8_cons (by decide) s
  have hcolon (s : Bytes) : fromUtf8 (58 :: s) = ':' :: fromUtf8 s := fromUtf8_cons (by decide) s
  have hopen (s : Bytes) : fromUtf8 (34 :: s) = '"' :: fromUtf8 s := fromUtf8_cons (by decide) s
  have hlevel : fromUtf8 ([44, 34] ++ (key ++ ([34, 58] ++ (intDec n ++ [125])))) =
      [',', '"'] ++ (fromUtf8 key ++ (['"', ':'] ++ (decimal n ++ ['}']))) := by
    simp only [List.cons_append, List.nil_append, hcomma, hopen, hquote, hcolon, hclose,
      fromUtf8_intDec]
  rw [levelObjectBytes, List.singleton_append, hbrace, fromUtf8_memberBytes, fromUtf8_restBytes,
    hlevel]
  rfl

theorem intDec_plain (n : ℤ) : ∀ c ∈ intDec n, c ≠ 0 ∧ c ≠ 34 ∧ c ≠ 92 ∧ c ≠ newline := by
  intro c hc
  rw [intDec_eq_map] at hc
  obtain ⟨d, hd, rfl⟩ := List.mem_map.1 hc
  have hne {e : Char} (he : e.isDigit = false) (hminus : e ≠ '-') (hlt : e.toNat < 0x80) :
      d.toUInt8 ≠ e.toUInt8 := by
    intro heq
    refine notMem_decimal n he hminus ?_
    have hnat : d.toNat % 256 = e.toNat % 256 := congrArg UInt8.toNat heq
    have hd' := decimal_ascii n d hd
    rw [Nat.mod_eq_of_lt (by omega), Nat.mod_eq_of_lt (by omega)] at hnat
    rwa [← Char.ofNat_toNat d, hnat, Char.ofNat_toNat] at hd
  exact ⟨hne (e := Char.ofNat 0) (by decide) (by decide) (by decide),
    hne (e := '"') (by decide) (by decide) (by decide),
    hne (e := '\\') (by decide) (by decide) (by decide),
    hne (e := '\n') (by decide) (by decide) (by decide)⟩

theorem levelObjectText_getLast? (first : QString × QString) (rest : List (QString × QString))
    (key : QString) (n : ℤ) : (levelObjectText first rest key n).getLast? = some '}' := by
  simp only [levelObjectText, List.getLast?_append]
  rfl

/-- So is one that ends in a number. -/
theorem wholeFrame_levelObjectBytes {first : Bytes × Bytes} {rest : List (Bytes × Bytes)}
    (h : ∀ m ∈ first :: rest, LineField m.1 ∧ LineField m.2) {key : Bytes} (hkey : LineField key)
    (n : ℤ) : WholeFrame (levelObjectBytes first rest key n ++ [newline]) where
  text := by
    have hdec : FrameText (intDec n) := frameText_of fun c hc =>
      ⟨(intDec_plain n c hc).1, (intDec_plain n c hc).2.2.1⟩
    exact (frameText_members (fun m hm => ⟨(h m hm).1.frameText, (h m hm).2.frameText⟩)
      ((frameText_word rfl).append (hkey.frameText.append ((frameText_word rfl).append
        (hdec.append (frameText_word rfl)))))).append (frameText_word rfl)
  line := by
    refine ⟨_, rfl, fun hnl => ?_, rfl, ?_, ?_⟩
    · have hmember (m : Bytes × Bytes) (hm : m ∈ first :: rest) : newline ∉ memberBytes m := by
        rw [mem_memberBytes (by decide) (by decide), not_or]
        exact ⟨(h m hm).1.newline_notMem, (h m hm).2.newline_notMem⟩
      have hrest : newline ∉ restBytes rest := by
        intro hmem
        obtain ⟨m, hm, hmem⟩ := List.mem_flatMap.1 hmem
        rcases List.mem_cons.1 hmem with hmem | hmem
        · exact absurd hmem (by decide)
        · exact hmember m (by simp [hm]) hmem
      have hdec : newline ∉ intDec n := fun hmem => (intDec_plain n _ hmem).2.2.2 rfl
      have hfirst := hmember first (by simp)
      have hkey' := hkey.newline_notMem
      have hpunct : newline ∉ ([123] : Bytes) ∧ newline ∉ ([44, 34] : Bytes) ∧
          newline ∉ ([34, 58] : Bytes) ∧ newline ∉ ([125] : Bytes) := by decide
      simp only [levelObjectBytes, List.mem_append] at hnl
      tauto
    · rw [fromUtf8_levelObjectBytes]
      exact levelObjectText_getLast? _ _ _ _
    · rw [fromUtf8_levelObjectBytes]
      refine group_levelObjectText (fun m hm => ?_) hkey.plainText.1 n
      rw [← List.map_cons] at hm
      obtain ⟨m', hm', rfl⟩ := List.mem_map.1 hm
      exact ⟨(h m' hm').1.plainText.1, (h m' hm').2.plainText.1⟩

/-! ### Frames that name no type of reply -/

/-- Two texts between quotes with one text between them. -/
def namesType (kind : String) (pieces : List Bytes) : Bool :=
  (pieces.zip (pieces.drop 2)).any (· == (ascii "type", ascii kind))

theorem namesType_of_typePiece {kind : String} {pieces : List Bytes}
    (h : TypePiece kind pieces) : namesType kind pieces = true := by
  induction pieces with
  | nil => exact h.elim
  | cons a pieces ih =>
    rcases pieces with _ | ⟨gap, _ | ⟨b, rest⟩⟩
    · exact h.elim
    · exact h.elim
    · have hcons : namesType kind (a :: gap :: b :: rest) =
          ((a, b) == (ascii "type", ascii kind) || namesType kind (gap :: b :: rest)) := by
        simp [namesType]
      rw [hcons, Bool.or_eq_true]
      rcases h with ⟨rfl, -, rfl⟩ | h
      · exact .inl (by simp)
      · exact .inr (ih h)

/-- A closed frame can be asked for its type. -/
theorem not_tagged_of {kind : String} (hkind : (34 : UInt8) ∉ ascii kind) {f : Bytes}
    (h : namesType kind (splitLines 34 f).1.tail = false) : ¬ Tagged kind f := by
  intro htagged
  rw [namesType_of_typePiece (typePiece_of_tagged hkind htagged)] at h
  exact absurd h (by simp)

theorem snprintf_isPrefix (n : ℕ) (f : Bytes) : snprintf n f <+: f := List.take_prefix _ _

/-- A cut frame opens as the whole does, and names no more. -/
theorem OpenFrame.snprintf {n : ℕ} (hn : 1 < n) {f : Bytes} (h : OpenFrame f) :
    OpenFrame (CLib.snprintf n f) where
  text := h.text.of_isInfix (snprintf_isPrefix n f).isInfix
  brace := by
    obtain ⟨rest, rfl⟩ := List.head?_eq_some_iff.1 h.brace
    obtain ⟨m, rfl⟩ : ∃ m, n = m + 2 := ⟨n - 2, by omega⟩
    rfl

/-- A frame that does not name the type. -/
structure Silent (kind : String) (f : Bytes) : Prop where
  openFrame : OpenFrame f
  not_tagged : ¬ Tagged kind f

theorem Silent.snprintf {kind : String} {n : ℕ} (hn : 1 < n) {f : Bytes} (h : Silent kind f) :
    Silent kind (CLib.snprintf n f) where
  openFrame := h.openFrame.snprintf hn
  not_tagged htagged := h.not_tagged (htagged.of_isInfix (snprintf_isPrefix n f).isInfix)

/-- The two types of replies. -/
def replyKinds : List String := ["login", "register"]

theorem replyKinds_plain : ∀ kind ∈ replyKinds,
    (34 : UInt8) ∉ ascii kind ∧ (123 : UInt8) ∉ ascii kind ∧ kind ≠ "message" := by
  decide +kernel

/-- An object of another type does not name this one in its fields. -/
theorem silent_object {kind : String} (hkind : kind ∈ replyKinds) {type : String}
    (hne : ascii type ≠ ascii kind) {rest : List (Bytes × Bytes)}
    (hrest : ∀ m ∈ rest, m.1 ≠ ascii "type")
    (hfields : ∀ m ∈ (ascii "type", ascii type) :: rest, FieldText m.1 ∧ FieldText m.2) :
    Silent kind (objectBytes (ascii "type", ascii type) rest ++ [newline]) := by
  have htext : objectBytes (ascii "type", ascii type) rest ++ [newline] =
      [123] ++ (memberBytes (ascii "type", ascii type) ++ (restBytes rest ++ [125, newline])) := by
    simp [objectBytes_eq]
  rw [htext]
  refine ⟨⟨?_, rfl⟩, fun htagged => ?_⟩
  · exact frameText_members
      (fun m hm => ⟨(hfields m hm).1.frameText, (hfields m hm).2.frameText⟩)
      (frameText_word rfl)
  · have hmem := tagged_members (replyKinds_plain kind hkind).1
      (fun m hm => ⟨(hfields m hm).1.quote_notMem, (hfields m hm).2.quote_notMem⟩)
      (by decide) htagged
    rcases List.mem_cons.1 hmem with heq | hmem
    · exact hne (Prod.ext_iff.1 heq).2.symm
    · exact hrest _ hmem rfl

theorem fieldText_of {s : Bytes} (h : ∀ c ∈ s, c ≠ 0 ∧ c ≠ 34 ∧ c ≠ 92) : FieldText s where
  nulFree hc := (h 0 hc).1 rfl
  quote_notMem hc := (h 34 hc).2.1 rfl
  backslash_notMem hc := (h 92 hc).2.2 rfl

theorem fieldText_word {s : Bytes} (h : s.all isPlain = true) : FieldText s :=
  (lineField_word h).toFieldText

end Mesh
