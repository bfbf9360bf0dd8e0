import MeshMessenger.Client.ChatClient
import MeshMessenger.Lib.Runs

/-! The client on the bytes it receives: in whatever pieces they arrive, a whole line is
handled once, an object with string members is read back, and a line that ends within a
string gives nothing. -/

namespace Mesh

open CLib Lines

/-! ### Delivery -/

theorem handleObject_buffer (client : ChatClient) (buffer : Bytes) (object : JsonObject) :
    handleObject { client with buffer := buffer } object =
      ({ (handleObject client object).1 with buffer := buffer },
        (handleObject client object).2) := by
  simp only [handleObject]
  split_ifs <;> rfl

theorem handleLine_buffer (J : JsonReader) (client : ChatClient) (buffer line : Bytes) :
    handleLine J { client with buffer := buffer } line =
      ({ (handleLine J client line).1 with buffer := buffer }, (handleLine J client line).2) := by
  simp only [handleLine]
  split_ifs
  · cases J.fromJson (trimmed (decodeLine line)) with
    | none => rfl
    | some object => exact handleObject_buffer client buffer object
  · rfl

theorem handleLines_buffer (J : JsonReader) (client : ChatClient) (buffer : Bytes)
    (lines : List Bytes) :
    handleLines J { client with buffer := buffer } lines =
      ({ (handleLines J client lines).1 with buffer := buffer },
        (handleLines J client lines).2) := by
  induction lines generalizing client with
  | nil => rfl
  | cons line lines ih =>
    simp only [handleLines]
    rw [handleLine_buffer J client buffer]
    simp only
    rw [ih (handleLine J client line).1]

theorem handleLines_append (J : JsonReader) (client : ChatClient) (lines more : List Bytes) :
    handleLines J client (lines ++ more) =
      ((handleLines J (handleLines J client lines).1 more).1,
        (handleLines J client lines).2 ++
          (handleLines J (handleLines J client lines).1 more).2) := by
  induction lines generalizing client with
  | nil => rfl
  | cons line lines ih => simp only [List.cons_append, handleLines, ih, List.append_assoc]

theorem onReadyRead_append (J : JsonReader) (client : ChatClient) (data more : Bytes) :
    onReadyRead J client (data ++ more) =
      ((onReadyRead J (onReadyRead J client data).1 more).1,
        (onReadyRead J client data).2 ++ (onReadyRead J (onReadyRead J client data).1 more).2) := by
  have hstep (client : ChatClient) (data : Bytes) : onReadyRead J client data =
      let split := splitLines newline (client.buffer ++ data)
      let handled := handleLines J client (split.1.map (· ++ [newline]))
      ({ handled.1 with buffer := split.2 }, handled.2) := handleLines_buffer J client _ _
  rw [hstep client, hstep client, ← List.append_assoc, splitLines_append (client.buffer ++ data)]
  simp only [List.map_append, handleLines_append]
  rw [hstep]
  simp only
  generalize handleLines J client _ = first
  rw [handleLines_buffer J first.1 (splitLines newline (client.buffer ++ data)).2]

/-- In whatever pieces a text arrives, the client's signals are those of the whole. -/
theorem onReadyRead_pieces (J : JsonReader) (client : ChatClient) {pieces : List Bytes}
    (hne : pieces ≠ []) :
    Runs.run (onReadyRead J) client pieces = onReadyRead J client pieces.flatten := by
  obtain ⟨piece, pieces, rfl⟩ := List.exists_cons_of_ne_nil hne
  induction pieces generalizing client piece with
  | nil => simp [Runs.run_cons]
  | cons next pieces ih =>
    have hflat : (piece :: next :: pieces).flatten = piece ++ (next :: pieces).flatten := rfl
    rw [Runs.run_cons, ih _ next (by simp), hflat, onReadyRead_append]

/-- A whole line that arrives at an empty buffer is handled as it is. -/
theorem onReadyRead_line (J : JsonReader) {client : ChatClient} (hbuffer : client.buffer = [])
    {l : Bytes} (hl : newline ∉ l) :
    (onReadyRead J client (l ++ [newline])).2 = (handleLine J client (l ++ [newline])).2 := by
  simp only [onReadyRead, hbuffer, List.nil_append, splitLines_line hl []]
  simp [splitLines, handleLines, handleLine_buffer]

/-! ### Fields -/

/-- Bytes that can stand between quotes in a frame. -/
structure FieldText (s : Bytes) : Prop where
  nulFree : NulFree s
  quote_notMem : (34 : UInt8) ∉ s
  backslash_notMem : (92 : UInt8) ∉ s

theorem rdropWhile_append_of_last {p : Char → Bool} {s : QString} {c : Char}
    (hlast : s.getLast? = some c) (hc : p c = false) (t : QString) :
    (s ++ t).rdropWhile p = s ++ t.rdropWhile p := by
  induction t using List.reverseRecOn with
  | nil =>
    obtain ⟨s, rfl⟩ := List.getLast?_eq_some_iff.1 hlast
    rw [List.append_nil, List.rdropWhile_concat_neg p s c (by simp [hc]), List.rdropWhile_nil,
      List.append_nil]
  | append_singleton t d ih =>
    rw [← List.append_assoc, List.rdropWhile_concat, List.rdropWhile_concat, ih]
    split_ifs
    · rfl
    · rw [List.append_assoc]

theorem trimmed_append {s : QString} {b c : Char} (hfirst : s.head? = some b)
    (hb : isQSpace b = false) (hlast : s.getLast? = some c) (hc : isQSpace c = false)
    (t : QString) :
    trimmed (s ++ t) = s ++ t.rdropWhile isQSpace := by
  have hdrop : (s ++ t).dropWhile isQSpace = s ++ t := by
    obtain ⟨s, rfl⟩ := List.head?_eq_some_iff.1 hfirst
    rw [List.cons_append, List.dropWhile_cons_of_neg (by simp [hb])]
  rw [trimmed, hdrop, rdropWhile_append_of_last hlast hc]

theorem decodeLine_eq {bytes : Bytes} (hnul : NulFree bytes) (hhead : bytes.head? = some 123) :
    decodeLine bytes = fromUtf8 bytes := by
  obtain ⟨rest, rfl⟩ := List.head?_eq_some_iff.1 hhead
  rw [decodeLine, cstr_of_nulFree hnul]
  rfl

theorem FieldText.of_isPrefix {s t : Bytes} (h : FieldText t) (hs : s <+: t) : FieldText s :=
  ⟨h.nulFree.of_sublist hs.sublist, fun hc => h.quote_notMem (hs.subset hc),
    fun hc => h.backslash_notMem (hs.subset hc)⟩

/-- A field that does not break its line either. -/
structure LineField (s : Bytes) : Prop extends FieldText s where
  newline_notMem : newline ∉ s

theorem lineField_of {s : Bytes} (h : ∀ c ∈ s, c ≠ 0 ∧ c ≠ 34 ∧ c ≠ 92 ∧ c ≠ newline) :
    LineField s where
  nulFree hc := (h 0 hc).1 rfl
  quote_notMem hc := (h 34 hc).2.1 rfl
  backslash_notMem hc := (h 92 hc).2.2.1 rfl
  newline_notMem hc := (h newline hc).2.2.2 rfl

def isPlain (c : UInt8) : Bool := c != 0 && c != 34 && c != 92 && c != newline

theorem lineField_word {s : Bytes} (h : s.all isPlain = true) : LineField s := by
  refine lineField_of fun c hc => ?_
  have hplain := List.all_eq_true.1 h c hc
  simpa [isPlain, and_assoc] using hplain

theorem LineField.plainText {s : Bytes} (h : LineField s) : PlainText (fromUtf8 s) :=
  ⟨fun hc => h.quote_notMem (mem_fromUtf8 (by decide) hc),
    fun hc => h.backslash_notMem (mem_fromUtf8 (by decide) hc),
    fun hc => h.newline_notMem (mem_fromUtf8 (by decide) hc)⟩

/-! ### The line of an object -/

theorem membersTail_getLast? (rest : List (QString × QString)) :
    (membersTail rest).getLast? = some '}' := by
  induction rest with
  | nil => rfl
  | cons m rest ih => rw [membersTail, List.getLast?_append, List.getLast?_append, ih]; rfl

theorem objectText_getLast? (first : QString × QString) (rest : List (QString × QString)) :
    (objectText first rest).getLast? = some '}' := by
  rw [objectText, List.getLast?_append, List.getLast?_append, membersTail_getLast?]
  rfl

/-- An object of one type is of no other. -/
theorem type_ne {object : JsonObject} {kind other : QString}
    (htype : object "type".toList = .string kind) (hne : kind ≠ other) :
    (object "type".toList).toString ≠ other := by
  rw [htype]
  exact hne

/-- A line from brace to brace is read as it stands. -/
theorem handleLine_braces (J : JsonReader) (client : ChatClient) {bytes : Bytes} {text : QString}
    (hhead : text.head? = some '{') (hlast : text.getLast? = some '}')
    (hdecode : decodeLine bytes = text ++ ['\n']) {object : JsonObject}
    (hread : J.fromJson text = some object) :
    handleLine J client bytes = handleObject client object := by
  have hline : trimmed (decodeLine bytes) = text := by
    rw [hdecode, trimmed_append hhead (by decide) hlast (by decide), List.rdropWhile_singleton,
      if_pos (by decide), List.append_nil]
  simp only [handleLine, hline, hhead, if_true, hread]

def memberBytes (member : Bytes × Bytes) : Bytes :=
  [34] ++ (member.1 ++ ([34, 58, 34] ++ (member.2 ++ [34])))

def membersTailBytes : List (Bytes × Bytes) → Bytes
  | [] => [125]
  | member :: rest => [44] ++ (memberBytes member ++ membersTailBytes rest)

/-- An object with string members, before it is decoded. -/
def objectBytes (first : Bytes × Bytes) (rest : List (Bytes × Bytes)) : Bytes :=
  [123] ++ (memberBytes first ++ membersTailBytes rest)

/-- A member as the client decodes it. -/
def decoded (member : Bytes × Bytes) : QString × QString :=
  (fromUtf8 member.1, fromUtf8 member.2)

theorem fromUtf8_memberBytes (member : Bytes × Bytes) (tail : Bytes) :
    fromUtf8 (memberBytes member ++ tail) = memberText (decoded member) ++ fromUtf8 tail := by
  have hopen (s : Bytes) : fromUtf8 (34 :: s) = '"' :: fromUtf8 s := fromUtf8_cons (by decide) s
  have hquote (s t : Bytes) : fromUtf8 (s ++ 34 :: t) = fromUtf8 s ++ '"' :: fromUtf8 t :=
    fromUtf8_append (by decide) s t
  have hcolon (s : Bytes) : fromUtf8 (58 :: s) = ':' :: fromUtf8 s := fromUtf8_cons (by decide) s
  simp only [memberBytes, memberText, decoded, List.append_assoc, List.cons_append,
    List.nil_append, hopen, hquote, hcolon]

theorem fromUtf8_membersTailBytes (rest : List (Bytes × Bytes)) :
    fromUtf8 (membersTailBytes rest) = membersTail (rest.map decoded) := by
  induction rest with
  | nil => decide +kernel
  | cons m rest ih =>
    have hcomma (s : Bytes) : fromUtf8 (44 :: s) = ',' :: fromUtf8 s :=
      fromUtf8_cons (by decide) s
    rw [membersTailBytes, List.singleton_append, hcomma, fromUtf8_memberBytes, ih]
    rfl

theorem fromUtf8_objectBytes (first : Bytes × Bytes) (rest : List (Bytes × Bytes)) :
    fromUtf8 (objectBytes first rest) = objectText (decoded first) (rest.map decoded) := by
  have hbrace (s : Bytes) : fromUtf8 (123 :: s) = '{' :: fromUtf8 s := fromUtf8_cons (by decide) s
  rw [objectBytes, List.singleton_append, hbrace, fromUtf8_memberBytes, fromUtf8_membersTailBytes]
  rfl

theorem mem_memberBytes {member : Bytes × Bytes} {c : UInt8} (h34 : c ≠ 34) (h58 : c ≠ 58) :
    c ∈ memberBytes member ↔ c ∈ member.1 ∨ c ∈ member.2 := by
  simp [memberBytes, h34, h58]

theorem mem_membersTailBytes {rest : List (Bytes × Bytes)} {c : UInt8}
    (hc : c ∉ ([34, 44, 58, 123, 125] : Bytes)) :
    c ∈ membersTailBytes rest ↔ ∃ m ∈ rest, c ∈ m.1 ∨ c ∈ m.2 := by
  simp only [List.mem_cons, List.not_mem_nil, or_false, not_or] at hc
  obtain ⟨h34, h44, h58, -, h125⟩ := hc
  induction rest with
  | nil => simp [membersTailBytes, h125]
  | cons m rest ih => simp [membersTailBytes, mem_memberBytes h34 h58, ih, h44]

/-- A byte that is no punctuation of the object stands in a field. -/
theorem mem_objectBytes {first : Bytes × Bytes} {rest : List (Bytes × Bytes)} {c : UInt8}
    (hc : c ∉ ([34, 44, 58, 123, 125] : Bytes)) :
    c ∈ objectBytes first rest ↔ ∃ m ∈ first :: rest, c ∈ m.1 ∨ c ∈ m.2 := by
  have hne := hc
  simp only [List.mem_cons, List.not_mem_nil, or_false, not_or] at hne
  obtain ⟨h34, -, h58, h123, -⟩ := hne
  simp [objectBytes, mem_memberBytes h34 h58, mem_membersTailBytes hc, h123]

/-- The client reads an object's line as the object. -/
theorem handleLine_objectBytes (J : JsonReader) (client : ChatClient) {first : Bytes × Bytes}
    {rest : List (Bytes × Bytes)}
    (hfields : ∀ m ∈ first :: rest, LineField m.1 ∧ LineField m.2)
    (hkeys : ((first :: rest).map fun m => fromUtf8 m.1).Nodup) :
    ∃ object, handleLine J client (objectBytes first rest ++ [newline]) =
        handleObject client object ∧
      ∀ m ∈ first :: rest, object (fromUtf8 m.1) = .string (fromUtf8 m.2) := by
  have hnul : NulFree (objectBytes first rest ++ [newline]) := by
    refine NulFree.append (fun h0 => ?_) (by unfold NulFree; decide)
    obtain ⟨m, hm, h0 | h0⟩ := (mem_objectBytes (by decide)).1 h0
    · exact (hfields m hm).1.nulFree h0
    · exact (hfields m hm).2.nulFree h0
  have hdecode : decodeLine (objectBytes first rest ++ [newline]) =
      objectText (decoded first) (rest.map decoded) ++ ['\n'] := by
    rw [decodeLine_eq hnul rfl, fromUtf8_append (by decide), fromUtf8_objectBytes]
    rfl
  obtain ⟨object, hread, hvalue⟩ := J.reads (decoded first) (rest.map decoded) (by
    rw [← List.map_cons]
    intro m' hm'
    obtain ⟨m, hm, rfl⟩ := List.mem_map.1 hm'
    exact ⟨(hfields m hm).1.plainText, (hfields m hm).2.plainText⟩) (by
    rw [← List.map_cons, List.map_map]
    exact hkeys)
  refine ⟨object, handleLine_braces J client rfl (objectText_getLast? _ _) hdecode hread,
    fun m hm => ?_⟩
  exact hvalue (decoded m) (by rw [← List.map_cons]; exact List.mem_map_of_mem hm)

/-! ### A line that ends within a string -/

theorem count_rdropWhile {p : Char → Bool} {c : Char} (hc : p c = false) (s : QString) :
    (s.rdropWhile p).count c = s.count c := by
  induction s using List.reverseRecOn with
  | nil => rfl
  | append_singleton s d ih =>
    rw [List.rdropWhile_concat]
    split_ifs with hd
    · have hne : d ≠ c := by
        rintro rfl
        rw [hc] at hd
        exact absurd hd (by simp)
      rw [ih, List.count_append, List.count_singleton, beq_false_of_ne hne]
      simp
    · rfl

/-- Decoding keeps the quotes. -/
theorem count_fromUtf8 (s : Bytes) : (fromUtf8 s).count '"' = s.count 34 := by
  have hnone {s : Bytes} (hs : (34 : UInt8) ∉ s) : (fromUtf8 s).count '"' = 0 :=
    List.count_eq_zero.2 fun hc => hs (mem_fromUtf8 (by decide) hc)
  induction hn : s.count 34 generalizing s with
  | zero => exact hnone (List.count_eq_zero.1 hn)
  | succ n ih =>
    have hmem : (34 : UInt8) ∈ s := List.count_pos_iff.1 (by omega)
    obtain ⟨a, b, rfl, ha⟩ := List.eq_append_cons_of_mem hmem
    rw [List.count_append, List.count_cons_self, List.count_eq_zero.2 ha] at hn
    rw [fromUtf8_append (by decide), List.count_append, hnone ha, Nat.zero_add]
    change ('"' :: fromUtf8 b).count '"' = n + 1
    rw [List.count_cons_self, ih b (by omega)]

/-- A line that opens an object and ends within one of its strings gives no signal. -/
theorem handleLine_unclosed (J : JsonReader) (client : ChatClient) {bytes : Bytes}
    (hnul : NulFree bytes) (hhead : bytes.head? = some 123) (hbackslash : (92 : UInt8) ∉ bytes)
    (hodd : bytes.count 34 % 2 = 1) : (handleLine J client bytes).2 = [] := by
  obtain ⟨rest, rfl⟩ := List.head?_eq_some_iff.1 hhead
  have hline : trimmed (decodeLine (123 :: rest)) =
      '{' :: (fromUtf8 rest).rdropWhile isQSpace := by
    rw [decodeLine_eq hnul rfl, fromUtf8_cons (by decide)]
    exact trimmed_append (s := ['{']) rfl (by decide) rfl (by decide) (fromUtf8 rest)
  have hnull : J.fromJson ('{' :: (fromUtf8 rest).rdropWhile isQSpace) = none := by
    apply J.unclosed
    · rw [List.mem_cons, not_or]
      refine ⟨by decide, fun hc => hbackslash (List.mem_cons_of_mem _ ?_)⟩
      exact mem_fromUtf8 (c := '\\') (by decide) ((List.rdropWhile_prefix _ _).subset hc)
    · have hcount := count_rdropWhile (c := '"') (by decide : isQSpace '"' = false) (fromUtf8 rest)
      rw [List.count_cons_of_ne (by decide)] at hodd ⊢
      rw [hcount, count_fromUtf8, hodd]
  simp [handleLine, hline, hnull]

end Mesh
