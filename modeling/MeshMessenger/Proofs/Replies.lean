import MeshMessenger.Client.Chat
import MeshMessenger.Client.JsonNesting

/-! Which lines a client takes for replies. A line that gives a signal of some type has
that type between quotes in it, so that it holds a frame of that type whole; and what
stands before such a frame on its line makes the line no object. -/

namespace Mesh

open CLib Lines Nesting

/-- The bytes name their type: the key `type` and this string after it. -/
def Tagged (kind : String) (s : Bytes) : Prop :=
  ∃ before gap after, IsColon (fromUtf8 gap) ∧
    s = before ++ 34 :: (ascii "type" ++ 34 :: (gap ++ 34 :: (ascii kind ++ 34 :: after)))

/-- The type of the objects that give a signal. -/
def ClientEvent.kind : ClientEvent → String
  | registrationSuccess _ _ => "register"
  | registrationFailed _ => "register"
  | loginSuccess _ => "login"
  | loginFailed _ => "login"
  | messageReceived _ _ => "message"
  | privateMessageReceived _ _ _ => "private"
  | encryptedMessageReceived _ _ _ => "encrypted"
  | onlineUsersReceived _ => "online"
  | helpReceived _ => "help"
  | p2pConnectionInitiated _ _ => "p2p_initiated"

/-! ### The type in the text -/

theorem handleObject_kind {client : ChatClient} {object : JsonObject} {e : ClientEvent}
    (h : e ∈ (handleObject client object).2) :
    (object "type".toList).toString = e.kind.toList := by
  unfold handleObject at h
  simp only at h
  split_ifs at h with h1 h2 h3 h4 h5 h6 h7 h8 h9 h10 <;>
    simp only [List.mem_singleton, List.not_mem_nil] at h <;> subst h <;> assumption

theorem ascii_of_all {t : QString} (h : t.all (fun c => decide (c.toNat < 0x80)) = true) :
    ∀ c ∈ t, c.toNat < 0x80 := by simpa using h

theorem kind_text (e : ClientEvent) :
    e.kind.toList ≠ [] ∧ ∀ c ∈ e.kind.toList, c.toNat < 0x80 := by
  refine ⟨?_, ascii_of_all ?_⟩ <;> cases e <;> simp only [ClientEvent.kind] <;> decide

/-- A signal that is no plain message comes from an object that names its type. -/
theorem handleLine_object {J : StrictReader} {client : ChatClient} {bytes : Bytes}
    {e : ClientEvent} (h : e ∈ (handleLine J.toJsonReader client bytes).2)
    (hkind : e.kind ≠ "message") :
    ∃ object, (trimmed (decodeLine bytes)).head? = some '{' ∧
      J.fromJson (trimmed (decodeLine bytes)) = some object ∧
      object "type".toList = .string e.kind.toList ∧
      (handleLine J.toJsonReader client bytes).2 = (handleObject client object).2 := by
  unfold handleLine at h
  simp only at h
  split_ifs at h with hbrace
  · cases hread : J.fromJson (trimmed (decodeLine bytes)) with
    | none => simp [hread] at h
    | some object =>
      simp only [hread] at h
      have htype := handleObject_kind h
      refine ⟨object, hbrace, rfl, ?_, by simp [handleLine, hbrace, hread]⟩
      cases hvalue : object "type".toList with
      | string s => rw [hvalue] at htype; rw [← htype]; rfl
      | array values => rw [hvalue] at htype; exact absurd htype.symm (kind_text e).1
      | other => rw [hvalue] at htype; exact absurd htype.symm (kind_text e).1
  · simp only [List.mem_singleton] at h
    subst h
    exact absurd rfl hkind

theorem isColon_brace {gap : QString} (h : IsColon gap) : '{' ∉ gap := by
  obtain ⟨w, w', rfl, hw, hw'⟩ := h
  intro hc
  rcases List.mem_append.1 hc with hc | hc
  · exact absurd (hw _ hc) (by decide)
  · rcases List.mem_cons.1 hc with hc | hc
    · exact absurd hc (by decide)
    · exact absurd (hw' _ hc) (by decide)

/-- The type that a decoded text names is named in its bytes. -/
theorem tagged_of_named {s : Bytes} {kind : String} (hkind : ∀ c ∈ kind.toList, c.toNat < 0x80)
    (h : Named "type".toList kind.toList (fromUtf8 s)) : Tagged kind s := by
  have hquote : ('"' : Char).toNat < 0x80 := by decide
  obtain ⟨before, gap, after, hgap, heq⟩ := h
  obtain ⟨s₁, s₂, rfl, -, h2⟩ := fromUtf8_eq_append hquote heq
  obtain ⟨key, s₃, rfl, hkey, h3⟩ := fromUtf8_eq_append hquote h2
  obtain ⟨g, s₄, rfl, hg, h4⟩ := fromUtf8_eq_append hquote h3
  obtain ⟨value, s₅, rfl, hvalue, -⟩ := fromUtf8_eq_append hquote h4
  refine ⟨s₁, g, s₅, hg ▸ hgap, ?_⟩
  rw [eq_of_fromUtf8_ascii (ascii_of_all (by decide)) hkey, eq_of_fromUtf8_ascii hkind hvalue]
  rfl

theorem Named.of_isInfix {key value s t : QString} (h : Named key value s) (hs : s <:+: t) :
    Named key value t := by
  obtain ⟨before, gap, after, hgap, rfl⟩ := h
  obtain ⟨l, r, rfl⟩ := hs
  exact ⟨l ++ before, gap, after ++ r, hgap, by simp⟩

theorem Tagged.of_isInfix {kind : String} {s t : Bytes} (h : Tagged kind s) (hs : s <:+: t) :
    Tagged kind t := by
  obtain ⟨before, gap, after, hgap, rfl⟩ := h
  obtain ⟨l, r, rfl⟩ := hs
  exact ⟨l ++ before, gap, after ++ r, hgap, by simp⟩

/-- What a line decodes to is what its bytes do, perhaps without a byte order mark. -/
theorem decodeLine_suffix {bytes : Bytes} (hnul : NulFree bytes) :
    ∃ s, s <:+ bytes ∧ decodeLine bytes = fromUtf8 s := by
  rw [decodeLine, cstr_of_nulFree hnul]
  split
  · next rest => exact ⟨rest, ⟨[0xEF, 0xBB, 0xBF], rfl⟩, rfl⟩
  · exact ⟨bytes, List.suffix_refl _, rfl⟩

theorem trimmed_isInfix (s : QString) : trimmed s <:+: s :=
  (List.rdropWhile_prefix _ _).isInfix.trans (List.dropWhile_suffix _).isInfix

theorem tagged_of_signal {J : StrictReader} {client : ChatClient} {bytes : Bytes}
    (hnul : NulFree bytes) (hbackslash : (92 : UInt8) ∉ bytes) {e : ClientEvent}
    (h : e ∈ (handleLine J.toJsonReader client bytes).2) (hkind : e.kind ≠ "message") :
    Tagged e.kind bytes := by
  obtain ⟨object, -, hread, htype, -⟩ := handleLine_object h hkind
  obtain ⟨s, hs, hdecode⟩ := decodeLine_suffix hnul
  have hplain : '\\' ∉ trimmed (decodeLine bytes) := by
    intro hc
    have hmem := (trimmed_isInfix _).subset hc
    rw [hdecode] at hmem
    exact hbackslash (hs.subset (mem_fromUtf8 (by decide) hmem))
  have hnamed := J.named _ object _ _ hplain hread htype
  have hwhole := hnamed.of_isInfix (trimmed_isInfix _)
  rw [hdecode] at hwhole
  exact (tagged_of_named (kind_text e).2 hwhole).of_isInfix hs.isInfix

/-! ### One frame after the other -/

/-- Bytes that can stand in a frame, all of them. -/
structure FrameText (s : Bytes) : Prop where
  nulFree : NulFree s
  backslash_notMem : (92 : UInt8) ∉ s

theorem FrameText.append {s t : Bytes} (hs : FrameText s) (ht : FrameText t) :
    FrameText (s ++ t) where
  nulFree := hs.nulFree.append ht.nulFree
  backslash_notMem h := (List.mem_append.1 h).elim hs.backslash_notMem ht.backslash_notMem

theorem FrameText.of_isInfix {s t : Bytes} (h : FrameText t) (hs : s <:+: t) : FrameText s where
  nulFree := h.nulFree.of_sublist hs.sublist
  backslash_notMem hc := h.backslash_notMem (hs.subset hc)

/-- The name of a type does not reach over an opening brace. -/
theorem tagged_append {kind : String} (hkind : (123 : UInt8) ∉ ascii kind) {s t : Bytes}
    (h : Tagged kind (s ++ 123 :: t)) : Tagged kind s ∨ Tagged kind (123 :: t) := by
  obtain ⟨before, gap, after, hgap, heq⟩ := h
  have hbrace : (123 : UInt8) ∉ gap := fun hc =>
    isColon_brace hgap (mem_fromUtf8_of_mem (by decide) hc)
  rcases List.append_eq_append_iff.1 heq with ⟨l, rfl, hl⟩ | ⟨r, rfl, hr⟩
  · exact .inr ⟨l, gap, after, hgap, hl⟩
  · -- the name begins before the brace, so that it ends before it
    have hname : (123 : UInt8) ∉
        34 :: (ascii "type" ++ 34 :: (gap ++ 34 :: (ascii kind ++ [34]))) := by
      have htype : (123 : UInt8) ∉ ascii "type" := by decide
      simp [htype, hbrace, hkind]
    have hsplit : (34 :: (ascii "type" ++ 34 :: (gap ++ 34 :: (ascii kind ++ [34])))) ++ after =
        r ++ 123 :: t := by
      rw [← hr]
      simp
    rcases List.append_eq_append_iff.1 hsplit with ⟨l, rfl, -⟩ | ⟨l, hl, hafter⟩
    · exact .inl ⟨before, gap, l, hgap, by simp⟩
    · cases l with
      | nil =>
        rw [List.append_nil] at hl
        exact .inl ⟨before, gap, [], hgap, by rw [← hl]⟩
      | cons a l =>
        rw [List.cons_append] at hafter
        obtain ⟨rfl, -⟩ := List.cons.inj hafter
        exact absurd (by rw [hl]; simp) hname

/-- The signals of a line do not depend on the client. -/
theorem handleLine_signals (J : JsonReader) (client client' : ChatClient) (bytes : Bytes) :
    (handleLine J client bytes).2 = (handleLine J client' bytes).2 := by
  have hobject (object : JsonObject) :
      (handleObject client object).2 = (handleObject client' object).2 := by
    simp only [handleObject]
    split_ifs <;> rfl
  simp only [handleLine]
  split_ifs
  · cases J.fromJson (trimmed (decodeLine bytes)) with
    | none => rfl
    | some object => exact hobject object
  · rfl

theorem mem_handleLines {J : JsonReader} {client : ChatClient} {lines : List Bytes}
    {e : ClientEvent} (h : e ∈ (handleLines J client lines).2) :
    ∃ line ∈ lines, e ∈ (handleLine J .fresh line).2 := by
  induction lines generalizing client with
  | nil => simp [handleLines] at h
  | cons line lines ih =>
    simp only [handleLines, List.mem_append] at h
    rcases h with h | h
    · exact ⟨line, by simp, handleLine_signals J client .fresh line ▸ h⟩
    · obtain ⟨l, hl, he⟩ := ih h
      exact ⟨l, by simp [hl], he⟩

theorem infix_of_mem_splitLines {d : UInt8} {s l : Bytes} (h : l ∈ (splitLines d s).1) :
    l ++ [d] <:+: s := by
  have htext := joinLines_splitLines (d := d) s
  obtain ⟨ls, rs, heq⟩ := List.append_of_mem h
  rw [heq, joinLines_append] at htext
  refine ⟨joinLines d ls, joinLines d rs ++ (splitLines d s).2, ?_⟩
  refine Eq.trans ?_ htext
  simp [joinLines]

theorem rest_suffix (d : UInt8) (s : Bytes) : (splitLines d s).2 <:+ s :=
  ⟨_, joinLines_splitLines s⟩

/-- What a client makes of data: the lines of its buffer and the data, one by one. -/
theorem mem_receive {J : JsonReader} {client : ChatClient} {data : Bytes} {e : ClientEvent}
    (h : e ∈ (receive J client data).2) :
    ∃ line ∈ (splitLines newline (client.buffer ++ data)).1,
      e ∈ (handleLine J .fresh (line ++ [newline])).2 := by
  unfold receive at h
  split_ifs at h
  · simp at h
  · obtain ⟨line, hline, he⟩ := mem_handleLines h
    obtain ⟨l, hl, rfl⟩ := List.mem_map.1 hline
    exact ⟨l, hl, he⟩

theorem receive_buffer (J : JsonReader) (client : ChatClient) {data : Bytes} (hne : data ≠ []) :
    (receive J client data).1.buffer = (splitLines newline (client.buffer ++ data)).2 := by
  simp only [receive, if_neg hne, onReadyRead, handleLines_buffer]

/-! ### A reply at the end of a line -/

/-- A frame that is one object on one line. -/
structure WholeFrame (f : Bytes) : Prop where
  text : FrameText f
  line : ∃ body, f = body ++ [newline] ∧ newline ∉ body ∧ body.head? = some 123 ∧
    (fromUtf8 body).getLast? = some '}' ∧ jsonMarks.Group (fromUtf8 body)

/-- A frame that opens with a brace and has no bytes that need care. -/
structure OpenFrame (f : Bytes) : Prop where
  text : FrameText f
  brace : f.head? = some 123

theorem WholeFrame.openFrame {f : Bytes} (h : WholeFrame f) : OpenFrame f := by
  refine ⟨h.text, ?_⟩
  obtain ⟨body, rfl, -, hhead, -⟩ := h.line
  rw [List.head?_append, hhead]
  rfl

/-- A byte order mark can only stand in what comes before an opening brace. -/
theorem decodeLine_append_brace {b rest : Bytes} (hnul : NulFree (b ++ 123 :: rest)) :
    ∃ lead, decodeLine (b ++ 123 :: rest) = lead ++ fromUtf8 (123 :: rest) := by
  have hsplit (s : Bytes) : fromUtf8 (s ++ 123 :: rest) = fromUtf8 s ++ fromUtf8 (123 :: rest) :=
    fromUtf8_append_ascii rfl (by decide) s
  rw [decodeLine, cstr_of_nulFree hnul]
  split
  · next rest' heq =>
    rcases b with _ | ⟨b₁, _ | ⟨b₂, _ | ⟨b₃, b⟩⟩⟩
    · exact absurd (List.cons.inj heq).1 (by decide)
    · exact absurd (List.cons.inj (List.cons.inj heq).2).1 (by decide)
    · exact absurd (List.cons.inj (List.cons.inj (List.cons.inj heq).2).2).1 (by decide)
    · obtain rfl := (List.cons.inj (List.cons.inj (List.cons.inj heq).2).2).2
      exact ⟨fromUtf8 b, hsplit b⟩
  · exact ⟨fromUtf8 b, hsplit b⟩

theorem trimmed_lead {text : QString} (hhead : text.head? = some '{')
    (hlast : text.getLast? = some '}') (lead : QString) :
    trimmed (lead ++ text ++ ['\n']) = lead.dropWhile isQSpace ++ text := by
  have hdrop : (lead ++ text ++ ['\n']).dropWhile isQSpace =
      lead.dropWhile isQSpace ++ text ++ ['\n'] := by
    obtain ⟨rest, rfl⟩ := List.head?_eq_some_iff.1 hhead
    rw [List.append_assoc, List.append_assoc, List.dropWhile_append]
    split_ifs with hempty
    · rw [List.isEmpty_iff.1 hempty, List.cons_append, List.dropWhile_cons_of_neg (by decide)]
      rfl
    · rfl
  have hend : (lead.dropWhile isQSpace ++ text).getLast? = some '}' := by
    rw [List.getLast?_append, hlast]
    rfl
  rw [trimmed, hdrop, rdropWhile_append_of_last hend (by decide), List.rdropWhile_singleton,
    if_pos (by decide), List.append_nil]

/-- The line of a whole frame is its object's text, after what is left of the line before. -/
theorem WholeFrame.trimmed {b f : Bytes} (hb : FrameText b) (hf : WholeFrame f) :
    ∃ lead text, Mesh.trimmed (decodeLine (b ++ f)) = lead ++ text ∧
      Mesh.trimmed (decodeLine f) = text ∧ text.head? = some '{' ∧ text.getLast? = some '}' ∧
      jsonMarks.Group text := by
  obtain ⟨body, rfl, -, hhead, hlast, hgroup⟩ := hf.line
  obtain ⟨rest, rfl⟩ := List.head?_eq_some_iff.1 hhead
  have hbrace : (fromUtf8 (123 :: rest)).head? = some '{' := by
    rw [fromUtf8_cons (by decide)]
    rfl
  have hnewline : fromUtf8 (123 :: rest ++ [newline]) = fromUtf8 (123 :: rest) ++ ['\n'] := by
    rw [fromUtf8_append (by decide)]
    rfl
  obtain ⟨lead, hlead⟩ : ∃ lead, decodeLine (b ++ (123 :: rest ++ [newline])) =
      lead ++ fromUtf8 (123 :: rest ++ [newline]) :=
    decodeLine_append_brace (hb.append hf.text).nulFree
  refine ⟨lead.dropWhile isQSpace, _, ?_, ?_, hbrace, hlast, hgroup⟩
  · rw [hlead, hnewline, ← List.append_assoc, trimmed_lead hbrace hlast]
  · rw [decodeLine_eq hf.text.nulFree rfl, hnewline]
    exact trimmed_lead hbrace hlast []

/-- After something other than blanks, a whole frame is no object. -/
theorem whole_after_text {J : StrictReader} {client : ChatClient} {b f : Bytes}
    (hb : FrameText b) (hf : WholeFrame f) {e : ClientEvent}
    (h : e ∈ (handleLine J.toJsonReader client (b ++ f)).2) (hkind : e.kind ≠ "message") :
    e ∈ (handleLine J.toJsonReader client f).2 := by
  obtain ⟨lead, text, hline, hown, hhead, hlast, hgroup⟩ := hf.trimmed hb
  obtain ⟨object, hbrace, hread, -, -⟩ := handleLine_object h hkind
  rw [hline] at hbrace hread
  have hlead : lead = [] := by
    by_contra hne
    have hplain : '\\' ∉ lead ++ text := by
      intro hc
      rw [← hline] at hc
      obtain ⟨s, hs, hdecode⟩ := decodeLine_suffix (hb.append hf.text).nulFree
      have hmem := (trimmed_isInfix _).subset hc
      rw [hdecode] at hmem
      exact (hb.append hf.text).backslash_notMem (hs.subset (mem_fromUtf8 (by decide) hmem))
    have hend : (lead ++ text).getLast? = some '}' := by
      rw [List.getLast?_append, hlast]
      rfl
    have htext : text ≠ [] := by
      rintro rfl
      simp at hhead
    exact Marks.Group.not_append hgroup.level hne htext
      (J.group _ object hplain hbrace hend hread)
  have hsame : handleLine J.toJsonReader client (b ++ f) =
      handleLine J.toJsonReader client f := by
    simp only [handleLine, hline, hown, hlead, List.nil_append]
  rwa [hsame] at h

/-! ### Frames of one type among others -/

/-- A line that has begun and does not name the type. -/
structure Calm (kind : String) (b : Bytes) : Prop where
  text : FrameText b
  newline_notMem : newline ∉ b
  not_tagged : ¬ Tagged kind b

theorem calm_nil (kind : String) : Calm kind [] where
  text := ⟨by simp [NulFree], by simp⟩
  newline_notMem := by simp
  not_tagged := by
    rintro ⟨before, gap, after, -, heq⟩
    simp at heq

/-- A frame that does not name the type, or is one whole object. -/
structure Plain (kind : String) (f : Bytes) : Prop where
  openFrame : OpenFrame f
  whole : ¬ Tagged kind f ∨ WholeFrame f

section

variable {J : StrictReader} {kind : String} (hbrace : (123 : UInt8) ∉ ascii kind)
  (hmessage : kind ≠ "message")
include hbrace hmessage

/-- A client whose buffer does not name the type takes a signal of that type only from a
whole frame. -/
theorem receive_frame {client : ChatClient} (hbuffer : Calm kind client.buffer) {f : Bytes}
    (hf : Plain kind f) :
    Calm kind (receive J.toJsonReader client f).1.buffer ∧
      ∀ e ∈ (receive J.toJsonReader client f).2, e.kind = kind →
        e ∈ (handleLine J.toJsonReader .fresh f).2 := by
  obtain ⟨rest, rfl⟩ := List.head?_eq_some_iff.1 hf.openFrame.brace
  have htext := hbuffer.text.append hf.openFrame.text
  rw [receive_buffer _ _ (by simp)]
  rcases hf.whole with hcalm | hwhole
  · have hnot : ¬ Tagged kind (client.buffer ++ 123 :: rest) := fun h =>
      (tagged_append hbrace h).elim hbuffer.not_tagged hcalm
    refine ⟨⟨htext.of_isInfix (rest_suffix _ _).isInfix, splitLines_rest _, fun h =>
      hnot (h.of_isInfix (rest_suffix _ _).isInfix)⟩, ?_⟩
    rintro e he rfl
    obtain ⟨line, hline, he⟩ := mem_receive he
    have hinfix := infix_of_mem_splitLines hline
    have hl := htext.of_isInfix hinfix
    exact absurd ((tagged_of_signal hl.nulFree hl.backslash_notMem he hmessage).of_isInfix hinfix)
      hnot
  · obtain ⟨body, hbody, hnl, -⟩ := hwhole.line
    have hlines : splitLines newline (client.buffer ++ 123 :: rest) =
        ([client.buffer ++ body], []) := by
      have hline : newline ∉ client.buffer ++ body := by
        simp [hbuffer.newline_notMem, hnl]
      rw [hbody, ← List.append_assoc, splitLines_line hline []]
      rfl
    refine ⟨by rw [hlines]; exact calm_nil kind, ?_⟩
    rintro e he rfl
    obtain ⟨line, hline, he⟩ := mem_receive he
    rw [hlines, List.mem_singleton] at hline
    rw [hline, List.append_assoc, ← hbody] at he
    exact whole_after_text hbuffer.text hwhole he hmessage

/-- Among any frames that are whole where they name the type, a client takes its signals of
that type from these, one frame each. -/
theorem signals_of_frames {client : ChatClient} (hbuffer : Calm kind client.buffer)
    {frames : List Bytes} (h : ∀ f ∈ frames, Plain kind f) {e : ClientEvent}
    (he : e ∈ (receive J.toJsonReader client frames.flatten).2) (hkind : e.kind = kind) :
    ∃ f ∈ frames, e ∈ (handleLine J.toJsonReader .fresh f).2 := by
  induction frames generalizing client with
  | nil => simp [receive_nil] at he
  | cons f frames ih =>
    obtain ⟨hnext, hsignals⟩ := receive_frame (J := J) hbrace hmessage hbuffer (h f (by simp))
    rw [List.flatten_cons, receive_append, List.mem_append] at he
    rcases he with he | he
    · exact ⟨f, by simp, hsignals e he hkind⟩
    · obtain ⟨f', hf', he'⟩ := ih hnext (fun f' hf' => h f' (by simp [hf'])) he
      exact ⟨f', by simp [hf'], he'⟩

end

end Mesh
