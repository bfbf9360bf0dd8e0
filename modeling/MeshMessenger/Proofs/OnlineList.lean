import MeshMessenger.Client.JsonArrays
import MeshMessenger.Proofs.PrivateFrames

/-! The list of online users: what the bounded appends of `send_online_users` leave of it,
and what the client makes of that. -/

namespace Mesh

open CLib Lines

/-! ### The list as it should be -/

/-- The nicks that the table scan finds, in the order of the slots. -/
def onlineNicks (s : Server) : List Bytes := (onlineSlots s).map fun j => (s.clients j).nick

def quoted (nick : Bytes) : Bytes := 34 :: (nick ++ [34])

def onlineOpen : Bytes := ascii "\x7b\"type\":\"online\",\"users\":["

def onlineBody (nicks : List Bytes) : Bytes :=
  onlineOpen ++ (List.intercalate [44] (nicks.map quoted) ++ [93, 125])

/-- The whole list, with its newline. -/
def onlineFrame (nicks : List Bytes) : Bytes := onlineBody nicks ++ [newline]

theorem intercalate_quoted (nick : Bytes) (nicks : List Bytes) :
    List.intercalate [44] ((nick :: nicks).map quoted) =
      quoted nick ++ nicks.flatMap fun n => 44 :: quoted n := by
  induction nicks generalizing nick with
  | nil => simp [List.intercalate]
  | cons n nicks ih =>
    rw [List.map_cons, List.map_cons, List.intercalate_cons_cons, ← List.map_cons, ih]
    simp

/-! ### Bounded appends -/

/-- An append that is cut where the buffer ends cuts the whole text there. -/
theorem strncat_take (n : ℕ) (l src : Bytes) :
    strncat (l.take n) src (n + 1 - (l.take n).length - 1) = (l ++ src).take n := by
  rw [strncat, List.take_append, List.length_take]
  congr 2
  omega

/-- One user of the loop: the comma but for the first, the quotes and the nick. -/
def appendUser (nick : Bytes) (p : Bytes × Bool) : Bytes × Bool :=
  let cat (list src : Bytes) : Bytes := strncat list src (bufferSize - list.length - 1)
  let list := if p.2 then p.1 else cat p.1 (ascii ",")
  (cat (cat (cat list (ascii "\"")) nick) (ascii "\""), false)

theorem appendUser_take (nick l : Bytes) (first : Bool) :
    appendUser nick (l.take (bufferSize - 1), first) =
      ((l ++ ((if first then [] else [44]) ++ quoted nick)).take (bufferSize - 1), false) := by
  have hcomma : ascii "," = [44] := by decide
  have hquote : ascii "\"" = [34] := by decide
  have hcat (l src : Bytes) : strncat (l.take (bufferSize - 1)) src
      (bufferSize - (l.take (bufferSize - 1)).length - 1) = (l ++ src).take (bufferSize - 1) :=
    strncat_take (bufferSize - 1) l src
  cases first with
  | true =>
    simp only [appendUser, if_true, hquote, hcat]
    simp [quoted]
  | false =>
    simp only [appendUser, Bool.false_eq_true, if_false, hcomma, hquote, hcat]
    simp [quoted]

theorem foldl_appendUser_false (nicks : List Bytes) (l : Bytes) :
    (nicks.foldl (fun p n => appendUser n p) (l.take (bufferSize - 1), false)).1 =
      (l ++ nicks.flatMap fun n => 44 :: quoted n).take (bufferSize - 1) := by
  induction nicks generalizing l with
  | nil => simp
  | cons n nicks ih =>
    rw [List.foldl_cons, appendUser_take, ih]
    simp

theorem foldl_appendUser (nicks : List Bytes) (l : Bytes) :
    (nicks.foldl (fun p n => appendUser n p) (l.take (bufferSize - 1), true)).1 =
      (l ++ List.intercalate [44] (nicks.map quoted)).take (bufferSize - 1) := by
  cases nicks with
  | nil => simp [List.intercalate]
  | cons n nicks =>
    rw [List.foldl_cons, appendUser_take, foldl_appendUser_false, intercalate_quoted]
    simp

/-- The appends write as much of the whole list as the buffer holds. -/
theorem sendOnlineUsers_eq (s : Server) (i : Slot) :
    sendOnlineUsers s i =
      [.write (s.clients i).ssl (snprintf bufferSize (onlineFrame (onlineNicks s)))] := by
  have hopen : onlineOpen.take (bufferSize - 1) = onlineOpen := by decide
  have htail : ascii "]\x7d\n" = [93, 125, newline] := by decide
  have hlist := foldl_appendUser (onlineNicks s) onlineOpen
  rw [hopen, onlineNicks, List.foldl_map] at hlist
  have hlast := strncat_take (bufferSize - 1) (onlineOpen ++ List.intercalate [44]
    ((onlineNicks s).map quoted)) (ascii "]\x7d\n")
  rw [onlineNicks, ← hlist, htail] at hlast
  have hframe : onlineFrame ((onlineSlots s).map fun j => (s.clients j).nick) = onlineOpen ++
      List.intercalate [44] (((onlineSlots s).map fun j => (s.clients j).nick).map quoted) ++
        [93, 125, newline] := by
    simp [onlineFrame, onlineBody]
  rw [onlineNicks, snprintf, hframe, ← hlast, ← htail]
  rfl

/-! ### The list as the client decodes it -/

theorem fromUtf8_quoted (nick tail : Bytes) :
    fromUtf8 (quoted nick ++ tail) = ['"'] ++ (fromUtf8 nick ++ (['"'] ++ fromUtf8 tail)) := by
  have hopen : fromUtf8 (34 :: (nick ++ 34 :: tail)) = '"' :: fromUtf8 (nick ++ 34 :: tail) :=
    fromUtf8_cons (by decide) _
  have hclose : fromUtf8 (nick ++ 34 :: tail) = fromUtf8 nick ++ '"' :: fromUtf8 tail :=
    fromUtf8_append (by decide) _ _
  rw [quoted, List.cons_append, List.append_assoc, List.singleton_append, hopen, hclose]
  rfl

theorem fromUtf8_elementsTail (nicks : List Bytes) (tail : Bytes) :
    fromUtf8 ((nicks.flatMap fun n => 44 :: quoted n) ++ tail) =
      elementsTail (nicks.map fromUtf8) ++ fromUtf8 tail := by
  induction nicks with
  | nil => rfl
  | cons n nicks ih =>
    have hcomma (s : Bytes) : fromUtf8 (44 :: s) = ',' :: fromUtf8 s :=
      fromUtf8_cons (by decide) s
    rw [List.flatMap_cons, List.append_assoc, List.cons_append, hcomma, fromUtf8_quoted, ih]
    simp [elementsTail]

theorem fromUtf8_elements (nicks : List Bytes) (tail : Bytes) :
    fromUtf8 (List.intercalate [44] (nicks.map quoted) ++ tail) =
      elementsText (nicks.map fromUtf8) ++ fromUtf8 tail := by
  cases nicks with
  | nil => rfl
  | cons n nicks =>
    rw [intercalate_quoted, List.append_assoc, fromUtf8_quoted, fromUtf8_elementsTail]
    simp [elementsText]

theorem fromUtf8_onlineBody (nicks : List Bytes) :
    fromUtf8 (onlineBody nicks) = listObjectText ("type".toList, "online".toList) "users".toList
      (nicks.map fromUtf8) := by
  have hopen : fromUtf8 onlineOpen = ['{'] ++ (memberText ("type".toList, "online".toList) ++
      ([',', '"'] ++ ("users".toList ++ ['"', ':', '[']))) := fromUtf8_ascii rfl
  have hopen' : ∀ b ∈ onlineOpen, b < 0x80 := ascii_lt rfl
  have htail : fromUtf8 [93, 125] = [']', '}'] := fromUtf8_ofAscii (t := [']', '}']) rfl
  rw [onlineBody, fromUtf8_ascii_append hopen', fromUtf8_elements, hopen, htail]
  simp [listObjectText]

theorem handleObject_online (client : ChatClient) {object : JsonObject}
    (htype : object "type".toList = .string "online".toList) :
    handleObject client object = (client, [.onlineUsersReceived
      ((object "users".toList).toArray.map JsonValue.toString)]) := by
  have hvalue : (object "type".toList).toString = "online".toList := by rw [htype]; rfl
  unfold handleObject
  simp only
  rw [if_neg (type_ne htype (by decide)), if_neg (type_ne htype (by decide)),
    if_neg (type_ne htype (by decide)), if_neg (type_ne htype (by decide)),
    if_neg (type_ne htype (by decide)), if_pos hvalue]

section list

variable {nicks : List Bytes} (hnicks : ∀ n ∈ nicks, LineField n)

include hnicks

theorem mem_onlineBody {c : UInt8} (hc : c = 0 ∨ c = newline) : c ∉ onlineBody nicks := by
  have hquoted : ∀ n ∈ nicks, c ∉ quoted n := by
    intro n hn hmem
    have hfield := hnicks n hn
    rcases hc with rfl | rfl
    · exact hfield.nulFree (by simpa [quoted] using hmem)
    · exact hfield.newline_notMem (by simpa [quoted, newline] using hmem)
  have helements : c ∉ List.intercalate [44] (nicks.map quoted) := by
    cases nicks with
    | nil => simp [List.intercalate]
    | cons n nicks =>
      rw [intercalate_quoted, List.mem_append, not_or]
      refine ⟨hquoted n (by simp), fun hmem => ?_⟩
      obtain ⟨m, hm, hmem⟩ := List.mem_flatMap.1 hmem
      rcases List.mem_cons.1 hmem with rfl | hmem
      · exact absurd hc (by decide)
      · exact hquoted m (by simp [hm]) hmem
  have hconst : c ∉ onlineOpen ∧ c ∉ ([93, 125] : Bytes) := by
    rcases hc with rfl | rfl
    · exact ⟨by decide, by decide⟩
    · exact ⟨by decide, by decide⟩
  simp only [onlineBody, List.mem_append, not_or]
  exact ⟨hconst.1, helements, hconst.2⟩

/-- The client reads the whole list as it stands. -/
theorem handleLine_onlineFrame (J : ListReader) (client : ChatClient) :
    (handleLine J.toJsonReader client (onlineFrame nicks)).2 =
      [.onlineUsersReceived (nicks.map fromUtf8)] := by
  have hnul : NulFree (onlineFrame nicks) :=
    NulFree.append (mem_onlineBody hnicks (.inl rfl)) (by unfold NulFree; decide)
  have hdecode : decodeLine (onlineFrame nicks) =
      listObjectText ("type".toList, "online".toList) "users".toList (nicks.map fromUtf8) ++
        ['\n'] := by
    rw [decodeLine_eq hnul rfl, onlineFrame, fromUtf8_append (by decide), fromUtf8_onlineBody]
    rfl
  obtain ⟨object, hread, htype, husers⟩ := J.reads_list ("type".toList, "online".toList)
    "users".toList (nicks.map fromUtf8) (by unfold PlainText; decide) (by unfold PlainText; decide)
    (by unfold PlainText; decide) (by
      intro v hv
      obtain ⟨n, hn, rfl⟩ := List.mem_map.1 hv
      exact (hnicks n hn).plainText) (by decide)
  rw [handleLine_braces J.toJsonReader client rfl (listObjectText_getLast? _ _ _) hdecode hread,
    handleObject_online client htype, husers]
  simp [JsonValue.toArray, JsonValue.toString]

end list

/-! ### When the list is whole -/

theorem onlineFrame_length_le_iff (nicks : List Bytes) :
    (onlineFrame nicks).length ≤ bufferSize - 1 ↔
      (nicks.map fun n => n.length + 3).sum ≤ 8163 := by
  have hopen : onlineOpen.length = 26 := by decide
  have htail (nicks : List Bytes) : (nicks.flatMap fun n => 44 :: quoted n).length =
      (nicks.map fun n => n.length + 3).sum := by
    induction nicks with
    | nil => rfl
    | cons n nicks ih =>
      rw [List.flatMap_cons, List.length_append, ih]
      simp [quoted]
  cases nicks with
  | nil => decide
  | cons n nicks =>
    have hquoted : (quoted n).length = n.length + 2 := by simp [quoted]
    rw [onlineFrame, onlineBody, intercalate_quoted]
    simp only [List.length_append, hopen, hquoted, htail, List.map_cons, List.sum_cons,
      List.length_cons, List.length_nil, bufferSize]
    omega

/-- The client is written the whole list, and its signal carries exactly the nicks of the
slots in use by logged-in clients. -/
structure OnlineExact (J : ListReader) (s : Server) (i : Slot) : Prop where
  frame : sendOnlineUsers s i = [.write (s.clients i).ssl (onlineFrame (onlineNicks s))]
  received : ∀ data, .write (s.clients i).ssl data ∈ sendOnlineUsers s i →
    ∀ client pieces, client.buffer = [] → pieces.flatten = data →
      (Runs.run (onReadyRead J.toJsonReader) client pieces).2 =
        [.onlineUsersReceived ((onlineNicks s).map fromUtf8)]

theorem OnlineExact.fits {J : ListReader} {s : Server} {i : Slot} (h : OnlineExact J s i) :
    ((onlineNicks s).map fun n => n.length + 3).sum ≤ 8163 := by
  have hframe := h.frame
  rw [sendOnlineUsers_eq, List.cons.injEq, Effect.write.injEq, snprintf,
    List.take_eq_self_iff] at hframe
  exact (onlineFrame_length_le_iff _).1 hframe.1.2

/-- For every table of clients whose nicks are made of the bytes that registration admits:
the list is exact if and only if it fits. -/
theorem online_list_exact_iff (J : ListReader) {s : Server}
    (hnicks : ∀ j, (s.clients j).online = true → ∀ c ∈ (s.clients j).nick, isNickByte c = true)
    (i : Slot) :
    OnlineExact J s i ↔ ((onlineNicks s).map fun n => n.length + 3).sum ≤ 8163 := by
  refine ⟨OnlineExact.fits, fun hfits => ?_⟩
  rw [← onlineFrame_length_le_iff] at hfits
  have hframe : sendOnlineUsers s i =
      [.write (s.clients i).ssl (onlineFrame (onlineNicks s))] := by
    rw [sendOnlineUsers_eq, snprintf, List.take_of_length_le hfits]
  refine ⟨hframe, ?_⟩
  intro data hdata client pieces hbuffer hflat
  rw [hframe, List.mem_singleton, Effect.write.injEq] at hdata
  rw [hdata.2] at hflat
  have hfields : ∀ n ∈ onlineNicks s, LineField n := by
    intro n hn
    obtain ⟨j, hj, rfl⟩ := List.mem_map.1 hn
    refine lineField_of fun c hc => ?_
    have hbyte := hnicks j (List.mem_filter.1 hj).2 c hc
    obtain ⟨-, hquote, hbackslash, hnewline⟩ := isNickByte_plain c hbyte
    exact ⟨(isNickByte_clean c hbyte).2.2, hquote, hbackslash, hnewline⟩
  have hne : pieces ≠ [] := by
    rintro rfl
    simp [onlineFrame] at hflat
  rw [onReadyRead_pieces J.toJsonReader client hne, hflat, onlineFrame,
    onReadyRead_line J.toJsonReader hbuffer (mem_onlineBody hfields (.inr rfl)), ← onlineFrame,
    handleLine_onlineFrame hfields J client]

/-- The two clients of the chat are listed. -/
theorem online_list_exact_chat :
    OnlineExact FlatJson.listReader
      (run Sample.crypto (Server.init SecureUsers.empty) Sample.chat).1 Sample.firstSlot := by
  have hsum : ((onlineNicks (run Sample.crypto (Server.init SecureUsers.empty)
      Sample.chat).1).map fun n => n.length + 3).sum ≤ 8163 := by decide +kernel
  have hs : Reachable Sample.crypto SecureUsers.empty
      (run Sample.crypto (Server.init SecureUsers.empty) Sample.chat).1 := ⟨Sample.chat, rfl⟩
  refine (online_list_exact_iff FlatJson.listReader (fun j hj => ?_) _).2 hsum
  simp only [SecureClient.online, Bool.and_eq_true] at hj
  exact session_isNickByte (Reachable.registered hs registered_empty) (Reachable.sessionsInv hs)
    hj.2

namespace Sample

/-- A nick of 31 bytes for each slot. -/
def crowdNick (j : Slot) : Bytes :=
  List.replicate 28 97 ++ [hexDigit (j.val / 256), hexDigit (j.val / 16 % 16), hexDigit (j.val % 16)]

/-- A full table. -/
def crowd : Server :=
  { Server.init SecureUsers.empty with
    clients := fun j =>
      { newClient (j.val + 5) j.val addr 1000 with nick := crowdNick j, authorized := true } }

end Sample

theorem crowdNick_length (j : Slot) : (Sample.crowdNick j).length = 31 := by
  simp [Sample.crowdNick]

theorem crowdNick_valid (j : Slot) : validateNickname (Sample.crowdNick j) = true := by
  have hj : j.val < 1000 := j.isLt
  refine validateNickname_iff.2 ⟨by rw [crowdNick_length]; decide, fun c hc => ?_, fun w hw => ?_⟩
  · have hc := List.mem_of_mem_take hc
    simp only [Sample.crowdNick, List.mem_append, List.mem_replicate, List.mem_cons,
      List.not_mem_nil, or_false] at hc
    rcases hc with ⟨-, rfl⟩ | rfl | rfl | rfl
    · decide
    · exact isNickByte_hexDigit _ (by omega)
    · exact isNickByte_hexDigit _ (by omega)
    · exact isNickByte_hexDigit _ (by omega)
  · have hshort : ∀ w ∈ forbidden, w.length < 31 := by decide
    refine Bool.eq_false_iff.2 fun heq => ?_
    have hlen := congrArg List.length (caseEq_iff.1 heq)
    rw [List.length_map, List.length_map, crowdNick_length] at hlen
    have := hshort w hw
    omega

theorem onlineNicks_crowd : onlineNicks Sample.crowd =
    (List.finRange maxClients).map Sample.crowdNick := by
  have hall : onlineSlots Sample.crowd = List.finRange maxClients := by
    refine List.filter_eq_self.2 fun j _ => ?_
    simp only [SecureClient.online, Sample.crowd, newClient, Bool.and_true]
    exact decide_eq_true (Int.natCast_nonneg _)
  rw [onlineNicks, hall]
  rfl

/-- With valid nicks of 31 bytes in all the slots, the list ends within the 241st. -/
theorem crowd_list_cut :
    (∀ j, validateNickname (Sample.crowd.clients j).nick = true ∧
      (Sample.crowd.clients j).nick.length = 31) ∧
      ¬ OnlineExact FlatJson.listReader Sample.crowd Sample.firstSlot := by
  refine ⟨fun j => ⟨crowdNick_valid j, crowdNick_length j⟩, fun h => ?_⟩
  have hfits := h.fits
  have hconst : (fun n : Bytes => n.length + 3) ∘ Sample.crowdNick = fun _ => 34 := by
    funext j
    rw [Function.comp_apply, crowdNick_length]
  have hsum (n : ℕ) : ((List.finRange n).map fun _ => 34).sum = n * 34 := by simp
  rw [onlineNicks_crowd, List.map_map, hconst, hsum] at hfits
  exact absurd hfits (by decide)

end Mesh
