import Mathlib.Data.List.DropRight
import MeshMessenger.Lib.Lines
import MeshMessenger.Lib.Utf8

/-! The Qt client: `ChatClient::onReadyRead` from the bytes in the socket's buffer to
the signals it emits. The JSON reader is Qt's; what the client relies on is stated with
it. -/

namespace Mesh

open CLib Lines

abbrev QString := List Char

/-- `QString::trimmed` takes these off both ends. -/
def isQSpace (c : Char) : Bool :=
  c == ' ' || ('\t' ≤ c && c ≤ '\r') || [0x85, 0xA0, 0x1680, 0x2028, 0x2029, 0x202F, 0x205F,
    0x3000].contains c.toNat || (0x2000 ≤ c.toNat && c.toNat ≤ 0x200A)

def trimmed (s : QString) : QString := (s.dropWhile isQSpace).rdropWhile isQSpace

/-- `QString::fromUtf8` of a byte array: it stops at a NUL and skips a byte order mark. -/
def decodeLine (bytes : Bytes) : QString :=
  fromUtf8 (match cstr bytes with
    | 0xEF :: 0xBB :: 0xBF :: rest => rest
    | s => s)

/-! ### JSON -/

/-- The values of an object's members that the client looks at. -/
inductive JsonValue where
  | string (s : QString)
  | array (values : List JsonValue)
  | other

namespace JsonValue

def toString : JsonValue → QString
  | string s => s
  | _ => []

def toArray : JsonValue → List JsonValue
  | array values => values
  | _ => []

end JsonValue

/-- `QJsonObject::value`. -/
abbrev JsonObject := QString → JsonValue

/-- A text that can stand between double quotes as it is. -/
def PlainText (s : QString) : Prop := '"' ∉ s ∧ '\\' ∉ s ∧ '\n' ∉ s

def memberText (member : QString × QString) : QString :=
  ['"'] ++ (member.1 ++ (['"', ':', '"'] ++ (member.2 ++ ['"'])))

/-- The members after the first, each with its comma, and the closing brace. -/
def membersTail : List (QString × QString) → QString
  | [] => ['}']
  | member :: rest => [','] ++ (memberText member ++ membersTail rest)

/-- The text of an object with string members. -/
def objectText (first : QString × QString) (rest : List (QString × QString)) : QString :=
  ['{'] ++ (memberText first ++ membersTail rest)

/-- `QJsonDocument::fromJson` of the UTF-8 of a string, with what is known of it: plain
strings are read as they stand, and a string left open makes the document null. -/
structure JsonReader where
  fromJson : QString → Option JsonObject
  reads : ∀ first rest, (∀ m ∈ first :: rest, PlainText m.1 ∧ PlainText m.2) →
    ((first :: rest).map Prod.fst).Nodup →
    ∃ object, fromJson (objectText first rest) = some object ∧
      ∀ m ∈ first :: rest, object m.1 = .string m.2
  unclosed : ∀ s : QString, '\\' ∉ s → s.count '"' % 2 = 1 → fromJson s = none

/-! ### The client -/

inductive ClientEvent where
  | registrationSuccess (nick token : QString)
  | registrationFailed (error : QString)
  | loginSuccess (nick : QString)
  | loginFailed (error : QString)
  | messageReceived (sender text : QString)
  | privateMessageReceived (sender target text : QString)
  | encryptedMessageReceived (sender target data : QString)
  | onlineUsersReceived (users : List QString)
  | helpReceived (commands : List QString)
  | p2pConnectionInitiated (target : QString) (success : Bool)
  deriving DecidableEq

structure ChatClient where
  nick : QString
  loggedIn : Bool
  /-- What the socket holds and no `readLine` has taken. -/
  buffer : Bytes

def handleObject (client : ChatClient) (object : JsonObject) : ChatClient × List ClientEvent :=
  let value (key : String) : QString := (object key.toList).toString
  let values (key : String) : List QString := (object key.toList).toArray.map JsonValue.toString
  if value "type" = "register".toList then
    if value "status" = "success".toList then
      (client, [.registrationSuccess (value "nick") (value "token")])
    else (client, [.registrationFailed (value "message")])
  else if value "type" = "login".toList then
    if value "status" = "success".toList then
      ({ client with nick := value "nick", loggedIn := true }, [.loginSuccess (value "nick")])
    else (client, [.loginFailed (value "message")])
  else if value "type" = "message".toList then
    (client, [.messageReceived (value "from") (value "text")])
  else if value "type" = "private".toList then
    (client, [.privateMessageReceived (value "from") (value "to") (value "text")])
  else if value "type" = "encrypted".toList then
    (client, [.encryptedMessageReceived (value "from") (value "to") (value "data")])
  else if value "type" = "online".toList then (client, [.onlineUsersReceived (values "users")])
  else if value "type" = "help".toList then (client, [.helpReceived (values "commands")])
  else if value "type" = "p2p_initiated".toList then
    (client, [.p2pConnectionInitiated (value "target")
      (decide (value "status" = "success".toList))])
  else (client, [])

/-- The body of the loop: one line as `readLine` returned it. -/
def handleLine (J : JsonReader) (client : ChatClient) (bytes : Bytes) :
    ChatClient × List ClientEvent :=
  let line := trimmed (decodeLine bytes)
  if line.head? = some '{' then
    match J.fromJson line with
    | none => (client, [])
    | some object => handleObject client object
  else (client, [.messageReceived "System".toList line])

def handleLines (J : JsonReader) (client : ChatClient) : List Bytes → ChatClient × List ClientEvent
  | [] => (client, [])
  | line :: rest =>
    let (client, events) := handleLine J client line
    let (client, more) := handleLines J client rest
    (client, events ++ more)

/-- `onReadyRead` after `data` arrived: while the buffer has a whole line, takes it. -/
def onReadyRead (J : JsonReader) (client : ChatClient) (data : Bytes) :
    ChatClient × List ClientEvent :=
  let (lines, rest) := splitLines newline (client.buffer ++ data)
  handleLines J { client with buffer := rest } (lines.map (· ++ [newline]))

/-! ### A reader of flat objects

It reads objects with plain string members and nothing else, by what stands between
the quotes, and shows that the two laws can be met. -/

namespace FlatJson

/-- The texts between the quotes, after the opening brace, and what follows the last quote. -/
def members : List QString → QString → Option (List (QString × QString))
  | [key, [':'], value], last => if last = ['}'] then some [(key, value)] else none
  | key :: [':'] :: value :: [','] :: rest, last => (members rest last).map ((key, value) :: ·)
  | _, _ => none

def object (ms : List (QString × QString)) : JsonObject := fun key =>
  match ms.lookup key with
  | some value => .string value
  | none => .other

def fromJson (s : QString) : Option JsonObject :=
  match splitLines '"' s with
  | (['{'] :: texts, last) => (members texts last).map object
  | _ => none

theorem splitLines_memberText {lead : QString} (hlead : '"' ∉ lead) {m : QString × QString}
    (hkey : '"' ∉ m.1) (hvalue : '"' ∉ m.2) (tail : QString) :
    splitLines '"' (lead ++ (memberText m ++ tail)) =
      (lead :: m.1 :: [':'] :: m.2 :: (splitLines '"' tail).1, (splitLines '"' tail).2) := by
  have htext : lead ++ (memberText m ++ tail) =
      lead ++ '"' :: (m.1 ++ '"' :: ([':'] ++ '"' :: (m.2 ++ '"' :: tail))) := by
    simp [memberText]
  rw [htext, splitLines_line hlead, splitLines_line hkey,
    splitLines_line (by decide : '"' ∉ [':']), splitLines_line hvalue]

theorem members_membersTail {rest : List (QString × QString)}
    (h : ∀ m ∈ rest, '"' ∉ m.1 ∧ '"' ∉ m.2) (key value : QString) :
    members (key :: [':'] :: value :: (splitLines '"' (membersTail rest)).1)
      (splitLines '"' (membersTail rest)).2 = some ((key, value) :: rest) := by
  induction rest generalizing key value with
  | nil => rfl
  | cons m rest ih =>
    have hm := h m (by simp)
    rw [membersTail, splitLines_memberText (by decide) hm.1 hm.2, members,
      ih (fun m' hm' => h m' (by simp [hm']))]
    rfl

theorem members_length {texts : List QString} {last : QString} {ms : List (QString × QString)}
    (h : members texts last = some ms) : texts.length % 4 = 3 := by
  induction texts, last using members.induct generalizing ms with
  | case1 => rfl
  | case2 => rfl
  | case3 last key value rest ih =>
    rw [members, Option.map_eq_some_iff] at h
    obtain ⟨ms', hms, -⟩ := h
    have := ih hms
    simp only [List.length_cons]
    omega
  | case4 texts last h1 h2 => rw [members.eq_3 texts last h1 h2] at h; exact absurd h (by simp)

theorem lookup_of_mem {ms : List (QString × QString)} (hnodup : (ms.map Prod.fst).Nodup)
    {m : QString × QString} (hm : m ∈ ms) : ms.lookup m.1 = some m.2 := by
  induction ms with
  | nil => simp at hm
  | cons n ms ih =>
    rw [List.map_cons, List.nodup_cons] at hnodup
    rcases List.mem_cons.1 hm with rfl | hm
    · exact List.lookup_cons_self
    · have hne : m.1 ≠ n.1 := fun h => hnodup.1 (h ▸ List.mem_map_of_mem hm)
      rw [List.lookup_cons, beq_false_of_ne hne]
      exact ih hnodup.2 hm

def reader : JsonReader where
  fromJson := fromJson
  reads := by
    intro first rest hplain hnodup
    have hquote : ∀ m ∈ first :: rest, '"' ∉ m.1 ∧ '"' ∉ m.2 := fun m hm =>
      ⟨(hplain m hm).1.1, (hplain m hm).2.1⟩
    have hfirst := hquote first (by simp)
    refine ⟨object (first :: rest), ?_, fun m hm => ?_⟩
    · rw [fromJson, objectText, splitLines_memberText (by decide) hfirst.1 hfirst.2]
      simp only
      rw [members_membersTail fun m hm => hquote m (by simp [hm])]
      rfl
    · rw [object, lookup_of_mem hnodup hm]
  unclosed := by
    intro s _ hodd
    rw [← splitLines_length] at hodd
    unfold fromJson
    split
    · next texts last heq =>
      rw [heq] at hodd
      cases hms : members texts last with
      | none => rfl
      | some ms =>
        have := members_length hms
        simp only [List.length_cons] at hodd
        omega
    · rfl

end FlatJson

end Mesh
