import MeshMessenger.Lib.CLiteral
import MeshMessenger.Obfuscator.Renaming
import MeshMessenger.Server.Frames

/-! String encryption in `brootfrouce.py`: the calls that `encrypt_strings` puts in place of
the literals, and the C functions that `add_string_decryption_functions` emits, as they run
in the obfuscated program. -/

namespace Mesh.Obfuscator

open CLib Regex Re

/-! ### The calls in the obfuscated source -/

def encode (s : Text) : Bytes := s.flatMap String.utf8EncodeChar

inductive StringDraw where
  | base64
  | xor (key : ℕ)

/-- `f'\\x{n:02x}'`. -/
def hexEscape (n : ℕ) : Text :=
  '\\' :: 'x' :: if n < 16 then '0' :: Nat.toDigits 16 n else Nat.toDigits 16 n

/-- The text between the quotes of an argument of `__decrypt_xor`. -/
def xorBody (s : Text) (key : ℕ) : Text := s.flatMap fun c => hexEscape (c.toNat ^^^ key)

def base64Body (s : Text) : Text := (base64 (encode s)).map fun b => Char.ofNat b.toNat

def decryptCall (s : Text) : StringDraw → Text
  | .base64 => "__decrypt_b64(\"".toList ++ base64Body s ++ "\")".toList
  | .xor key => "__decrypt_xor(\"".toList ++ xorBody s key ++ "\", ".toList ++
      Nat.toDigits 10 key ++ ")".toList

def keepString (s : Text) : Bool :=
  2 < s.length && !(["%d", "%s", "%c", "%f"].map String.toList).contains s

def encryptAll (U : Classes) : List Text → List StringDraw → Text → Option Text
  | [], _, code => some code
  | s :: strings, draws, code =>
    if keepString s then
      match draws with
      | [] => none
      | draw :: draws =>
        encryptAll U strings draws
          (sub U (text ('"' :: s ++ ['"'])) (fun _ => decryptCall s draw) code)
    else encryptAll U strings draws code

def encryptStrings (U : Classes) (draws : List StringDraw) (code : Text) : Option Text :=
  let pattern := cat [char '"', group 1 (star (noneOf "\"")), char '"']
  encryptAll U ((finditer U pattern code).filterMap fun m => m.group? 1) draws code

/-! ### The emitted functions -/

/-- The terminator the functions store. In the Python text it is `'\\\\0'`, so in C it is the
constant `'\\0'` of two characters, a backslash and a zero, of which a `char` keeps the last. -/
def terminator : UInt8 := 48

def strtol16 (s : Bytes) : ℤ :=
  let s := s.dropWhile isSpace
  let digits : Bytes := match s with
    | [] => []
    | c :: rest => if c = 45 ∨ c = 43 then rest else c :: rest
  let digits : Bytes := match digits with
    | z :: x :: d :: rest => if z = 48 ∧ (x = 120 ∨ x = 88) ∧ isHex d then d :: rest else digits
    | _ => digits
  let n : ℤ := ofDigitBytes 16 (digits.takeWhile isHex)
  if s.head? = some 45 then -n else n

/-- The first loop of `__decrypt_xor`, with the rest of the array from `ptr` on: the bytes it
stores, or `none` where it reads past the end of the array. -/
def xorScan : Bytes → Option Bytes
  | [] => none
  | c :: rest =>
    if c = 0 then some []
    else if c = 92 ∧ rest.head? = some 120 then
      match rest with
      | _ :: a :: b :: rest => (xorScan rest).map (UInt8.ofInt (strtol16 (cstr [a, b])) :: ·)
      | _ => none
    else (xorScan rest).map (c :: ·)

/-- What `__decrypt_xor` has stored in `result[0..i-1]` when it returns, for an array with
these bytes and a terminator; `none` where it goes past the end of that or of `result`. -/
def decryptXor (encrypted : Bytes) (key : ℕ) : Option Bytes :=
  match xorScan (encrypted ++ [0]) with
  | none => none
  | some stored =>
    if stored.length < 1024 then some (stored.map (· ^^^ UInt8.ofNat key)) else none

def base64Chars : Bytes :=
  ascii "ABCDEFGHIJKLMNOPQRSTUVWXYZabcdefghijklmnopqrstuvwxyz0123456789+/"

/-- `strchr(base64_chars, c) - base64_chars`, if there is such a character; the terminator of
the string counts as one. -/
def base64Index (c : UInt8) : Option UInt8 :=
  ((base64Chars ++ [0]).findIdx? (· == c)).map UInt8.ofNat

def threeBytes (a b c d : UInt8) : Bytes :=
  [(a <<< 2) + ((b &&& 0x30) >>> 4), ((b &&& 0xf) <<< 4) + ((c &&& 0x3c) >>> 2),
    ((c &&& 0x3) <<< 6) + d]

def decodeFour (a b c d : UInt8) : Option Bytes := do
  let a ← base64Index a
  let b ← base64Index b
  let c ← base64Index c
  let d ← base64Index d
  return threeBytes a b c d

/-- The loop of `__b64_decode`. `cells` are the first `j` of `char_array_4`; the others are
written before they are read. The bytes stored and the cells left over, or `none` where a
lookup finds nothing. -/
def b64Loop (encoded : Bytes) : ℕ → ℕ → Bytes → Option (Bytes × Bytes)
  | 0, _, cells => some ([], cells)
  | inLen + 1, i, cells =>
    if encoded.getD i 0 = 61 then some ([], cells)
    else
      match cells ++ [encoded.getD i 0] with
      | [a, b, c, d] => do
        let three ← decodeFour a b c d
        let (stored, left) ← b64Loop encoded inLen (i + 1) []
        return (three ++ stored, left)
      | cells => b64Loop encoded inLen (i + 1) cells

/-- What `__b64_decode` stores before its terminator. Its length is an `int`, so encoded texts have
up to `INT_MAX` bytes. -/
def b64Decode (encoded : Bytes) (len : ℕ) : Option Bytes := do
  let (stored, cells) ← b64Loop encoded len 0 []
  if cells = [] then return stored
  let filled := cells ++ List.replicate (4 - cells.length) 0
  let three ← decodeFour (filled.getD 0 0) (filled.getD 1 0) (filled.getD 2 0) (filled.getD 3 0)
  return stored ++ three.take (cells.length - 1)

/-- `__decrypt_b64`: what it leaves in its static buffer, unless it goes past the end. The
string it returns is the one that starts the buffer. -/
def decryptB64 (buffer encoded : Bytes) : Option Bytes :=
  match b64Decode encoded encoded.length with
  | none => none
  | some stored =>
    if stored.length < buffer.length then
      some (stored ++ terminator :: buffer.drop (stored.length + 1))
    else none

def initBuffer : Bytes := List.replicate 1024 0

def bufferAfter (bodies : List Text) : Option Bytes :=
  bodies.foldlM (fun buffer s => decryptB64 buffer (base64 (encode s))) initBuffer

end Mesh.Obfuscator
