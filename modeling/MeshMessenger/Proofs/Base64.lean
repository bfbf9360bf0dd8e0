import MeshMessenger.Lib.Lines
import MeshMessenger.Server.Frames

/-! Base64 read back: the characters it is made of, the lines `BIO_f_base64` breaks it
into, and that it determines the bytes it encodes. -/

namespace Mesh

open CLib Lines

/-! ### Characters -/

/-- A character of the alphabet, or the padding. -/
def isBase64 (c : UInt8) : Bool := isAlnum c || c == 43 || c == 47 || c == 61

theorem isBase64_base64Char : ∀ n < 64, isBase64 (base64Char n) = true := by decide +kernel

/-- Base64 can stand in a JSON string, and opens no object. -/
theorem isBase64_plain : ∀ c : UInt8, isBase64 c = true →
    c ≠ 0 ∧ c ≠ 34 ∧ c ≠ 92 ∧ c ≠ newline ∧ c ≠ 123 ∧ isSpace c = false ∧ c < 0x80 :=
  forall_byte (by decide +kernel)

theorem isBase64_base64 (s : Bytes) : ∀ c ∈ base64 s, isBase64 c = true := by
  fun_induction base64 s with
  | case1 => simp
  | case2 a =>
    have ha := a.toNat_lt
    simp only [List.forall_mem_cons, List.not_mem_nil, false_imp_iff, implies_true, and_true]
    exact ⟨isBase64_base64Char _ (by omega), isBase64_base64Char _ (by omega), rfl, rfl⟩
  | case3 a b =>
    have ha := a.toNat_lt
    have hb := b.toNat_lt
    simp only [List.forall_mem_cons, List.not_mem_nil, false_imp_iff, implies_true, and_true]
    exact ⟨isBase64_base64Char _ (by omega), isBase64_base64Char _ (by omega),
      isBase64_base64Char _ (by omega), rfl⟩
  | case4 a b c rest ih =>
    have ha := a.toNat_lt
    have hb := b.toNat_lt
    have hc := c.toNat_lt
    simp only [List.forall_mem_cons]
    exact ⟨isBase64_base64Char _ (by omega), isBase64_base64Char _ (by omega),
      isBase64_base64Char _ (by omega), isBase64_base64Char _ (by omega), ih⟩

theorem base64_ne_nil {s : Bytes} (h : s ≠ []) : base64 s ≠ [] := by
  fun_cases base64 s <;> simp_all

theorem base64_length (s : Bytes) : (base64 s).length = (s.length + 2) / 3 * 4 := by
  fun_induction base64 s with
  | case1 => rfl
  | case2 a => simp
  | case3 a b => simp
  | case4 a b c rest ih =>
    simp only [List.length_cons, ih]
    omega

/-! ### Decoding -/

def base64Value (c : UInt8) : Option ℕ :=
  (List.range 64).find? fun n => base64Char n == c

theorem base64Value_base64Char : ∀ n < 64, base64Value (base64Char n) = some n := by
  decide +kernel

theorem base64Char_ne_pad : ∀ n < 64, base64Char n ≠ 61 := by decide

/-- Groups of four characters, the last of which may be padded. -/
def decodeBase64 : Bytes → Option Bytes
  | [] => some []
  | a :: b :: c :: d :: rest => do
    let x ← base64Value a
    let y ← base64Value b
    let first := UInt8.ofNat (x * 4 + y / 16)
    if c = 61 then
      if d = 61 ∧ rest = [] then some [first] else none
    else
      let z ← base64Value c
      let second := UInt8.ofNat (y % 16 * 16 + z / 4)
      if d = 61 then
        if rest = [] then some [first, second] else none
      else
        let w ← base64Value d
        let tail ← decodeBase64 rest
        return first :: second :: UInt8.ofNat (z % 4 * 64 + w) :: tail
  | _ => none

theorem decodeBase64_base64 (s : Bytes) : decodeBase64 (base64 s) = some s := by
  have hbyte {n : ℕ} (a : UInt8) (h : n = a.toNat) : UInt8.ofNat n = a := by
    rw [h, UInt8.ofNat_toNat]
  fun_induction base64 s with
  | case1 => rfl
  | case2 a =>
    have ha := a.toNat_lt
    simp only [decodeBase64, base64Value_base64Char _ (by omega : a.toNat / 4 < 64),
      base64Value_base64Char _ (by omega : a.toNat % 4 * 16 < 64), Option.bind_eq_bind,
      Option.bind_some, if_true, and_self]
    rw [hbyte a (by omega)]
  | case3 a b =>
    have ha := a.toNat_lt
    have hb := b.toNat_lt
    simp only [decodeBase64, base64Value_base64Char _ (by omega : a.toNat / 4 < 64),
      base64Value_base64Char _ (by omega : a.toNat % 4 * 16 + b.toNat / 16 < 64),
      base64Value_base64Char _ (by omega : b.toNat % 16 * 4 < 64), Option.bind_eq_bind,
      Option.bind_some, if_true, base64Char_ne_pad _ (by omega : b.toNat % 16 * 4 < 64), if_false]
    rw [hbyte a (by omega), hbyte b (by omega)]
  | case4 a b c rest ih =>
    have ha := a.toNat_lt
    have hb := b.toNat_lt
    have hc := c.toNat_lt
    simp only [decodeBase64, base64Value_base64Char _ (by omega : a.toNat / 4 < 64),
      base64Value_base64Char _ (by omega : a.toNat % 4 * 16 + b.toNat / 16 < 64),
      base64Value_base64Char _ (by omega : b.toNat % 16 * 4 + c.toNat / 64 < 64),
      base64Value_base64Char _ (by omega : c.toNat % 64 < 64), Option.bind_eq_bind,
      Option.bind_some, base64Char_ne_pad _ (by omega : b.toNat % 16 * 4 + c.toNat / 64 < 64),
      base64Char_ne_pad _ (by omega : c.toNat % 64 < 64), if_false, ih, Option.pure_def]
    rw [hbyte a (by omega), hbyte b (by omega), hbyte c (by omega)]

theorem base64_append {s : Bytes} (h : s.length % 3 = 0) (t : Bytes) :
    base64 (s ++ t) = base64 s ++ base64 t := by
  fun_induction base64 s with
  | case1 => rfl
  | case2 a => simp at h
  | case3 a b => simp at h
  | case4 a b c rest ih =>
    have hrest : rest.length % 3 = 0 := by
      simp only [List.length_cons] at h
      omega
    simp only [List.cons_append, base64, ih hrest]

/-! ### The lines of the filter -/

/-- The lines in which `BIO_f_base64` writes the data. -/
def base64Lines (data : Bytes) : List Bytes :=
  (List.range ((data.length + 47) / 48)).map fun k => base64 ((data.drop (48 * k)).take 48)

theorem bioBase64_eq (data : Bytes) : bioBase64 data = joinLines newline (base64Lines data) := by
  simp [bioBase64, joinLines, base64Lines, List.flatMap_map]

theorem base64Lines_eq {data : Bytes} (h : data ≠ []) :
    base64Lines data = base64 (data.take 48) :: base64Lines (data.drop 48) := by
  have hpos := List.length_pos_iff.2 h
  have hcount : (data.length + 47) / 48 = ((data.drop 48).length + 47) / 48 + 1 := by
    rw [List.length_drop]
    omega
  rw [base64Lines, hcount, List.range_succ_eq_map, List.map_cons, List.map_map]
  refine congrArg₂ List.cons rfl (List.map_congr_left fun k _ => ?_)
  rw [Function.comp_apply, List.drop_drop, Nat.mul_succ, Nat.add_comm]

/-- The filter's lines are the base64 of the data, cut. -/
theorem base64Lines_flatten (data : Bytes) : (base64Lines data).flatten = base64 data := by
  induction hn : data.length using Nat.strong_induction_on generalizing data with
  | _ n ih =>
    by_cases hdata : data = []
    · rw [hdata]
      rfl
    · have hpos := List.length_pos_iff.2 hdata
      have hrest := ih (data.drop 48).length (by rw [List.length_drop]; omega) _ rfl
      rw [base64Lines_eq hdata, List.flatten_cons, hrest]
      by_cases hlong : 48 ≤ data.length
      · have hthird : (data.take 48).length % 3 = 0 := by
          rw [List.length_take, Nat.min_eq_left hlong]
        rw [← base64_append hthird, List.take_append_drop]
      · rw [List.take_of_length_le (by omega), List.drop_eq_nil_of_le (by omega)]
        exact List.append_nil _

theorem isBase64_base64Lines {data l : Bytes} (hl : l ∈ base64Lines data) :
    ∀ c ∈ l, isBase64 c = true := by
  obtain ⟨k, -, rfl⟩ := List.mem_map.1 hl
  exact isBase64_base64 _

theorem ne_nil_of_mem_base64Lines {data l : Bytes} (hl : l ∈ base64Lines data) : l ≠ [] := by
  obtain ⟨k, hk, rfl⟩ := List.mem_map.1 hl
  rw [List.mem_range] at hk
  refine base64_ne_nil ?_
  rw [ne_eq, List.take_eq_nil_iff, List.drop_eq_nil_iff]
  omega

theorem newline_notMem_base64Lines {data l : Bytes} (hl : l ∈ base64Lines data) :
    newline ∉ l := fun hc =>
  (isBase64_plain _ (isBase64_base64Lines hl _ hc)).2.2.2.1 rfl

theorem bioBase64_length (data : Bytes) :
    (bioBase64 data).length = (data.length + 2) / 3 * 4 + (data.length + 47) / 48 := by
  have hjoin (ls : List Bytes) :
      (joinLines newline ls).length = ls.flatten.length + ls.length := by
    induction ls with
    | nil => rfl
    | cons l ls ih =>
      have hcons : joinLines newline (l :: ls) = l ++ newline :: joinLines newline ls := by
        simp [joinLines]
      rw [hcons, List.length_append, List.length_cons, ih, List.flatten_cons, List.length_append,
        List.length_cons]
      omega
  rw [bioBase64_eq, hjoin, base64Lines_flatten, base64_length, base64Lines, List.length_map,
    List.length_range]

/-- Reads base64 that may be broken into lines. -/
def readBase64 (s : Bytes) : Option Bytes := decodeBase64 (s.filter (· ≠ newline))

theorem filter_joinLines {ls : List Bytes} (h : ∀ l ∈ ls, newline ∉ l) :
    (joinLines newline ls).filter (· ≠ newline) = ls.flatten := by
  induction ls with
  | nil => rfl
  | cons l ls ih =>
    have hl : l.filter (· ≠ newline) = l := by
      refine List.filter_eq_self.2 fun c hc => ?_
      have hne : c ≠ newline := fun heq => h l (by simp) (heq ▸ hc)
      simpa using hne
    have hjoin : joinLines newline (l :: ls) = l ++ newline :: joinLines newline ls := by
      simp [joinLines]
    rw [hjoin, List.filter_append, hl, List.filter_cons_of_neg (by simp),
      ih fun l' hl' => h l' (by simp [hl']), List.flatten_cons]

theorem readBase64_bioBase64 (data : Bytes) : readBase64 (bioBase64 data) = some data := by
  rw [readBase64, bioBase64_eq, filter_joinLines fun l hl => newline_notMem_base64Lines hl,
    base64Lines_flatten, decodeBase64_base64]

theorem bioBase64_injective : Function.Injective bioBase64 := by
  intro data data' h
  have hread := readBase64_bioBase64 data
  rw [h, readBase64_bioBase64] at hread
  exact (Option.some.inj hread).symm

end Mesh
