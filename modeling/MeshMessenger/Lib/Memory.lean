import Mathlib.Logic.Function.Basic
import MeshMessenger.Lib.CString

/-! Memory after a pointer, and the bytes that a function writes there, one after the
other. Nothing bounds the index of a write. -/

namespace CLib

abbrev Memory := ℕ → UInt8

/-- An index and the byte written there. -/
abbrev Write := ℕ × UInt8

def Memory.writeAll (m : Memory) (ws : List Write) : Memory :=
  ws.foldl (fun m w => Function.update m w.1 w.2) m

/-- A string stored at an offset, with its terminator. -/
def stringWrites : ℕ → Bytes → List Write
  | o, [] => [(o, 0)]
  | o, c :: s => (o, c) :: stringWrites (o + 1) s

theorem writeAll_cons (m : Memory) (w : Write) (ws : List Write) :
    m.writeAll (w :: ws) = Memory.writeAll (Function.update m w.1 w.2) ws := rfl

theorem writeAll_append (m : Memory) (ws ws' : List Write) :
    m.writeAll (ws ++ ws') = (m.writeAll ws).writeAll ws' := List.foldl_append

/-- A cell that no write names keeps its byte. -/
theorem writeAll_of_notMem {m : Memory} {ws : List Write} {k : ℕ} (h : ∀ w ∈ ws, w.1 ≠ k) :
    m.writeAll ws k = m k := by
  induction ws generalizing m with
  | nil => rfl
  | cons w ws ih =>
    rw [writeAll_cons, ih fun w' hw' => h w' (by simp [hw']),
      Function.update_of_ne (h w (by simp)).symm]

theorem mem_stringWrites {o k : ℕ} {s : Bytes} :
    (∃ w ∈ stringWrites o s, w.1 = k) ↔ o ≤ k ∧ k ≤ o + s.length := by
  induction s generalizing o with
  | nil =>
    simp only [stringWrites, List.mem_singleton, exists_eq_left, List.length_nil]
    omega
  | cons c s ih =>
    simp only [stringWrites, List.exists_mem_cons_iff, ih, List.length_cons]
    omega

/-- The memory below the offset is left alone. -/
theorem writeAll_stringWrites_lt {m : Memory} {o k : ℕ} {s : Bytes} (h : k < o) :
    m.writeAll (stringWrites o s) k = m k := by
  refine writeAll_of_notMem fun w hw heq => ?_
  have := mem_stringWrites.1 ⟨w, hw, heq⟩
  omega

theorem writeAll_stringWrites_get {m : Memory} {o i : ℕ} {s : Bytes} (h : i < s.length) :
    m.writeAll (stringWrites o s) (o + i) = s[i] := by
  induction s generalizing m o i with
  | nil => simp at h
  | cons c s ih =>
    rw [stringWrites, writeAll_cons]
    cases i with
    | zero => exact (writeAll_stringWrites_lt (Nat.lt_succ_self o)).trans (Function.update_self _ _ _)
    | succ i =>
      have hindex : o + (i + 1) = o + 1 + i := by omega
      rw [hindex]
      exact ih (by simpa using h)

theorem writeAll_stringWrites_length {m : Memory} {o : ℕ} {s : Bytes} :
    m.writeAll (stringWrites o s) (o + s.length) = 0 := by
  induction s generalizing m o with
  | nil => exact Function.update_self _ _ _
  | cons c s ih =>
    have hindex : o + (c :: s).length = o + 1 + s.length := by
      rw [List.length_cons]
      omega
    rw [stringWrites, writeAll_cons, hindex]
    exact ih

end CLib
