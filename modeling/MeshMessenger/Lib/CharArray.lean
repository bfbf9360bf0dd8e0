import MeshMessenger.Lib.CString

/-! Arrays of characters that are only ever filled by `strncpy(a, src, sizeof(a) - 1)`. The
last byte is zero from the start and never written, so the array always holds a string. -/

namespace CLib

/-- `char[n + 1]`. -/
abbrev CharArray (n : ℕ) : Type := { a : Bytes // a.length = n + 1 ∧ a.getLast? = some 0 }

namespace CharArray

variable {n : ℕ}

def zero (n : ℕ) : CharArray n :=
  ⟨List.replicate (n + 1) 0, List.length_replicate, by rw [List.replicate_succ', List.getLast?_concat]⟩

/-- The string that a reader of the array finds. -/
def text (a : CharArray n) : Bytes := cstr a.val

theorem drop_eq (a : CharArray n) : a.val.drop n = [0] := by
  obtain ⟨a, hlength, hlast⟩ := a
  obtain ⟨init, rfl⟩ := List.getLast?_eq_some_iff.1 hlast
  have hinit : init.length = n := by simpa using hlength
  exact List.drop_left' hinit

/-- `strncpy(a, src, n)`: the string, or its first `n` bytes, padded with zeros. -/
def strncpy (a : CharArray n) (src : Bytes) : CharArray n :=
  ⟨src.take n ++ (List.replicate (n - src.length) 0 ++ a.val.drop n), by
    rw [drop_eq]
    refine ⟨?_, ?_⟩
    · simp only [List.length_append, List.length_take, List.length_replicate,
        List.length_singleton]
      omega
    · rw [← List.append_assoc, List.getLast?_concat]⟩

/-- `a[0] = '\0'`. -/
def clear (a : CharArray n) : CharArray n :=
  ⟨a.val.set 0 0, by
    obtain ⟨a, hlength, hlast⟩ := a
    refine ⟨by simpa using hlength, ?_⟩
    obtain ⟨init, rfl⟩ := List.getLast?_eq_some_iff.1 hlast
    cases init with
    | nil => rfl
    | cons c init =>
      exact List.getLast?_concat (l := 0 :: init)⟩

/-- What was in the array before leaves no trace. -/
theorem text_strncpy (a : CharArray n) {src : Bytes} (hsrc : NulFree src) :
    (a.strncpy src).text = src.take n := by
  have htake : ∀ c ∈ src.take n, (c != 0) = true := by
    intro c hc
    have hne : c ≠ 0 := fun h0 => hsrc (h0 ▸ List.mem_of_mem_take hc)
    simpa using hne
  have hval : (a.strncpy src).val = src.take n ++ (List.replicate (n - src.length) 0 ++ [0]) :=
    a.drop_eq ▸ rfl
  rw [text, hval, cstr, List.takeWhile_append_of_pos htake]
  cases n - src.length with
  | zero => simp
  | succ k => simp [List.replicate_succ]

end CharArray

end CLib
