import Mathlib.Data.List.Basic
import Mathlib.Tactic

/-! A stream cipher: the text XORed with a stream of bytes. Under one stream the ciphertext
determines the text; under two it does as far as they agree. -/

namespace Keystream

def xorStream (ks : ℕ → UInt8) (text : List UInt8) : List UInt8 :=
  text.mapIdx fun k b => b ^^^ ks k

variable {ks ks' : ℕ → UInt8} {text text' : List UInt8}

@[simp] theorem xorStream_length : (xorStream ks text).length = text.length := by
  simp [xorStream]

theorem xorStream_eq_nil : xorStream ks text = [] ↔ text = [] := by
  simp [xorStream]

/-- Texts with the same ciphertext are equal if and only if their streams agree. -/
theorem eq_iff_of_xorStream_eq (h : xorStream ks text = xorStream ks' text') :
    text = text' ↔ ∀ k < text.length, ks k = ks' k := by
  have hlen : text.length = text'.length := by
    simpa using congrArg List.length h
  have hbyte (k : ℕ) (hk : k < text.length) (hk' : k < text'.length) :
      text[k] ^^^ ks k = text'[k] ^^^ ks' k := by
    have := congrArg (fun l => l[k]?) h
    simpa [xorStream, hk, hk'] using this
  refine ⟨?_, ?_⟩
  · rintro rfl k hk
    have := hbyte k hk hk
    simpa using this
  · intro hks
    refine List.ext_getElem hlen fun k hk hk' => ?_
    have := hbyte k hk hk'
    rw [hks k hk] at this
    simpa using this

/-- A text that looks the same under another stream. -/
theorem xorStream_shift (pick : UInt8 → UInt8) (n : ℕ) :
    xorStream ks ((List.range n).map fun k => pick (ks k ^^^ ks' k)) =
      xorStream ks' ((List.range n).map fun k => pick (ks k ^^^ ks' k) ^^^ (ks k ^^^ ks' k)) := by
  refine List.ext_getElem (by simp) fun k hk hk' => ?_
  simp only [xorStream, List.getElem_mapIdx, List.getElem_map, List.getElem_range]
  rw [UInt8.xor_assoc, UInt8.xor_assoc, UInt8.xor_self, UInt8.xor_zero]

end Keystream
