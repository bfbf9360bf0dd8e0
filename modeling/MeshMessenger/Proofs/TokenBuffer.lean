import MeshMessenger.Server.Util

/-! Where `generate_secure_token` writes, and what the buffer holds afterwards. -/

namespace Mesh

open CLib

/-! ### The loop -/

/-- The memory begins with these bytes. -/
def Begins (m : Memory) (s : Bytes) : Prop := ∀ i (h : i < s.length), m i = s[i]

theorem Holds.begins {m : Memory} {s : Bytes} (h : Holds m s) : Begins m s := h.byte

/-- A string stored right after some bytes continues them. -/
theorem Begins.store {m : Memory} {s : Bytes} (h : Begins m s) (t : Bytes) :
    Holds (m.writeAll (stringWrites s.length t)) (s ++ t) := by
  refine ⟨fun i hi => ?_, ?_⟩
  · by_cases hs : i < s.length
    · rw [writeAll_stringWrites_lt hs, h i hs, List.getElem_append_left hs]
    · rw [List.length_append] at hi
      have ht : i - s.length < t.length := by omega
      have hget := writeAll_stringWrites_get (m := m) (o := s.length) ht
      rw [Nat.add_sub_cancel' (by omega)] at hget
      rw [hget, List.getElem_append_right (by omega)]
  · rw [List.length_append]
    exact writeAll_stringWrites_length

/-- After the loop, the digits follow the bytes that were there before it. -/
theorem begins_digits {m : Memory} {s : Bytes} (h : Begins m s) (r : Bytes) {k : ℕ}
    (hk : s.length = k * 2) :
    Begins (m.writeAll ((r.zipIdx k).flatMap fun (b, i) =>
      stringWrites (i * 2) (snprintf 3 (hex2 b)))) (s ++ r.flatMap hex2) := by
  induction r generalizing m s k with
  | nil =>
    rw [List.flatMap_nil, List.append_nil]
    exact h
  | cons b r ih =>
    have hstore := (h.store (hex2 b)).begins
    rw [hk] at hstore
    have hlen : (s ++ hex2 b).length = (k + 1) * 2 := by
      rw [List.length_append, hk, hex2_length]
      omega
    have hrest := ih hstore hlen
    rw [List.zipIdx_cons, List.flatMap_cons, writeAll_append, List.flatMap_cons,
      ← List.append_assoc]
    exact hrest

/-- A zero stored within the bytes ends the string there. -/
theorem Begins.terminate {m : Memory} {s : Bytes} (h : Begins m s) {k : ℕ} (hk : k ≤ s.length) :
    Holds (m.writeAll [(k, 0)]) (s.take k) := by
  have hlen : (s.take k).length = k := by rw [List.length_take, Nat.min_eq_left hk]
  refine ⟨fun i hi => ?_, ?_⟩
  · have hne : i ≠ k := by omega
    have hupdate : m.writeAll [(k, 0)] i = m i := Function.update_of_ne hne _ _
    rw [hupdate, h i (by omega), List.getElem_take]
  · rw [hlen]
    exact Function.update_self _ _ _

/-- The buffer holds the token of the model. -/
theorem tokenWrites_holds (m : Memory) (r : TokenBytes) :
    Holds (m.writeAll (tokenWrites r.val)) ((r.val.flatMap hex2).take tokenLength) := by
  have hempty : Begins m [] := fun i hi => absurd hi (by simp)
  have hdigits := begins_digits hempty r.val (k := 0) rfl
  rw [tokenWrites, writeAll_append]
  refine hdigits.terminate ?_
  rw [List.nil_append, flatMap_hex2_length, r.property]
  decide

/-! ### The indices -/

theorem mem_tokenWrites {r : Bytes} {k : ℕ} :
    (∃ w ∈ tokenWrites r, w.1 = k) ↔
      (∃ i < r.length, i * 2 ≤ k ∧ k ≤ i * 2 + 2) ∨ k = tokenLength := by
  have hdigits (b : UInt8) (i : ℕ) :
      (∃ w ∈ stringWrites (i * 2) (snprintf 3 (hex2 b)), w.1 = k) ↔ i * 2 ≤ k ∧ k ≤ i * 2 + 2 :=
    mem_stringWrites
  refine ⟨?_, ?_⟩
  · rintro ⟨w, hw, hk⟩
    rcases List.mem_append.1 hw with hw | hw
    · obtain ⟨⟨b, i⟩, hmem, hw⟩ := List.mem_flatMap.1 hw
      rw [List.mk_mem_zipIdx_iff_getElem?, List.getElem?_eq_some_iff] at hmem
      exact .inl ⟨i, hmem.1, (hdigits b i).1 ⟨w, hw, hk⟩⟩
    · rw [List.mem_singleton.1 hw] at hk
      exact .inr hk.symm
  · rintro (⟨i, hi, hk⟩ | rfl)
    · obtain ⟨w, hw, heq⟩ := (hdigits r[i] i).2 hk
      refine ⟨w, List.mem_append_left _ (List.mem_flatMap.2 ⟨(r[i], i), ?_, hw⟩), heq⟩
      rw [List.mk_mem_zipIdx_iff_getElem?, List.getElem?_eq_getElem hi]
    · exact ⟨(tokenLength, 0), List.mem_append_right _ (List.mem_singleton_self _), rfl⟩

/-- The last digits end at index 128. -/
theorem tokenWrites_lt_iff (r : TokenBytes) (len : ℕ) :
    (∀ w ∈ tokenWrites r.val, w.1 < len) ↔ 129 ≤ len := by
  have hlen : r.val.length = 64 := r.property
  refine ⟨fun h => ?_, fun h w hw => ?_⟩
  · have hlast : ∃ i < r.val.length, i * 2 ≤ 128 ∧ 128 ≤ i * 2 + 2 := ⟨63, by omega, by omega⟩
    obtain ⟨w, hw, heq⟩ := mem_tokenWrites.2 (.inl hlast)
    have := h w hw
    omega
  · rcases mem_tokenWrites.1 ⟨w, hw, rfl⟩ with ⟨i, hi, -, hle⟩ | heq
    · omega
    · simp only [tokenLength] at heq
      omega

/-! ### Safety -/

/-- All the writes stay in the buffer, and on success it holds a string of `TOKEN_LENGTH`
hexadecimal digits that are those of all the bytes drawn. -/
structure TokenSafe (m : Memory) (len : ℕ) (random : Option TokenBytes) : Prop where
  in_bounds : ∀ w ∈ (generateSecureTokenWrites len random).2, w.1 < len
  encodes : (generateSecureTokenWrites len random).1 = true → ∃ r token, random = some r ∧
    Holds (m.writeAll (generateSecureTokenWrites len random).2) token ∧
    token.length = tokenLength ∧ token = r.val.flatMap hex2

/-- For every buffer that passes the length check and every outcome of `RAND_bytes`: the
writes stay in the buffer if and only if there are none or it has 129 bytes; the string
is the model's token, 64 digits of the first half of the bytes; and the whole is safe if
and only if `RAND_bytes` failed. -/
theorem token_safe_iff (m : Memory) {len : ℕ} (hlen : tokenLength + 1 ≤ len)
    (random : Option TokenBytes) :
    ((∀ w ∈ (generateSecureTokenWrites len random).2, w.1 < len) ↔
        random = none ∨ 129 ≤ len) ∧
      (∀ token, generateSecureToken len random = some token →
        Holds (m.writeAll (generateSecureTokenWrites len random).2) token) ∧
      (TokenSafe m len random ↔ random = none) := by
  have hguard : ¬ len < tokenLength + 1 := by omega
  cases random with
  | none =>
    have hwrites : generateSecureTokenWrites len none = (false, []) := if_neg hguard
    refine ⟨?_, ?_, ?_⟩
    · simp [hwrites]
    · intro token htoken
      simp [generateSecureToken] at htoken
    · refine iff_of_true ⟨?_, ?_⟩ rfl
      · simp [hwrites]
      · simp [hwrites]
  | some r =>
    have hwrites : generateSecureTokenWrites len (some r) = (true, tokenWrites r.val) :=
      if_neg hguard
    refine ⟨?_, ?_, ?_⟩
    · rw [hwrites, tokenWrites_lt_iff]
      simp
    · intro token htoken
      rw [generateSecureToken, if_neg hguard, Option.map_some, Option.some.injEq] at htoken
      rw [hwrites, ← htoken]
      exact tokenWrites_holds m r
    · refine iff_of_false (fun h => ?_) (by simp)
      -- 64 digits cannot be those of 64 bytes
      obtain ⟨r', token, -, -, hlength, rfl⟩ := h.encodes (by rw [hwrites])
      rw [flatMap_hex2_length, r'.property] at hlength
      exact absurd hlength (by decide)

/-- With the buffer of `process_registration`, a failed draw writes nothing. -/
theorem token_safe_failed_draw : TokenSafe (fun _ => 0) (tokenLength + 1) none :=
  (token_safe_iff (fun _ => 0) le_rfl none).2.2.2 rfl

/-- With that buffer, of 65 bytes, a draw of zeros is written up to index 128. -/
theorem token_written_past_buffer :
    let random : TokenBytes := ⟨List.replicate tokenLength 0, List.length_replicate⟩
    (128, 0) ∈ (generateSecureTokenWrites (tokenLength + 1) (some random)).2 ∧
      ¬ TokenSafe (fun _ => 0) (tokenLength + 1) (some random) := by
  intro random
  have hmem : (128, 0) ∈ (generateSecureTokenWrites (tokenLength + 1) (some random)).2 := by
    decide
  exact ⟨hmem, fun h => absurd (h.in_bounds _ hmem) (by decide)⟩

end Mesh
