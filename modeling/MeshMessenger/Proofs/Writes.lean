import MeshMessenger.Server.Writes

/-! Writes deliver an exact prefix: what was accepted during a call of `ssl_safe_write`,
what its result says about it, and that the two definitions agree. -/

namespace Mesh

open CLib

/-! ### Conversions to int -/

theorem intOfSize_eq (n : ℕ) :
    intOfSize n = if n % 4294967296 < 2147483648 then (n % 4294967296 : ℤ)
      else (n % 4294967296 : ℤ) - 4294967296 := by
  unfold intOfSize
  rw [Int.bmod_def]
  split_ifs <;> omega

theorem intOfSize_lt (n : ℕ) : intOfSize n < 2 ^ 31 := by
  rw [intOfSize_eq]
  split_ifs <;> omega

theorem intOfSize_of_lt {n : ℕ} (h : n < 2 ^ 31) : intOfSize n = n := by
  rw [intOfSize_eq]
  split_ifs <;> omega

theorem intOfSize_toNat_le (n : ℕ) : (intOfSize n).toNat ≤ n := by
  rw [intOfSize_eq]
  split_ifs <;> omega

/-- While the number of bytes offered is positive, it is what is missing from the length
read as an `int`. -/
theorem intOfSize_sub {len total : ℕ} (hlen : total ≤ len) (h : total ≤ (intOfSize len).toNat)
    (hpos : 0 < intOfSize (len - total)) :
    (intOfSize (len - total)).toNat + total = (intOfSize len).toNat := by
  rw [intOfSize_eq (len - total), Nat.cast_sub hlen] at *
  rw [intOfSize_eq len] at *
  split_ifs at * <;> omega

/-- The bytes written never outgrow the length read as an `int`, whatever is accepted. -/
theorem total_after_write {len total n : ℕ} (hlen : total ≤ len)
    (h : total ≤ (intOfSize len).toNat) (hpos : 0 < intOfSize (len - total))
    (hn : n ≤ (intOfSize (len - total)).toNat) : total + n ≤ (intOfSize len).toNat := by
  have hsub := intOfSize_sub hlen h hpos
  omega

/-! ### The loop -/

section Loop

variable {data : Bytes} {running : ℕ → Bool} {total : ℕ}

theorem sslWriteLoop_stop (h : ¬ (total < data.length ∧ running 0 = true))
    (script : List SslWrite) :
    sslWriteLoop data running total script = .returned (intOfSize total) := by
  cases script <;> simp [sslWriteLoop, h]

/-- What one answered call does, and the test before it. -/
theorem sslWriteLoop_cons (h : total < data.length ∧ running 0 = true) (outcome : SslWrite)
    (script : List SslWrite) :
    (∃ n, outcome.reply (intOfSize (data.length - total)) = .wrote n ∧
      sslWriteLoop data running total (outcome :: script) =
        (sslWriteLoop data (fun k => running (k + 1)) (total + n) script).after
          ((data.drop total).take n) (.wrote n)) ∨
    sslWriteLoop data running total (outcome :: script) =
      (sslWriteLoop data (fun k => running (k + 1)) total script).after [] .retry ∨
    sslWriteLoop data running total (outcome :: script) =
      (Written.returned (-1)).after [] .fatal := by
  rw [sslWriteLoop, if_pos h]
  cases hreply : outcome.reply (intOfSize (data.length - total)) with
  | wrote n => exact Or.inl ⟨n, rfl, rfl⟩
  | retry => exact Or.inr (Or.inl rfl)
  | fatal => exact Or.inr (Or.inr rfl)

theorem reply_wrote {num : ℤ} {outcome : SslWrite} {n : ℕ} (h : outcome.reply num = .wrote n) :
    0 < num ∧ n ≤ num.toNat := by
  cases outcome with
  | accept extra =>
    rw [SslWrite.reply] at h
    split_ifs at h with hnum
    rw [← WriteReply.wrote.inj h]
    exact ⟨hnum, min_le_right _ _⟩
  | want => cases h
  | fatal => cases h

/-- What holds of a call that has written `total` bytes and then does `w`. -/
structure Delivers (data : Bytes) (running : ℕ → Bool) (total : ℕ) (script : List SslWrite)
    (w : Written) : Prop where
  wire : w.wire <+: data.drop total
  fatal_iff : w.result = some (-1) ↔ WriteReply.fatal ∈ w.replies
  result_eq : ∀ r, w.result = some r → WriteReply.fatal ∉ w.replies → r = total + w.wire.length
  full : (∀ k, running k = true) → w.result ≠ none → WriteReply.fatal ∉ w.replies →
    w.wire = data.drop total
  waiting_iff : w.result = none ↔ w.replies.length = script.length ∧
    WriteReply.fatal ∉ w.replies ∧ total + w.wire.length < data.length ∧
    ∀ k ≤ script.length, running k = true

theorem delivers_stop (hstop : ¬ (total < data.length ∧ running 0 = true))
    (htotal : total ≤ (intOfSize data.length).toNat) (script : List SslWrite) :
    Delivers data running total script (.returned (intOfSize total)) := by
  have hcast : intOfSize total = total := by
    have := intOfSize_lt data.length
    exact intOfSize_of_lt (by omega)
  rw [hcast]
  refine ⟨List.nil_prefix, ?_, ?_, ?_, ?_⟩
  · have hne : ((total : ℤ)) ≠ -1 := by omega
    simp [Written.returned, hne]
  · intro r hr _
    simpa [Written.returned] using (Option.some.inj hr).symm
  · intro hrun _ _
    have hlen : data.length ≤ total := by
      by_contra hlt
      exact hstop ⟨by omega, hrun 0⟩
    rw [List.drop_eq_nil_of_le hlen]
    rfl
  · refine iff_of_false (by simp [Written.returned]) ?_
    rintro ⟨-, -, hlt, hset⟩
    exact hstop ⟨by simpa [Written.returned] using hlt, hset 0 (Nat.zero_le _)⟩

theorem delivers_fatal {outcome : SslWrite} {script : List SslWrite} :
    Delivers data running total (outcome :: script) ((Written.returned (-1)).after [] .fatal) := by
  refine ⟨List.nil_prefix, ?_, ?_, ?_, ?_⟩ <;> simp [Written.after, Written.returned]

/-- An answered call that accepts the next `n` bytes, or that is to be repeated, `n = 0`. -/
theorem delivers_after {n : ℕ} (hn : total + n ≤ data.length) (hrun : running 0 = true)
    {outcome : SslWrite} {script : List SslWrite} {reply : WriteReply} (hreply : reply ≠ .fatal)
    {w : Written} (h : Delivers data (fun k => running (k + 1)) (total + n) script w) :
    Delivers data running total (outcome :: script)
      (w.after ((data.drop total).take n) reply) := by
  have hsplit : (data.drop total).take n ++ data.drop (total + n) = data.drop total := by
    rw [← List.drop_drop, List.take_append_drop]
  have hlength : ((data.drop total).take n ++ w.wire).length = n + w.wire.length := by
    rw [List.length_append, List.length_take, List.length_drop]
    omega
  have hfatal : WriteReply.fatal ∈ reply :: w.replies ↔ WriteReply.fatal ∈ w.replies := by
    simp [hreply.symm]
  refine ⟨?_, ?_, ?_, ?_, ?_⟩
  · have hprefix := (List.prefix_append_right_inj ((data.drop total).take n)).2 h.wire
    rwa [hsplit] at hprefix
  · exact h.fatal_iff.trans hfatal.symm
  · intro r hr hnot
    rw [h.result_eq r hr (hfatal.not.1 hnot), Written.after, hlength]
    push_cast
    ring
  · intro hset hres hnot
    rw [Written.after, h.full (fun k => hset (k + 1)) hres (hfatal.not.1 hnot), hsplit]
  · have hset : (∀ k ≤ script.length + 1, running k = true) ↔
        ∀ k ≤ script.length, running (k + 1) = true := by
      refine ⟨fun h k hk => h (k + 1) (by omega), fun h k hk => ?_⟩
      cases k with
      | zero => exact hrun
      | succ k => exact h k (by omega)
    rw [Written.after, h.waiting_iff, hfatal, hlength, List.length_cons, List.length_cons, hset,
      Nat.add_right_cancel_iff, Nat.add_assoc]

theorem sslWriteLoop_delivers (script : List SslWrite) (hlen : total ≤ data.length)
    (htotal : total ≤ (intOfSize data.length).toNat) :
    Delivers data running total script (sslWriteLoop data running total script) := by
  induction script generalizing running total with
  | nil =>
    by_cases hgo : total < data.length ∧ running 0 = true
    · rw [sslWriteLoop, if_pos hgo]
      refine ⟨List.nil_prefix, ?_, ?_, ?_, ?_⟩ <;> simp [Written.waiting, hgo.1, hgo.2]
    · rw [sslWriteLoop_stop hgo]
      exact delivers_stop hgo htotal []
  | cons outcome script ih =>
    by_cases hgo : total < data.length ∧ running 0 = true
    · obtain ⟨n, hreply, hloop⟩ | hloop | hloop := sslWriteLoop_cons hgo outcome script
      · obtain ⟨hpos, hn⟩ := reply_wrote hreply
        have hnext := total_after_write hlen htotal hpos hn
        have hbound := hnext.trans (intOfSize_toNat_le data.length)
        rw [hloop]
        exact delivers_after hbound hgo.2 (by simp) (ih hbound hnext)
      · rw [hloop]
        exact delivers_after (n := 0) hlen hgo.2 (by simp) (ih hlen htotal)
      · rw [hloop]
        exact delivers_fatal
    · rw [sslWriteLoop_stop hgo]
      exact delivers_stop hgo htotal _

theorem sslWriteLoopSecond_eq (hrun : ∀ k, running k = true) (script : List SslWrite) :
    sslWriteLoopSecond data total script = sslWriteLoop data running total script := by
  induction script generalizing running total with
  | nil => simp [sslWriteLoopSecond, sslWriteLoop, hrun 0]
  | cons outcome script ih =>
    have hnext : ∀ k, running (k + 1) = true := fun k => hrun (k + 1)
    simp only [sslWriteLoopSecond, sslWriteLoop, hrun 0, and_true, ih hnext]

end Loop

/-! ### Whole calls -/

/-- Where the script ends, what was accepted is a prefix of the data. A call that has
returned returned -1 exactly if it met a fatal outcome, and otherwise the number of bytes
accepted, all of them while the server is running, where the second definition does the
same. A call has not returned only where every outcome of the script was used up, none of
them fatal, and there is still data to write and the server still running. -/
theorem ssl_safe_write_delivers (data : Bytes) (running : ℕ → Bool) (script : List SslWrite) :
    let w := sslSafeWrite data running script
    w.wire <+: data ∧
    (w.result = some (-1) ↔ WriteReply.fatal ∈ w.replies) ∧
    (WriteReply.fatal ∉ w.replies → ∀ r, w.result = some r →
      r = w.wire.length ∧ ((∀ k, running k = true) → w.wire = data)) ∧
    ((∀ k, running k = true) → sslSafeWriteSecond data script = w) ∧
    (w.result = none ↔ w.replies.length = script.length ∧ WriteReply.fatal ∉ w.replies ∧
      w.wire.length < data.length ∧ ∀ k ≤ script.length, running k = true) := by
  have h : Delivers data running 0 script (sslSafeWrite data running script) :=
    sslWriteLoop_delivers script (Nat.zero_le _) (Nat.zero_le _)
  refine ⟨h.wire, h.fatal_iff, fun hfatal r hr => ⟨?_, fun hset => ?_⟩, fun hset => ?_, ?_⟩
  · simpa using h.result_eq r hr hfatal
  · exact h.full hset (by simp [hr]) hfatal
  · exact sslWriteLoopSecond_eq hset script
  · simpa using h.waiting_iff

/-- Four bytes in three writes with a retry between them, and the same with the server
stopped after the first. -/
example :
    sslSafeWrite [1, 2, 3, 4] (fun _ => true) [.accept 0, .want, .accept 1, .accept 7] =
      ⟨some 4, [1, 2, 3, 4], [.wrote 1, .retry, .wrote 2, .wrote 1]⟩ ∧
    sslSafeWrite [1, 2, 3, 4] (fun k => decide (k < 1)) [.accept 0, .want, .accept 1] =
      ⟨some 1, [1], [.wrote 1]⟩ := by decide

end Mesh
