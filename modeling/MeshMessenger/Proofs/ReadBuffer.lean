import MeshMessenger.Server.ReadBuffer
import MeshMessenger.Proofs.Writes

/-! Reads stay in the buffer and lose nothing, for the buffers whose size an `int` can
express. What the loop has in its cells is what it has read, followed by the cells that it
has not touched. -/

namespace Mesh

open CLib

/-! ### Sizes and cells -/

theorem sizeSub_of_le {a b : ℕ} (hb : b ≤ a) (ha : a < 2 ^ 64) : sizeSub a b = a - b := by
  unfold sizeSub
  omega

/-- The `int` that is passed while the room before the last cell is one. -/
theorem request_eq {maxLen total : ℕ} (hmax : maxLen ≤ 2 ^ 31) (htotal : total < maxLen - 1) :
    intOfSize (sizeSub (sizeSub maxLen total) 1) = (maxLen - 1 - total : ℕ) := by
  have hroom : sizeSub maxLen total = maxLen - total := sizeSub_of_le (by omega) (by omega)
  rw [hroom, sizeSub_of_le (by omega) (by omega), intOfSize_of_lt (by omega)]
  congr 1
  omega

section Cells

variable {content rest : Bytes}

theorem storeAt_content {s : Bytes} (h : s.length ≤ rest.length) :
    storeAt (content ++ rest) content.length s = some (content ++ s ++ rest.drop s.length) := by
  have hfits : content.length + s.length ≤ (content ++ rest).length := by
    rw [List.length_append]
    omega
  rw [storeAt, if_pos hfits, List.take_left' rfl, List.drop_length_add_append]

theorem finish_content (hrest : rest ≠ []) (hsmall : content.length < 2 ^ 31) :
    Reading.finish (content ++ rest) content.length =
      ⟨[], .returned content.length content.length (content ++ 0 :: rest.drop 1)⟩ := by
  have hone : [(0 : UInt8)].length ≤ rest.length := List.length_pos_of_ne_nil hrest
  rw [Reading.finish, storeAt_content hone, intOfSize_of_lt hsmall, List.append_assoc]
  rfl

theorem finish_requests (buffer : Bytes) (total : ℕ) :
    (Reading.finish buffer total).requests = [] := by
  unfold Reading.finish
  split
  · rfl
  · rfl

/-- The last byte that a chunk brought. -/
theorem getElem?_last_read {chunk : Bytes} (hchunk : chunk ≠ []) (cells : Bytes) :
    (content ++ chunk ++ cells)[(content ++ chunk).length - 1]? = chunk.getLast? := by
  have hpos := List.length_pos_of_ne_nil hchunk
  rw [List.length_append, List.getElem?_append_left (by rw [List.length_append]; omega),
    List.getElem?_append_right (by omega), List.getLast?_eq_getElem?]
  congr 1
  omega

/-- One call that brings data: the chunk follows what was read before, in the cells too. -/
theorem sslReadCells_data {maxLen room : ℕ} (hgo : content.length < sizeSub maxLen 1)
    (hnum : intOfSize (sizeSub (sizeSub maxLen content.length) 1) = (room + 1 : ℕ))
    (hroom : room + 1 ≤ rest.length) (b : UInt8) (bs : Bytes) (script : List SslRead) :
    sslReadCells maxLen (content ++ rest) content.length (.data b bs :: script) =
      let chunk := (b :: bs).take (room + 1)
      let cells := content ++ chunk ++ rest.drop chunk.length
      (if chunk.getLast? = some newline then Reading.finish cells (content ++ chunk).length
        else sslReadCells maxLen cells (content ++ chunk).length script).after
          ⟨content.length, (room + 1 : ℕ)⟩ := by
  have hreply : (SslRead.data b bs).reply (room + 1 : ℕ) = .read ((b :: bs).take (room + 1)) := by
    rw [SslRead.reply, if_pos (by omega), Int.toNat_natCast]
  have hchunk : (b :: bs).take (room + 1) ≠ [] := by simp
  have hshort : ((b :: bs).take (room + 1)).length ≤ rest.length := by
    rw [List.length_take]
    omega
  rw [sslReadCells, if_pos hgo, hnum]
  simp only [hreply, storeAt_content hshort]
  rw [← List.length_append, getElem?_last_read hchunk]
  split_ifs
  · rfl
  · rfl

end Cells

/-! ### The loop -/

/-- What the loop does from where it has `content` in the cells before `rest`. -/
structure ReadsOn (maxLen : ℕ) (content rest : Bytes) (more : List Bytes × Bool) (r : Reading) :
    Prop where
  requests : ∀ request ∈ r.requests,
    1 ≤ request.num ∧ request.total + request.num ≤ maxLen - 1
  fits : content.length + more.1.flatten.length ≤ maxLen - 1
  last : r.last =
    if more.2 then
      .returned (content ++ more.1.flatten).length (content ++ more.1.flatten).length
        (content ++ more.1.flatten ++ 0 :: rest.drop (more.1.flatten.length + 1))
    else .waiting (content ++ more.1.flatten).length
      (content ++ more.1.flatten ++ rest.drop more.1.flatten.length)

section Loop

variable {maxLen : ℕ} {content rest : Bytes} {more : List Bytes × Bool} {r : Reading}

theorem ReadsOn.after (h : ReadsOn maxLen content rest more r) {request : Request}
    (hrequest : 1 ≤ request.num ∧ request.total + request.num ≤ maxLen - 1) :
    ReadsOn maxLen content rest more (r.after request) where
  requests := List.forall_mem_cons.2 ⟨hrequest, h.requests⟩
  fits := h.fits
  last := h.last

/-- The loop ends, and nothing more is read. -/
theorem readsOn_finish (hmax : maxLen ≤ 2 ^ 31) (hlen : content.length + rest.length = maxLen)
    (hroom : content.length ≤ maxLen - 1) (hpos : 1 ≤ maxLen) :
    ReadsOn maxLen content rest ([], true) (.finish (content ++ rest) content.length) := by
  have hrest : rest ≠ [] := List.ne_nil_of_length_pos (by omega)
  rw [finish_content hrest (by omega)]
  exact ⟨by simp, by simpa using hroom, by simp⟩

/-- A chunk is read, and then whatever is read with it in the cells. -/
theorem ReadsOn.chunk {chunk : Bytes} {later : List Bytes × Bool}
    (h : ReadsOn maxLen (content ++ chunk) (rest.drop chunk.length) later r) :
    ReadsOn maxLen content rest (chunk :: later.1, later.2) r where
  requests := h.requests
  fits := by
    have hfits := h.fits
    simp only [List.length_append, List.flatten_cons] at hfits ⊢
    omega
  last := by
    rw [h.last]
    simp only [List.flatten_cons, List.append_assoc, List.drop_drop, List.length_append]
    rw [Nat.add_assoc]

theorem sslReadCells_readsOn (hmax : maxLen ≤ 2 ^ 31) (script : List SslRead)
    (hlen : content.length + rest.length = maxLen) (hroom : content.length ≤ maxLen - 1)
    (hpos : 1 ≤ maxLen) :
    ReadsOn maxLen content rest (taken (maxLen - 1 - content.length) script)
      (sslReadCells maxLen (content ++ rest) content.length script) := by
  have hsize : sizeSub maxLen 1 = maxLen - 1 := sizeSub_of_le hpos (by omega)
  -- by induction on the script, for whatever has been read so far
  induction script generalizing content rest with
  | nil =>
    by_cases hfull : content.length < maxLen - 1
    · obtain ⟨room, hroom'⟩ : ∃ k, maxLen - 1 - content.length = k + 1 :=
        ⟨maxLen - 1 - content.length - 1, by omega⟩
      rw [sslReadCells, hsize, if_pos hfull, hroom', taken]
      exact ⟨by simp, by simpa using hroom, by simp⟩
    · have hzero : maxLen - 1 - content.length = 0 := by omega
      rw [sslReadCells, hsize, if_neg hfull, hzero, taken]
      exact readsOn_finish hmax hlen hroom hpos
  | cons outcome script ih =>
    by_cases hfull : content.length < maxLen - 1
    · obtain ⟨room, hroom'⟩ : ∃ k, maxLen - 1 - content.length = k + 1 :=
        ⟨maxLen - 1 - content.length - 1, by omega⟩
      have hnum := request_eq hmax hfull
      rw [hroom'] at hnum
      have hrequest : 1 ≤ ((room + 1 : ℕ) : ℤ) ∧
          (content.length : ℤ) + (room + 1 : ℕ) ≤ (maxLen : ℤ) - 1 := by omega
      rw [hroom']
      cases outcome with
      | wantRead =>
        have hnext := ih hlen hroom
        rw [hroom'] at hnext
        rw [sslReadCells, hsize, if_pos hfull, hnum]
        exact hnext.after hrequest
      | fail =>
        rw [sslReadCells, hsize, if_pos hfull, hnum]
        exact (readsOn_finish hmax hlen hroom hpos).after hrequest
      | data b bs =>
        have hshort : ((b :: bs).take (room + 1)).length ≤ room + 1 := List.length_take_le _ _
        rw [sslReadCells_data (hsize ▸ hfull) hnum (by omega), taken]
        generalize (b :: bs).take (room + 1) = chunk at hshort ⊢
        have hcells : (content ++ chunk).length + (rest.drop chunk.length).length = maxLen := by
          rw [List.length_append, List.length_drop]
          omega
        have hfits : (content ++ chunk).length ≤ maxLen - 1 := by
          rw [List.length_append]
          omega
        have hlater : maxLen - 1 - (content ++ chunk).length = room + 1 - chunk.length := by
          rw [List.length_append]
          omega
        refine ReadsOn.after ?_ hrequest
        split_ifs
        · exact (readsOn_finish hmax hcells hfits hpos).chunk
        · have hnext := ih hcells hfits
          rw [hlater] at hnext
          exact hnext.chunk
    · have hzero : maxLen - 1 - content.length = 0 := by omega
      rw [sslReadCells, hsize, if_neg hfull, hzero, taken]
      exact readsOn_finish hmax hlen hroom hpos

end Loop

/-! ### Whole calls -/

theorem readsWell_of_readsOn {maxLen : ℕ} {buffer : Bytes} {script : List SslRead} {r : Reading}
    (h : ReadsOn maxLen [] buffer (taken (maxLen - 1) script) r) :
    ReadsWell maxLen buffer script r where
  requests := h.requests
  last := ⟨by simpa using h.fits, by simpa using h.last⟩

/-- The reads of the machine take the same chunks. -/
theorem sslReadLoop_taken {maxLen : ℕ} (script : List SslRead) (acc : Bytes) :
    (sslReadLoop maxLen acc script).1 =
      acc ++ (taken (maxLen - 1 - acc.length) script).1.flatten := by
  induction script generalizing acc with
  | nil =>
    cases maxLen - 1 - acc.length with
    | zero => simp [sslReadLoop, taken]
    | succ room => simp [sslReadLoop, taken]
  | cons outcome script ih =>
    by_cases hgo : acc.length < maxLen - 1
    · obtain ⟨room, hroom⟩ : ∃ k, maxLen - 1 - acc.length = k + 1 :=
        ⟨maxLen - 1 - acc.length - 1, by omega⟩
      cases outcome with
      | wantRead => simp only [sslReadLoop, hgo, if_true, ih, hroom, taken]
      | fail => simp [sslReadLoop, hgo, hroom, taken]
      | data b bs =>
        have hrequest : maxLen - acc.length - 1 = room + 1 := by omega
        have hlast : (acc ++ (b :: bs).take (room + 1)).getLast? =
            ((b :: bs).take (room + 1)).getLast? :=
          List.getLast?_append_of_ne_nil _ (by simp)
        simp only [sslReadLoop, hgo, if_true, hrequest, hlast, hroom, taken]
        by_cases hnewline : ((b :: bs).take (room + 1)).getLast? = some newline
        · rw [if_pos (Or.inl hnewline), if_pos hnewline, List.flatten_singleton]
        · rw [if_neg hnewline, List.flatten_cons]
          by_cases hmore : room + 1 < (b :: bs).length
          · -- the chunk was cut, so the buffer is full
            have hfull : room + 1 - ((b :: bs).take (room + 1)).length = 0 := by
              rw [List.length_take]
              omega
            rw [if_pos (Or.inr hmore), hfull, taken, List.flatten_nil, List.append_nil]
          · have hlater : maxLen - 1 - (acc ++ (b :: bs).take (room + 1)).length =
                room + 1 - ((b :: bs).take (room + 1)).length := by
              rw [List.length_append]
              omega
            rw [if_neg (not_or.2 ⟨hnewline, hmore⟩), ih, hlater, List.append_assoc]
    · have hzero : maxLen - 1 - acc.length = 0 := by omega
      rw [sslReadLoop_full hgo, hzero, taken, List.flatten_nil, List.append_nil]

/-- In the buffer of the handler, before the terminator, a call that returns leaves what the
machine reads. -/
theorem sslSafeReadCells_bufferSize {buffer : Bytes} (hbuffer : buffer.length = bufferSize)
    {script : List SslRead} (hdone : (taken (bufferSize - 1) script).2 = true) :
    let s := (sslSafeRead bufferSize script).1
    (sslSafeReadCells bufferSize buffer script).last =
      .returned s.length s.length (s ++ 0 :: buffer.drop (s.length + 1)) := by
  have hloop : ReadsOn bufferSize [] buffer _ (sslSafeReadCells bufferSize buffer script) :=
    sslReadCells_readsOn (by decide) script (by simpa using hbuffer) (Nat.zero_le _) (by decide)
  have hlast := hloop.last
  simp only [List.length_nil, Nat.sub_zero, hdone, if_true, List.nil_append] at hlast
  rw [sslSafeRead, sslReadLoop_taken, List.nil_append]
  exact hlast

/-- What the first call is asked for. -/
theorem first_request {maxLen : ℕ} (hroom : 0 < sizeSub maxLen 1) (buffer : Bytes) :
    ⟨0, intOfSize (sizeSub (sizeSub maxLen 0) 1)⟩ ∈
      (sslSafeReadCells maxLen buffer [.fail]).requests := by
  rw [sslSafeReadCells, sslReadCells, if_pos hroom]
  exact List.mem_cons_self

/-- What the second call is asked for, after all that the first one asked for. -/
theorem second_request {maxLen room : ℕ} {buffer : Bytes} (hbuffer : room + 1 ≤ buffer.length)
    (hnum : intOfSize (sizeSub (sizeSub maxLen 0) 1) = (room + 1 : ℕ))
    (hroom : room + 1 < sizeSub maxLen 1) :
    ⟨room + 1, intOfSize (sizeSub (sizeSub maxLen (room + 1)) 1)⟩ ∈
      (sslSafeReadCells maxLen buffer [.data 0 (List.replicate room 0), .fail]).requests := by
  have hchunk : (0 :: List.replicate room (0 : UInt8)).take (room + 1) =
      List.replicate (room + 1) 0 := by
    rw [← List.replicate_succ, List.take_replicate, min_self]
  have hlast : (List.replicate (room + 1) (0 : UInt8)).getLast? ≠ some newline := by
    rw [List.getLast?_replicate, if_neg (Nat.succ_ne_zero room)]
    decide
  have hgo : ([] : Bytes).length < sizeSub maxLen 1 := by
    rw [List.length_nil]
    omega
  have hdata := sslReadCells_data hgo hnum hbuffer 0 (List.replicate room 0) [.fail]
  rw [List.nil_append] at hdata
  rw [sslSafeReadCells, ← List.length_nil, hdata, hchunk]
  simp only [if_neg hlast, List.nil_append, List.length_replicate]
  rw [sslReadCells, if_pos hroom]
  exact List.mem_cons_of_mem _ List.mem_cons_self

/-- With a buffer of `max_len` cells, every call of `ssl_safe_read` stays in it and loses
nothing exactly if `max_len - 1` is an `int`. -/
theorem ssl_safe_read_reads_well_iff {maxLen : ℕ} (hpos : 1 ≤ maxLen) (hsize : maxLen < 2 ^ 64) :
    (∀ buffer script, buffer.length = maxLen →
      ReadsWell maxLen buffer script (sslSafeReadCells maxLen buffer script)) ↔
      maxLen ≤ 2 ^ 31 := by
  refine ⟨fun h => ?_, fun hmax buffer script hbuffer => readsWell_of_readsOn ?_⟩
  · by_contra hmax
    have hzero : sizeSub maxLen 0 = maxLen := sizeSub_of_le (Nat.zero_le _) hsize
    have hone : sizeSub maxLen 1 = maxLen - 1 := sizeSub_of_le hpos hsize
    have hcells : (List.replicate maxLen (0 : UInt8)).length = maxLen := List.length_replicate
    have hfirst := ((h _ [.fail] hcells).requests _ (first_request (by omega) _)).1
    obtain ⟨room, hroom⟩ : ∃ k : ℕ, intOfSize (maxLen - 1) = (k + 1 : ℕ) := by
      simp only [hzero, hone] at hfirst
      exact ⟨(intOfSize (maxLen - 1) - 1).toNat, by omega⟩
    -- the first request is what is left of the size modulo 2^32, so nothing is left for the
    -- second one
    have hsmall := intOfSize_lt (maxLen - 1)
    have hsecond := ((h _ [.data 0 (List.replicate room 0), .fail] hcells).requests _
      (second_request (by omega) (by rw [hzero, hone, hroom]) (by omega))).1
    have hrest : intOfSize (sizeSub (sizeSub maxLen (room + 1)) 1) = 0 := by
      have hleft : sizeSub maxLen (room + 1) = maxLen - (room + 1) :=
        sizeSub_of_le (by omega) hsize
      rw [hleft, sizeSub_of_le (by omega) (by omega), intOfSize_eq]
      rw [intOfSize_eq] at hroom
      split_ifs at hroom ⊢ <;> omega
    simp only [hrest] at hsecond
    omega
  · have hloop : ReadsOn maxLen [] buffer _ _ := sslReadCells_readsOn hmax script
      (by simpa using hbuffer) (Nat.zero_le _) hpos
    exact hloop

/-- A buffer of four cells, filled by the third chunk. -/
theorem ssl_safe_read_fills_four :
    ReadsWell 4 [7, 7, 7, 7] [.data 1 [], .wantRead, .data 2 [], .data 3 [4]]
      (sslSafeReadCells 4 [7, 7, 7, 7] [.data 1 [], .wantRead, .data 2 [], .data 3 [4]]) ∧
    (sslSafeReadCells 4 [7, 7, 7, 7] [.data 1 [], .wantRead, .data 2 [], .data 3 [4]]).last =
      .returned 3 3 [1, 2, 3, 0] :=
  ⟨(ssl_safe_read_reads_well_iff (by decide) (by decide)).2 (by decide) _ _ rfl, by decide⟩

/-- In a buffer of 2^31 + 1 cells the first call is asked for -2^31 bytes, and nothing is
read. -/
theorem huge_buffer_request :
    (sslSafeReadCells (2 ^ 31 + 1) (List.replicate (2 ^ 31 + 1) 0) [.data 104 [105]]).requests =
      [⟨0, -2 ^ 31⟩] ∧
    ¬ ReadsWell (2 ^ 31 + 1) (List.replicate (2 ^ 31 + 1) 0) [.data 104 [105]]
      (sslSafeReadCells (2 ^ 31 + 1) (List.replicate (2 ^ 31 + 1) 0) [.data 104 [105]]) := by
  have hgo : 0 < sizeSub (2 ^ 31 + 1) 1 := by decide
  have hnum : intOfSize (sizeSub (sizeSub (2 ^ 31 + 1) 0) 1) = -2 ^ 31 := by decide
  have hrequests (buffer : Bytes) :
      (sslSafeReadCells (2 ^ 31 + 1) buffer [.data 104 [105]]).requests = [⟨0, -2 ^ 31⟩] := by
    have hreply : (SslRead.data 104 [105]).reply (-2 ^ 31) = .failed := by decide
    rw [sslSafeReadCells, sslReadCells, if_pos hgo, hnum]
    simp only [hreply, Reading.after, finish_requests]
  refine ⟨hrequests _, fun h => ?_⟩
  have hbad := h.requests ⟨0, -2 ^ 31⟩ (hrequests _ ▸ List.mem_singleton_self _)
  exact absurd hbad.1 (by decide)

end Mesh
