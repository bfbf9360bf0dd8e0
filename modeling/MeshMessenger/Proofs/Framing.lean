import MeshMessenger.Lib.Lines
import MeshMessenger.Server.Input

/-! How the transport's cutting of a stream of lines shows in the commands. The
reader stops where a chunk ends in a newline, and not where a line ends. -/

namespace Mesh

open CLib Lines

/-- A line a client may send, without its newline. -/
structure StreamLine (line : Bytes) : Prop where
  newline_notMem : newline ∉ line
  nulFree : NulFree line
  length_le : line.length ≤ 8190

/-- The script delivers this stream, cut in some way and with any delays. -/
structure Cuts (script : List SslRead) (stream : Bytes) : Prop where
  no_fail : ∀ r ∈ script, r ≠ .fail
  bytes : script.flatMap SslRead.bytes = stream

/-- The non-empty sanitised lines, in order. -/
def expectedCommands (lines : List Bytes) : List Bytes :=
  (lines.map sanitizeInput).filter fun l => l ≠ []

/-- The stream with the ends of its chunks marked. -/
def marked (script : List SslRead) : List (UInt8 × Bool) :=
  script.flatMap fun r => mark r.bytes

/-- The stretches of the stream that end at a newline which ends its chunk, or after
8191 bytes. -/
def bursts (script : List SslRead) : List Bytes :=
  burstsFrom newline (bufferSize - 1) [] (marked script)

/-- What is left of a burst after filtering is one line and its newline, or newlines only. -/
def LineBurst (burst : Bytes) : Prop :=
  (∀ c ∈ sanitizeInput burst, c = newline) ∨
    ∃ line, newline ∉ line ∧ sanitizeInput burst = line ++ [newline]

/-! ### The reads are the bursts -/

theorem marked_cons (r : SslRead) (script : List SslRead) :
    marked (r :: script) = mark r.bytes ++ marked script := by simp [marked]

theorem marked_pending (s : Bytes) (script : List SslRead) :
    marked (SslRead.pending s ++ script) = mark s ++ marked script := by
  cases s with
  | nil => rfl
  | cons b bs => exact marked_cons _ _

theorem marked_bytes (script : List SslRead) :
    (marked script).map Prod.fst = script.flatMap SslRead.bytes := by
  simp [marked, List.map_flatMap, map_fst_mark]

theorem sslReadLoop_bursts {maxLen : ℕ} {script : List SslRead} (hscript : ∀ r ∈ script, r ≠ .fail)
    {acc : Bytes} (hacc : acc.length < maxLen - 1) :
    (∀ r ∈ (sslReadLoop maxLen acc script).2, r ≠ .fail) ∧
    burstsFrom newline (maxLen - 1) acc (marked script) =
      (if (sslReadLoop maxLen acc script).1 = [] then []
        else [(sslReadLoop maxLen acc script).1]) ++
        burstsFrom newline (maxLen - 1) [] (marked (sslReadLoop maxLen acc script).2) := by
  induction script generalizing acc with
  | nil =>
    refine ⟨by simp [sslReadLoop], ?_⟩
    by_cases hnil : acc = [] <;> simp [sslReadLoop, marked, burstsFrom, hnil]
  | cons r script ih =>
    have hrest : ∀ r ∈ script, r ≠ .fail := fun r hr => hscript r (by simp [hr])
    rw [marked_cons]
    cases r with
    | fail => exact absurd rfl (hscript .fail (by simp))
    | wantRead =>
      simp only [sslReadLoop, hacc, if_true]
      exact ih hrest hacc
    | data b bs =>
      have hpending (s : Bytes) : ∀ r ∈ SslRead.pending s ++ script, r ≠ .fail := by
        intro r hr
        rcases List.mem_append.1 hr with hr | hr
        · cases s <;> simp [SslRead.pending] at hr
          rw [hr]
          exact fun h => SslRead.noConfusion h
        · exact hrest r hr
      simp only [sslReadLoop, hacc, if_true, SslRead.bytes]
      set s := b :: bs with hs
      have hne : s ≠ [] := by simp [hs]
      have hroom : maxLen - acc.length - 1 = maxLen - 1 - acc.length := by omega
      rw [hroom]
      by_cases hfits : acc.length + s.length < maxLen - 1
      · have htake : s.take (maxLen - 1 - acc.length) = s := List.take_of_length_le (by omega)
        have hdrop : s.drop (maxLen - 1 - acc.length) = [] := List.drop_of_length_le (by omega)
        have hlast : (acc ++ s).getLast? = s.getLast? := List.getLast?_append_of_ne_nil _ hne
        rw [burstsFrom_short hne hfits, htake, hdrop, hlast]
        have hlt : ¬ maxLen - 1 - acc.length < s.length := by omega
        by_cases hnl : s.getLast? = some newline
        · simp only [hnl, true_or, if_true]
          refine ⟨hpending [], ?_⟩
          simp [hne, SslRead.pending]
        · simp only [hnl, hlt, or_false, if_false]
          exact ih hrest (by simpa using hfits)
      · rw [burstsFrom_long hacc (not_lt.1 hfits)]
        have hbuf : acc ++ s.take (maxLen - 1 - acc.length) ≠ [] := by
          simp [hs]
          omega
        by_cases hstop : (acc ++ s.take (maxLen - 1 - acc.length)).getLast? = some newline ∨
            maxLen - 1 - acc.length < s.length
        · simp only [hstop, if_true, hbuf, if_false, marked_pending]
          exact ⟨hpending _, rfl⟩
        · simp only [hstop, if_false]
          push Not at hstop
          have hdrop : s.drop (maxLen - 1 - acc.length) = [] := List.drop_of_length_le hstop.2
          have hfull : ¬ (acc ++ s.take (maxLen - 1 - acc.length)).length < maxLen - 1 := by
            rw [List.length_append, List.length_take]
            omega
          rw [sslReadLoop_full hfull, hdrop]
          simp only [hbuf, if_false]
          exact ⟨hrest, rfl⟩

theorem handlerCommands_eq {script : List SslRead} (hscript : ∀ r ∈ script, r ≠ .fail) :
    handlerCommands script = (bursts script).filterMap commandOf := by
  induction script using handlerCommands.induct with
  | case1 => rw [handlerCommands]; simp [bursts, marked, burstsFrom]
  | case2 script h ih =>
    obtain ⟨hrest, hbursts⟩ := sslReadLoop_bursts hscript
      (by decide : ([] : Bytes).length < bufferSize - 1)
    rw [handlerCommands, dif_neg h, ih hrest]
    unfold bursts sslSafeRead
    rw [hbursts, List.filterMap_append]
    congr 1
    split_ifs with hnil
    · rw [hnil]; rfl
    · cases hc : commandOf (sslReadLoop bufferSize [] script).1 <;> simp [hc]

/-! ### Lines and content -/

/-- How many bytes of a text are not newlines. -/
def content (s : Bytes) : ℕ := s.countP fun c => c != newline

theorem content_append (s t : Bytes) : content (s ++ t) = content s + content t :=
  List.countP_append

theorem content_flatten (ss : List Bytes) : content ss.flatten = (ss.map content).sum := by
  induction ss with
  | nil => rfl
  | cons s ss ih => rw [List.flatten_cons, content_append, ih, List.map_cons, List.sum_cons]

theorem content_eq_zero {s : Bytes} : content s = 0 ↔ ∀ c ∈ s, c = newline := by
  simp [content, List.countP_eq_zero]

theorem joinLines_cons (l : Bytes) (ls : List Bytes) :
    joinLines newline (l :: ls) = l ++ [newline] ++ joinLines newline ls := by simp [joinLines]

theorem content_joinLines (ls : List Bytes) :
    content (joinLines newline ls) = (ls.map content).sum := by
  induction ls with
  | nil => rfl
  | cons l ls ih =>
    rw [joinLines_cons, content_append, content_append, ih, List.map_cons, List.sum_cons]
    rfl

theorem sum_content_nonempty (ls : List Bytes) :
    ((ls.filter fun l => l ≠ []).map content).sum = (ls.map content).sum := by
  induction ls with
  | nil => rfl
  | cons l ls ih =>
    by_cases hl : l = []
    · simpa [hl, content] using ih
    · simpa [hl] using ih

theorem sanitizeInput_joinLines (lines : List Bytes) :
    sanitizeInput (joinLines newline lines) = joinLines newline (lines.map sanitizeInput) := by
  induction lines with
  | nil => rfl
  | cons l lines ih =>
    rw [List.map_cons, joinLines_cons, joinLines_cons, sanitizeInput_append, sanitizeInput_append,
      ih]
    rfl

theorem sanitizeInput_flatten (ss : List Bytes) :
    sanitizeInput ss.flatten = (ss.map sanitizeInput).flatten := by
  induction ss with
  | nil => rfl
  | cons s ss ih =>
    rw [List.flatten_cons, sanitizeInput_append, ih, List.map_cons, List.flatten_cons]

theorem newline_notMem_sanitizeInput {line : Bytes} (h : newline ∉ line) :
    newline ∉ sanitizeInput line := fun hmem => h ((sanitizeInput_sublist line).subset hmem)

/-! ### One burst -/

section burst

variable {burst : Bytes} (hnul : NulFree burst)
include hnul

theorem commandOf_eq : commandOf burst =
    if sanitizeInput burst = [] ∨ (sanitizeInput burst).head? = some newline then none
    else if (sanitizeInput burst).getLast? = some newline then some (sanitizeInput burst).dropLast
    else some (sanitizeInput burst) := by
  rw [commandOf, cstr_of_nulFree hnul]

/-- A burst of newlines gives no command. -/
theorem commandOf_newlines (h : ∀ c ∈ sanitizeInput burst, c = newline) :
    commandOf burst = none := by
  rw [commandOf_eq hnul, if_pos]
  cases hs : sanitizeInput burst with
  | nil => exact .inl rfl
  | cons c cs =>
    right
    rw [List.head?_cons, h c (by simp [hs])]

theorem commandOf_lineBurst {line : Bytes} (hline : newline ∉ line)
    (h : sanitizeInput burst = line ++ [newline]) :
    (commandOf burst).toList = [line].filter fun l => l ≠ [] := by
  rw [commandOf_eq hnul, h]
  cases line with
  | nil => rfl
  | cons c cs =>
    have hc : c ≠ newline := fun heq => hline (by simp [heq])
    rw [if_neg (by simp [hc]), if_pos List.getLast?_concat, List.dropLast_concat]
    simp

/-- The lines of a good burst, and the command it gives. -/
theorem LineBurst.lines (h : LineBurst burst) : ∃ ls, (∀ l ∈ ls, newline ∉ l) ∧
    sanitizeInput burst = joinLines newline ls ∧
    ls.filter (fun l => l ≠ []) = (commandOf burst).toList := by
  rcases h with h | ⟨line, hline, heq⟩
  · refine ⟨List.replicate (sanitizeInput burst).length [], by simp, ?_, ?_⟩
    · rw [List.eq_replicate_of_mem h]
      simp [joinLines, List.flatMap_replicate]
    · rw [commandOf_newlines hnul h]
      simp
  · refine ⟨[line], by simpa using hline, by simp [joinLines, heq], ?_⟩
    rw [commandOf_lineBurst hnul hline heq]

/-- A command keeps all the content of its burst. -/
theorem content_commandOf {command : Bytes} (h : commandOf burst = some command) :
    content command = content (sanitizeInput burst) := by
  have := commandOf_eq_some h
  rw [cstr_of_nulFree hnul] at this
  rcases this with h | h
  · rw [h]
  · rw [h, content_append]
    rfl

/-- A burst that loses no content and gives no newline in its command is good. -/
theorem lineBurst_of_commandOf (hnl : newline ∈ burst)
    (hsome : ∀ command ∈ commandOf burst, newline ∉ command)
    (hnone : commandOf burst = none → content (sanitizeInput burst) = 0) : LineBurst burst := by
  cases hcommand : commandOf burst with
  | none => exact .inl (content_eq_zero.1 (hnone hcommand))
  | some command =>
    have hnot := hsome command hcommand
    have hcases := commandOf_eq_some hcommand
    rw [cstr_of_nulFree hnul] at hcases
    rcases hcases with heq | heq
    · have hmem : newline ∈ sanitizeInput burst := List.mem_filter.2 ⟨hnl, by decide⟩
      rw [heq] at hmem
      exact absurd hmem hnot
    · exact .inr ⟨command, hnot, heq⟩

end burst

/-! ### All bursts -/

/-- The content that reaches a command. -/
def kept (burst : Bytes) : ℕ := ((commandOf burst).map content).getD 0

theorem sum_content_commands (bs : List Bytes) :
    ((bs.filterMap commandOf).map content).sum = (bs.map kept).sum := by
  induction bs with
  | nil => rfl
  | cons b bs ih =>
    cases h : commandOf b with
    | none => simpa [h, kept] using ih
    | some c => simpa [h, kept] using ih

theorem kept_le {burst : Bytes} (hnul : NulFree burst) :
    kept burst ≤ content (sanitizeInput burst) := by
  unfold kept
  cases h : commandOf burst with
  | none => simp
  | some c => simp [content_commandOf hnul h]

/-- If all content is kept, each burst keeps its own. -/
theorem kept_eq {bs : List Bytes} (hnul : ∀ b ∈ bs, NulFree b)
    (h : (bs.map kept).sum = (bs.map fun b => content (sanitizeInput b)).sum) :
    ∀ b ∈ bs, kept b = content (sanitizeInput b) := by
  intro b hb
  by_contra hne
  have hlt := List.sum_lt_sum kept (fun b => content (sanitizeInput b))
    (fun b hb => kept_le (hnul b hb)) ⟨b, hb, lt_of_le_of_ne (kept_le (hnul b hb)) hne⟩
  omega

section stream

variable {lines : List Bytes} (hlines : ∀ l ∈ lines, StreamLine l) {bs : List Bytes}
  (hbs : bs.flatten = joinLines newline lines)
include hlines hbs

theorem burst_nulFree : ∀ b ∈ bs, NulFree b := by
  intro b hb h0
  have hmem : (0 : UInt8) ∈ joinLines newline lines := by
    rw [← hbs]
    exact List.mem_flatten.2 ⟨b, hb, h0⟩
  obtain ⟨l, hl, h0⟩ := List.mem_flatMap.1 hmem
  rcases List.mem_append.1 h0 with h0 | h0
  · exact (hlines l hl).nulFree h0
  · simp [newline] at h0

/-- Good bursts give the expected commands. -/
theorem commands_of_lineBursts (h : ∀ b ∈ bs, LineBurst b) :
    bs.filterMap commandOf = expectedCommands lines := by
  have hnul := burst_nulFree hlines hbs
  -- the sanitised stream, divided burst by burst
  have hdivide : ∀ cs : List Bytes, (∀ b ∈ cs, LineBurst b) → (∀ b ∈ cs, NulFree b) →
      ∃ ls, (∀ l ∈ ls, newline ∉ l) ∧ (cs.map sanitizeInput).flatten = joinLines newline ls ∧
        ls.filter (fun l => l ≠ []) = cs.filterMap commandOf := by
    intro cs
    induction cs with
    | nil => exact fun _ _ => ⟨[], by simp, rfl, rfl⟩
    | cons b cs ih =>
      intro hgood hfree
      obtain ⟨ls, hls, hjoin, hcommands⟩ := ih (fun b hb => hgood b (by simp [hb]))
        (fun b hb => hfree b (by simp [hb]))
      obtain ⟨ms, hms, hjoin', hcommand⟩ := (hgood b (by simp)).lines (hfree b (by simp))
      refine ⟨ms ++ ls, ?_, ?_, ?_⟩
      · intro l hl
        rcases List.mem_append.1 hl with hl | hl
        · exact hms l hl
        · exact hls l hl
      · rw [List.map_cons, List.flatten_cons, hjoin, hjoin', joinLines_append]
      · rw [List.filter_append, hcommands, hcommand]
        cases hc : commandOf b <;> simp [hc]
  obtain ⟨ls, hls, hjoin, hcommands⟩ := hdivide bs h hnul
  rw [← sanitizeInput_flatten, hbs, sanitizeInput_joinLines] at hjoin
  have hfree : ∀ l ∈ lines.map sanitizeInput, newline ∉ l := by
    intro l hl
    obtain ⟨l', hl', rfl⟩ := List.mem_map.1 hl
    exact newline_notMem_sanitizeInput (hlines l' hl').newline_notMem
  rw [expectedCommands, joinLines_inj hfree hls hjoin, hcommands]

/-- The expected commands come from good bursts only. -/
theorem lineBursts_of_commands (hnl : ∀ b ∈ bs, newline ∈ b)
    (h : bs.filterMap commandOf = expectedCommands lines) : ∀ b ∈ bs, LineBurst b := by
  have hnul := burst_nulFree hlines hbs
  have hsum : (bs.map kept).sum = (bs.map fun b => content (sanitizeInput b)).sum := by
    calc (bs.map kept).sum = ((bs.filterMap commandOf).map content).sum :=
          (sum_content_commands bs).symm
      _ = ((lines.map sanitizeInput).map content).sum := by
          rw [h, expectedCommands, sum_content_nonempty]
      _ = content (sanitizeInput bs.flatten) := by
          rw [hbs, sanitizeInput_joinLines, content_joinLines]
      _ = (bs.map fun b => content (sanitizeInput b)).sum := by
          rw [sanitizeInput_flatten, content_flatten, List.map_map]
          rfl
  intro b hb
  apply lineBurst_of_commandOf (hnul b hb) (hnl b hb)
  · intro command hcommand
    have hmem : command ∈ expectedCommands lines := by
      rw [← h]
      exact List.mem_filterMap.2 ⟨b, hb, hcommand⟩
    obtain ⟨l, hl, rfl⟩ := List.mem_map.1 (List.mem_of_mem_filter hmem)
    exact newline_notMem_sanitizeInput (hlines l hl).newline_notMem
  · intro hnone
    rw [← kept_eq hnul hsum b hb, kept, hnone]
    rfl

end stream

/-- Every burst of a stream of lines contains a newline. -/
theorem newline_mem_bursts {lines : List Bytes} (hlines : ∀ l ∈ lines, StreamLine l)
    {script : List SslRead} (hcut : Cuts script (joinLines newline lines)) :
    ∀ b ∈ bursts script, newline ∈ b := by
  apply mem_of_mem_burstsFrom
  · intro w hw hnl
    rw [List.nil_append, marked_bytes, hcut.bytes] at hw
    have := length_le_of_infix (fun l hl => (hlines l hl).length_le) hnl hw
    simp only [bufferSize]
    omega
  · rw [List.nil_append, marked_bytes, hcut.bytes]
    intro hne
    apply joinLines_getLast?
    rintro rfl
    exact hne rfl

/-- For every stream of lines and every cutting of it, the commands are the non-empty
sanitised lines if and only if every burst is good; so two cuttings give the same, the
right, commands if and only if the bursts of both are good. -/
theorem command_framing_iff {lines : List Bytes} (hlines : ∀ l ∈ lines, StreamLine l)
    {script script' : List SslRead} (hcut : Cuts script (joinLines newline lines))
    (hcut' : Cuts script' (joinLines newline lines)) :
    (handlerCommands script = expectedCommands lines ∧
        handlerCommands script' = expectedCommands lines) ↔
      (∀ b ∈ bursts script, LineBurst b) ∧ ∀ b ∈ bursts script', LineBurst b := by
  have hone (script : List SslRead) (hcut : Cuts script (joinLines newline lines)) :
      handlerCommands script = expectedCommands lines ↔ ∀ b ∈ bursts script, LineBurst b := by
    have hflat : (bursts script).flatten = joinLines newline lines := by
      rw [bursts, burstsFrom_flatten, List.nil_append, marked_bytes, hcut.bytes]
    rw [handlerCommands_eq hcut.no_fail]
    exact ⟨lineBursts_of_commands hlines hflat (newline_mem_bursts hlines hcut),
      commands_of_lineBursts hlines hflat⟩
  rw [hone script hcut, hone script' hcut']

namespace Sample

/-- A chunk with these bytes. -/
def chunk (s : String) : List SslRead := SslRead.pending (ascii s)

def greetings : List Bytes := [ascii "hello", ascii "world"]

/-- Each line in a chunk of its own. -/
def separate : List SslRead := chunk "hello\n" ++ chunk "world\n"

/-- A line in two chunks with a delay between them. -/
def delayed : List SslRead := chunk "hel" ++ [.wantRead] ++ chunk "lo\n" ++ chunk "world\n"

/-- Both lines in one chunk. -/
def coalesced : List SslRead := chunk "hello\nworld\n"

theorem greetings_streamLine : ∀ l ∈ greetings, StreamLine l := by
  intro l hl
  have hall : ∀ l ∈ greetings, newline ∉ l ∧ (0 : UInt8) ∉ l ∧ l.length ≤ 8190 := by decide
  obtain ⟨hnl, hnul, hlen⟩ := hall l hl
  exact ⟨hnl, hnul, hlen⟩

theorem separate_cuts : Cuts separate (joinLines newline greetings) := ⟨by decide, by decide⟩

theorem delayed_cuts : Cuts delayed (joinLines newline greetings) := ⟨by decide, by decide⟩

theorem coalesced_cuts : Cuts coalesced (joinLines newline greetings) := ⟨by decide, by decide⟩

end Sample

theorem command_framing_greetings :
    handlerCommands Sample.separate = expectedCommands Sample.greetings ∧
      handlerCommands Sample.delayed = expectedCommands Sample.greetings := by
  have hgood : ∀ b ∈ [ascii "hello\n", ascii "world\n"], LineBurst b := by
    intro b hb
    rcases List.mem_pair.1 hb with rfl | rfl
    · exact .inr ⟨ascii "hello", by decide, by decide⟩
    · exact .inr ⟨ascii "world", by decide, by decide⟩
  have hseparate : bursts Sample.separate = [ascii "hello\n", ascii "world\n"] := by decide
  have hdelayed : bursts Sample.delayed = [ascii "hello\n", ascii "world\n"] := by decide
  exact (command_framing_iff Sample.greetings_streamLine Sample.separate_cuts
    Sample.delayed_cuts).2 ⟨by rwa [hseparate], by rwa [hdelayed]⟩

/-- Two lines in one chunk become one command with a newline in it. -/
theorem coalesced_lines_merge :
    Cuts Sample.separate (joinLines newline Sample.greetings) ∧
      Cuts Sample.coalesced (joinLines newline Sample.greetings) ∧
      handlerCommands Sample.separate = [ascii "hello", ascii "world"] ∧
      handlerCommands Sample.coalesced = [ascii "hello\nworld"] := by
  refine ⟨Sample.separate_cuts, Sample.coalesced_cuts, ?_, ?_⟩
  · rw [handlerCommands_eq Sample.separate_cuts.no_fail]
    decide
  · rw [handlerCommands_eq Sample.coalesced_cuts.no_fail]
    decide

end Mesh
