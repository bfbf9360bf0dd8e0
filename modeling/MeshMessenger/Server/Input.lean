import MeshMessenger.Server.State

/-! From the TLS stream to a command string: `ssl_safe_read` over the results of
its `SSL_read` calls, and what the handler's loop does to the buffer it returns. -/

namespace Mesh

open CLib

/-- The next thing `SSL_read` has to report. Data comes with at least one byte. -/
inductive SslRead where
  | data (b : UInt8) (bs : Bytes)
  | wantRead
  | fail
  deriving DecidableEq

namespace SslRead

def bytes : SslRead → Bytes
  | data b bs => b :: bs
  | _ => []

def pending : Bytes → List SslRead
  | [] => []
  | b :: bs => [data b bs]

end SslRead

/-- The loop of `ssl_safe_read`: `acc` is what the buffer holds, and each call
asks for the room left before the last cell. It stops at a chunk that ends in a
newline, at a full buffer, at a failure other than WANT_READ, or where the
script ends. -/
def sslReadLoop (maxLen : ℕ) (acc : Bytes) : List SslRead → Bytes × List SslRead
  | [] => (acc, [])
  | .wantRead :: rest =>
    if acc.length < maxLen - 1 then sslReadLoop maxLen acc rest else (acc, .wantRead :: rest)
  | .fail :: rest => if acc.length < maxLen - 1 then (acc, rest) else (acc, .fail :: rest)
  | .data b bs :: rest =>
    if acc.length < maxLen - 1 then
      let request := maxLen - acc.length - 1
      let buffer := acc ++ (b :: bs).take request
      -- a chunk longer than the request fills the buffer, which ends the loop as well
      if buffer.getLast? = some newline ∨ request < (b :: bs).length then
        (buffer, SslRead.pending ((b :: bs).drop request) ++ rest)
      else sslReadLoop maxLen buffer rest
    else (acc, .data b bs :: rest)

/-- `ssl_safe_read` after `select` found the socket readable: the string it
leaves in the buffer, whose length it returns, and the script that remains. -/
def sslSafeRead (maxLen : ℕ) (script : List SslRead) : Bytes × List SslRead :=
  sslReadLoop maxLen [] script

/-- The command that the loop passes on from a buffer, if any: the string in the
buffer is sanitised, dropped when empty or when it starts with a newline, and
loses one trailing newline. -/
def commandOf (buffer : Bytes) : Option Bytes :=
  let s := sanitizeInput (cstr buffer)
  if s = [] ∨ s.head? = some newline then none
  else if s.getLast? = some newline then some s.dropLast
  else some s

/-! ### The loop over a whole stream -/

def scriptSize (script : List SslRead) : ℕ := (script.map fun r => r.bytes.length + 1).sum

theorem scriptSize_cons (r : SslRead) (script : List SslRead) :
    scriptSize (r :: script) = r.bytes.length + 1 + scriptSize script := by
  simp [scriptSize]

theorem scriptSize_pending_append (s : Bytes) (script : List SslRead) :
    scriptSize (SslRead.pending s ++ script) ≤ s.length + 1 + scriptSize script := by
  cases s with
  | nil => simp [SslRead.pending]
  | cons b bs => simp [SslRead.pending, scriptSize_cons, SslRead.bytes]

theorem sslReadLoop_full {maxLen : ℕ} {acc : Bytes} (h : ¬ acc.length < maxLen - 1)
    (script : List SslRead) : sslReadLoop maxLen acc script = (acc, script) := by
  cases script with
  | nil => rfl
  | cons r script => cases r <;> simp [sslReadLoop, h]

theorem sslReadLoop_size_le (maxLen : ℕ) (script : List SslRead) (acc : Bytes) :
    scriptSize (sslReadLoop maxLen acc script).2 ≤ scriptSize script := by
  induction script generalizing acc with
  | nil => exact le_rfl
  | cons r script ih =>
    by_cases hroom : acc.length < maxLen - 1
    · rw [scriptSize_cons]
      cases r with
      | wantRead =>
        simp only [sslReadLoop, hroom, if_true]
        have := ih acc
        omega
      | fail =>
        simp only [sslReadLoop, hroom, if_true]
        omega
      | data b bs =>
        simp only [sslReadLoop, hroom, if_true, SslRead.bytes]
        split_ifs
        · have hpending := scriptSize_pending_append
            ((b :: bs).drop (maxLen - acc.length - 1)) script
          rw [List.length_drop] at hpending
          apply hpending.trans
          omega
        · have := ih (acc ++ (b :: bs).take (maxLen - acc.length - 1))
          omega
    · rw [sslReadLoop_full hroom]

theorem sslSafeRead_size_lt {maxLen : ℕ} (hmax : 1 < maxLen) {script : List SslRead}
    (h : script ≠ []) : scriptSize (sslSafeRead maxLen script).2 < scriptSize script := by
  obtain ⟨r, script, rfl⟩ := List.exists_cons_of_ne_nil h
  have hroom : ([] : Bytes).length < maxLen - 1 := by
    simp only [List.length_nil]
    omega
  rw [sslSafeRead, scriptSize_cons]
  cases r with
  | wantRead =>
    simp only [sslReadLoop, hroom, if_true]
    have := sslReadLoop_size_le maxLen script []
    omega
  | fail =>
    simp only [sslReadLoop, hroom, if_true]
    omega
  | data b bs =>
    simp only [sslReadLoop, hroom, if_true, SslRead.bytes]
    split_ifs
    · have hpending := scriptSize_pending_append
        ((b :: bs).drop (maxLen - ([] : Bytes).length - 1)) script
      rw [List.length_drop] at hpending
      simp only [List.length_nil, List.length_cons] at hpending ⊢
      omega
    · have := sslReadLoop_size_le maxLen script
        ([] ++ (b :: bs).take (maxLen - ([] : Bytes).length - 1))
      omega

/-- The commands that the loop of `secure_client_handler` passes to
`process_client_command` while the script lasts, rate limiting set aside. -/
def handlerCommands (script : List SslRead) : List Bytes :=
  if _h : script = [] then []
  else
    (commandOf (sslSafeRead bufferSize script).1).toList ++
      handlerCommands (sslSafeRead bufferSize script).2
termination_by scriptSize script
decreasing_by exact sslSafeRead_size_lt (by decide) _h

/-! ### Facts about commands -/

theorem commandOf_eq_some {buffer command : Bytes} (h : commandOf buffer = some command) :
    sanitizeInput (cstr buffer) = command ∨
      sanitizeInput (cstr buffer) = command ++ [newline] := by
  unfold commandOf at h
  simp only at h
  split_ifs at h with h1 h2
  · right
    obtain rfl := Option.some.inj h
    exact (List.dropLast_append_getLast? _ h2).symm
  · exact .inl (Option.some.inj h)

theorem commandOf_sublist {buffer command : Bytes} (h : commandOf buffer = some command) :
    command.Sublist (sanitizeInput (cstr buffer)) := by
  rcases commandOf_eq_some h with h | h <;> rw [h]
  exact List.sublist_append_left _ _

theorem commandOf_ne_nil {buffer command : Bytes} (h : commandOf buffer = some command) :
    command ≠ [] := by
  unfold commandOf at h
  simp only at h
  split_ifs at h with h1 h2
  · obtain rfl := Option.some.inj h
    push Not at h1
    -- a lone newline is also the first byte
    cases hs : sanitizeInput (cstr buffer) with
    | nil => exact absurd hs h1.1
    | cons c s =>
      rw [hs] at h1 h2
      cases s with
      | nil => exact absurd h2 h1.2
      | cons d s => simp
  · obtain rfl := Option.some.inj h
    exact fun hs => h1 (.inl hs)

theorem commandOf_nulFree {buffer command : Bytes} (h : commandOf buffer = some command) :
    NulFree command :=
  (cstr_nulFree buffer).of_sublist ((commandOf_sublist h).trans (sanitizeInput_sublist _))

theorem commandOf_not_filtered {buffer command : Bytes} (h : commandOf buffer = some command)
    {c : UInt8} (hc : c ∈ command) : isFiltered c = false :=
  not_isFiltered_of_mem ((commandOf_sublist h).subset hc)

/-- A buffer that holds a clean line and its newline gives that line. -/
theorem commandOf_line {line : Bytes} (hne : line ≠ []) (hnul : NulFree line)
    (hclean : ∀ c ∈ line, isFiltered c = false) (hhead : line.head? ≠ some newline) :
    commandOf (line ++ [newline]) = some line := by
  have hsan : sanitizeInput (cstr (line ++ [newline])) = line ++ [newline] := by
    rw [cstr_of_nulFree (hnul.append (by simp [NulFree, newline]))]
    refine List.filter_eq_self.2 fun c hc => ?_
    rcases List.mem_append.1 hc with hc | hc
    · simp [hclean c hc]
    · rw [List.mem_singleton.1 hc]; decide
  obtain ⟨c, cs, rfl⟩ := List.exists_cons_of_ne_nil hne
  simp only [List.head?_cons, ne_eq, Option.some.injEq] at hhead
  simp only [commandOf, hsan]
  rw [if_neg (by simp [hhead]), if_pos List.getLast?_concat, List.dropLast_concat]

end Mesh
