import MeshMessenger.Proofs.FailedCommands
import MeshMessenger.Proofs.IssuedTokens
import MeshMessenger.Server.Lifecycle

/-! Accounts over a restart. The database is keyed with a master key that every
start draws anew and nothing stores, so a later start reads the file only if it
happens to draw the same key. -/

namespace Mesh

open CLib

/-! ### Two runs over one file -/

/-- Every call of `init_secure_database` succeeds and `RAND_bytes` draws this key. -/
def DatabaseCalls.Succeed (calls : DatabaseCalls) (key : MasterKey) : Prop :=
  calls.masterKey = some key ∧ calls.quantumKeyOk = true ∧ calls.openOk = true ∧
    calls.pragmaKeyOk = true ∧ calls.tablesOk = true

/-- The file as a run of the server over the database leaves it. -/
def fileAfter (C : Crypto) (db : DatabaseFile) (es : List Event) : DatabaseFile :=
  ⟨db.key, (run C (Server.init db.users) es).1.users⟩

/-- The iteration registers `nick` and issues `token`. -/
def RegistersUser (s : Server) (e : Event) (nick token : Bytes) : Prop :=
  ∃ conn h env read command, e = .iterate conn env read ∧ s.handler? conn .looping = some h ∧
    (s.clients h.slot).authorized = false ∧ commandRead s h env read = some command ∧
    InsertsUser s env h.slot h.ip command nick token

/-- Some step of the run registers `nick` and issues `token`. -/
def RunRegisters (C : Crypto) (s : Server) (es : List Event) (nick token : Bytes) : Prop :=
  ∃ before e after, es = before ++ e :: after ∧
    RegistersUser (run C s before).1 e nick token

/-- The server came up, and whenever an unauthorised client within its rate limit
sends the nick with the token, it is logged in under that nick. -/
def CanLogIn (C : Crypto) (started : Option Server) (nick token : Bytes) : Prop :=
  ∃ s₀, started = some s₀ ∧ ∀ es conn h env hne hlt,
    let t := (run C s₀ es).1
    let t' := (step C t (.iterate conn env
      (.bytes (loginLine nick token ++ [newline]) hne hlt))).1
    t.handler? conn .looping = some h → (t.clients h.slot).authorized = false →
    0 ≤ (t.clients h.slot).fd → t.withinLimit h.slot env.now = true → env.selectOk = true →
    (t'.clients h.slot).authorized = true ∧ (t'.clients h.slot).nick = nick

/-! ### What the second start reads -/

theorem initSecureDatabase_key {calls : DatabaseCalls} {key : MasterKey}
    {file : Option DatabaseFile} {db : DatabaseFile} (hkey : calls.masterKey = some key)
    (h : initSecureDatabase calls file = some db) : db.key = key := by
  unfold initSecureDatabase at h
  cases file with
  | none =>
    simp only [hkey] at h
    split_ifs at h
    obtain rfl := Option.some.inj h
    rfl
  | some db' =>
    simp only [hkey] at h
    split_ifs at h with _ _ _ hok
    obtain rfl := Option.some.inj h
    exact hok.1

/-- A start over an existing file reads it exactly with the file's own key. -/
theorem startServer_file {calls : DatabaseCalls} {key : MasterKey} (h : calls.Succeed key)
    (db : DatabaseFile) :
    startServer calls (some db) = if db.key = key then some (Server.init db.users) else none := by
  obtain ⟨hkey, hquantum, hopen, hpragma, htables⟩ := h
  unfold startServer initSecureDatabase
  simp only [hkey, hquantum, hopen, hpragma, htables, Bool.not_true, Bool.false_eq_true, if_false,
    and_true]
  split_ifs <;> rfl

theorem row_of_registersUser (C : Crypto) {s : Server} {e : Event} {nick token : Bytes}
    (h : RegistersUser s e nick token) :
    ∃ row ∈ (step C s e).1.users.rows, row.nick = nick ∧ row.token = token ∧
      row.isLocked = false := by
  obtain ⟨conn, h, env, read, command, rfl, hh, hun, hread, hins⟩ := h
  have hun' : ((s.noteActivity h.slot env.now).clients h.slot).authorized = false :=
    (noteActivity_refreshes s h.slot env.now h.slot).authorized.trans hun
  obtain ⟨row, users, hnick, htoken, hlocked, hrows, heq⟩ := handleUnauthorizedCommands_inserts
    ((insertsUser_noteActivity s h.slot env.now env h.ip command nick token).2 hins)
  refine ⟨row, ?_, hnick, htoken, hlocked⟩
  simp only [step, hh, handlerIteration_commandRead C hread, processClientCommand, hun',
    Bool.not_false, if_true, heq, hrows]
  exact List.mem_append_right _ (List.mem_singleton_self row)

/-- The row of a registration is in the table when the run ends. -/
theorem row_of_runRegisters (C : Crypto) {s : Server} {es : List Event} {nick token : Bytes}
    (h : RunRegisters C s es nick token) :
    ∃ row ∈ (run C s es).1.users.rows, row.nick = nick ∧ row.token = token ∧
      row.isLocked = false := by
  obtain ⟨before, e, after, rfl, he⟩ := h
  obtain ⟨row, hmem, hnick, htoken, hlocked⟩ := row_of_registersUser C he
  rw [run, Runs.run_append, Runs.run_cons]
  obtain ⟨row', hmem', -, hnick', htoken', hlocked'⟩ := run_keeps C _ after row hmem
  exact ⟨row', hmem', hnick'.trans hnick, htoken'.trans htoken, hlocked'.trans hlocked⟩

theorem canLogIn_of_row (C : Crypto) (users : SecureUsers) {nick token : Bytes}
    (hnick : IsWord 31 nick ∧ ∀ c ∈ nick, isNickByte c = true)
    (htoken : token.length = tokenLength ∧ ∀ c ∈ token, isNickByte c = true)
    (hrow : ∃ row ∈ users.rows, row.nick = nick ∧ row.token = token ∧ row.isLocked = false) :
    CanLogIn C (some (Server.init users)) nick token := by
  refine ⟨_, rfl, ?_⟩
  intro es conn h env hne hlt t t' hh hun hfd hlimit hsel
  have hrow' : ∃ row ∈ t.users.rows, row.nick = nick ∧ row.token = token ∧
      row.isLocked = false := by
    obtain ⟨row, hmem, hn, htok, hl⟩ := hrow
    obtain ⟨row', hmem', -, hn', htok', hl'⟩ := run_keeps C (Server.init users) es row hmem
    exact ⟨row', hmem', hn'.trans hn, htok'.trans htok, hl'.trans hl⟩
  exact stored_token_logs_in C hnick.1 hnick.2 htoken.1 htoken.2 hrow' hh hun hfd hlimit hsel hne
    hlt

/-- For every first run and every later start over its file, a user registered in
the first run can log in with the issued token if and only if both starts drew
the same master key. -/
theorem login_after_restart_iff (C : Crypto) {file : Option DatabaseFile} {db : DatabaseFile}
    {calls calls' : DatabaseCalls} {key key' : MasterKey} (hkey : calls.masterKey = some key)
    (hstart : initSecureDatabase calls file = some db) (hcalls' : calls'.Succeed key')
    {es : List Event} {nick token : Bytes}
    (hreg : RunRegisters C (Server.init db.users) es nick token) :
    CanLogIn C (startServer calls' (some (fileAfter C db es))) nick token ↔ key' = key := by
  have hdb := initSecureDatabase_key hkey hstart
  rw [startServer_file hcalls']
  change CanLogIn C (if db.key = key' then some (Server.init _) else none) nick token ↔ _
  rw [hdb]
  refine ⟨?_, ?_⟩
  · rintro ⟨s₀, hs₀, -⟩
    split_ifs at hs₀ with heq
    exact heq.symm
  · rintro rfl
    rw [if_pos rfl]
    have hrow := row_of_runRegisters C hreg
    obtain ⟨before, e, after, -, conn, h, env, read, command, -, -, -, -, -, hparse, hvalid, -,
      htoken, -⟩ := hreg
    have hword := (parseRegister_eq_some hparse).1
    exact canLogIn_of_row C _ (validateNickname_isWord hvalid hword.length_le)
      (generateSecureToken_spec htoken) hrow

/-! ### The registration of `bob`, with the same key and with another one -/

namespace Sample

/-- All calls succeed and the 32 key bytes are `seed`. -/
def databaseCalls (seed : UInt8) : DatabaseCalls where
  masterKey := some ⟨List.replicate masterKeyLength seed, List.length_replicate⟩
  quantumKeyOk := true
  openOk := true
  pragmaKeyOk := true
  tablesOk := true

/-- The database that a first start creates. -/
def database (seed : UInt8) : DatabaseFile :=
  ⟨⟨List.replicate masterKeyLength seed, List.length_replicate⟩, SecureUsers.empty⟩

theorem registered_registers :
    RunRegisters crypto (Server.init SecureUsers.empty) registered (ascii "bob")
      (List.replicate 64 49) := by
  refine ⟨connected, .iterate 0 (env 1001 17) (line "/register bob"), [], rfl, 0,
    ⟨0, firstSlot, ascii "127.0.0.1", .looping⟩, _, _, ascii "/register bob", rfl, ?_⟩
  have hfacts : let s := (run crypto (Server.init SecureUsers.empty) connected).1
      let h : Handler := ⟨0, firstSlot, ascii "127.0.0.1", .looping⟩
      s.handler? 0 .looping = some h ∧ (s.clients h.slot).authorized = false ∧
      commandRead s h (env 1001 17) (line "/register bob") = some (ascii "/register bob") ∧
      checkNicknameExists s (env 1001 17) (ascii "bob") = false ∧
      (saveUserToDatabase s (env 1001 17) h.slot (ascii "bob") (List.replicate 64 49)
        h.ip).isSome = true := by
    decide +kernel
  obtain ⟨hh, hun, hread, hfree, hsave⟩ := hfacts
  refine ⟨hh, hun, hread, by decide, by decide +kernel, by decide, hfree, by decide +kernel, ?_⟩
  exact Option.isSome_iff_exists.1 hsave

end Sample

/-- A second start that draws the same key lets `bob` in. -/
theorem login_after_restart_same_key :
    CanLogIn Sample.crypto (startServer (Sample.databaseCalls 7)
      (some (fileAfter Sample.crypto (Sample.database 7) Sample.registered))) (ascii "bob")
      (List.replicate 64 49) := by
  have hkey : (Sample.databaseCalls 7).masterKey = some (Sample.database 7).key := rfl
  have hstart : initSecureDatabase (Sample.databaseCalls 7) none = some (Sample.database 7) := rfl
  have hcalls : (Sample.databaseCalls 7).Succeed (Sample.database 7).key :=
    ⟨rfl, rfl, rfl, rfl, rfl⟩
  exact (login_after_restart_iff Sample.crypto hkey hstart hcalls
    Sample.registered_registers).2 rfl

/-- A second start that draws another key does not get past the database. -/
theorem login_lost_after_restart :
    initSecureDatabase (Sample.databaseCalls 7) none = some (Sample.database 7) ∧
      RunRegisters Sample.crypto (Server.init (Sample.database 7).users) Sample.registered
        (ascii "bob") (List.replicate 64 49) ∧
      ¬ CanLogIn Sample.crypto (startServer (Sample.databaseCalls 8)
        (some (fileAfter Sample.crypto (Sample.database 7) Sample.registered))) (ascii "bob")
        (List.replicate 64 49) := by
  refine ⟨rfl, Sample.registered_registers, ?_⟩
  rintro ⟨s₀, hs₀, -⟩
  have hcalls : (Sample.databaseCalls 8).Succeed (Sample.database 8).key :=
    ⟨rfl, rfl, rfl, rfl, rfl⟩
  rw [startServer_file hcalls] at hs₀
  have hkey : (fileAfter Sample.crypto (Sample.database 7) Sample.registered).key ≠
      (Sample.database 8).key := by
    change (Sample.database 7).key ≠ (Sample.database 8).key
    decide
  rw [if_neg hkey] at hs₀
  exact absurd hs₀ (by simp)

end Mesh
