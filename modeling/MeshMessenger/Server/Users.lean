import MeshMessenger.Server.Util

/-! The `secure_users` table and the statements `server.c` runs on it. The table
type carries what sqlite enforces: AUTOINCREMENT ids, UNIQUE nicks under the
NOCASE collation and UNIQUE tokens. -/

namespace Mesh

open CLib

structure UserRow where
  id : ℕ
  nick : Bytes
  token : Bytes
  regId : ℕ
  ipAddress : Bytes
  publicKey : Option Bytes
  securityLevel : ℤ
  lastLogin : Option ℤ
  loginAttempts : ℕ
  isLocked : Bool

structure SecureUsers where
  rows : List UserRow
  nextId : ℕ
  id_lt : ∀ r ∈ rows, r.id < nextId
  id_unique : rows.Pairwise fun a b => a.id ≠ b.id
  nick_unique : rows.Pairwise fun a b => caseEq a.nick b.nick = false
  token_unique : rows.Pairwise fun a b => a.token ≠ b.token

namespace SecureUsers

def empty : SecureUsers where
  rows := []
  nextId := 1
  id_lt := by simp
  id_unique := .nil
  nick_unique := .nil
  token_unique := .nil

/-- The two UNIQUE constraints allow a row with this nick and this token. -/
def Admits (U : SecureUsers) (nick token : Bytes) : Prop :=
  ∀ r ∈ U.rows, caseEq r.nick nick = false ∧ r.token ≠ token

instance (U : SecureUsers) (nick token : Bytes) : Decidable (U.Admits nick token) :=
  inferInstanceAs (Decidable (∀ r ∈ U.rows, caseEq r.nick nick = false ∧ r.token ≠ token))

/-- The row an INSERT of the six bound columns adds, the others at their defaults. -/
def newRow (U : SecureUsers) (nick token ip : Bytes) (regId : ℕ) (publicKey : Bytes)
    (securityLevel : ℤ) : UserRow where
  id := U.nextId
  nick := nick
  token := token
  regId := regId
  ipAddress := ip
  publicKey := some publicKey
  securityLevel := securityLevel
  lastLogin := none
  loginAttempts := 0
  isLocked := false

def add (U : SecureUsers) (nick token ip : Bytes) (regId : ℕ) (publicKey : Bytes)
    (securityLevel : ℤ) (h : U.Admits nick token) : SecureUsers where
  rows := U.rows ++ [U.newRow nick token ip regId publicKey securityLevel]
  nextId := U.nextId + 1
  id_lt := by
    intro r hr
    rcases List.mem_append.1 hr with hr | hr
    · exact Nat.lt_succ_of_lt (U.id_lt r hr)
    · rw [List.mem_singleton.1 hr]; exact Nat.lt_succ_self _
  id_unique := by
    refine List.pairwise_append.2 ⟨U.id_unique, List.pairwise_singleton _ _, ?_⟩
    intro a ha b hb
    rw [List.mem_singleton.1 hb]
    exact Nat.ne_of_lt (U.id_lt a ha)
  nick_unique := by
    refine List.pairwise_append.2 ⟨U.nick_unique, List.pairwise_singleton _ _, ?_⟩
    intro a ha b hb
    rw [List.mem_singleton.1 hb]
    exact (h a ha).1
  token_unique := by
    refine List.pairwise_append.2 ⟨U.token_unique, List.pairwise_singleton _ _, ?_⟩
    intro a ha b hb
    rw [List.mem_singleton.1 hb]
    exact (h a ha).2

/-- `INSERT INTO secure_users`: fails when a UNIQUE constraint does. -/
def insert (U : SecureUsers) (nick token ip : Bytes) (regId : ℕ) (publicKey : Bytes)
    (securityLevel : ℤ) : Option SecureUsers :=
  if h : U.Admits nick token then some (U.add nick token ip regId publicKey securityLevel h)
  else none

/-- `SELECT 1 FROM secure_users WHERE nick = ?`. -/
def hasNick (U : SecureUsers) (nick : Bytes) : Bool := U.rows.any fun r => caseEq r.nick nick

/-- `SELECT ... FROM secure_users WHERE nick = ? AND is_locked = 0`, first row. -/
def findUnlocked (U : SecureUsers) (nick : Bytes) : Option UserRow :=
  U.rows.find? fun r => caseEq r.nick nick && !r.isLocked

/-- The row effect of `UPDATE secure_users SET last_login = ..., login_attempts = 0`. -/
def touch (nick : Bytes) (now : ℤ) (r : UserRow) : UserRow :=
  if caseEq r.nick nick then { r with lastLogin := some now, loginAttempts := 0 } else r

@[simp] theorem touch_id (nick : Bytes) (now : ℤ) (r : UserRow) : (touch nick now r).id = r.id := by
  unfold touch; split <;> rfl

@[simp] theorem touch_nick (nick : Bytes) (now : ℤ) (r : UserRow) :
    (touch nick now r).nick = r.nick := by
  unfold touch; split <;> rfl

@[simp] theorem touch_token (nick : Bytes) (now : ℤ) (r : UserRow) :
    (touch nick now r).token = r.token := by
  unfold touch; split <;> rfl

@[simp] theorem touch_isLocked (nick : Bytes) (now : ℤ) (r : UserRow) :
    (touch nick now r).isLocked = r.isLocked := by
  unfold touch; split <;> rfl

def updateLastLogin (U : SecureUsers) (nick : Bytes) (now : ℤ) : SecureUsers where
  rows := U.rows.map (touch nick now)
  nextId := U.nextId
  id_lt := by
    intro r hr
    obtain ⟨r₀, hr₀, rfl⟩ := List.mem_map.1 hr
    simpa using U.id_lt r₀ hr₀
  id_unique := by simpa [List.pairwise_map] using U.id_unique
  nick_unique := by simpa [List.pairwise_map] using U.nick_unique
  token_unique := by simpa [List.pairwise_map] using U.token_unique

/-! ### Facts about the table -/

theorem eq_of_caseEq (U : SecureUsers) {a b : UserRow} (ha : a ∈ U.rows) (hb : b ∈ U.rows)
    (h : caseEq a.nick b.nick = true) : a = b := by
  by_contra hne
  have hsymm : Std.Symm fun a b : UserRow => caseEq a.nick b.nick = false := by
    refine ⟨fun a b hab => ?_⟩
    rwa [caseEq_comm]
  have := U.nick_unique.forall ha hb hne
  rw [h] at this
  exact absurd this (by simp)

theorem findUnlocked_eq_some (U : SecureUsers) {nick : Bytes} {r : UserRow} :
    U.findUnlocked nick = some r ↔
      r ∈ U.rows ∧ caseEq r.nick nick = true ∧ r.isLocked = false := by
  refine ⟨?_, ?_⟩
  · intro h
    have hp := List.find?_some h
    simp only [Bool.and_eq_true, Bool.not_eq_true'] at hp
    exact ⟨List.mem_of_find?_eq_some h, hp.1, hp.2⟩
  · rintro ⟨hr, hn, hl⟩
    cases h : U.findUnlocked nick with
    | none =>
      have := List.find?_eq_none.1 h r hr
      simp [hn, hl] at this
    | some r' =>
      have hp := List.find?_some h
      simp only [Bool.and_eq_true, Bool.not_eq_true'] at hp
      have := U.eq_of_caseEq hr (List.mem_of_find?_eq_some h) (caseEq_trans hn (caseEq_symm hp.1))
      rw [this]

theorem insert_eq_some (U : SecureUsers) {nick token ip : Bytes} {regId : ℕ} {publicKey : Bytes}
    {level : ℤ} {U' : SecureUsers} (h : U.insert nick token ip regId publicKey level = some U') :
    U.Admits nick token ∧ U'.rows = U.rows ++ [U.newRow nick token ip regId publicKey level] := by
  unfold insert at h
  split_ifs at h with hadm
  obtain rfl := Option.some.inj h
  exact ⟨hadm, rfl⟩

theorem newRow_mem_of_insert (U : SecureUsers) {nick token ip : Bytes} {regId : ℕ}
    {publicKey : Bytes} {level : ℤ} {U' : SecureUsers}
    (h : U.insert nick token ip regId publicKey level = some U') :
    U.newRow nick token ip regId publicKey level ∈ U'.rows := by
  rw [(U.insert_eq_some h).2]
  exact List.mem_append_right _ (List.mem_singleton_self _)

end SecureUsers

end Mesh
