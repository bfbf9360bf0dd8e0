import MeshMessenger.Proofs.Moves
import MeshMessenger.Server.Registration

/-! Registrations that race. The check before the INSERT proves nothing, so all that
is known comes from the table's own constraints and from the order of each client's
steps: its reply follows its INSERT and carries what the INSERT stored. -/

namespace Mesh

open CLib

/-! ### The reply -/

/-- A nick that `process_registration` lets through. -/
def RegNick (nick : Bytes) : Prop := validateNickname nick = true ∧ IsWord 31 nick

/-- A token that `generate_secure_token` can produce. -/
def TokenText (token : Bytes) : Prop :=
  token.length = tokenLength ∧ ∀ c ∈ token, isNickByte c = true

theorem quote_notMem {s : Bytes} (h : ∀ c ∈ s, isNickByte c = true) :
    (34 : UInt8) ∉ s := fun hmem =>
  absurd (h 34 hmem) (by decide)

theorem RegNick.quote_notMem {nick : Bytes} (h : RegNick nick) : (34 : UInt8) ∉ nick :=
  Mesh.quote_notMem (validateNickname_isWord h.1 h.2.length_le).2

theorem registerSuccessFrame_eq (nick token : Bytes) (level : ℤ) :
    registerSuccessFrame nick token level = successHead ++ (nick ++ (tokenHead ++ (token ++
      (ascii "\",\"security_level\":" ++ (intDec level ++ ascii "\x7d\n"))))) := by
  simp only [registerSuccessFrame, successHead, tokenHead, List.append_assoc]

theorem successReply_registerSuccessFrame {nick token : Bytes} (hn : (34 : UInt8) ∉ nick)
    (ht : (34 : UInt8) ∉ token) (level : ℤ) :
    successReply (registerSuccessFrame nick token level) = some (nick, token) := by
  have htoken : tokenHead = 34 :: ascii ",\"token\":\"" := by decide
  have hlevel : ascii "\",\"security_level\":" = 34 :: ascii ",\"security_level\":" := by decide
  have hnick : (nick ++ (tokenHead ++ (token ++ (ascii "\",\"security_level\":" ++
      (intDec level ++ ascii "\x7d\n"))))).takeWhile (· != 34) = nick := by
    rw [htoken]
    exact takeWhile_delimiter hn _
  simp only [registerSuccessFrame_eq, successReply, scanLiteral_append, Option.bind_eq_bind,
    Option.bind_some, hnick, List.drop_left, Option.pure_def]
  rw [hlevel, List.cons_append, takeWhile_delimiter ht]

theorem successReply_registerErrorFrame (message : Bytes) :
    successReply (registerErrorFrame message) = none := rfl

/-- The reply fits its buffer of 512 bytes. -/
theorem snprintf_registerSuccessFrame {nick token : Bytes} {level : ℤ} (hn : RegNick nick)
    (ht : TokenText token) (hlevel : level.natAbs ≤ 2 ^ 31) :
    snprintf 512 (registerSuccessFrame nick token level) =
      registerSuccessFrame nick token level := by
  apply snprintf_of_lt
  have hheads : successHead.length + tokenHead.length +
      (ascii "\",\"security_level\":").length + (ascii "\x7d\n").length ≤ 128 := by decide
  have hnick := hn.2.length_le
  have htoken : token.length = 64 := ht.1
  have hdec := intDec_length_le (by decide : 0 < 10) (lt_of_le_of_lt hlevel (by decide))
  rw [registerSuccessFrame_eq]
  simp only [List.length_append]
  omega

theorem successReply_snprintf {nick token : Bytes} {level : ℤ} (hn : RegNick nick)
    (ht : TokenText token) (hlevel : level.natAbs ≤ 2 ^ 31) :
    successReply (snprintf 512 (registerSuccessFrame nick token level)) = some (nick, token) := by
  rw [snprintf_registerSuccessFrame hn ht hlevel,
    successReply_registerSuccessFrame hn.quote_notMem (quote_notMem ht.2)]

/-! ### What a step can do -/

section

variable (info : ℕ → Registrant)

def RegPhase.WellFormed : RegPhase → Prop
  | .idle => True
  | .checking nick => RegNick nick
  | .generating nick => RegNick nick
  | .saving nick token => RegNick nick ∧ TokenText token
  | .answering nick token _ => RegNick nick ∧ TokenText token

/-- The changes a step can make, with what they report. -/
inductive RegMove (s : RegState) : RegState → List RegOutput → Prop
  | stay : RegMove s s []
  /-- A client goes on without touching the table, or gives up silently. -/
  | advance (c : ℕ) {p : RegPhase} (hp : (s.phase c).WellFormed → p.WellFormed)
      (hbefore : (s.phase c).pending = []) (hafter : p.pending = []) : RegMove s (s.goto c p) []
  | refuse (c : ℕ) (message : String) (hbefore : (s.phase c).pending = []) :
      RegMove s (s.goto c .idle) [regError c message]
  | insert (c : ℕ) {nick token : Bytes} {users : SecureUsers}
      (hphase : s.phase c = .saving nick token)
      (hinsert : s.users.insert nick token (info c).ip (info c).regId (info c).publicKey
        (info c).securityLevel = some users) :
      RegMove s { s.goto c (.answering nick token true) with users := users }
        [.inserted c (s.users.newRow nick token (info c).ip (info c).regId (info c).publicKey
          (info c).securityLevel)]
  | succeed (c : ℕ) {nick token : Bytes} (hphase : s.phase c = .answering nick token true) :
      RegMove s (s.goto c .idle)
        [.reply c (snprintf 512 (registerSuccessFrame nick token (info c).securityLevel))]

theorem regStep_move (s : RegState) (e : RegEvent) :
    RegMove info s (regStep info s e).1 (regStep info s e).2 := by
  cases e with
  | submit c command =>
    simp only [regStep]
    cases hphase : s.phase c with
    | idle =>
      cases hparse : parseRegister command with
      | none => exact .refuse c _ (by rw [hphase]; rfl)
      | some nick =>
        by_cases hvalid : validateNickname nick = true
        · simp only [hvalid, if_true]
          exact .advance c (fun _ => ⟨hvalid, (parseRegister_eq_some hparse).1⟩)
            (by rw [hphase]; rfl) rfl
        · simp only [hvalid]
          exact .refuse c _ (by rw [hphase]; rfl)
    | checking nick => exact .stay
    | generating nick => exact .stay
    | saving nick token => exact .stay
    | answering nick token saved => exact .stay
  | check c selectOk =>
    simp only [regStep]
    cases hphase : s.phase c with
    | checking nick =>
      by_cases hexists : (selectOk && s.users.hasNick nick) = true
      · simp only [hexists, if_true]
        exact .refuse c _ (by rw [hphase]; rfl)
      · simp only [hexists]
        exact .advance c (by rw [hphase]; exact id) (by rw [hphase]; rfl) rfl
    | idle => exact .stay
    | generating nick => exact .stay
    | saving nick token => exact .stay
    | answering nick token saved => exact .stay
  | generate c random =>
    simp only [regStep]
    cases hphase : s.phase c with
    | generating nick =>
      cases htoken : generateSecureToken (tokenLength + 1) random with
      | none => exact .advance c (fun _ => trivial) (by rw [hphase]; rfl) rfl
      | some token =>
        refine .advance c (fun hwf => ?_) (by rw [hphase]; rfl) rfl
        rw [hphase] at hwf
        exact ⟨hwf, generateSecureToken_spec htoken⟩
    | idle => exact .stay
    | checking nick => exact .stay
    | saving nick token => exact .stay
    | answering nick token saved => exact .stay
  | save c insertOk =>
    simp only [regStep]
    cases hphase : s.phase c with
    | saving nick token =>
      cases insertOk with
      | false => exact .advance c (by rw [hphase]; exact id) (by rw [hphase]; rfl) rfl
      | true =>
        simp only [if_true]
        cases hinsert : s.users.insert nick token (info c).ip (info c).regId (info c).publicKey
            (info c).securityLevel with
        | none => exact .advance c (by rw [hphase]; exact id) (by rw [hphase]; rfl) rfl
        | some users => exact .insert c hphase hinsert
    | idle => exact .stay
    | checking nick => exact .stay
    | generating nick => exact .stay
    | answering nick token saved => exact .stay
  | answer c =>
    simp only [regStep]
    cases hphase : s.phase c with
    | answering nick token saved =>
      cases saved with
      | true => exact .succeed c hphase
      | false => exact .refuse c _ (by rw [hphase]; rfl)
    | idle => exact .stay
    | checking nick => exact .stay
    | generating nick => exact .stay
    | saving nick token => exact .stay

end

/-! ### The ledger -/

/-- What the outputs so far say about the table and about each client. -/
structure Ledger (users : SecureUsers) (s : RegState) (out : List RegOutput) : Prop where
  wellFormed : ∀ c, (s.phase c).WellFormed
  rows : s.users.rows = users.rows ++ out.filterMap RegOutput.row?
  own : ∀ c, insertsOf c out = successesOf c out ++ (s.phase c).pending

section ledger

variable {info : ℕ → Registrant} {users : SecureUsers} {s : RegState} {out : List RegOutput}

@[simp] theorem goto_users (c : ℕ) (p : RegPhase) : (s.goto c p).users = s.users := rfl

@[simp] theorem goto_self (c : ℕ) (p : RegPhase) : (s.goto c p).phase c = p := by
  simp [RegState.goto]

theorem goto_ne {c d : ℕ} (p : RegPhase) (h : d ≠ c) : (s.goto c p).phase d = s.phase d := by
  simp [RegState.goto, h]

theorem insertsOf_append (c : ℕ) (o o' : List RegOutput) :
    insertsOf c (o ++ o') = insertsOf c o ++ insertsOf c o' := List.filterMap_append

theorem successesOf_append (c : ℕ) (o o' : List RegOutput) :
    successesOf c (o ++ o') = successesOf c o ++ successesOf c o' := List.filterMap_append

theorem ledger_init (users : SecureUsers) : Ledger users (RegState.init users) [] :=
  ⟨fun _ => trivial, (List.append_nil _).symm, fun _ => rfl⟩

theorem Ledger.wellFormed_goto (h : Ledger users s out) {c : ℕ} {p : RegPhase} (hp : p.WellFormed) :
    ∀ d, ((s.goto c p).phase d).WellFormed := by
  intro d
  by_cases hd : d = c
  · rw [hd, goto_self]
    exact hp
  · rw [goto_ne p hd]
    exact h.wellFormed d

/-- The accounts of the clients other than the one that moves stay as they are. -/
theorem Ledger.own_goto (h : Ledger users s out) {c : ℕ} {p : RegPhase} {o : List RegOutput}
    (hother : ∀ d ≠ c, insertsOf d o = [] ∧ successesOf d o = [])
    (hself : (s.phase c).pending ++ insertsOf c o = successesOf c o ++ p.pending) (d : ℕ) :
    insertsOf d (out ++ o) = successesOf d (out ++ o) ++ ((s.goto c p).phase d).pending := by
  rw [insertsOf_append, successesOf_append, h.own d]
  by_cases hd : d = c
  · subst hd
    rw [goto_self, List.append_assoc, hself, List.append_assoc]
  · rw [goto_ne p hd, (hother d hd).1, (hother d hd).2, List.append_nil, List.append_nil]

theorem Ledger.move (h : Ledger users s out) {s' : RegState} {o : List RegOutput}
    (hm : RegMove info s s' o) : Ledger users s' (out ++ o) := by
  cases hm with
  | stay => simpa using h
  | advance c hp hbefore hafter =>
    refine ⟨h.wellFormed_goto (hp (h.wellFormed c)), by simpa using h.rows, ?_⟩
    refine h.own_goto (fun _ _ => ⟨rfl, rfl⟩) ?_
    rw [hbefore, hafter]
    rfl
  | refuse c message hbefore =>
    refine ⟨h.wellFormed_goto trivial, ?_, ?_⟩
    · rw [List.filterMap_append]
      exact h.rows.trans (by simp [regError, RegOutput.row?])
    · refine h.own_goto (fun d hd => ⟨rfl, ?_⟩) ?_
      · simp [successesOf, regError, Ne.symm hd]
      · rw [hbefore]
        simp [insertsOf, successesOf, regError, successReply_registerErrorFrame, RegPhase.pending]
  | @insert c nick token users' hphase hinsert =>
    have hwf := h.wellFormed c
    rw [hphase] at hwf
    refine ⟨h.wellFormed_goto (p := .answering nick token true) hwf, ?_, ?_⟩
    · rw [List.filterMap_append, ← List.append_assoc, ← h.rows]
      exact (s.users.insert_eq_some hinsert).2
    · refine h.own_goto (p := .answering nick token true) (fun d hd => ⟨?_, rfl⟩) ?_
      · simp [insertsOf, Ne.symm hd]
      · rw [hphase]
        simp [insertsOf, successesOf, RegPhase.pending, SecureUsers.newRow]
  | @succeed c nick token hphase =>
    have hwf := h.wellFormed c
    rw [hphase] at hwf
    have hreply := successReply_snprintf hwf.1 hwf.2 (info c).level_fits
    refine ⟨h.wellFormed_goto trivial, ?_, ?_⟩
    · rw [List.filterMap_append]
      exact h.rows.trans (by simp [RegOutput.row?])
    · refine h.own_goto (fun d hd => ⟨rfl, ?_⟩) ?_
      · simp [successesOf, Ne.symm hd]
      · rw [hphase]
        simp [insertsOf, successesOf, RegPhase.pending, hreply]

theorem regRun_ledger (info : ℕ → Registrant) (users : SecureUsers) (es : List RegEvent) :
    Ledger users (regRun info (RegState.init users) es).1
      (regRun info (RegState.init users) es).2 :=
  Runs.run_trace_invariant (I := Ledger users) (fun s _ e h => h.move (regStep_move info s e))
    (ledger_init users) es

theorem mem_insertsOf {c : ℕ} {p : Bytes × Bytes} :
    p ∈ insertsOf c out ↔ ∃ row, .inserted c row ∈ out ∧ row.nick = p.1 ∧ row.token = p.2 := by
  simp only [insertsOf, List.mem_filterMap]
  refine ⟨?_, ?_⟩
  · rintro ⟨o, ho, heq⟩
    cases o with
    | inserted c' row =>
      by_cases hc : c' = c
      · subst hc
        simp only [if_true, Option.some.injEq] at heq
        exact ⟨row, ho, by rw [← heq], by rw [← heq]⟩
      · simp [hc] at heq
    | reply c' frame => simp at heq
  · rintro ⟨row, ho, hn, ht⟩
    exact ⟨_, ho, by simp [hn, ht]⟩

/-- The rows that two outputs report have different nicks. -/
def DistinctRows (a b : RegOutput) : Prop :=
  ∀ r, a.row? = some r → ∀ r', b.row? = some r' → caseEq r.nick r'.nick = false

instance : Std.Symm DistinctRows := by
  refine ⟨fun a b hab r hr r' hr' => ?_⟩
  rw [caseEq_comm]
  exact hab r' hr' r hr

theorem Ledger.distinctRows (h : Ledger users s out) : out.Pairwise DistinctRows := by
  have hpairs : (out.filterMap RegOutput.row?).Pairwise
      fun a b : UserRow => caseEq a.nick b.nick = false :=
    s.users.nick_unique.sublist (by rw [h.rows]; exact List.sublist_append_right _ _)
  exact List.pairwise_filterMap.1 hpairs

/-- A nick is inserted once, by one client. -/
theorem Ledger.inserted_inj (h : Ledger users s out) {c c' : ℕ} {row row' : UserRow}
    (hr : .inserted c row ∈ out) (hr' : .inserted c' row' ∈ out)
    (heq : caseEq row.nick row'.nick = true) : c = c' ∧ row = row' := by
  by_contra hne
  have hout : RegOutput.inserted c row ≠ .inserted c' row' := by simpa using hne
  have := h.distinctRows.forall hr hr' hout row rfl row' rfl
  rw [heq] at this
  exact absurd this (by simp)

theorem Ledger.insertsOf_distinct (h : Ledger users s out) (c : ℕ) :
    (insertsOf c out).Pairwise fun p q => caseEq p.1 q.1 = false := by
  refine List.pairwise_filterMap.2 (h.distinctRows.imp ?_)
  intro a b hab p hp q hq
  cases a with
  | reply c' frame => simp at hp
  | inserted c' row =>
    cases b with
    | reply c'' frame => simp at hq
    | inserted c'' row' =>
      simp only [Option.ite_none_right_eq_some, Option.some.injEq] at hp hq
      rw [← hp.2, ← hq.2]
      exact hab row rfl row' rfl

/-- With its answer a client is told of the row that was pending, and is idle again. -/
theorem Ledger.answer (info : ℕ → Registrant) (h : Ledger users s out) (c : ℕ) :
    successesOf c (regStep info s (.answer c)).2 = (s.phase c).pending ∧
      ((regStep info s (.answer c)).1.phase c).pending = [] ∧
      ∀ nick token saved, s.phase c = .answering nick token saved →
        (regStep info s (.answer c)).1.phase c = .idle := by
  have hwf := h.wellFormed c
  simp only [regStep]
  cases hphase : s.phase c with
  | answering nick token saved =>
    rw [hphase] at hwf
    cases saved with
    | true =>
      have hreply := successReply_snprintf hwf.1 hwf.2 (info c).level_fits
      refine ⟨by simp [successesOf, RegPhase.pending, hreply], ?_, fun _ _ _ _ => goto_self c _⟩
      rw [goto_self]
      rfl
    | false =>
      refine ⟨by simp [successesOf, regError, successReply_registerErrorFrame, RegPhase.pending],
        ?_, fun _ _ _ _ => goto_self c _⟩
      rw [goto_self]
      rfl
  | idle | checking nick | generating nick | saving nick token =>
    refine ⟨rfl, ?_, fun _ _ _ hanswering => ?_⟩
    · rw [hphase]
      rfl
    · cases hanswering

/-- Once a client has been answered, the rows its INSERTs added are those it was told of. -/
theorem inserts_answered (info : ℕ → Registrant) (users : SecureUsers) (es : List RegEvent)
    (c : ℕ) :
    let r := regRun info (RegState.init users) (es ++ [.answer c])
    insertsOf c r.2 = successesOf c r.2 := by
  intro r
  have hbefore := regRun_ledger info users es
  have hafter : Ledger users r.1 r.2 := regRun_ledger info users _
  have hphase : (r.1.phase c).pending = [] := by
    have hanswer := (hbefore.answer info c).2.1
    rwa [show r = _ from Runs.run_append _ _ _ _]
  rw [hafter.own c, hphase, List.append_nil]

/-- Any number of clients register at once, from any table and in any order of steps.
Nicks (up to case) and tokens stay unique; a client's `success` replies are, in order,
the nicks and tokens of the rows its own INSERTs added, short of the one it is about to
be told of; these rows are in the table; and no two clients succeed for one nick. -/
theorem registration_unique (info : ℕ → Registrant) (users : SecureUsers) (es : List RegEvent) :
    let s := (regRun info (RegState.init users) es).1
    let out := (regRun info (RegState.init users) es).2
    s.users.rows.Pairwise (fun a b => caseEq a.nick b.nick = false ∧ a.token ≠ b.token) ∧
    s.users.rows = users.rows ++ out.filterMap RegOutput.row? ∧
    (∀ c, insertsOf c out = successesOf c out ++ (s.phase c).pending) ∧
    (∀ c, ∀ p ∈ successesOf c out, ∃ row ∈ s.users.rows,
      .inserted c row ∈ out ∧ row.nick = p.1 ∧ row.token = p.2) ∧
    (∀ c, (successesOf c out).Pairwise fun p q => caseEq p.1 q.1 = false) ∧
    (∀ c c', ∀ p ∈ successesOf c out, ∀ q ∈ successesOf c' out,
      caseEq p.1 q.1 = true → c = c') := by
  intro s out
  have h : Ledger users s out := regRun_ledger info users es
  have hrow (c : ℕ) (p : Bytes × Bytes) (hp : p ∈ successesOf c out) : ∃ row,
      .inserted c row ∈ out ∧ row.nick = p.1 ∧ row.token = p.2 := by
    apply mem_insertsOf.1
    rw [h.own c]
    exact List.mem_append_left _ hp
  refine ⟨s.users.nick_unique.and s.users.token_unique, h.rows, h.own, ?_, ?_, ?_⟩
  · intro c p hp
    obtain ⟨row, hmem, hn, ht⟩ := hrow c p hp
    refine ⟨row, ?_, hmem, hn, ht⟩
    rw [h.rows]
    exact List.mem_append_right _ (List.mem_filterMap.2 ⟨_, hmem, rfl⟩)
  · intro c
    exact (h.insertsOf_distinct c).sublist (by rw [h.own c]; exact List.sublist_append_left _ _)
  · intro c c' p hp q hq heq
    obtain ⟨row, hmem, hn, -⟩ := hrow c p hp
    obtain ⟨row', hmem', hn', -⟩ := hrow c' q hq
    exact (h.inserted_inj hmem hmem' (by rw [hn, hn']; exact heq)).1

end ledger

-- Two clients pass the check for two spellings of one nick; the second INSERT fails.
example :
    let info : ℕ → Registrant := fun _ => ⟨ascii "127.0.0.1", 7, zeroKey, 1, by decide⟩
    let random (b : UInt8) : Option TokenBytes :=
      some ⟨List.replicate tokenLength b, List.length_replicate⟩
    let out := (regRun info (RegState.init SecureUsers.empty)
      [.submit 0 (ascii "/register bob"), .submit 1 (ascii "/register BOB"), .check 0 true,
        .check 1 true, .generate 1 (random 17), .generate 0 (random 34), .save 1 true,
        .save 0 true, .answer 0, .answer 1]).2
    successesOf 0 out = [] ∧ successesOf 1 out = [(ascii "BOB", List.replicate 64 49)] := by
  decide +kernel

/-! ### One client alone -/

def RegOutput.frame? : RegOutput → Option Bytes
  | .inserted _ _ => none
  | .reply _ frame => some frame

def Effect.frame? : Effect → Option Bytes
  | .write _ data => some data
  | _ => none

/-- The steps of one client, run one after the other, are `process_registration`. -/
theorem regRun_alone (s : Server) (env : Env) (i : Slot) (ip command : Bytes)
    (info : ℕ → Registrant) (c : ℕ)
    (hinfo : (info c).ip = ip ∧ (info c).regId = (s.clients i).regId ∧
      (info c).publicKey = (s.clients i).publicKey ∧
      (info c).securityLevel = (s.clients i).securityLevel) :
    let r := regRun info (RegState.init s.users) [.submit c command, .check c env.selectOk,
      .generate c env.random, .save c env.insertOk, .answer c]
    r.1.users = (processRegistration s env i ip command).1.users ∧
      r.2.filterMap RegOutput.frame? =
        (processRegistration s env i ip command).2.filterMap Effect.frame? := by
  obtain ⟨hip, hreg, hkey, hlevel⟩ := hinfo
  have hinit : (RegState.init s.users).phase c = .idle := rfl
  have husers : (RegState.init s.users).users = s.users := rfl
  simp only [regRun, Runs.run]
  cases hparse : parseRegister command with
  | none =>
    simp [regStep, processRegistration, hparse, hinit, husers, regError, RegOutput.frame?,
      Effect.frame?]
  | some nick =>
    cases hvalid : validateNickname nick with
    | false =>
      simp [regStep, processRegistration, hparse, hvalid, hinit, husers, regError,
        RegOutput.frame?, Effect.frame?]
    | true =>
      cases hexists : checkNicknameExists s env nick with
      | true =>
        have hexists' : (env.selectOk && s.users.hasNick nick) = true := hexists
        simp [regStep, processRegistration, hparse, hvalid, hexists, hexists', hinit, husers,
          regError, RegOutput.frame?, Effect.frame?]
      | false =>
        have hexists' : (env.selectOk && s.users.hasNick nick) = false := hexists
        cases htoken : generateSecureToken (tokenLength + 1) env.random with
        | none =>
          simp [regStep, processRegistration, hparse, hvalid, hexists, hexists', htoken, hinit,
            husers]
        | some token =>
          cases hsave : saveUserToDatabase s env i nick token ip with
          | none =>
            have hsave' : (if env.insertOk then s.users.insert nick token (info c).ip
                (info c).regId (info c).publicKey (info c).securityLevel else none) = none := by
              rw [hip, hreg, hkey, hlevel]
              exact hsave
            simp [regStep, processRegistration, hparse, hvalid, hexists, hexists', htoken, hsave,
              hsave', hinit, husers, regError, RegOutput.frame?, Effect.frame?]
          | some users =>
            have hsave' : (if env.insertOk then s.users.insert nick token (info c).ip
                (info c).regId (info c).publicKey (info c).securityLevel else none) =
                some users := by
              rw [hip, hreg, hkey, hlevel]
              exact hsave
            simp [regStep, processRegistration, hparse, hvalid, hexists, hexists', htoken, hsave,
              hsave', ← hlevel, hinit, husers, List.filterMap_cons, RegOutput.frame?, Effect.frame?]

end Mesh
