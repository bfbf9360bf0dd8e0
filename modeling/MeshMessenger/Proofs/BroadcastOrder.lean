import MeshMessenger.Server.Broadcasts
import MeshMessenger.Proofs.Naming

/-! Concurrent broadcasts. A client online throughout is sent every frame once,
whatever the interleaving; two such clients are sent the frames in the same order
exactly when no loop is overtaken by another on the way. -/

namespace Mesh

open CLib Runs
open scoped List

/-! ### One call alone -/

/-- The turns of one loop that nothing interrupts, from the slot at which it stands. -/
theorem run_turns (clients : Slot → SecureClient) (json : Bytes) {n i : ℕ}
    (h : i + n = maxClients) :
    (Runs.run broadcastStep ⟨clients, [⟨json, i⟩]⟩ (List.replicate n (.turn 0))).2.map
        BroadcastOutput.effect =
      (((List.finRange maxClients).drop i).filter fun j => (clients j).online).map fun j =>
        .write (clients j).ssl json := by
  induction n generalizing i with
  | zero =>
    rw [List.drop_of_length_le (by rw [List.length_finRange]; omega)]
    rfl
  | succ n ih =>
    have hi : i < maxClients := by omega
    have hdrop : (List.finRange maxClients).drop i =
        ⟨i, hi⟩ :: (List.finRange maxClients).drop (i + 1) := by
      rw [List.drop_eq_getElem_cons (by rwa [List.length_finRange])]
      simp
    have hstep : broadcastStep ⟨clients, [⟨json, i⟩]⟩ (.turn 0) =
        (⟨clients, [⟨json, i + 1⟩]⟩, writeTurn ⟨clients, [⟨json, i⟩]⟩ 0 ⟨i, hi⟩ json) := by
      simp [broadcastStep, hi]
    rw [List.replicate_succ, run_cons, hstep, List.map_append, ih (by omega), hdrop,
      List.filter_cons, writeTurn]
    split_ifs with honline
    · simp only [List.map_cons, List.map_nil, BroadcastOutput.effect, List.cons_append,
        List.nil_append]
    · simp only [List.map_nil, List.nil_append]

/-- A call that no other thread interrupts has the effects of `broadcastMessage`. -/
theorem run_call_alone (s : Server) (env : Env) (sender message : Bytes) :
    (Runs.run broadcastStep ⟨s.clients, []⟩
        (.call env sender message :: List.replicate maxClients (.turn 0))).2.map
          BroadcastOutput.effect =
      broadcastMessage s env sender message := by
  have hbegin : broadcastStep ⟨s.clients, []⟩ (.call env sender message) =
      (⟨s.clients, [⟨snprintf bufferSize (messageFrame sender message), 0⟩]⟩,
        (saveMessage env sender [] message).map .saved) := rfl
  have hsaved : (BroadcastOutput.effect ∘ .saved) = id := rfl
  rw [run_cons, hbegin, List.map_append, List.map_map, hsaved, List.map_id,
    run_turns s.clients _ (Nat.zero_add maxClients), List.drop_zero, broadcastMessage, onlineSlots]

/-! ### What a step does -/

theorem not_passed_of_standsAt {b : Broadcasting} {k : ℕ} {i : Slot}
    (h : b.standsAt k = some i) : ¬ b.passed k i := by
  rintro ⟨call, hcall, hlt⟩
  simp only [Broadcasting.standsAt, hcall, Option.bind_eq_bind, Option.bind_some] at h
  split_ifs at h with hi
  rw [Option.some.injEq] at h
  subst h
  exact absurd hlt (lt_irrefl _)

/-- A turn takes the loop past the slot at which it stands, and says so to its client if
that one is online; a loop that has ended, or has not begun, takes no turn. -/
theorem turn_cases (b : Broadcasting) (k : ℕ) :
    (∃ i call, b.standsAt k = some i ∧ b.calls[k]? = some call ∧ i.val = call.i ∧
      broadcastStep b (.turn k) =
        ({ b with calls := b.calls.set k { call with i := call.i + 1 } },
          writeTurn b k i call.json)) ∨
    b.standsAt k = none ∧ broadcastStep b (.turn k) = (b, []) := by
  cases hcall : b.calls[k]? with
  | none => exact .inr ⟨by simp [Broadcasting.standsAt, hcall], by simp [broadcastStep, hcall]⟩
  | some call =>
    by_cases hi : call.i < maxClients
    · refine .inl ⟨⟨call.i, hi⟩, call, ?_, rfl, rfl, ?_⟩
      · simp [Broadcasting.standsAt, hcall, hi]
      · simp [broadcastStep, hcall, hi]
    · exact .inr ⟨by simp [Broadcasting.standsAt, hcall, hi], by simp [broadcastStep, hcall, hi]⟩

theorem passed_step (b : Broadcasting) (e : BroadcastEvent) (k : ℕ) (i : Slot) :
    (broadcastStep b e).1.passed k i ↔ b.passed k i ∨ e = .turn k ∧ b.standsAt k = some i := by
  cases e with
  | call env sender message =>
    simp only [broadcastStep, Broadcasting.passed, reduceCtorEq, false_and, or_false]
    by_cases hk : k < b.calls.length
    · rw [List.getElem?_append_left hk]
    · rw [List.getElem?_append_right (by omega), List.getElem?_eq_none (by omega : _ ≤ k)]
      simp [List.getElem?_singleton]
  | turn m =>
    obtain ⟨j, call, hat, hcall, hj, hstep⟩ | ⟨hat, hstep⟩ := turn_cases b m
    · have hm : m < b.calls.length := (List.getElem?_eq_some_iff.1 hcall).1
      by_cases hk : m = k
      · subst hk
        simp only [hstep, Broadcasting.passed, hat, hcall, List.getElem?_set_self hm,
          Option.some.injEq, exists_eq_left', true_and, Fin.ext_iff]
        omega
      · have hne : BroadcastEvent.turn m ≠ .turn k := by simpa using hk
        simp only [hstep, Broadcasting.passed, List.getElem?_set_ne hk, hne, false_and, or_false]
    · rw [hstep]
      refine (or_iff_left ?_).symm
      rintro ⟨hm, hk⟩
      rw [BroadcastEvent.turn.injEq] at hm
      rw [← hm, hat] at hk
      exact absurd hk (by simp)
  | update j client => simp [broadcastStep, Broadcasting.passed]

theorem received_saved (i : Slot) (effects : List Effect) :
    received i (effects.map .saved) = [] := by
  simp [received, List.filterMap_map]

theorem writesOf_saved (k : ℕ) (i : Slot) (effects : List Effect) :
    writesOf k i (effects.map .saved) = [] := by
  simp [writesOf, List.filterMap_map]

/-- A slot is written to by at most one call in a step, the one that stands at it. -/
theorem received_cases (b : Broadcasting) (e : BroadcastEvent) (i : Slot) :
    received i (broadcastStep b e).2 = [] ∨
      ∃ k, e = .turn k ∧ b.standsAt k = some i ∧ received i (broadcastStep b e).2 = [k] := by
  cases e with
  | call env sender message => exact .inl (received_saved i _)
  | turn k =>
    obtain ⟨j, call, hat, -, -, hstep⟩ | ⟨-, hstep⟩ := turn_cases b k
    · rw [hstep, writeTurn]
      split_ifs with honline
      · by_cases hj : j = i
        · subst hj
          exact .inr ⟨k, rfl, hat, by simp [received]⟩
        · exact .inl (by simp [received, hj])
      · exact .inl rfl
    · exact .inl (by rw [hstep]; rfl)
  | update j client => exact .inl rfl

/-- What the `k`-th call owes slot `i`: its frame, once its loop has gone past. -/
def Broadcasting.due (b : Broadcasting) (k : ℕ) (i : Slot) (ssl : Option Conn) : List Effect :=
  match b.calls[k]? with
  | some call => if i.val < call.i then [.write ssl call.json] else []
  | none => []

/-- The client in slot `i` is online, on this connection. -/
def OnlineAs (i : Slot) (ssl : Option Conn) (b : Broadcasting) : Prop :=
  (b.clients i).online = true ∧ (b.clients i).ssl = ssl

instance (i : Slot) (ssl : Option Conn) (b : Broadcasting) : Decidable (OnlineAs i ssl b) :=
  inferInstanceAs (Decidable (_ ∧ _))

/-- A step writes to an online client what it makes due to it. -/
theorem due_step {b : Broadcasting} {i : Slot} {ssl : Option Conn} (h : OnlineAs i ssl b)
    (e : BroadcastEvent) (k : ℕ) :
    (broadcastStep b e).1.due k i ssl =
      b.due k i ssl ++ writesOf k i (broadcastStep b e).2 := by
  cases e with
  | call env sender message =>
    simp only [broadcastStep, Broadcasting.due, writesOf_saved, List.append_nil]
    by_cases hk : k < b.calls.length
    · rw [List.getElem?_append_left hk]
    · rw [List.getElem?_append_right (by omega), List.getElem?_eq_none (by omega : _ ≤ k)]
      by_cases hlast : k - b.calls.length = 0
      · simp [hlast]
      · simp [hlast]
  | turn m =>
    obtain ⟨j, call, hat, hcall, hj, hstep⟩ | ⟨-, hstep⟩ := turn_cases b m
    · have hm : m < b.calls.length := (List.getElem?_eq_some_iff.1 hcall).1
      rw [hstep]
      by_cases hk : m = k
      · subst hk
        simp only [Broadcasting.due, hcall, List.getElem?_set_self hm]
        by_cases hji : j = i
        · subst hji
          simp [writeTurn, h.1, h.2, writesOf, hj]
        · have hwrites : writesOf m i (writeTurn b m j call.json) = [] := by
            unfold writeTurn
            split_ifs <;> simp [writesOf, hji]
          have hne : i.val ≠ call.i := fun heq => hji (Fin.ext (hj.trans heq.symm))
          rw [hwrites, List.append_nil, if_congr (by omega : i.val < call.i + 1 ↔ i.val < call.i)
            rfl rfl]
      · have hwrites : writesOf k i (writeTurn b m j call.json) = [] := by
          unfold writeTurn
          split_ifs <;> simp [writesOf, hk]
        simp only [Broadcasting.due, List.getElem?_set_ne hk, hwrites, List.append_nil]
    · rw [hstep]
      simp [writesOf]
  | update j client => simp [broadcastStep, Broadcasting.due, writesOf]

/-! ### Exactly once -/

/-- The client in slot `i` is online on one connection in every state of the run. -/
def Throughout (i : Slot) (ssl : Option Conn) (b : Broadcasting) (es : List BroadcastEvent) :
    Prop :=
  Along broadcastStep (fun b _ => OnlineAs i ssl b) b es

/-- So far the client in slot `i` has been written what is due to it, and it stays online. -/
def Served (i : Slot) (b : Broadcasting) (out : List BroadcastOutput) (es : List BroadcastEvent) :
    Prop :=
  ∃ ssl, Throughout i ssl b es ∧ ∀ k, b.due k i ssl = writesOf k i out

theorem Served.step {i : Slot} {b : Broadcasting} {out : List BroadcastOutput} {e : BroadcastEvent}
    {es : List BroadcastEvent} (h : Served i b out (e :: es)) :
    Served i (broadcastStep b e).1 (out ++ (broadcastStep b e).2) es := by
  obtain ⟨ssl, ⟨honline, hes⟩, hdue⟩ := h
  exact ⟨ssl, hes, fun k => by rw [due_step honline, hdue, writesOf_append]⟩

theorem due_eq_writesOf {i : Slot} {ssl : Option Conn} {clients : Slot → SecureClient}
    {es : List BroadcastEvent} (h : Throughout i ssl ⟨clients, []⟩ es) (k : ℕ) :
    (Runs.run broadcastStep ⟨clients, []⟩ es).1.due k i ssl =
      writesOf k i (Runs.run broadcastStep ⟨clients, []⟩ es).2 := by
  have hinit : (⟨clients, []⟩ : Broadcasting).due k i ssl = writesOf k i [] := rfl
  exact Along.trace_invariant (I := fun b out => b.due k i ssl = writesOf k i out)
    (fun b out e hb hdue => by rw [due_step hb, hdue, writesOf_append]) hinit h

/-- The calls of a run carry the frames they were made with. -/
theorem run_frames (b : Broadcasting) (es : List BroadcastEvent) :
    (Runs.run broadcastStep b es).1.calls.map BroadcastCall.json =
      b.calls.map BroadcastCall.json ++ framesOf es := by
  induction es generalizing b with
  | nil => simp [framesOf]
  | cons e es ih =>
    rw [run_cons, ih]
    cases e with
    | call env sender message => simp [broadcastStep, framesOf]
    | turn k =>
      obtain ⟨j, call, -, hcall, -, hstep⟩ | ⟨-, hstep⟩ := turn_cases b k
      · have hjson : (b.calls.map BroadcastCall.json)[k]? = some call.json := by
          rw [List.getElem?_map, hcall, Option.map_some]
        obtain ⟨hk, hget⟩ := List.getElem?_eq_some_iff.1 hjson
        simp only [hstep, framesOf, List.map_set, ← hget, List.set_getElem_self]
      · rw [hstep, framesOf]
    | update j client => rfl

/-- The client is sent the frame of every call that has gone past it once, and of no other. -/
theorem writesOf_eq {i : Slot} {ssl : Option Conn} {clients : Slot → SecureClient}
    {es : List BroadcastEvent} (h : Throughout i ssl ⟨clients, []⟩ es) {k : ℕ} {frame : Bytes}
    (hk : (framesOf es)[k]? = some frame) :
    writesOf k i (Runs.run broadcastStep ⟨clients, []⟩ es).2 =
      if (Runs.run broadcastStep ⟨clients, []⟩ es).1.passed k i then [.write ssl frame] else [] := by
  rw [← due_eq_writesOf h]
  have hframes := run_frames ⟨clients, []⟩ es
  rw [List.map_nil, List.nil_append] at hframes
  rw [← hframes, List.getElem?_map, Option.map_eq_some_iff] at hk
  obtain ⟨call, hcall, rfl⟩ := hk
  simp only [Broadcasting.due, Broadcasting.passed, hcall, Option.some.injEq, exists_eq_left']

theorem count_received (i : Slot) (out : List BroadcastOutput) (k : ℕ) :
    (received i out).count k = (writesOf k i out).length := by
  induction out with
  | nil => rfl
  | cons o out ih =>
    cases o with
    | saved effect => exact ih
    | written m j effect =>
      by_cases hj : j = i
      · by_cases hm : m = k
        · simpa [received, writesOf, hj, hm] using ih
        · simpa [received, writesOf, hj, hm] using ih
      · simpa [received, writesOf, hj] using ih

theorem Served.mem_received_iff {i : Slot} {b : Broadcasting} {out : List BroadcastOutput}
    {es : List BroadcastEvent} (h : Served i b out es) (k : ℕ) :
    k ∈ received i out ↔ b.passed k i := by
  obtain ⟨ssl, -, hdue⟩ := h
  rw [← List.count_pos_iff, count_received, ← hdue, Broadcasting.due, Broadcasting.passed]
  cases b.calls[k]? with
  | none => simp
  | some call => by_cases hlt : i.val < call.i <;> simp [hlt]

/-! ### The same order -/

/-- The slots whose client stays online throughout a run. -/
def stayingSlots (clients : Slot → SecureClient) (es : List BroadcastEvent) : Set Slot :=
  { i | ∃ ssl, Throughout i ssl ⟨clients, []⟩ es }

/-- Any two of the clients are sent any two frames in the same order. -/
def SameOrder (slots : Set Slot) (out : List BroadcastOutput) : Prop :=
  ∀ i ∈ slots, ∀ j ∈ slots, ∀ a b, [a, b] <+ received i out → ¬ [b, a] <+ received j out

/-- The step takes no loop past one of the slots after a loop of a later call, in the
order given by `rank`, has gone past it. -/
def InTurn (slots : Set Slot) (rank : ℕ → ℕ) (b : Broadcasting) : BroadcastEvent → Prop
  | .turn k => ∀ i ∈ slots, b.standsAt k = some i → ∀ m, rank k < rank m → ¬ b.passed m i
  | _ => True

/-- The calls that have written to a slot have gone past it, and did so in their order. -/
structure Ordered (slots : Set Slot) (rank : ℕ → ℕ) (b : Broadcasting)
    (out : List BroadcastOutput) : Prop where
  passed : ∀ i, ∀ k ∈ received i out, b.passed k i
  pairwise : ∀ i ∈ slots, (received i out).Pairwise fun a b => rank a < rank b

theorem Ordered.step {slots : Set Slot} {rank : ℕ → ℕ} (hrank : Function.Injective rank)
    {b : Broadcasting} {out : List BroadcastOutput} {e : BroadcastEvent}
    (he : InTurn slots rank b e) (h : Ordered slots rank b out) :
    Ordered slots rank (broadcastStep b e).1 (out ++ (broadcastStep b e).2) := by
  refine ⟨fun i k hk => ?_, fun i hi => ?_⟩
  · rw [passed_step]
    rw [received_append, List.mem_append] at hk
    rcases hk with hk | hk
    · exact .inl (h.passed i k hk)
    · obtain hnone | ⟨m, rfl, hat, hone⟩ := received_cases b e i
      · rw [hnone] at hk
        exact absurd hk (by simp)
      · rw [hone, List.mem_singleton] at hk
        subst hk
        exact .inr ⟨rfl, hat⟩
  · rw [received_append]
    obtain hnone | ⟨k, rfl, hat, hone⟩ := received_cases b e i
    · rw [hnone, List.append_nil]
      exact h.pairwise i hi
    · rw [hone, List.pairwise_append]
      refine ⟨h.pairwise i hi, List.pairwise_singleton _ _, fun a ha m hm => ?_⟩
      rw [List.mem_singleton] at hm
      subst hm
      have hpassed := h.passed i a ha
      have hle : rank a ≤ rank m := not_lt.1 fun hlt => he i hi hat a hlt hpassed
      refine lt_of_le_of_ne hle fun heq => ?_
      rw [hrank heq] at hpassed
      exact not_passed_of_standsAt hat hpassed

theorem Ordered.sameOrder {slots : Set Slot} {rank : ℕ → ℕ} {b : Broadcasting}
    {out : List BroadcastOutput} (h : Ordered slots rank b out) : SameOrder slots out := by
  have hlt {i : Slot} (hi : i ∈ slots) {a c : ℕ} (hsub : [a, c] <+ received i out) :
      rank a < rank c := by
    have hpair := List.Pairwise.sublist hsub (h.pairwise i hi)
    rwa [List.pairwise_pair] at hpair
  intro i hi j hj a c hac hca
  exact absurd (hlt hi hac) (hlt hj hca).asymm

/-- An order of the calls that is that of a list on its members. -/
def rankIn (l : List ℕ) (k : ℕ) : ℕ := if k ∈ l then l.idxOf k else l.length + k

theorem rankIn_injective (l : List ℕ) : Function.Injective (rankIn l) := by
  intro a c h
  unfold rankIn at h
  split_ifs at h with ha hc hc
  · exact (List.idxOf_inj ha).1 h
  · have := List.idxOf_lt_length_of_mem ha
    omega
  · have := List.idxOf_lt_length_of_mem hc
    omega
  · omega

theorem pair_sublist_of_idxOf_lt {l : List ℕ} {a c : ℕ} (hc : c ∈ l)
    (h : l.idxOf a < l.idxOf c) : [a, c] <+ l := by
  induction l with
  | nil => exact absurd hc (by simp)
  | cons x l ih =>
    by_cases hxa : x = a
    · subst hxa
      have hne : c ≠ x := by
        rintro rfl
        exact absurd h (lt_irrefl _)
      exact (List.singleton_sublist.2 (List.mem_of_ne_of_mem hne hc)).cons_cons x
    · have hxc : x ≠ c := by
        rintro rfl
        rw [List.idxOf_cons_self] at h
        exact absurd h (Nat.not_lt_zero _)
      rw [List.idxOf_cons_ne _ hxa, List.idxOf_cons_ne _ hxc] at h
      exact (ih (List.mem_of_ne_of_mem hxc.symm hc) (by omega)).cons x

/-- Where the clients are sent the frames in one order, every step was in turn by the
order in which the first of the slots is written to. -/
theorem along_inTurn {slots : Set Slot} {first : Slot} (hfirst : first ∈ slots)
    (hmin : ∀ i ∈ slots, first ≤ i) {total : List BroadcastOutput} (hsame : SameOrder slots total)
    {b : Broadcasting} {out : List BroadcastOutput} {es : List BroadcastEvent}
    (hserved : ∀ i ∈ slots, Served i b out es)
    (htotal : out ++ (Runs.run broadcastStep b es).2 = total) :
    Along broadcastStep (InTurn slots (rankIn (received first total))) b es := by
  induction es generalizing b out with
  | nil => trivial
  | cons e es ih =>
    have hnext : ∀ i ∈ slots, Served i (broadcastStep b e).1 (out ++ (broadcastStep b e).2) es :=
      fun i hi => (hserved i hi).step
    rw [run_cons, ← List.append_assoc] at htotal
    refine ⟨?_, ih hnext htotal⟩
    cases e with
    | call env sender message => trivial
    | update i client => trivial
    | turn k =>
      intro i hi hat m hlt hm
      have hk : (broadcastStep b (.turn k)).1.passed k i := (passed_step b _ k i).2 (.inr ⟨rfl, hat⟩)
      have hm' : (broadcastStep b (.turn k)).1.passed m i := (passed_step b _ m i).2 (.inl hm)
      -- both calls have gone past the first slot, so the client there has both frames
      have hmem {a : ℕ} (ha : (broadcastStep b (.turn k)).1.passed a i) :
          a ∈ received first total := by
        obtain ⟨call, hcall, hi'⟩ := ha
        have hpassed : (broadcastStep b (.turn k)).1.passed a first :=
          ⟨call, hcall, lt_of_le_of_lt (hmin i hi) hi'⟩
        rw [← htotal, received_append]
        exact List.mem_append_left _ (((hnext first hfirst).mem_received_iff a).2 hpassed)
      have hkm : [k, m] <+ received first total := by
        rw [rankIn, rankIn, if_pos (hmem hk), if_pos (hmem hm')] at hlt
        exact pair_sublist_of_idxOf_lt (hmem hm') hlt
      -- and the client in slot `i` has them the other way round
      have hmk : [m, k] <+ received i total := by
        have hold : m ∈ received i out := ((hserved i hi).mem_received_iff m).2 hm
        have hnew : k ∈ received i (broadcastStep b (.turn k)).2 := by
          have hall := ((hnext i hi).mem_received_iff k).2 hk
          rw [received_append, List.mem_append, (hserved i hi).mem_received_iff] at hall
          exact hall.resolve_left (not_passed_of_standsAt hat)
        rw [← htotal, received_append, received_append]
        exact ((List.singleton_sublist.2 hold).append (List.singleton_sublist.2 hnew)).trans
          (List.sublist_append_left _ _)
      exact hsame i hi first hfirst m k hmk hkm

/-- Every client online throughout is sent the frame of every call that has gone past it
exactly once, so that of every call that has ended, and any two such clients are sent any
two frames in the same order. -/
structure BroadcastsDelivered (clients : Slot → SecureClient) (es : List BroadcastEvent) :
    Prop where
  once : ∀ i ssl, Throughout i ssl ⟨clients, []⟩ es → ∀ k frame,
    (framesOf es)[k]? = some frame →
      writesOf k i (Runs.run broadcastStep ⟨clients, []⟩ es).2 =
        if (Runs.run broadcastStep ⟨clients, []⟩ es).1.passed k i then [.write ssl frame] else []
  order : SameOrder (stayingSlots clients es) (Runs.run broadcastStep ⟨clients, []⟩ es).2

/-- For every interleaving of any number of calls: the broadcasts are delivered if and only
if there is one order of the calls in which no loop is overtaken, at a slot whose client
stays online, by that of a later call. -/
theorem broadcasts_delivered_iff (clients : Slot → SecureClient) (es : List BroadcastEvent) :
    BroadcastsDelivered clients es ↔
      ∃ rank : ℕ → ℕ, Function.Injective rank ∧
        Along broadcastStep (InTurn (stayingSlots clients es) rank) ⟨clients, []⟩ es := by
  refine ⟨fun h => ?_, ?_⟩
  · by_cases hne : (stayingSlots clients es).Nonempty
    · obtain ⟨first, hfirst, hmin⟩ := wellFounded_lt.has_min _ hne
      refine ⟨_, rankIn_injective _, along_inTurn hfirst (fun i hi => not_lt.1 (hmin i hi)) h.order
        (fun i hi => ?_) (List.nil_append _)⟩
      obtain ⟨ssl, hssl⟩ := hi
      exact ⟨ssl, hssl, fun k => rfl⟩
    · refine ⟨id, Function.injective_id, Along.of_forall (fun b e => ?_) _ _⟩
      cases e with
      | turn k => exact fun i hi => absurd ⟨i, hi⟩ hne
      | _ => trivial
  · rintro ⟨rank, hrank, hturns⟩
    refine ⟨fun i ssl h k frame hk => writesOf_eq h hk, ?_⟩
    have hinit : Ordered (stayingSlots clients es) rank ⟨clients, []⟩ [] :=
      ⟨fun i k hk => absurd hk (by simp [received]), fun i _ => List.Pairwise.nil⟩
    exact (Along.trace_invariant (fun b out e => Ordered.step hrank) hinit hturns).sameOrder

namespace Sample

/-- `ann` and `bob` both speak: `ann`'s loop is overtaken between their two slots. -/
def overtaking : List BroadcastEvent :=
  [.call (env 1005 0) (ascii "ann") (ascii "hello"), .call (env 1005 0) (ascii "bob") (ascii "hi"),
    .turn 0, .turn 1, .turn 1, .turn 0]

end Sample

/-- `ann` is sent her own message first, `bob` is sent his. -/
theorem overtaken_order_differs :
    let s := (run Sample.crypto (Server.init SecureUsers.empty) Sample.chat).1
    let out := (Runs.run broadcastStep ⟨s.clients, []⟩ Sample.overtaking).2
    received Sample.firstSlot out = [0, 1] ∧ received Sample.secondSlot out = [1, 0] ∧
      ¬ BroadcastsDelivered s.clients Sample.overtaking := by
  intro s out
  obtain ⟨hfirst, hsecond⟩ : received Sample.firstSlot out = [0, 1] ∧
      received Sample.secondSlot out = [1, 0] := by decide +kernel
  have hstay : Throughout Sample.firstSlot (some 0) ⟨s.clients, []⟩ Sample.overtaking ∧
      Throughout Sample.secondSlot (some 1) ⟨s.clients, []⟩ Sample.overtaking := by
    unfold Throughout
    decide +kernel
  refine ⟨hfirst, hsecond, fun h => ?_⟩
  refine h.order _ ⟨_, hstay.1⟩ _ ⟨_, hstay.2⟩ 0 1 ?_ ?_
  · exact hfirst ▸ List.Sublist.refl _
  · exact hsecond ▸ List.Sublist.refl _

end Mesh
