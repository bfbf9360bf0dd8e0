import MeshMessenger.Lib.Runs

/-! A machine and the parties it talks to, joined by reliable streams in both
directions. What a run of the whole does to the machine is a run of the machine; what
has arrived at a party and what is still under way make up what was sent to it. -/

namespace Channels

/-- What an event needs of the streams from the parties: nothing, the next data of one of
them, or what cannot come. -/
inductive Need (κ β : Type) where
  | nothing
  | next (k : κ) (data : List β)
  | never

/-- A machine, what its outputs put on the streams to the parties, what its events need
of the streams from them, and what a party makes of the data it is given. -/
structure Hub (σ ε ω κ γ α β : Type) where
  step : σ → ε → σ × List ω
  sent : κ → List ω → List β
  sent_append : ∀ k o o', sent k (o ++ o') = sent k o ++ sent k o'
  needs : σ → ε → Need κ β
  feed : γ → List β → γ × List α
  feed_nil : ∀ g, feed g [] = (g, [])
  feed_append : ∀ g d d', feed g (d ++ d') =
    ((feed (feed g d).1 d').1, (feed g d).2 ++ (feed (feed g d).1 d').2)

/-- The machine, the parties, and what each stream holds. -/
structure Net (σ κ γ β : Type) where
  machine : σ
  parties : κ → γ
  up : κ → List β
  down : κ → List β

inductive Event (ε κ β : Type) where
  | act (e : ε)
  /-- A party sends data to the machine. -/
  | send (k : κ) (data : List β)
  /-- The next `n` items reach a party, or all there are. -/
  | deliver (k : κ) (n : ℕ)

inductive Output (ε ω κ α β : Type) where
  | acted (e : ε) (need : Need κ β) (outputs : List ω)
  | sent (k : κ) (data : List β)
  | received (k : κ) (data : List β) (signals : List α)

section

variable {σ ε ω κ γ α β : Type}

/-- What a need takes from the stream of party `k`. -/
def Need.takenFrom [DecidableEq κ] (k : κ) : Need κ β → List β
  | next k' data => if k' = k then data else []
  | _ => []

/-- The streams hold what is needed. -/
def Need.Met (up : κ → List β) : Need κ β → Prop
  | nothing => True
  | next k data => data <+: up k
  | never => False

instance [DecidableEq β] (up : κ → List β) : (need : Need κ β) → Decidable (need.Met up)
  | .nothing => isTrue trivial
  | .next k data => inferInstanceAs (Decidable (data <+: up k))
  | .never => isFalse id

/-- What is needed is where the stream it comes from begins. -/
theorem Need.Met.isPrefix [DecidableEq κ] {up : κ → List β} {need : Need κ β}
    (h : need.Met up) (k : κ) : need.takenFrom k <+: up k := by
  cases need with
  | nothing => exact List.nil_prefix
  | next k' data =>
    by_cases hk : k' = k
    · subst hk
      simpa [takenFrom, Met] using h
    · simp [takenFrom, hk]
  | never => exact h.elim

namespace Output

/-- The events the machine took. -/
def acts (out : List (Output ε ω κ α β)) : List ε :=
  out.filterMap fun
    | acted e _ _ => some e
    | _ => none

/-- The machine's outputs. -/
def emitted (out : List (Output ε ω κ α β)) : List ω :=
  out.flatMap fun
    | acted _ _ outputs => outputs
    | _ => []

@[simp] theorem acts_append (out out' : List (Output ε ω κ α β)) :
    acts (out ++ out') = acts out ++ acts out' := List.filterMap_append

@[simp] theorem emitted_append (out out' : List (Output ε ω κ α β)) :
    emitted (out ++ out') = emitted out ++ emitted out' := List.flatMap_append

variable [DecidableEq κ]

/-- What party `k` sent. -/
def typed (k : κ) (out : List (Output ε ω κ α β)) : List β :=
  out.flatMap fun
    | sent k' data => if k' = k then data else []
    | _ => []

/-- What the machine took from the stream of party `k`. -/
def taken (k : κ) (out : List (Output ε ω κ α β)) : List β :=
  out.flatMap fun
    | acted _ need _ => need.takenFrom k
    | _ => []

/-- What arrived at party `k`. -/
def arrived (k : κ) (out : List (Output ε ω κ α β)) : List β :=
  out.flatMap fun
    | received k' data _ => if k' = k then data else []
    | _ => []

/-- What party `k` made of it. -/
def signals (k : κ) (out : List (Output ε ω κ α β)) : List α :=
  out.flatMap fun
    | received k' _ signals => if k' = k then signals else []
    | _ => []

variable (out out' : List (Output ε ω κ α β)) (k : κ)

@[simp] theorem typed_append : typed k (out ++ out') = typed k out ++ typed k out' :=
  List.flatMap_append

@[simp] theorem taken_append : taken k (out ++ out') = taken k out ++ taken k out' :=
  List.flatMap_append

@[simp] theorem arrived_append : arrived k (out ++ out') = arrived k out ++ arrived k out' :=
  List.flatMap_append

@[simp] theorem signals_append : signals k (out ++ out') = signals k out ++ signals k out' :=
  List.flatMap_append

end Output

namespace Hub

variable (H : Hub σ ε ω κ γ α β)

theorem sent_nil (k : κ) : H.sent k [] = [] := by
  have h := congrArg List.length (H.sent_append k [] [])
  rw [List.append_nil, List.length_append] at h
  exact List.length_eq_zero_iff.1 (by omega)

variable {H} [DecidableEq κ]

/-- What holds between a state, the outputs since and the state after them. -/
structure Accounts (H : Hub σ ε ω κ γ α β) (s : Net σ κ γ β) (out : List (Output ε ω κ α β))
    (s' : Net σ κ γ β) : Prop where
  machine : Runs.run H.step s.machine (Output.acts out) = (s'.machine, Output.emitted out)
  up : ∀ k, s.up k ++ Output.typed k out = Output.taken k out ++ s'.up k
  down : ∀ k, s.down k ++ H.sent k (Output.emitted out) = Output.arrived k out ++ s'.down k
  parties : ∀ k, H.feed (s.parties k) (Output.arrived k out) =
    (s'.parties k, Output.signals k out)

theorem Accounts.refl (s : Net σ κ γ β) : Accounts H s [] s where
  machine := rfl
  up k := by simp [Output.typed, Output.taken]
  down k := by simp [Output.emitted, Output.arrived, H.sent_nil]
  parties k := H.feed_nil _

theorem Accounts.trans {s s' s'' : Net σ κ γ β} {out out' : List (Output ε ω κ α β)}
    (h : Accounts H s out s') (h' : Accounts H s' out' s'') : Accounts H s (out ++ out') s'' where
  machine := by
    rw [Output.acts_append, Runs.run_append, h.machine, h'.machine, Output.emitted_append]
  up k := by
    rw [Output.typed_append, ← List.append_assoc, h.up, List.append_assoc, h'.up,
      Output.taken_append, List.append_assoc]
  down k := by
    rw [Output.emitted_append, H.sent_append, ← List.append_assoc, h.down, List.append_assoc,
      h'.down, Output.arrived_append, List.append_assoc]
  parties k := by
    rw [Output.arrived_append, H.feed_append, h.parties, h'.parties, Output.signals_append]

/-! ### The whole -/

variable (H) [DecidableEq β]

/-- One step of the whole. An event the machine cannot take changes nothing. -/
def next (s : Net σ κ γ β) : Event ε κ β → Net σ κ γ β × List (Output ε ω κ α β)
  | .act e =>
    let need := H.needs s.machine e
    if need.Met s.up then
      let (machine, outputs) := H.step s.machine e
      ({ s with
          machine := machine
          up := fun k => (s.up k).drop (need.takenFrom k).length
          down := fun k => s.down k ++ H.sent k outputs }, [.acted e need outputs])
    else (s, [])
  | .send k data => ({ s with up := Function.update s.up k (s.up k ++ data) }, [.sent k data])
  | .deliver k n =>
    let data := (s.down k).take n
    let (party, signals) := H.feed (s.parties k) data
    ({ s with
        parties := Function.update s.parties k party
        down := Function.update s.down k ((s.down k).drop n) }, [.received k data signals])

abbrev run (s : Net σ κ γ β) (es : List (Event ε κ β)) :
    Net σ κ γ β × List (Output ε ω κ α β) := Runs.run H.next s es

/-- Nothing under way. -/
def start (machine : σ) (party : γ) : Net σ κ γ β :=
  ⟨machine, fun _ => party, fun _ => [], fun _ => []⟩

variable {H}

theorem accounts_act {s : Net σ κ γ β} {e : ε} (h : (H.needs s.machine e).Met s.up) :
    Accounts H s (H.next s (.act e)).2 (H.next s (.act e)).1 where
  machine := by simp [next, h, Output.acts, Output.emitted, Runs.run_cons]
  up k := by
    obtain ⟨rest, hrest⟩ := h.isPrefix k
    simp [next, h, Output.taken, Output.typed, ← hrest]
  down k := by simp [next, h, Output.emitted, Output.arrived]
  parties k := by simp [next, h, Output.arrived, Output.signals, H.feed_nil]

theorem accounts_send (s : Net σ κ γ β) (k : κ) (data : List β) :
    Accounts H s (H.next s (.send k data)).2 (H.next s (.send k data)).1 where
  machine := rfl
  up k' := by
    by_cases hk : k' = k
    · subst hk
      simp [next, Output.typed, Output.taken]
    · simp [next, Output.typed, Output.taken, Ne.symm hk, hk]
  down k' := by simp [next, Output.emitted, Output.arrived, H.sent_nil]
  parties k' := by simp [next, Output.arrived, Output.signals, H.feed_nil]

theorem accounts_deliver (s : Net σ κ γ β) (k : κ) (n : ℕ) :
    Accounts H s (H.next s (.deliver k n)).2 (H.next s (.deliver k n)).1 where
  machine := rfl
  up k' := by simp [next, Output.typed, Output.taken]
  down k' := by
    by_cases hk : k' = k
    · subst hk
      simp [next, Output.emitted, Output.arrived, H.sent_nil]
    · simp [next, Output.emitted, Output.arrived, H.sent_nil, Ne.symm hk, hk]
  parties k' := by
    by_cases hk : k' = k
    · subst hk
      simp [next, Output.arrived, Output.signals]
    · simp [next, Output.arrived, Output.signals, H.feed_nil, Ne.symm hk, hk]

theorem accounts_next (s : Net σ κ γ β) (e : Event ε κ β) :
    Accounts H s (H.next s e).2 (H.next s e).1 := by
  cases e with
  | act e =>
    by_cases h : (H.needs s.machine e).Met s.up
    · exact accounts_act h
    · have hstop : H.next s (.act e) = (s, []) := by simp [next, h]
      rw [hstop]
      exact Accounts.refl s
  | send k data => exact accounts_send s k data
  | deliver k n => exact accounts_deliver s k n

/-! ### Runs -/

theorem accounts_run (s : Net σ κ γ β) (es : List (Event ε κ β)) :
    Accounts H s (H.run s es).2 (H.run s es).1 := by
  have h : Accounts H s ([] ++ (H.run s es).2) (H.run s es).1 :=
    Runs.run_trace_invariant (I := fun s' out => Accounts H s out s')
      (fun s' out e hs => hs.trans (accounts_next s' e)) (Accounts.refl s) es
  simpa using h

end Hub

end

end Channels
