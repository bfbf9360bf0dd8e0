import MeshMessenger.Lib.Regex

/-! What a pattern takes from a text, and what one of its groups captures of it. -/

namespace Regex

variable {U : Classes}

/-! ### What is taken -/

/-- Every match of a pattern takes from the text something of which `P` holds. -/
def Takes (U : Classes) (r : Re) (P : Text → Prop) : Prop :=
  ∀ s t, t ∈ run U r s → ∃ u, s.cur.rest = u ++ t.cur.rest ∧ P u

theorem takes_one (p : Char → Bool) : Takes U (.one p) fun u => ∃ c, u = [c] ∧ p c = true := by
  intro s t ht
  obtain ⟨⟨prev, rest⟩, groups⟩ := s
  cases rest with
  | nil => cases ht
  | cons c cs =>
    rw [run_one] at ht
    split_ifs at ht with hc
    · rw [List.mem_singleton.1 ht]
      exact ⟨[c], rfl, c, rfl, hc⟩
    · cases ht

theorem Takes.seq {a b : Re} {P Q : Text → Prop} (ha : Takes U a P) (hb : Takes U b Q) :
    Takes U (.seq a b) fun u => ∃ v w, u = v ++ w ∧ P v ∧ Q w := by
  intro s t ht
  rw [run_seq, List.mem_flatMap] at ht
  obtain ⟨m, hm, ht⟩ := ht
  obtain ⟨v, hv, hP⟩ := ha s m hm
  obtain ⟨w, hw, hQ⟩ := hb m t ht
  exact ⟨v ++ w, by rw [hv, hw, List.append_assoc], v, w, rfl, hP, hQ⟩

theorem Takes.imp {r : Re} {P Q : Text → Prop} (h : Takes U r P) (hPQ : ∀ u, P u → Q u) :
    Takes U r Q := by
  intro s t ht
  obtain ⟨u, hu, hP⟩ := h s t ht
  exact ⟨u, hu, hPQ u hP⟩

/-- What every turn of a star preserves holds of all the ways it can end. -/
theorem iterate_forall {f : Found → List Found} {Q : Found → Prop}
    (hf : ∀ s, Q s → ∀ t ∈ f s, Q t) (greedy : Bool) {n : ℕ} {s : Found} (hs : Q s)
    {others : List Found} (hothers : ∀ t ∈ others, Q t) :
    ∀ t ∈ iterate f greedy n s others, Q t := by
  induction n generalizing s others with
  | zero => exact List.forall_mem_cons.2 ⟨hs, hothers⟩
  | succ n ih =>
    have hturns : ∀ turns : List Found, (∀ t ∈ turns, Q t) → ∀ others : List Found,
        (∀ t ∈ others, Q t) → ∀ t ∈ turns.foldr (iterate f greedy n) others, Q t := by
      intro turns hturns others hothers
      induction turns with
      | nil => exact hothers
      | cons turn turns ihturns =>
        obtain ⟨hturn, hlater⟩ := List.forall_mem_cons.1 hturns
        exact ih hturn (ihturns hlater)
    have hfiltered : ∀ t ∈ (f s).filter fun t => t.cur.rest ≠ s.cur.rest, Q t :=
      fun t ht => hf s hs t (List.mem_of_mem_filter ht)
    rw [iterate]
    split_ifs
    · exact hturns _ hfiltered _ (List.forall_mem_cons.2 ⟨hs, hothers⟩)
    · exact List.forall_mem_cons.2 ⟨hs, hturns _ hfiltered _ hothers⟩

/-- However many turns are taken, what they take together satisfies `P`. -/
theorem iterate_takes {a : Re} {P : Text → Prop} (ha : Takes U a P) (hnil : P [])
    (happend : ∀ u v, P u → P v → P (u ++ v)) (greedy : Bool) (s : Found) :
    ∀ t ∈ iterate (run U a) greedy s.cur.rest.length s [],
      ∃ u, s.cur.rest = u ++ t.cur.rest ∧ P u := by
  refine iterate_forall (Q := fun t => ∃ u, s.cur.rest = u ++ t.cur.rest ∧ P u) ?_ greedy
    ⟨[], rfl, hnil⟩ (by simp)
  rintro m ⟨u, hu, hP⟩ t ht
  obtain ⟨v, hv, hP'⟩ := ha m t ht
  exact ⟨u ++ v, by rw [hu, hv, List.append_assoc], happend u v hP hP'⟩

theorem Takes.star {a : Re} {P : Text → Prop} (ha : Takes U a P) (hnil : P [])
    (happend : ∀ u v, P u → P v → P (u ++ v)) : Takes U (.star a) P :=
  fun s t ht => iterate_takes ha hnil happend true s t ht

theorem Takes.lazyStar {a : Re} {P : Text → Prop} (ha : Takes U a P) (hnil : P [])
    (happend : ∀ u v, P u → P v → P (u ++ v)) : Takes U (.lazyStar a) P :=
  fun s t ht => iterate_takes ha hnil happend false s t ht

theorem takes_char (c : Char) : Takes U (.char c) (· = [c]) := by
  apply (takes_one (· == c)).imp
  rintro u ⟨d, rfl, hd⟩
  rw [beq_iff_eq.1 hd]

theorem takes_text (s : Text) : Takes U (.text s) (· = s) := by
  induction s with
  | nil =>
    intro s t ht
    rw [List.mem_singleton.1 ht]
    exact ⟨[], rfl, rfl⟩
  | cons c s ih =>
    refine ((takes_char c).seq ih).imp ?_
    rintro u ⟨v, w, rfl, rfl, rfl⟩
    rfl

theorem takes_one_all (p : Char → Bool) : Takes U (.one p) fun u => ∀ c ∈ u, p c = true := by
  apply (takes_one p).imp
  rintro u ⟨c, rfl, hc⟩
  simpa using hc

theorem forall_mem_append_of {p : Char → Bool} (u v : Text) (hu : ∀ c ∈ u, p c = true)
    (hv : ∀ c ∈ v, p c = true) : ∀ c ∈ u ++ v, p c = true :=
  List.forall_mem_append.2 ⟨hu, hv⟩

/-- A star of one character. -/
theorem takes_star_one (p : Char → Bool) :
    Takes U (.star (.one p)) fun u => ∀ c ∈ u, p c = true :=
  (takes_one_all p).star (by simp) forall_mem_append_of

theorem takes_lazyStar_one (p : Char → Bool) :
    Takes U (.lazyStar (.one p)) fun u => ∀ c ∈ u, p c = true :=
  (takes_one_all p).lazyStar (by simp) forall_mem_append_of

/-! ### What is captured -/

/-- What the group `n` captures, wherever it stands in a pattern, satisfies `P`. -/
def Captures (U : Classes) (n : ℕ) (P : Text → Prop) : Re → Prop
  | .seq a b | .alt a b => Captures U n P a ∧ Captures U n P b
  | .star a | .lazyStar a => Captures U n P a
  | .group k a => Captures U n P a ∧ (k = n → Takes U a P)
  | .eps | .one _ | .boundary | .lineStart | .lineEnd => True

variable {n : ℕ} {P : Text → Prop}

theorem captures_text (s : Text) : Captures U n P (.text s) := by
  induction s with
  | nil => trivial
  | cons c s ih => exact ⟨trivial, ih⟩

theorem captures_choice {rs : List Re} (h : ∀ r ∈ rs, Captures U n P r) :
    Captures U n P (.choice rs) := by
  induction rs with
  | nil => trivial
  | cons r rs ih =>
    obtain ⟨hr, hrs⟩ := List.forall_mem_cons.1 h
    cases rs with
    | nil => exact hr
    | cons r' rs => exact ⟨hr, ih hrs⟩

theorem mem_run_of_matchAt {r : Re} {cur : Cursor} {m : Found} (h : matchAt U r cur = some m) :
    m ∈ run U r ⟨cur, []⟩ := by
  rw [matchAt] at h
  split at h
  · rename_i found hfound
    split_ifs at h
    rw [← Option.some.inj h]
    exact List.mem_of_mem_head? hfound
  · cases h

/-- A pattern without groups. -/
def Groupless : Re → Prop
  | .seq a b | .alt a b => Groupless a ∧ Groupless b
  | .star a | .lazyStar a => Groupless a
  | .group _ _ => False
  | .eps | .one _ | .boundary | .lineStart | .lineEnd => True

def GroupsIn (n : ℕ) (P : Text → Prop) (s : Found) : Prop := ∀ x ∈ s.groups, x.1 = n → P x.2

theorem forall_mem_guard {Q : Found → Prop} {s : Found} (hs : Q s) {p : Prop} [Decidable p] :
    ∀ t ∈ (if p then [s] else []), Q t := by
  intro t ht
  split_ifs at ht
  · rwa [List.mem_singleton.1 ht]
  · cases ht

theorem groupsIn_of_captures {r : Re} (hr : Captures U n P r) {s : Found} (hs : GroupsIn n P s) :
    ∀ t ∈ run U r s, GroupsIn n P t := by
  induction r generalizing s with
  | eps =>
    intro t ht
    rwa [List.mem_singleton.1 ht]
  | one p =>
    intro t ht
    obtain ⟨⟨prev, rest⟩, groups⟩ := s
    cases rest with
    | nil => cases ht
    | cons c cs =>
      rw [run_one] at ht
      split_ifs at ht
      · rw [List.mem_singleton.1 ht]
        exact hs
      · cases ht
  | seq a b iha ihb =>
    intro t ht
    rw [run_seq, List.mem_flatMap] at ht
    obtain ⟨m, hm, ht⟩ := ht
    exact ihb hr.2 (iha hr.1 hs m hm) t ht
  | alt a b iha ihb =>
    intro t ht
    rcases List.mem_append.1 ht with ht | ht
    · exact iha hr.1 hs t ht
    · exact ihb hr.2 hs t ht
  | star a ih => exact iterate_forall (fun s hs => ih hr hs) true hs (by simp)
  | lazyStar a ih => exact iterate_forall (fun s hs => ih hr hs) false hs (by simp)
  | group k a ih =>
    intro t ht
    rw [run_group, List.mem_map] at ht
    obtain ⟨m, hm, rfl⟩ := ht
    refine List.forall_mem_cons.2 ⟨fun hk => ?_, ih hr.1 hs m hm⟩
    obtain ⟨u, hu, hP⟩ := hr.2 hk s m hm
    have htaken : s.cur.rest.take (s.cur.rest.length - m.cur.rest.length) = u := by
      rw [hu, List.length_append, Nat.add_sub_cancel, List.take_left' rfl]
    rwa [htaken]
  | boundary => exact forall_mem_guard hs
  | lineStart => exact forall_mem_guard hs
  | lineEnd => exact forall_mem_guard hs

/-- A pattern without groups captures nothing. -/
theorem groups_of_groupless {r : Re} (hr : Groupless r) (s : Found) :
    ∀ t ∈ run U r s, t.groups = s.groups := by
  have hstar {a : Re} (ih : ∀ s, ∀ t ∈ run U a s, t.groups = s.groups) (greedy : Bool)
      (s : Found) :
      ∀ t ∈ iterate (run U a) greedy s.cur.rest.length s [], t.groups = s.groups :=
    iterate_forall (Q := fun t => t.groups = s.groups)
      (fun m hm t ht => (ih m t ht).trans hm) greedy rfl (by simp)
  induction r generalizing s with
  | eps =>
    intro t ht
    rw [List.mem_singleton.1 ht]
  | one p =>
    intro t ht
    obtain ⟨⟨prev, rest⟩, groups⟩ := s
    cases rest with
    | nil => cases ht
    | cons c cs =>
      rw [run_one] at ht
      split_ifs at ht
      · rw [List.mem_singleton.1 ht]
      · cases ht
  | seq a b iha ihb =>
    intro t ht
    rw [run_seq, List.mem_flatMap] at ht
    obtain ⟨m, hm, ht⟩ := ht
    exact (ihb hr.2 m t ht).trans (iha hr.1 s m hm)
  | alt a b iha ihb =>
    intro t ht
    rcases List.mem_append.1 ht with ht | ht
    · exact iha hr.1 s t ht
    · exact ihb hr.2 s t ht
  | star a ih => exact hstar (ih hr) true s
  | lazyStar a ih => exact hstar (ih hr) false s
  | group k a => exact absurd hr id
  | boundary => exact forall_mem_guard (Q := fun t => t.groups = s.groups) rfl
  | lineStart => exact forall_mem_guard (Q := fun t => t.groups = s.groups) rfl
  | lineEnd => exact forall_mem_guard (Q := fun t => t.groups = s.groups) rfl

/-- What a group of a match captured. -/
theorem of_group?_finditer {r : Re} (hr : Captures U n P r) {code : Text} {m : Found}
    (hm : m ∈ finditer U r code) {t : Text} (ht : m.group? n = some t) : P t := by
  have hgroups : ∀ k cur, ∀ m ∈ scanWith U r (fun m => [m]) (fun _ => []) k cur,
      GroupsIn n P m := by
    intro k
    induction k with
    | zero => intro cur m hm; cases hm
    | succ k ih =>
      intro cur m hm
      rw [scanWith] at hm
      split at hm
      · rename_i found hfound
        rcases List.mem_append.1 hm with hm | hm
        · rw [List.mem_singleton.1 hm]
          exact groupsIn_of_captures hr (by simp [GroupsIn]) found (mem_run_of_matchAt hfound)
        · exact ih _ m hm
      · split at hm
        · cases hm
        · exact ih _ m hm
  obtain ⟨before, after, hmem, -⟩ := List.lookup_eq_some_iff.1 ht
  exact hgroups _ _ m hm (n, t) (by simp [hmem]) rfl

end Regex
