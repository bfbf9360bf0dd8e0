import Mathlib.Data.List.Infix
import Mathlib.Tactic

/-! Texts with quotes and brackets. Outside of the quotes an opening bracket adds one to
the depth and a closing bracket takes one away; a group is a text that comes back to the
depth it started from at its end and not before. -/

namespace Nesting

/-- Whether a text ends within quotes, and how many brackets it leaves open. -/
structure Level where
  quoted : Bool
  depth : ℤ
  deriving DecidableEq

/-- Which characters are quotes, and what the others add to the depth. -/
structure Marks (α : Type) where
  isQuote : α → Bool
  weight : α → ℤ

namespace Marks

variable {α : Type} (m : Marks α)

def next (l : Level) (a : α) : Level :=
  if m.isQuote a then { l with quoted := !l.quoted }
  else if l.quoted then l
  else { l with depth := l.depth + m.weight a }

def level (l : Level) (s : List α) : Level := s.foldl m.next l

@[simp] theorem level_nil (l : Level) : m.level l [] = l := rfl

@[simp] theorem level_cons (l : Level) (a : α) (s : List α) :
    m.level l (a :: s) = m.level (m.next l a) s := rfl

@[simp] theorem level_append (l : Level) (s t : List α) :
    m.level l (s ++ t) = m.level (m.level l s) t := List.foldl_append

/-- Where a text starts adds to the depth and changes nothing else. -/
theorem level_shift (b : Bool) (d d' : ℤ) (s : List α) :
    m.level ⟨b, d + d'⟩ s = ⟨(m.level ⟨b, d'⟩ s).quoted, d + (m.level ⟨b, d'⟩ s).depth⟩ := by
  induction s generalizing b d' with
  | nil => rfl
  | cons a s ih =>
    simp only [level_cons, next]
    cases m.isQuote a with
    | true => exact ih (!b) d'
    | false =>
      cases b with
      | true => exact ih true d'
      | false =>
        simp only [Bool.false_eq_true, if_false]
        rw [add_assoc]
        exact ih false (d' + m.weight a)

theorem level_zero (b : Bool) (d : ℤ) (s : List α) :
    m.level ⟨b, d⟩ s = ⟨(m.level ⟨b, 0⟩ s).quoted, d + (m.level ⟨b, 0⟩ s).depth⟩ := by
  rw [← level_shift, add_zero]

/-- Two readings of a text that start on different sides of a quote stay so. -/
theorem quoted_not (b : Bool) (d d' : ℤ) (s : List α) :
    (m.level ⟨!b, d⟩ s).quoted = !(m.level ⟨b, d'⟩ s).quoted := by
  induction s generalizing b d d' with
  | nil => rfl
  | cons a s ih =>
    simp only [level_cons, next]
    cases m.isQuote a with
    | true => exact ih (!b) d d'
    | false =>
      cases b with
      | true => exact ih true _ d'
      | false => exact ih false d _

/-- Quotes only change the side. -/
theorem level_quoted {s : List α} (h : ∀ a ∈ s, m.isQuote a = false) (d : ℤ) :
    m.level ⟨true, d⟩ s = ⟨true, d⟩ := by
  induction s with
  | nil => rfl
  | cons a s ih =>
    have ha := h a (by simp)
    rw [level_cons, next, ha]
    exact ih fun b hb => h b (by simp [hb])

theorem prefix_append_cases {p s t : List α} (h : p <+: s ++ t) :
    p <+: s ∨ ∃ q, p = s ++ q ∧ q <+: t := by
  obtain ⟨r, hr⟩ := h
  rcases List.append_eq_append_iff.1 hr with ⟨a, rfl, -⟩ | ⟨a, rfl, ha⟩
  · exact .inl (List.prefix_append _ _)
  · exact .inr ⟨a, rfl, r, ha.symm⟩

theorem prefix_singleton_cases {p : List α} {a : α} (h : p <+: [a]) : p = [] ∨ p = [a] := by
  cases p with
  | nil => exact .inl rfl
  | cons b p =>
    obtain ⟨rfl, hp⟩ := List.cons_prefix_cons.1 h
    exact .inr (by rw [List.prefix_nil.1 hp])

/-! ### Balanced texts and groups -/

/-- The text closes what it opens, and nothing else. -/
structure Balanced (s : List α) : Prop where
  level : m.level ⟨false, 0⟩ s = ⟨false, 0⟩
  depth_nonneg : ∀ p, p <+: s → 0 ≤ (m.level ⟨false, 0⟩ p).depth

/-- The text closes what it opens, and not before its end. -/
structure Group (s : List α) : Prop where
  level : m.level ⟨false, 0⟩ s = ⟨false, 0⟩
  depth_pos : ∀ p q, s = p ++ q → p ≠ [] → q ≠ [] → (m.level ⟨false, 0⟩ p).quoted = false →
    0 < (m.level ⟨false, 0⟩ p).depth

variable {m}

theorem balanced_nil : m.Balanced [] where
  level := rfl
  depth_nonneg p hp := by rw [List.prefix_nil.1 hp]; rfl

theorem Balanced.append {s t : List α} (hs : m.Balanced s) (ht : m.Balanced t) :
    m.Balanced (s ++ t) where
  level := by rw [level_append, hs.level, ht.level]
  depth_nonneg p hp := by
    rcases prefix_append_cases hp with h | ⟨q, rfl, hq⟩
    · exact hs.depth_nonneg p h
    · rw [level_append, hs.level]
      exact ht.depth_nonneg q hq

/-- Characters that are no quotes and no brackets. -/
theorem balanced_plain {s : List α} (h : ∀ a ∈ s, m.isQuote a = false ∧ m.weight a = 0) :
    m.Balanced s := by
  have hlevel {p : List α} (hp : ∀ a ∈ p, m.isQuote a = false ∧ m.weight a = 0) :
      m.level ⟨false, 0⟩ p = ⟨false, 0⟩ := by
    induction p with
    | nil => rfl
    | cons a p ih =>
      obtain ⟨hquote, hweight⟩ := hp a (by simp)
      rw [level_cons, next, hquote, hweight]
      exact ih fun b hb => hp b (by simp [hb])
  refine ⟨hlevel h, fun p hp => ?_⟩
  rw [hlevel fun a ha => h a (hp.subset ha)]

/-- A quoted text. -/
theorem balanced_quotes {q : α} (hq : m.isQuote q = true) {s : List α}
    (h : ∀ a ∈ s, m.isQuote a = false) : m.Balanced (q :: (s ++ [q])) := by
  have hopen (d : ℤ) : m.next ⟨false, d⟩ q = ⟨true, d⟩ := by simp [next, hq]
  refine ⟨?_, fun p hp => ?_⟩
  · rw [level_cons, hopen, level_append, m.level_quoted h]
    simp [next, hq]
  · cases p with
    | nil => rfl
    | cons a p =>
      obtain ⟨rfl, hrest⟩ := List.cons_prefix_cons.1 hp
      rw [level_cons, hopen]
      rcases prefix_append_cases hrest with hp | ⟨r, rfl, hr⟩
      · rw [m.level_quoted fun b hb => h b (hp.subset hb)]
      · rw [level_append, m.level_quoted h]
        rcases prefix_singleton_cases hr with rfl | rfl
        · rfl
        · simp [next, hq]

theorem group_iff_take {s : List α} : m.Group s ↔ m.level ⟨false, 0⟩ s = ⟨false, 0⟩ ∧
    ∀ n < s.length, 0 < n → (m.level ⟨false, 0⟩ (s.take n)).quoted = false →
      0 < (m.level ⟨false, 0⟩ (s.take n)).depth := by
  refine ⟨fun h => ⟨h.level, fun n hn h0 => ?_⟩, fun ⟨hlevel, h⟩ => ⟨hlevel, ?_⟩⟩
  · refine h.depth_pos _ (s.drop n) (List.take_append_drop n s).symm ?_ ?_
    · rw [← List.length_pos_iff, List.length_take]
      omega
    · rw [← List.length_pos_iff, List.length_drop]
      omega
  · rintro p q rfl hp hq
    have hp' := List.length_pos_iff.2 hp
    have hq' := List.length_pos_iff.2 hq
    have := h p.length (by rw [List.length_append]; omega) hp'
    rwa [List.take_left] at this

instance (s : List α) : Decidable (m.Group s) := decidable_of_iff _ group_iff_take.symm

theorem level_open {o : α} (ho : m.isQuote o = false) (hw : m.weight o = 1) (s : List α) :
    m.level ⟨false, 0⟩ (o :: s) =
      ⟨(m.level ⟨false, 0⟩ s).quoted, 1 + (m.level ⟨false, 0⟩ s).depth⟩ := by
  have hopen : m.next ⟨false, 0⟩ o = ⟨false, 1⟩ := by simp [next, ho, hw]
  rw [level_cons, hopen, level_zero]

/-- Brackets around a balanced text. -/
theorem Balanced.group {o c : α} (ho : m.isQuote o = false) (hwo : m.weight o = 1)
    (hc : m.isQuote c = false) (hwc : m.weight c = -1) {s : List α} (h : m.Balanced s) :
    m.Group (o :: (s ++ [c])) where
  level := by
    rw [level_open ho hwo, level_append, h.level]
    simp [next, hc, hwc]
  depth_pos p q heq hp hq _ := by
    obtain ⟨a, p, rfl⟩ := List.exists_cons_of_ne_nil hp
    rw [List.cons_append] at heq
    obtain ⟨rfl, hrest⟩ := List.cons.inj heq
    have hpre : p <+: s := by
      rcases List.append_eq_append_iff.1 hrest with ⟨r, rfl, hr⟩ | ⟨r, rfl, hr⟩
      · -- the closing bracket is in what remains
        obtain rfl : r = [] := by
          have hlen := congrArg List.length hr
          have hpos := List.length_pos_iff.2 hq
          simp only [List.length_append, List.length_cons, List.length_nil] at hlen
          exact List.length_eq_zero_iff.1 (by omega)
        rw [List.append_nil]
      · exact List.prefix_append _ _
    have := h.depth_nonneg p hpre
    rw [level_open ho hwo]
    simp only
    omega

theorem Balanced.brackets {o c : α} (ho : m.isQuote o = false) (hwo : m.weight o = 1)
    (hc : m.isQuote c = false) (hwc : m.weight c = -1) {s : List α} (h : m.Balanced s) :
    m.Balanced (o :: (s ++ [c])) where
  level := (h.group ho hwo hc hwc).level
  depth_nonneg p hp := by
    cases p with
    | nil => exact le_rfl
    | cons a p =>
      obtain ⟨rfl, hrest⟩ := List.cons_prefix_cons.1 hp
      rw [level_open ho hwo]
      rcases prefix_append_cases hrest with hp | ⟨q, rfl, hq⟩
      · have := h.depth_nonneg p hp
        simp only
        omega
      · rw [level_append, h.level]
        rcases prefix_singleton_cases hq with rfl | rfl
        · simp
        · simp [next, hc, hwc]

/-- A group is not the end of a longer one. -/
theorem Group.not_append {s t : List α} (h : m.level ⟨false, 0⟩ t = ⟨false, 0⟩) (hs : s ≠ [])
    (ht : t ≠ []) : ¬ m.Group (s ++ t) := by
  intro hgroup
  have hlevel := hgroup.level
  rw [level_append] at hlevel
  cases hl : m.level ⟨false, 0⟩ s with
  | mk b d =>
    rw [hl, level_zero] at hlevel
    cases b with
    | true =>
      -- a text that comes back from outside the quotes comes back to inside them
      have hnot := m.quoted_not false 0 0 t
      rw [h] at hnot
      rw [Bool.not_false] at hnot
      rw [hnot] at hlevel
      simp at hlevel
    | false =>
      have hpos := hgroup.depth_pos s t rfl hs ht (by rw [hl])
      rw [h, hl] at *
      simp only [add_zero, Level.mk.injEq, true_and] at hlevel hpos
      omega

end Marks

end Nesting
