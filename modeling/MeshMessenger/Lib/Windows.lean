import Mathlib.Data.List.Basic
import Mathlib.Tactic

/-! A limiter with a fixed window of time: it lets `max` arrivals through, counted from
the start of a window, and the first arrival after the window has ended starts the next.
A stretch of time as long as a window meets two windows at most. -/

namespace Windows

structure Window where
  start : ℤ
  count : ℕ

/-- The arrivals from `a` to `b`. -/
def between (a b : ℤ) (log : List ℤ) : ℕ := log.countP fun t => decide (a ≤ t ∧ t ≤ b)

variable (max : ℕ) (length : ℤ)

/-- The window after an arrival, and whether the arrival is let through. -/
def arrive (w : Window) (now : ℤ) : Window × Bool :=
  let w := if now - w.start > length then ⟨now, 0⟩ else w
  if w.count ≥ max then (w, false) else ({ w with count := w.count + 1 }, true)

/-- What a limiter keeps of the arrivals it has let through. -/
structure Limited (w : Window) (log : List ℤ) : Prop where
  count_le : w.count ≤ max
  not_after : ∀ t ∈ log, t ≤ w.start + length
  current : between w.start (w.start + length) log ≤ w.count
  previous : between (w.start - length) (w.start - 1) log ≤ max
  stretch : ∀ a, between a (a + length) log ≤ 2 * max

theorem between_append (a b : ℤ) (log more : List ℤ) :
    between a b (log ++ more) = between a b log + between a b more :=
  List.countP_append

theorem between_singleton (a b t : ℤ) : between a b [t] = if a ≤ t ∧ t ≤ b then 1 else 0 := by
  simp [between, List.countP_cons]

theorem between_eq_zero {a b : ℤ} {log : List ℤ} (h : ∀ t ∈ log, t < a ∨ b < t) :
    between a b log = 0 := by
  rw [between, List.countP_eq_zero]
  intro t ht
  have := h t ht
  simp only [decide_eq_true_eq, not_and, not_le]
  omega

theorem between_mono {a b a' b' : ℤ} {log : List ℤ}
    (h : ∀ t ∈ log, a ≤ t → t ≤ b → a' ≤ t ∧ t ≤ b') : between a b log ≤ between a' b' log := by
  apply List.countP_mono_left
  intro t ht hab
  rw [decide_eq_true_eq] at hab ⊢
  exact h t ht hab.1 hab.2

/-- A stretch split at `c`. -/
theorem between_split (a b c : ℤ) (log : List ℤ) :
    between a b log ≤ between a (c - 1) log + between c b log := by
  induction log with
  | nil => exact le_rfl
  | cons t log ih =>
    simp only [between, List.countP_cons, decide_eq_true_eq] at ih ⊢
    split_ifs <;> omega

variable {max length}

theorem limited_start (start : ℤ) : Limited max length ⟨start, 0⟩ [] :=
  ⟨Nat.zero_le _, by simp, le_rfl, Nat.zero_le _, fun _ => Nat.zero_le _⟩

/-- A stretch that reaches into the current window meets it and the one before. -/
theorem Limited.stretch_of {w : Window} {log : List ℤ} (hcount : w.count ≤ max)
    (hafter : ∀ t ∈ log, t ≤ w.start + length)
    (hcurrent : between w.start (w.start + length) log ≤ w.count)
    (hprevious : between (w.start - length) (w.start - 1) log ≤ max) {a : ℤ}
    (ha : w.start ≤ a + length) : between a (a + length) log ≤ 2 * max := by
  have hleft : between a (w.start - 1) log ≤ between (w.start - length) (w.start - 1) log :=
    between_mono fun t _ hat ht => by omega
  have hright : between w.start (a + length) log ≤ between w.start (w.start + length) log :=
    between_mono fun t ht hst _ => ⟨hst, hafter t ht⟩
  have hsplit := between_split a (a + length) w.start log
  omega

/-- An arrival within the window that there is room for. -/
theorem Limited.count_one {w : Window} {log : List ℤ} (h : Limited max length w log) {now : ℤ}
    (hnow : w.start ≤ now) (hin : now ≤ w.start + length) (hroom : w.count < max) :
    Limited max length { w with count := w.count + 1 } (log ++ [now]) := by
  have hafter : ∀ t ∈ log ++ [now], t ≤ w.start + length := by
    intro t ht
    rcases List.mem_append.1 ht with ht | ht
    · exact h.not_after t ht
    · rwa [List.mem_singleton.1 ht]
  have hcurrent : between w.start (w.start + length) (log ++ [now]) ≤ w.count + 1 := by
    rw [between_append, between_singleton, if_pos ⟨hnow, hin⟩]
    exact Nat.succ_le_succ h.current
  have hprevious : between (w.start - length) (w.start - 1) (log ++ [now]) ≤ max := by
    rw [between_append, between_singleton, if_neg (by omega)]
    exact h.previous
  refine ⟨hroom, hafter, hcurrent, hprevious, fun a => ?_⟩
  by_cases ha : w.start ≤ a + length
  · exact Limited.stretch_of (w := { w with count := w.count + 1 }) hroom hafter hcurrent hprevious ha
  · rw [between_append, between_singleton, if_neg (by omega)]
    exact h.stretch a

/-- A window that starts after the last one has ended. -/
theorem Limited.restart (hlength : 0 ≤ length) {w : Window} {log : List ℤ}
    (h : Limited max length w log) {now : ℤ} (hnow : w.start + length < now) :
    Limited max length ⟨now, 0⟩ log := by
  have hbefore : ∀ t ∈ log, t < now := fun t ht => lt_of_le_of_lt (h.not_after t ht) hnow
  have hnone : between now (now + length) log = 0 :=
    between_eq_zero fun t ht => .inl (hbefore t ht)
  have hprevious : between (now - length) (now - 1) log ≤ max := by
    calc between (now - length) (now - 1) log
        ≤ between w.start (w.start + length) log :=
          between_mono fun t ht hat _ => ⟨by omega, h.not_after t ht⟩
      _ ≤ w.count := h.current
      _ ≤ max := h.count_le
  refine ⟨Nat.zero_le _, fun t ht => ?_, hnone.le, hprevious, h.stretch⟩
  exact (hbefore t ht).le.trans (le_add_of_nonneg_right hlength)

/-- After the end of its window a limiter lets an arrival through. -/
theorem arrive_of_ended (hmax : 0 < max) {w : Window} {now : ℤ} (h : now - w.start > length) :
    arrive max length w now = (⟨now, 1⟩, true) := by
  simp only [arrive, if_pos h]
  rw [if_neg (by omega)]

/-- An arrival, at a time that is not before the start of the window. -/
theorem Limited.arrive (hmax : 0 < max) (hlength : 0 ≤ length) {w : Window} {log : List ℤ}
    (h : Limited max length w log) {now : ℤ} (hnow : w.start ≤ now) :
    Limited max length (arrive max length w now).1
      (log ++ if (arrive max length w now).2 then [now] else []) := by
  by_cases hend : now - w.start > length
  · rw [arrive_of_ended hmax hend]
    have hnew : Limited max length ⟨now, 0⟩ log := h.restart hlength (by omega)
    exact hnew.count_one le_rfl (le_add_of_nonneg_right hlength) hmax
  · simp only [Windows.arrive, if_neg hend]
    by_cases hfull : w.count ≥ max
    · simpa [hfull] using h
    · simp only [if_neg hfull, if_true]
      exact h.count_one hnow (by omega) (not_le.1 hfull)

/-- A window starts where it did, or now. -/
theorem arrive_start (max : ℕ) (length : ℤ) (w : Window) (now : ℤ) :
    (arrive max length w now).1.start = w.start ∨ (arrive max length w now).1.start = now := by
  by_cases hend : now - w.start > length
  · right
    simp only [arrive, if_pos hend]
    split_ifs <;> rfl
  · left
    simp only [arrive, if_neg hend]
    split_ifs <;> rfl

end Windows
