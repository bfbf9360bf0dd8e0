import Mathlib.Data.Finmap
import Mathlib.Tactic

/-! Tables kept as arrays and searched from the front: the loop that looks for a row and
leaves with it changed, and the finite map that a table with distinct keys stands for. -/

namespace Tables

variable {κ ρ ν : Type} [DecidableEq κ]

/-- What the body of a search loop does at a row: go on, return a failure, or return
with the row replaced. -/
inductive Turn (ρ : Type) where
  | next
  | fail
  | done (row : ρ)

def Turn.map {ρ σ : Type} (f : ρ → σ) : Turn ρ → Turn σ
  | .next => .next
  | .fail => .fail
  | .done row => .done (f row)

/-- The whole loop: `next` when it runs off the end of the table. -/
def scan (body : ρ → Turn ρ) : List ρ → Turn (List ρ)
  | [] => .next
  | r :: rows =>
    match body r with
    | .fail => .fail
    | .done r' => .done (r' :: rows)
    | .next => (scan body rows).map (r :: ·)

variable (key : ρ → κ)

/-- The row of a key. -/
def row? (k : κ) (rows : List ρ) : Option ρ := rows.find? fun r => key r = k

/-- The table with the row of one key replaced. -/
def setRow (k : κ) (r : ρ) (rows : List ρ) : List ρ := rows.map fun x => if key x = k then r else x

variable {key}

theorem row?_eq_none {k : κ} {rows : List ρ} : row? key k rows = none ↔ k ∉ rows.map key := by
  simp [row?, List.find?_eq_none]

theorem row?_some {k : κ} {rows : List ρ} {r : ρ} (h : row? key k rows = some r) :
    r ∈ rows ∧ key r = k :=
  ⟨List.mem_of_find?_eq_some h, by simpa using List.find?_some h⟩

theorem row?_cons (k : κ) (r : ρ) (rows : List ρ) :
    row? key k (r :: rows) = if key r = k then some r else row? key k rows := by
  by_cases h : key r = k <;> simp [row?, h]

theorem row?_append_singleton (k : κ) (rows : List ρ) (r : ρ) :
    row? key k (rows ++ [r]) = (row? key k rows).or (if key r = k then some r else none) := by
  simp only [row?, List.find?_append, List.find?_singleton]
  simp

theorem setRow_of_notMem {k : κ} {rows : List ρ} (h : k ∉ rows.map key) (r : ρ) :
    setRow key k r rows = rows := by
  have hid : ∀ x ∈ rows, (if key x = k then r else x) = x := fun x hx =>
    if_neg fun hk : key x = k => h (hk ▸ List.mem_map_of_mem hx)
  rw [setRow, List.map_congr_left hid, List.map_id']

theorem setRow_keys {k : κ} {r : ρ} (hr : key r = k) (rows : List ρ) :
    (setRow key k r rows).map key = rows.map key := by
  rw [setRow, List.map_map]
  refine List.map_congr_left fun x _ => ?_
  by_cases hx : key x = k <;> simp [hx, hr]

theorem setRow_length (k : κ) (r : ρ) (rows : List ρ) :
    (setRow key k r rows).length = rows.length :=
  List.length_map _

theorem mem_setRow {k : κ} {r x : ρ} {rows : List ρ} (h : x ∈ setRow key k r rows) :
    x = r ∨ x ∈ rows := by
  obtain ⟨before, hbefore, rfl⟩ := List.mem_map.1 h
  split_ifs
  · exact .inl rfl
  · exact .inr hbefore

theorem row?_setRow {k : κ} {r : ρ} (hr : key r = k) (k' : κ) (rows : List ρ) :
    row? key k' (setRow key k r rows) =
      if k' = k then (row? key k rows).map fun _ => r else row? key k' rows := by
  induction rows with
  | nil => simp [setRow, row?]
  | cons x rows ih =>
    rw [setRow, List.map_cons, ← setRow, row?_cons, ih, row?_cons, row?_cons]
    by_cases hx : key x = k
    · by_cases hk : k' = k
      · simp [hx, hk, hr]
      · simp [hx, hr, hk, Ne.symm hk]
    · by_cases hk : k' = k
      · simp [hx, hk]
      · simp [hx, hk]

theorem nodup_append_singleton {α : Type} {l : List α} {a : α} (hl : l.Nodup) (ha : a ∉ l) :
    (l ++ [a]).Nodup := by
  rw [← List.concat_eq_append]
  exact hl.concat ha

/-- A loop whose body passes by the rows of other keys does what its body does at the
row of its key, if there is one, as no two rows have the same key. -/
theorem scan_eq {body : ρ → Turn ρ} {k : κ} (hbody : ∀ r, key r ≠ k → body r = .next)
    {rows : List ρ} (hrows : (rows.map key).Nodup) :
    scan body rows =
      match row? key k rows with
      | none => .next
      | some r => (body r).map fun r' => setRow key k r' rows := by
  induction rows with
  | nil => rfl
  | cons x rows ih =>
    rw [List.map_cons, List.nodup_cons] at hrows
    rw [row?_cons, scan]
    by_cases hx : key x = k
    · subst hx
      have hrest : scan body rows = .next := by
        rw [ih hrows.2, row?_eq_none.2 hrows.1]
      simp only [if_true, hrest]
      cases body x with
      | next => rfl
      | fail => rfl
      | done r' =>
        have hset := setRow_of_notMem hrows.1 r'
        simp only [Turn.map, setRow, List.map_cons, if_true] at hset ⊢
        rw [hset]
    · simp only [hbody x hx, if_neg hx, ih hrows.2]
      cases row? key k rows with
      | none => rfl
      | some r =>
        dsimp only
        cases body r <;> simp [Turn.map, setRow, hx]

/-! ### The map of a table -/

variable (key)

/-- The finite map from the keys to the values of their rows. -/
def toMap (val : ρ → ν) (rows : List ρ) : Finmap fun _ : κ => ν :=
  (rows.map fun r => (⟨key r, val r⟩ : Sigma fun _ : κ => ν)).toFinmap

variable {key} {val : ρ → ν}

theorem lookup_toMap (k : κ) (rows : List ρ) :
    (toMap key val rows).lookup k = (row? key k rows).map val := by
  rw [toMap, Finmap.dlookup_list_toFinmap]
  induction rows with
  | nil => rfl
  | cons r rows ih =>
    rw [List.map_cons, row?_cons]
    by_cases hr : key r = k
    · subst hr
      rw [List.dlookup_cons_eq, if_pos rfl, Option.map_some]
    · rw [List.dlookup_cons_ne _ _ (Ne.symm hr), if_neg hr, ih]

theorem mem_toMap {k : κ} {rows : List ρ} : k ∈ toMap key val rows ↔ k ∈ rows.map key := by
  rw [← Finmap.lookup_isSome, lookup_toMap, Option.isSome_map, Option.isSome_iff_ne_none, Ne,
    row?_eq_none, not_not]

theorem card_keys_toMap {rows : List ρ} (h : (rows.map key).Nodup) :
    (toMap key val rows).keys.card = rows.length := by
  have hkeys : (toMap key val rows).keys = (rows.map key).toFinset := by
    ext k
    rw [Finmap.mem_keys, mem_toMap, List.mem_toFinset]
  rw [hkeys, List.toFinset_card_of_nodup h, List.length_map]

theorem toMap_append_singleton {rows : List ρ} {r : ρ} (hr : key r ∉ rows.map key) :
    toMap key val (rows ++ [r]) = (toMap key val rows).insert (key r) (val r) := by
  refine Finmap.ext_lookup fun k => ?_
  rw [lookup_toMap, row?_append_singleton]
  by_cases hk : k = key r
  · subst hk
    rw [Finmap.lookup_insert, row?_eq_none.2 hr]
    simp
  · rw [Finmap.lookup_insert_of_ne _ hk, lookup_toMap, if_neg (Ne.symm hk), Option.or_none]

theorem toMap_setRow {rows : List ρ} {k : κ} (hk : k ∈ rows.map key) {r : ρ} (hr : key r = k) :
    toMap key val (setRow key k r rows) = (toMap key val rows).insert k (val r) := by
  refine Finmap.ext_lookup fun k' => ?_
  rw [lookup_toMap, row?_setRow hr]
  by_cases hk' : k' = k
  · subst hk'
    obtain ⟨x, hx⟩ := Option.ne_none_iff_exists'.1 (mt row?_eq_none.1 (not_not.2 hk))
    rw [if_pos rfl, Finmap.lookup_insert, hx]
    rfl
  · rw [if_neg hk', Finmap.lookup_insert_of_ne _ hk', lookup_toMap]

end Tables
