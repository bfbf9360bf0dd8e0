import Mathlib.Data.Finset.Basic
import Mathlib.Data.Int.Order.Basic
import Mathlib.Tactic

/-! File descriptors as a ledger. A process opens and closes descriptors; the
table records which are open and which of them the process was handed. A law is
checked at every operation of a trace in the table the operation finds. -/

namespace Descriptors

inductive Op where
  /-- The kernel hands the process this descriptor. -/
  | opened (fd : ℤ)
  | close (fd : ℤ)
  deriving DecidableEq

structure Table where
  opened : Finset ℤ
  owned : Finset ℤ

/-- The descriptors a process inherits. -/
def Table.std : Table := ⟨{0, 1, 2}, ∅⟩

def Table.apply (t : Table) : Op → Table
  | .opened fd => ⟨insert fd t.opened, insert fd t.owned⟩
  | .close fd => ⟨t.opened.erase fd, t.owned.erase fd⟩

/-- The table after a trace. -/
def Table.after (t : Table) (ops : List Op) : Table := ops.foldl Table.apply t

/-- A close hits a descriptor that the process owns. -/
def Op.Owned (t : Table) : Op → Prop
  | .opened _ => True
  | .close fd => fd ∈ t.owned

/-- The kernel hands out no descriptor that is open. -/
def Op.Fresh (t : Table) : Op → Prop
  | .opened fd => fd ∉ t.opened
  | .close _ => True

instance (t : Table) : DecidablePred (Op.Owned t)
  | .opened _ => inferInstanceAs (Decidable True)
  | .close fd => inferInstanceAs (Decidable (fd ∈ t.owned))

instance (t : Table) : DecidablePred (Op.Fresh t)
  | .opened fd => inferInstanceAs (Decidable (fd ∉ t.opened))
  | .close _ => inferInstanceAs (Decidable True)

/-- Every operation of the trace obeys the law in the table it finds. -/
def Obeys (law : Table → Op → Prop) : Table → List Op → Prop
  | _, [] => True
  | t, op :: ops => law t op ∧ Obeys law (t.apply op) ops

instance Obeys.decidable (law : Table → Op → Prop) [∀ t, DecidablePred (law t)] :
    ∀ (t : Table) (ops : List Op), Decidable (Obeys law t ops)
  | _, [] => inferInstanceAs (Decidable True)
  | t, op :: ops =>
    have := Obeys.decidable law (t.apply op) ops
    inferInstanceAs (Decidable (law t op ∧ Obeys law (t.apply op) ops))

theorem obeys_append (law : Table → Op → Prop) (t : Table) (ops ops' : List Op) :
    Obeys law t (ops ++ ops') ↔ Obeys law t ops ∧ Obeys law (t.after ops) ops' := by
  induction ops generalizing t with
  | nil => simp [Obeys, Table.after]
  | cons op ops ih =>
    simp only [List.cons_append, Obeys]
    rw [ih, and_assoc]
    rfl

theorem after_append (t : Table) (ops ops' : List Op) :
    t.after (ops ++ ops') = (t.after ops).after ops' := List.foldl_append

/-- Distinct descriptors that are owned can be closed one after another. -/
theorem owned_closes {fds : List ℤ} (hnodup : fds.Nodup) {t : Table}
    (howned : ∀ fd ∈ fds, fd ∈ t.owned) : Obeys Op.Owned t (fds.map .close) := by
  induction fds generalizing t with
  | nil => trivial
  | cons fd fds ih =>
    rw [List.nodup_cons] at hnodup
    refine ⟨howned fd List.mem_cons_self, ih hnodup.2 fun fd' hfd' => ?_⟩
    refine Finset.mem_erase.2 ⟨?_, howned fd' (List.mem_cons_of_mem _ hfd')⟩
    rintro rfl
    exact hnodup.1 hfd'

/-- A close of a descriptor the process does not own breaks the law, wherever it stands. -/
theorem not_owned_closes {fds : List ℤ} {fd : ℤ} (hmem : fd ∈ fds) {t : Table}
    (hfree : fd ∉ t.owned) : ¬ Obeys Op.Owned t (fds.map .close) := by
  induction fds generalizing t with
  | nil => exact absurd hmem (by simp)
  | cons fd' fds ih =>
    rintro ⟨hfd', hrest⟩
    rcases List.mem_cons.1 hmem with rfl | hmem
    · exact hfree hfd'
    · exact ih hmem (fun h => hfree (Finset.mem_of_mem_erase h)) hrest

theorem mem_owned_closes {fds : List ℤ} {t : Table} {fd : ℤ} :
    fd ∈ (t.after (fds.map .close)).owned ↔ fd ∈ t.owned ∧ fd ∉ fds := by
  induction fds generalizing t with
  | nil => simp [Table.after]
  | cons fd' fds ih =>
    change fd ∈ ((t.apply (.close fd')).after (fds.map .close)).owned ↔ _
    rw [ih]
    simp only [Table.apply, Finset.mem_erase, List.mem_cons, not_or]
    tauto

theorem mem_opened_closes {fds : List ℤ} {t : Table} {fd : ℤ} :
    fd ∈ (t.after (fds.map .close)).opened ↔ fd ∈ t.opened ∧ fd ∉ fds := by
  induction fds generalizing t with
  | nil => simp [Table.after]
  | cons fd' fds ih =>
    change fd ∈ ((t.apply (.close fd')).after (fds.map .close)).opened ↔ _
    rw [ih]
    simp only [Table.apply, Finset.mem_erase, List.mem_cons, not_or]
    tauto

end Descriptors
