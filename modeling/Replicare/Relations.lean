import Mathlib.Data.List.Basic
import Replicare.Engine

/-! Rows as their columns, the keys they are stored under, and references between
them. A reference with a NULL in it refers to nothing. -/
namespace Replicare.Relations
open Engine

abbrev Row := String → Option Bytes
abbrev Tables := TableRef → KeyValues → Option Row

def keyOf (cols : List String) (x : Row) : KeyValues := cols.map x

def references (fk : ForeignKey) (x parent : Row) : Prop :=
  (∀ c ∈ fk.childCols, x c ≠ none) ∧ fk.childCols.map x = fk.parentCols.map parent
instance (fk x parent) : Decidable (references fk x parent) := by unfold references; infer_instance

def Keyed (keyCols : TableRef → List String) (db : Tables) : Prop :=
  ∀ r k x, db r k = some x → keyOf (keyCols r) x = k

def Consistent (fks : List ForeignKey) (db : Tables) : Prop :=
  ∀ fk ∈ fks, ∀ k x, db fk.child k = some x → (∀ c ∈ fk.childCols, x c ≠ none) →
    ∃ kp parent, db fk.parent kp = some parent ∧ references fk x parent

theorem referencesKey {fk cols x p q} (whole : ∀ c ∈ cols, c ∈ fk.parentCols)
    (first : references fk x p) (second : references fk x q) : keyOf cols p = keyOf cols q := by
  have same := List.map_inj_left.mp (first.2.symm.trans second.2)
  exact List.map_inj_left.mpr fun c mem => same c (whole c mem)

end Replicare.Relations
