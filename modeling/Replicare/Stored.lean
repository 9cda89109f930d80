import Replicare.Relations

/-! Tables as finite lists of rows under their keys, and the statements that change them. What
a table holds for a key is its first entry. -/
namespace Replicare.Stored
open Engine Relations List Function

abbrev Rows := List (KeyValues × Row)
abbrev Base := TableRef → Rows

def view (b : Base) : Tables := fun r k => (b r).lookup k

def upsert (b : Base) (r : TableRef) (staged : Rows) : Base :=
  update b r (staged++(b r).filter fun e => !decide (e.1 ∈ staged.map Prod.fst))

/- A row without some of its columns: they keep what they had, or are NULL. -/
def blend (omitted : List String) (x : Row) (old : Option Row) : Row :=
  fun c => if c ∈ omitted then old.bind fun y => y c else x c

def merge (b : Base) (r : TableRef) (omitted : List String) (staged : Rows) : Base :=
  upsert b r (staged.map fun e => (e.1,blend omitted e.2 (view b r e.1)))

def fill (b : Base) (r : TableRef) (cols : List String) (staged : Rows) : Base :=
  update b r ((b r).map fun e => (e.1,blend cols e.2 (some ((staged.lookup e.1).getD e.2))))

def erase (b : Base) (r : TableRef) (gone : KeyValues → Bool) : Base :=
  update b r ((b r).filter fun e => !gone e.1)

theorem lookupFilter (rows : Rows) (p : KeyValues → Bool) (k) :
    (rows.filter fun e => p e.1).lookup k = if p k then rows.lookup k else none := by
  induction rows with
  | nil => simp
  | cons e rows ih =>
    obtain ⟨key,row⟩ := e
    by_cases same : k = key
    · subst same
      cases kept : p k <;> simp [kept,ih]
    · have other : (k == key) = false := beq_false_of_ne same
      cases kept : p key <;> simp [kept,other,ih,lookup_cons]

theorem lookupMap (rows : Rows) (f : KeyValues → Row → Row) (k) :
    (rows.map fun e => (e.1,f e.1 e.2)).lookup k = (rows.lookup k).map (f k) := by
  induction rows with
  | nil => rfl
  | cons e rows ih =>
    obtain ⟨key,row⟩ := e
    by_cases same : k = key
    · subst same
      simp
    · have other : (k == key) = false := beq_false_of_ne same
      simp [other,ih,lookup_cons]

theorem lookupNone {rows : Rows} {k} : rows.lookup k = none ↔ k ∉ rows.map Prod.fst := by
  rw [lookup_eq_none_iff,mem_map]
  refine ⟨fun none ⟨e,mem,same⟩ => ?_,fun none e mem => ?_⟩
  · have differs := none e mem
    simp [same] at differs
  · exact bne_iff_ne.mpr fun same => none ⟨e,mem,same.symm⟩

theorem lookupEntry {κ ν : Type*} [BEq κ] [LawfulBEq κ] {rows : List (κ × ν)} {k x} (found : rows.lookup k = some x) :
    (k,x) ∈ rows := by
  obtain ⟨before,after,rfl,_⟩ := lookup_eq_some_iff.mp found
  exact mem_append_right before mem_cons_self

theorem lookupMem {rows : Rows} {k x} (found : rows.lookup k = some x) : ∃ e ∈ rows, e.1 = k :=
  ⟨(k,x),lookupEntry found,rfl⟩

theorem blendNothing (x) (old) : blend [] x old = x := by
  funext c
  simp [blend]

theorem blendSelf (omitted) (x) : blend omitted x (some x) = x := by
  funext c
  simp [blend]

theorem blendTwice (omitted) (x) (old) : blend omitted x (some (blend omitted x old)) = blend omitted x old := by
  funext c
  by_cases out : c ∈ omitted <;> simp [blend,out]

theorem blendFilled (omitted) (x) (old) : blend omitted (blend omitted x old) (some x) = x := by
  funext c
  by_cases out : c ∈ omitted <;> simp [blend,out]

theorem viewUpsert (b : Base) (r staged r' k) : view (upsert b r staged) r' k =
    if r' = r then (staged.lookup k).or (view b r' k) else view b r' k := by
  unfold view upsert
  by_cases same : r' = r
  · subst same
    rw [update_self,lookup_append,lookupFilter (b r') fun k => !decide (k ∈ staged.map Prod.fst),if_pos rfl]
    cases found : staged.lookup k with
    | none => simp [lookupNone.mp found]
    | some x => rfl
  · simp [same]

theorem viewMerge (b : Base) (r omitted staged r' k) : view (merge b r omitted staged) r' k =
    if r' = r then ((staged.lookup k).map fun x => blend omitted x (view b r' k)).or (view b r' k) else view b r' k := by
  unfold merge
  rw [viewUpsert]
  by_cases same : r' = r
  · subst same
    rw [if_pos rfl,if_pos rfl,lookupMap staged fun k x => blend omitted x (view b r' k)]
  · rw [if_neg same,if_neg same]

theorem viewFill (b : Base) (r cols staged r' k) : view (fill b r cols staged) r' k =
    if r' = r then (view b r' k).map fun y => blend cols y (some ((staged.lookup k).getD y)) else view b r' k := by
  unfold view fill
  by_cases same : r' = r
  · subst same
    rw [update_self,lookupMap (b r') fun k y => blend cols y (some ((staged.lookup k).getD y)),if_pos rfl]
  · simp [same]

theorem viewErase (b : Base) (r gone r' k) : view (erase b r gone) r' k =
    if r' = r ∧ gone k = true then none else view b r' k := by
  unfold view erase
  by_cases same : r' = r
  · subst same
    rw [update_self,lookupFilter (b r') fun k => !gone k]
    cases gone k <;> simp
  · simp [same]

theorem upsertNothing (b) (r) : upsert b r [] = b := by
  simp [upsert]

theorem mergeNothing (b) (r omitted) : merge b r omitted [] = b := upsertNothing b r

theorem mergeWhole (b) (r staged) : merge b r [] staged = upsert b r staged := by
  simp [merge,blendNothing]

instance (fks : List ForeignKey) (b : Base) : Decidable (Consistent fks (view b)) :=
  decidable_of_iff (∀ fk ∈ fks, ∀ e ∈ b fk.child, ∀ x ∈ view b fk.child e.1, (∀ c ∈ fk.childCols, x c ≠ none) →
      ∃ p ∈ b fk.parent, ∃ y ∈ view b fk.parent p.1, references fk x y) (by
    refine forall₂_congr fun fk _ => ⟨fun held k x row needs => ?_,fun held e _ x row needs => ?_⟩
    · obtain ⟨e,mem,rfl⟩ := lookupMem row
      obtain ⟨p,_,y,found,refers⟩ := held e mem x row needs
      exact ⟨p.1,y,found,refers⟩
    · obtain ⟨p,y,found,refers⟩ := held e.1 x row needs
      obtain ⟨q,mem,rfl⟩ := lookupMem found
      exact ⟨q,mem,y,found,refers⟩)

def listed (l : List (TableRef × Rows)) : Base := fun r => (l.lookup r).getD []

def rowOf (cells : List (String × Bytes)) : Row := fun c => cells.lookup c

theorem listedKeyed {keyCols : TableRef → List String} {l : List (TableRef × Rows)}
    (own : ∀ t ∈ l, ∀ e ∈ t.2, keyOf (keyCols t.1) e.2 = e.1) : Keyed keyCols (view (listed l)) := by
  intro r k x row
  unfold view listed at row
  cases found : l.lookup r with
  | none =>
    rw [found] at row
    cases row
  | some rows =>
    rw [found] at row
    exact own _ (lookupEntry found) _ (lookupEntry row)

def accept (fks : List ForeignKey) (b : Base) : Option Base := if Consistent fks (view b) then some b else none

theorem acceptTaken {fks b} (held : Consistent fks (view b)) : accept fks b = some b := if_pos held

theorem acceptRefused {fks b} (broken : ¬Consistent fks (view b)) : accept fks b = none := if_neg broken

end Replicare.Stored
