import Replicare.Runs
import Replicare.Relations

/-! What a statement does to the rows of a MySQL database: the rows it changes itself, one
after the other, and the rows that the actions of foreign keys change for it. -/
namespace Replicare.MysqlRows
open Engine Relations List Function

inductive RefAction where
  | noAction
  | cascade
  | setNull
  deriving DecidableEq, Repr

structure Reference where
  fk : ForeignKey
  onDelete : RefAction
  onUpdate : RefAction
  deriving DecidableEq, Repr

abbrev Heap := TableRef → List (Option Row)

def rowAt (h : Heap) (r : TableRef) (place : Nat) : Option Row := (h r)[place]?.join

def scan (h : Heap) (r : TableRef) : List Row := (h r).filterMap id

structure RowChange where
  table : TableRef
  old : Option Row
  new : Option Row
  direct : Bool

section
variable (keyCols : TableRef → List String)

def lookup (h : Heap) : Tables := fun r k => (scan h r).find? fun x => decide (keyOf (keyCols r) x = k)

def RowChange.keys (c : RowChange) : List KeyValues :=
  (c.old.toList++c.new.toList).map (keyOf (keyCols c.table))

def taken (h : Heap) (table : TableRef) (place : Nat) (k : KeyValues) : Bool :=
  decide (none ∉ k) && (List.range (h table).length).any fun i =>
    decide (i ≠ place) && (rowAt h table i).any fun x => decide (keyOf (keyCols table) x = k)

def write (h : Heap) (table : TableRef) (place : Nat) (new : Option Row) : Option Heap :=
  if new.any fun y => taken keyCols h table place (keyOf (keyCols table) y) then none
  else some (update h table ((h table).set place new))

end

def Reference.action (e : Reference) (c : RowChange) : Option RefAction :=
  match c.old, c.new with
  | none, _ => none
  | some _, none => some e.onDelete
  | some x, some y =>
      if keyOf e.fk.parentCols x = keyOf e.fk.parentCols y then none else some e.onUpdate

def follow (fk : ForeignKey) (parent child : Row) : Row :=
  fun col => match (fk.childCols.zip fk.parentCols).lookup col with
    | some p => parent p
    | none => child col

def blankOut (fk : ForeignKey) (child : Row) : Row := fun col => if col ∈ fk.childCols then none else child col

def RefAction.effect (a : RefAction) (fk : ForeignKey) (parent : Option Row) (child : Row) : Option (Option Row) :=
  match a with
  | .noAction => none
  | .cascade => some (parent.map fun y => follow fk y child)
  | .setNull => some (some (blankOut fk child))

structure Dependent where
  fk : ForeignKey
  action : RefAction
  place : Nat

def refersTo (fk : ForeignKey) (parent : Option Row) (child : Row) : Bool :=
  parent.any fun x => decide (references fk child x)

def dependents (edges : List Reference) (h : Heap) (c : RowChange) : List Dependent :=
  (edges.filter fun e => decide (e.fk.parent = c.table)).flatMap fun e =>
    match e.action c with
    | none => []
    | some a => ((List.range (h e.fk.child).length).filter fun i =>
        (rowAt h e.fk.child i).any (refersTo e.fk c.old)).map fun i => ⟨e.fk,a,i⟩

section
variable (edges : List Reference) (keyCols : TableRef → List String)

def propagate : Nat → Bool → Heap → TableRef → Nat → Option Row → Option (Heap × List RowChange)
  | 0, _, _, _, _, _ => none
  | depth+1, direct, h, table, place, new => do
      let c : RowChange := ⟨table,rowAt h table place,new,direct⟩
      let written ← write keyCols h table place new
      Runs.run (fun (s : Heap × List RowChange) (d : Dependent) =>
        match (rowAt s.1 d.fk.child d.place).filter (refersTo d.fk c.old) with
        | none => some s
        | some child => do
            let new ← d.action.effect d.fk c.new child
            let more ← propagate depth false s.1 d.fk.child d.place new
            some (more.1,s.2++more.2)) (written,[c]) (dependents edges written c)

inductive RowOp where
  | insert (table : TableRef) (row : Row)
  | update (table : TableRef) (place : Nat) (row : Row)
  | delete (table : TableRef) (place : Nat)

def nesting : Nat := 16

def changeRow (done : List RowChange) (h : Heap) (table : TableRef) (place : Nat) (new : Option Row) :
    Option (Heap × List RowChange) := do
  let more ← propagate edges keyCols nesting true h table place new
  some (more.1,done++more.2)

def rowOp (s : Heap × List RowChange) : RowOp → Option (Heap × List RowChange)
  | .insert table row =>
      changeRow edges keyCols s.2 (update s.1 table (s.1 table++[none])) table (s.1 table).length (some row)
  | .update table place row =>
      if (rowAt s.1 table place).isSome then changeRow edges keyCols s.2 s.1 table place (some row) else some s
  | .delete table place =>
      if (rowAt s.1 table place).isSome then changeRow edges keyCols s.2 s.1 table place none else some s

def execute (h : Heap) (ops : List RowOp) : Option (Heap × List RowChange) :=
  Runs.run (rowOp edges keyCols) (h,[]) ops

end

def Explains (keyCols : TableRef → List String) (h g : Heap) (cs : List RowChange) : Prop :=
  ∀ r k, lookup keyCols g r k ≠ lookup keyCols h r k →
    ∃ c ∈ cs, c.table = r ∧ c.old ≠ c.new ∧ k ∈ c.keys keyCols

section
variable {edges : List Reference} {keyCols : TableRef → List String} {h g m : Heap}

theorem filterMapSet {α β : Type*} (f : α → Option β) {l : List α} {i new} (gone : f new = none)
    (old : ∀ x, l[i]? = some x → f x = none) : (l.set i new).filterMap f = l.filterMap f := by
  induction l generalizing i with
  | nil => rfl
  | cons a l ih =>
    cases i with
    | zero => simp [gone,old a rfl]
    | succ i => simp only [set_cons_succ,filterMap_cons,ih old]

theorem lookupEq (h) (r k) : lookup keyCols h r k =
    ((h r).filterMap fun x => x.filter fun x => decide (keyOf (keyCols r) x = k)).head? := by
  rw [lookup,scan,←head?_filter,filter_filterMap]
  rfl

theorem explainsRefl (cs) : Explains keyCols h h cs := fun _ _ differs => absurd rfl differs

theorem explainsTrans {cs ds} (first : Explains keyCols h m cs) (last : Explains keyCols m g ds) :
    Explains keyCols h g (cs++ds) := by
  intro r k differs
  by_cases same : lookup keyCols g r k = lookup keyCols m r k
  · rw [same] at differs
    obtain ⟨c,mem,rest⟩ := first r k differs
    exact ⟨c,mem_append_left _ mem,rest⟩
  · obtain ⟨c,mem,rest⟩ := last r k same
    exact ⟨c,mem_append_right _ mem,rest⟩

theorem writeExplains {table place new} (direct : Bool) (ok : write keyCols h table place new = some g) :
    Explains keyCols h g [⟨table,rowAt h table place,new,direct⟩] := by
  unfold write at ok
  split at ok <;> try contradiction
  cases ok
  intro r k differs
  by_contra unexplained
  apply differs
  by_cases here : r = table
  · subst here
    rw [lookupEq,lookupEq,update_self]
    by_cases changed : rowAt h r place = new
    · -- the place is written back as it was
      subst changed
      rw [rowAt]
      cases found : (h r)[place]? with
      | none => rw [set_eq_of_length_le (List.getElem?_eq_none_iff.mp found)]
      | some x =>
        obtain ⟨bound,rfl⟩ := List.getElem?_eq_some_iff.mp found
        rw [Option.join_some,set_getElem_self bound]
    · have outside : ∀ x, rowAt h r place = some x ∨ new = some x → keyOf (keyCols r) x ≠ k := by
        intro x side key
        refine unexplained ⟨_,mem_singleton_self _,rfl,changed,?_⟩
        subst key
        rcases side with side|side <;> simp [RowChange.keys,side]
      rw [filterMapSet]
      · rw [Option.filter_eq_none_iff]
        exact fun x held => by simpa using outside x (.inr held)
      · intro x found
        rw [Option.filter_eq_none_iff]
        intro y held
        subst held
        simpa using outside y (.inl (by simp [rowAt,found]))
  · simp [lookup,scan,update_of_ne here]

theorem propagateExplains {depth direct h table place new g cs}
    (ok : propagate edges keyCols depth direct h table place new = some (g,cs)) : Explains keyCols h g cs := by
  induction depth generalizing direct h table place new g cs with
  | zero => cases ok
  | succ depth ih =>
    simp only [propagate,bind,Option.bind_eq_some_iff] at ok
    obtain ⟨written,first,rest⟩ := ok
    refine Runs.runInvariant (P := fun s => Explains keyCols h s.1 s.2) ?_ rest (writeExplains direct first)
    rintro s d t held taken
    split at taken
    · cases taken
      exact held
    · simp only [Option.bind_eq_some_iff] at taken
      obtain ⟨_,_,⟨m,more⟩,nested,last⟩ := taken
      cases last
      exact explainsTrans held (ih nested)

theorem appendExplains (h) (table) : Explains keyCols h (update h table (h table++[none])) [] := by
  intro r k differs
  refine absurd ?_ differs
  by_cases here : r = table
  · subst here
    simp [lookup,scan]
  · simp [lookup,scan,update_of_ne here]

theorem changeRowExplains {done table place new t} (held : Explains keyCols h m done)
    (ok : changeRow edges keyCols done m table place new = some t) : Explains keyCols h t.1 t.2 := by
  simp only [changeRow,bind,Option.bind_eq_some_iff] at ok
  obtain ⟨⟨_,_⟩,nested,last⟩ := ok
  cases last
  exact explainsTrans held (propagateExplains nested)

theorem executeExplains {ops cs} (ok : execute edges keyCols h ops = some (g,cs)) : Explains keyCols h g cs := by
  refine Runs.runInvariant (P := fun s => Explains keyCols h s.1 s.2) ?_ ok (explainsRefl [])
  rintro s op t held taken
  cases op with
  | insert table row =>
    have grown := explainsTrans held (appendExplains s.1 table)
    rw [append_nil] at grown
    exact changeRowExplains grown taken
  | _ =>
    simp only [rowOp] at taken
    split at taken
    · exact changeRowExplains held taken
    · cases taken
      exact held

end

end Replicare.MysqlRows
