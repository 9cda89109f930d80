import Replicare.PgPreflight
import Replicare.Relations

/-! The replication identity of a Postgres table on both sides. -/
namespace Replicare.PgIdentity
open Engine Relations PgPreflight List

section Model
variable (input : String → Bytes → Option Bytes)

def typeOf (t : Table) (name : String) : String := ((columnNamed t name).map Column.dataType).getD ""

def identity (t : Table) : List String := (captureColsFor t).map Prod.fst

def Typed (t : Table) (x : Row) : Prop :=
  ∀ col ∈ t.columns, (x col.name = none → col.nullable = true) ∧ ∀ v, x col.name = some v → input col.dataType v = some v

/- A NULL, or a text that its type does not read, is an error. -/
def valueTuple (keyCols : List (String × String)) (k : KeyValues) : Option KeyValues :=
  let values := List.zipWith (fun v c => v.bind (input c.2)) k keyCols
  if k.length = keyCols.length ∧ none ∉ values then some values else none

def keysetInPredicate (keyCols : List (String × String)) (keys : List KeyValues) : Option (Row → Bool) :=
  if ∀ k ∈ keys, valueTuple input keyCols k ≠ none then
    some fun x => decide (none ∉ keyOf (keyCols.map Prod.fst) x ∧
      keyOf (keyCols.map Prod.fst) x ∈ keys.filterMap (valueTuple input keyCols))
  else none

def rereadCurrent (st : Table) (source : List Row) (keys : List KeyValues) : Option (List Row) :=
  (keysetInPredicate input (captureColsFor st) keys).map fun wanted => source.filter wanted

def convert (tgt : Table) (x : Row) : Row := fun c => (x c).bind (input (typeOf tgt c))

def stageRow (tgt : Table) (cols : List String) (x : Row) : Row := fun c => if c ∈ cols then convert input tgt x c else none

def Readable (tgt : Table) (cols : List String) (x : Row) : Prop := ∀ c ∈ cols, x c ≠ none → convert input tgt x c ≠ none
instance (tgt cols x) : Decidable (Readable input tgt cols x) := by unfold Readable; infer_instance

def complete (others : Row → Row) (cols : List String) (s : Row) : Row := fun c => if c ∈ cols then s c else others s c

def mergeRow (others : Row → Row) (keys cols : List String) (at_ : List Row × List KeyValues) (s : Row) :
    Option (List Row × List KeyValues) :=
  let k := keyOf keys (complete others cols s)
  if none ∉ k ∧ k ∈ at_.1.map (keyOf keys) then
    if ∀ c ∈ cols, c ∈ keys then some at_
    else if k ∈ at_.2 then none
    else some (at_.1.map fun y => if keyOf keys y = k then fun c => if c ∈ cols ∧ c ∉ keys then s c else y c else y,k::at_.2)
  else some (at_.1++[complete others cols s],k::at_.2)

def stageUpsert (others : Row → Row) (tgt : Table) (cols : List String) (reread : List Row) (b : List Row) :
    Option (List Row × List Row) :=
  if captureColsFor tgt = [] ∨ ∃ c ∈ cols, columnNamed tgt c = none then none
  else if ∀ x ∈ reread, Readable input tgt cols x then
    ((reread.map (stageRow input tgt cols)).foldlM (mergeRow others (identity tgt) cols) (b,[])).map
      fun r => (r.1,reread.map (stageRow input tgt cols))
  else none

def otherKey (keys cols : List String) (s y : Row) : Bool := keys.any fun c => decide (c ∈ cols ∧ s c ≠ none ∧ y c ≠ s c)

def deleteAbsent (tgt : Table) (cols : List String) (staging : List Row) (dirty : List KeyValues) (b : List Row) :
    Option (List Row) :=
  if dirty = [] then some b
  else (keysetInPredicate input (captureColsFor tgt) dirty).map fun wanted =>
    b.filter fun y => !(wanted y && staging.all fun s => otherKey (identity tgt) cols s y)

def transported (st : Table) : List String := (transportColumns st).map Column.name

/- The re-read of the dirty keys, StageUpsert and DeleteAbsent. -/
def applyKeys (others : Row → Row) (st tgt : Table) (source : List Row) (dirty : List KeyValues) (b : List Row) : Option (List Row) :=
  (rereadCurrent input st source dirty).bind fun reread =>
    (stageUpsert input others tgt (transported st) reread b).bind fun r =>
      deleteAbsent input tgt (transported st) r.2 dirty r.1

def converted (st tgt : Table) (k : KeyValues) : KeyValues :=
  List.zipWith (fun v c => v.bind (input (typeOf tgt c))) k (identity st)

structure ChangedExactly (st tgt : Table) (source : List Row) (dirty : List KeyValues) (b after : List Row) : Prop where
  kept : ∀ y, keyOf (identity st) y ∉ dirty.map (converted input st tgt) → (y ∈ after ↔ y ∈ b)
  gone : ∀ d ∈ dirty, converted input st tgt d ∉ source.map (fun x => converted input st tgt (keyOf (identity st) x)) →
    ∀ y ∈ after, keyOf (identity st) y ≠ converted input st tgt d
  stays : ∀ y ∈ b, keyOf (identity st) y ∈ source.map (fun x => converted input st tgt (keyOf (identity st) x)) →
    keyOf (identity st) y ∈ after.map (keyOf (identity st))
  there : ∀ x ∈ source, keyOf (identity st) x ∈ dirty →
    converted input st tgt (keyOf (identity st) x) ∈ after.map (keyOf (identity st))
  current : ∀ x ∈ source, keyOf (identity st) x ∈ dirty → ∀ y ∈ after,
    keyOf (identity st) y = converted input st tgt (keyOf (identity st) x) → ∀ c ∈ transported st, y c = convert input tgt x c

def Exact (others : Row → Row) (st tgt : Table) : Prop :=
  ∀ source dirty b, (∀ x ∈ source, Typed input st x) → (source.map (keyOf (identity st))).Nodup →
    (∀ d ∈ dirty, ∃ x, Typed input st x ∧ keyOf (identity st) x = d) →
      ∃ after, applyKeys input others st tgt source dirty b = some after ∧ ChangedExactly input st tgt source dirty b after

def SameIdentity (st tgt : Table) : Prop :=
  match st.primaryKey, tgt.primaryKey with
  | some p, some q => p.columns = q.columns
  | some p, none => tgt.uniqueKeys.head?.map Key.columns = some p.columns
  | none, some q => st.uniqueKeys.head?.map Key.columns = some q.columns
  | none, none => tgt.uniqueKeys.head?.map Key.columns = st.uniqueKeys.head?.map Key.columns

/- No source row has a NULL in its key, and the target's types read all of them. -/
structure Legible (st tgt : Table) : Prop where
  keyed : ∀ x, Typed input st x → none ∉ keyOf (identity st) x
  readable : ∀ x, Typed input st x → Readable input tgt (transported st) x

structure Convertible (st tgt : Table) : Prop extends Legible input st tgt where
  apart : ∀ x x', Typed input st x → Typed input st x' →
    keyOf (identity st) (convert input tgt x) = keyOf (identity st) (convert input tgt x') →
      keyOf (identity st) x = keyOf (identity st) x'

end Model

theorem captureTyped (t) : captureColsFor t = (identity t).map fun c => (c,typeOf t c) := by
  unfold identity captureColsFor typeOf
  cases replicationKey t with
  | none => rfl
  | some key => simp

theorem identityKey (t) : identity t = ((replicationKey t).map Key.columns).getD [] := by
  unfold identity captureColsFor
  cases replicationKey t with
  | none => rfl
  | some key => simp [Function.comp_def]

theorem sameIdentityIff {st tgt} (named : identity st ≠ []) : identity st = identity tgt ↔ SameIdentity st tgt := by
  rw [identityKey] at named
  rw [identityKey,identityKey]
  unfold SameIdentity
  unfold replicationKey at *
  cases source : st.primaryKey <;> cases target : tgt.primaryKey <;> cases own : st.uniqueKeys.head? <;>
    cases unique : tgt.uniqueKeys.head? <;> simp_all [eq_comm]

section Tuples
variable {input : String → Bytes → Option Bytes} {st tgt : Table} {x : Row}

theorem zipTyped (t) (names) (x) :
    List.zipWith (fun v c => v.bind (input (typeOf t c))) (keyOf names x) names = keyOf names (convert input t x) := by
  induction names with
  | nil => rfl
  | cons c names ih =>
    simp only [keyOf,map_cons,zipWith_cons_cons] at ih ⊢
    rw [ih]
    rfl

theorem convertedKey : converted input st tgt (keyOf (identity st) x) = keyOf (identity st) (convert input tgt x) :=
  zipTyped tgt _ x

theorem tupleOf (t) (x) : valueTuple input (captureColsFor t) (keyOf (identity t) x) =
    if none ∉ keyOf (identity t) (convert input t x) then some (keyOf (identity t) (convert input t x)) else none := by
  have same : List.zipWith (fun v c => v.bind (input c.2)) (keyOf (identity t) x) (captureColsFor t) =
      keyOf (identity t) (convert input t x) := by
    rw [captureTyped,zipWith_map_right]
    exact zipTyped t _ x
  have count : (keyOf (identity t) x).length = (captureColsFor t).length := by simp [keyOf,identity]
  simp only [valueTuple,same,count,true_and]

theorem columnThere {t c} (known : c ∈ t.columns.map Column.name) :
    ∃ col ∈ t.columns, col.name = c ∧ columnNamed t c = some col := by
  obtain ⟨col,mem,same⟩ := mem_map.mp known
  cases found : columnNamed t c with
  | none =>
    have none := find?_eq_none.mp found col (mem_reverse.mpr mem)
    exact absurd (decide_eq_true same) none
  | some last =>
    have named := find?_some found
    exact ⟨last,mem_reverse.mp (mem_of_find?_eq_some found),of_decide_eq_true named,rfl⟩

theorem typedConvert {names} (typed : Typed input st x) (known : ∀ c ∈ names, c ∈ st.columns.map Column.name) :
    keyOf names (convert input st x) = keyOf names x := by
  refine map_inj_left.mpr fun c mem => ?_
  obtain ⟨col,inside,same,named⟩ := columnThere (known c mem)
  have reads := (typed col inside).2
  rw [same] at reads
  unfold convert typeOf
  rw [named]
  cases value : x c with
  | none => rfl
  | some v => exact reads v value

end Tuples

section Merge
variable {others : Row → Row} {keys cols : List String}

structure Landed (keys cols : List String) (b after l : List Row) : Prop where
  frame : ∀ y, keyOf keys y ∉ l.map (keyOf keys) → (y ∈ after ↔ y ∈ b)
  there : ∀ s ∈ l, keyOf keys s ∈ after.map (keyOf keys)
  current : ∀ s ∈ l, ∀ y ∈ after, keyOf keys y = keyOf keys s → ∀ c ∈ cols, y c = s c

theorem Landed.cons {b first after l s} (landed : Landed keys cols b first [s])
    (apart : keyOf keys s ∉ l.map (keyOf keys)) (rest : Landed keys cols first after l) : Landed keys cols b after (s::l) := by
  refine ⟨fun y out => ?_,fun r mem => ?_,fun r mem y there same => ?_⟩
  · rw [map_cons,mem_cons,not_or] at out
    exact (rest.frame y out.2).trans (landed.frame y fun mem => out.1 (mem_singleton.mp mem))
  · rcases mem_cons.mp mem with rfl | later
    · obtain ⟨y,made,same⟩ := mem_map.mp (landed.there r mem_cons_self)
      exact mem_map.mpr ⟨y,(rest.frame y (same ▸ apart)).mpr made,same⟩
    · exact rest.there r later
  · rcases mem_cons.mp mem with rfl | later
    · exact landed.current r mem_cons_self y ((rest.frame y (same ▸ apart)).mp there) same
    · exact rest.current r later y there same

variable (inside : ∀ c ∈ keys, c ∈ cols)

include inside in
theorem completeKey (s) : keyOf keys (complete others cols s) = keyOf keys s :=
  map_inj_left.mpr fun c mem => if_pos (inside c mem)

theorem keyAgrees {y s} (same : keyOf keys y = keyOf keys s) {c} (mem : c ∈ keys) : y c = s c :=
  map_inj_left.mp same c mem

theorem overwriteKey (s y : Row) : keyOf keys (fun c => if c ∈ cols ∧ c ∉ keys then s c else y c) = keyOf keys y :=
  map_inj_left.mpr fun _ mem => if_neg fun set => set.2 mem

theorem updateLands {b : List Row} {s} (conflict : keyOf keys s ∈ b.map (keyOf keys)) : Landed keys cols b
    (b.map fun y => if keyOf keys y = keyOf keys s then fun c => if c ∈ cols ∧ c ∉ keys then s c else y c else y) [s] := by
  have sameKey : ∀ y : Row, keyOf keys (if keyOf keys y = keyOf keys s then fun c => if c ∈ cols ∧ c ∉ keys then s c else y c
      else y) = keyOf keys y := by
    intro y
    split
    · exact overwriteKey s y
    · rfl
  refine ⟨fun y out => ?_,fun r mem => ?_,fun r mem y there same c known => ?_⟩
  · rw [map_singleton,mem_singleton] at out
    rw [mem_map]
    refine ⟨fun ⟨z,mem,made⟩ => ?_,fun mem => ⟨y,mem,if_neg out⟩⟩
    have other : keyOf keys z ≠ keyOf keys s := by rwa [← sameKey z,made]
    rwa [← made,if_neg other]
  · cases mem_singleton.mp mem
    obtain ⟨y,inside,same⟩ := mem_map.mp conflict
    rw [List.map_map]
    exact mem_map.mpr ⟨y,inside,(sameKey y).trans same⟩
  · cases mem_singleton.mp mem
    obtain ⟨z,_,rfl⟩ := mem_map.mp there
    rw [sameKey] at same
    rw [if_pos same]
    by_cases key : c ∈ keys
    · exact (if_neg fun set => set.2 key).trans (keyAgrees same key)
    · exact if_pos ⟨known,key⟩

include inside in
theorem insertLands {b s} (free : keyOf keys s ∉ b.map (keyOf keys)) :
    Landed keys cols b (b++[complete others cols s]) [s] := by
  refine ⟨fun y out => ?_,fun r mem => ?_,fun r mem y there same c known => ?_⟩
  · rw [map_singleton,mem_singleton] at out
    rw [mem_append,mem_singleton]
    refine ⟨fun mem => mem.resolve_right fun same => out ?_,.inl⟩
    rw [same,completeKey inside]
  · cases mem_singleton.mp mem
    rw [map_append,mem_append,map_singleton,completeKey inside]
    exact .inr (mem_singleton.mpr rfl)
  · cases mem_singleton.mp mem
    rcases mem_append.mp there with old | new
    · exact absurd (same ▸ mem_map_of_mem old) free
    · rw [mem_singleton.mp new]
      exact if_pos known

variable (others) in
include inside in
theorem mergeRowLands (b) {touched s} (whole : none ∉ keyOf keys s) (fresh : keyOf keys s ∉ touched) :
    ∃ after written, mergeRow others keys cols (b,touched) s = some (after,written) ∧ Landed keys cols b after [s] ∧
      ∀ k ∈ written, k ∈ touched ∨ k = keyOf keys s := by
  unfold mergeRow
  simp only [completeKey inside,whole,not_false_eq_true,true_and]
  by_cases conflict : keyOf keys s ∈ b.map (keyOf keys)
  · rw [if_pos conflict]
    by_cases nothing : ∀ c ∈ cols, c ∈ keys
    · rw [if_pos nothing]
      refine ⟨b,touched,rfl,⟨fun _ _ => Iff.rfl,?_,?_⟩,fun _ => .inl⟩
      · intro r mem
        rwa [mem_singleton.mp mem]
      · intro r mem y _ same c known
        exact keyAgrees same (nothing c known)
    · rw [if_neg nothing,if_neg fresh]
      exact ⟨_,_,rfl,updateLands conflict,fun k mem => (mem_cons.mp mem).symm⟩
  · rw [if_neg conflict]
    exact ⟨_,_,rfl,insertLands inside conflict,fun k mem => (mem_cons.mp mem).symm⟩

variable (others) in
include inside in
theorem mergeLands (b) {l touched} (whole : ∀ s ∈ l, none ∉ keyOf keys s) (distinct : (l.map (keyOf keys)).Nodup)
    (fresh : ∀ s ∈ l, keyOf keys s ∉ touched) :
    ∃ after written, l.foldlM (mergeRow others keys cols) (b,touched) = some (after,written) ∧ Landed keys cols b after l := by
  induction l generalizing b touched with
  | nil => exact ⟨b,touched,rfl,⟨fun _ _ => Iff.rfl,fun _ none => absurd none not_mem_nil,
      fun _ none => absurd none not_mem_nil⟩⟩
  | cons s l ih =>
    rw [map_cons,nodup_cons] at distinct
    obtain ⟨first,written,made,landed,only⟩ := mergeRowLands others inside b
      (whole s mem_cons_self) (fresh s mem_cons_self)
    have later : ∀ r ∈ l, keyOf keys r ∉ written := by
      intro r mem known
      rcases only _ known with old | same
      · exact fresh r (mem_cons_of_mem _ mem) old
      · exact distinct.1 (same ▸ mem_map_of_mem mem)
    obtain ⟨after,all,rest,remaining⟩ := ih first (fun r mem => whole r (mem_cons_of_mem _ mem)) distinct.2 later
    refine ⟨after,all,?_,?_⟩
    · rw [foldlM_cons,made]
      exact rest
    · exact landed.cons distinct.1 remaining

end Merge

section Effect
variable {input : String → Bytes → Option Bytes} {others : Row → Row} {st tgt : Table}

theorem transportedColumn {c} (mem : c ∈ transported st) : c ∈ st.columns.map Column.name := by
  obtain ⟨col,inside,rfl⟩ := mem_map.mp mem
  exact mem_map_of_mem (mem_filter.mp inside).1

theorem stagedKey {names cols} (inside : ∀ c ∈ names, c ∈ cols) (x) :
    keyOf names (stageRow input tgt cols x) = keyOf names (convert input tgt x) :=
  map_inj_left.mpr fun c mem => if_pos (inside c mem)

theorem otherKeyIff {keys cols s y} (inside : ∀ c ∈ keys, c ∈ cols) (whole : none ∉ keyOf keys s) :
    otherKey keys cols s y = true ↔ keyOf keys y ≠ keyOf keys s := by
  simp only [otherKey,any_eq_true,decide_eq_true_eq]
  constructor
  · rintro ⟨c,mem,_,_,differs⟩ same
    exact differs (keyAgrees same mem)
  · intro other
    by_contra none
    refine other (map_inj_left.mpr fun c mem => ?_)
    by_contra differs
    have value : s c ≠ .none := fun missing => whole (missing ▸ mem_map_of_mem mem)
    exact none ⟨c,mem,inside c mem,value,differs⟩

theorem predicateOf {keyCols keys read} (reads : ∀ k ∈ keys, valueTuple input keyCols k = some (read k)) :
    keysetInPredicate input keyCols keys = some fun x => decide (none ∉ keyOf (keyCols.map Prod.fst) x ∧
      keyOf (keyCols.map Prod.fst) x ∈ keys.map read) := by
  have all : ∀ k ∈ keys, valueTuple input keyCols k ≠ none := by
    intro k mem
    rw [reads k mem]
    exact Option.some_ne_none _
  have values : keys.filterMap (valueTuple input keyCols) = keys.map read := by
    rw [← filterMap_eq_map]
    exact filterMap_congr reads
  rw [keysetInPredicate,if_pos all,values]

variable (inside : ∀ c ∈ identity st, c ∈ transported st)

include inside in
theorem sourceTuple {x} (typed : Typed input st x) (whole : none ∉ keyOf (identity st) x) :
    valueTuple input (captureColsFor st) (keyOf (identity st) x) = some (keyOf (identity st) x) := by
  rw [tupleOf,typedConvert typed fun c mem => transportedColumn (inside c mem),if_pos whole]

include inside in
theorem rereadFinds {source dirty} (typed : ∀ x ∈ source, Typed input st x)
    (keyed : ∀ x, Typed input st x → none ∉ keyOf (identity st) x)
    (known : ∀ d ∈ dirty, ∃ x, Typed input st x ∧ keyOf (identity st) x = d) :
    rereadCurrent input st source dirty = some (source.filter fun x => decide (keyOf (identity st) x ∈ dirty)) := by
  have reads : ∀ d ∈ dirty, valueTuple input (captureColsFor st) d = some (id d) := by
    intro d mem
    obtain ⟨x,good,rfl⟩ := known d mem
    exact sourceTuple inside good (keyed x good)
  rw [rereadCurrent,predicateOf reads,Option.map_some,map_id]
  refine congrArg some (filter_congr fun x mem => ?_)
  exact decide_eq_decide.mpr (and_iff_right (keyed x (typed x mem)))

include inside in
theorem convertedWhole (conv : Legible input st tgt) {x} (typed : Typed input st x) :
    none ∉ keyOf (identity st) (convert input tgt x) := by
  intro missing
  obtain ⟨c,mem,unread⟩ := mem_map.mp missing
  refine conv.readable x typed c (inside c mem) (fun empty => ?_) unread
  exact conv.keyed x typed (empty ▸ mem_map_of_mem mem)

include inside in
theorem stagedWhole (conv : Legible input st tgt) {x} (typed : Typed input st x) :
    none ∉ keyOf (identity st) (stageRow input tgt (transported st) x) := by
  rw [stagedKey inside]
  exact convertedWhole inside conv typed

include inside in
theorem survivesIff (conv : Legible input st tgt) {dirty : List KeyValues} {rows : List Row}
    (known : ∀ d ∈ dirty, ∃ x, Typed input st x ∧ keyOf (identity st) x = d) (typed : ∀ x ∈ rows, Typed input st x) {y : Row} :
    (!(decide (none ∉ keyOf (identity st) y ∧ keyOf (identity st) y ∈ dirty.map (converted input st tgt)) &&
        (rows.map (stageRow input tgt (transported st))).all fun s => otherKey (identity st) (transported st) s y)) = true ↔
      (keyOf (identity st) y ∈ dirty.map (converted input st tgt) →
        ∃ x ∈ rows, converted input st tgt (keyOf (identity st) x) = keyOf (identity st) y) := by
  rw [Bool.not_eq_true',← Bool.not_eq_true,Bool.and_eq_true,decide_eq_true_eq,all_eq_true,not_and]
  constructor
  · intro keep hit
    have whole : none ∉ keyOf (identity st) y := by
      obtain ⟨d,mem,equal⟩ := mem_map.mp hit
      obtain ⟨x,good,rfl⟩ := known d mem
      rw [← equal,convertedKey]
      exact convertedWhole inside conv good
    by_contra unstaged
    refine keep ⟨whole,hit⟩ fun s mem => ?_
    obtain ⟨x,row,rfl⟩ := mem_map.mp mem
    refine (otherKeyIff inside (stagedWhole inside conv (typed x row))).mpr fun equal => unstaged ⟨x,row,?_⟩
    rw [convertedKey,← stagedKey inside,equal]
  · rintro keep ⟨_,hit⟩ all
    obtain ⟨x,row,equal⟩ := keep hit
    refine (otherKeyIff inside (stagedWhole inside conv (typed x row))).mp (all _ (mem_map_of_mem row)) ?_
    rw [stagedKey inside,← convertedKey,equal]

include inside in
theorem deleteFinds (same : identity st = identity tgt) (conv : Legible input st tgt) {dirty}
    (known : ∀ d ∈ dirty, ∃ x, Typed input st x ∧ keyOf (identity st) x = d) (cols) (staging b) :
    deleteAbsent input tgt cols staging dirty b = some (b.filter fun y =>
      !(decide (none ∉ keyOf (identity st) y ∧ keyOf (identity st) y ∈ dirty.map (converted input st tgt)) &&
        staging.all fun s => otherKey (identity st) cols s y)) := by
  have reads : ∀ d ∈ dirty, valueTuple input (captureColsFor tgt) d = some (converted input st tgt d) := by
    intro d mem
    obtain ⟨x,good,rfl⟩ := known d mem
    rw [convertedKey,same,tupleOf,if_pos]
    exact same ▸ convertedWhole inside conv good
  unfold deleteAbsent
  split
  · next none => simp [none]
  · rw [predicateOf reads,Option.map_some]
    rw [show (captureColsFor tgt).map Prod.fst = identity st from same.symm,same]

variable (others) in
include inside in
theorem stageLands (same : identity st = identity tgt) (named : identity st ≠ [])
    (present : ∀ c ∈ transported st, columnNamed tgt c ≠ none) (conv : Convertible input st tgt) {rows}
    (typed : ∀ x ∈ rows, Typed input st x) (distinct : (rows.map (keyOf (identity st))).Nodup) (b) :
    ∃ merged, stageUpsert input others tgt (transported st) rows b = some (merged,rows.map (stageRow input tgt (transported st))) ∧
      Landed (identity st) (transported st) b merged (rows.map (stageRow input tgt (transported st))) := by
  have whole : ∀ s ∈ rows.map (stageRow input tgt (transported st)), none ∉ keyOf (identity st) s := by
    intro s mem
    obtain ⟨x,row,rfl⟩ := mem_map.mp mem
    exact stagedWhole inside conv.toLegible (typed x row)
  have apart : ((rows.map (stageRow input tgt (transported st))).map (keyOf (identity st))).Nodup := by
    rw [List.map_map]
    refine pairwise_map.mpr (List.Pairwise.imp_of_mem ?_ (pairwise_map.mp distinct))
    intro x x' mem mem' differs equal
    simp only [Function.comp_apply,stagedKey inside] at equal
    exact differs (conv.apart x x' (typed x mem) (typed x' mem') equal)
  obtain ⟨merged,written,made,landed⟩ := mergeLands others inside b whole apart
    fun _ _ => not_mem_nil
  refine ⟨merged,?_,landed⟩
  have usable : ¬(captureColsFor tgt = [] ∨ ∃ c ∈ transported st, columnNamed tgt c = none) := by
    rintro (empty | ⟨c,mem,missing⟩)
    · exact named (by rw [same,identity,empty,map_nil])
    · exact present c mem missing
  rw [stageUpsert,if_neg usable,if_pos fun x mem => conv.readable x (typed x mem),← same,made]
  rfl

include inside in
theorem exactOf (same : identity st = identity tgt) (named : identity st ≠ [])
    (present : ∀ c ∈ transported st, columnNamed tgt c ≠ none) (conv : Convertible input st tgt) : Exact input others st tgt := by
  intro source dirty b typed distinct known
  have reread := rereadFinds inside typed conv.keyed known
  have kept := (filter_sublist (l := source) (p := fun x => decide (keyOf (identity st) x ∈ dirty))).map (keyOf (identity st))
  generalize found : source.filter (fun x => decide (keyOf (identity st) x ∈ dirty)) = rows at reread kept
  have member : ∀ x, x ∈ rows ↔ x ∈ source ∧ keyOf (identity st) x ∈ dirty := by
    intro x
    rw [← found,mem_filter,decide_eq_true_eq]
  obtain ⟨merged,made,landed⟩ := stageLands others inside same named present conv
    (fun x mem => typed x ((member x).mp mem).1) (distinct.sublist kept) b
  have deleted := deleteFinds inside same conv.toLegible known (transported st) (rows.map (stageRow input tgt (transported st))) merged
  generalize left : merged.filter _ = after at deleted
  have staged : ∀ k, k ∈ (rows.map (stageRow input tgt (transported st))).map (keyOf (identity st)) ↔
      ∃ x ∈ rows, converted input st tgt (keyOf (identity st) x) = k := by
    intro k
    simp only [mem_map,exists_exists_and_eq_and,stagedKey inside,convertedKey]
  have survives : ∀ y, y ∈ after ↔ y ∈ merged ∧ (keyOf (identity st) y ∈ dirty.map (converted input st tgt) →
      ∃ x ∈ rows, converted input st tgt (keyOf (identity st) x) = keyOf (identity st) y) := by
    intro y
    rw [← left,mem_filter,survivesIff inside conv.toLegible known fun x mem => typed x ((member x).mp mem).1]
  have chosen : ∀ x ∈ source, converted input st tgt (keyOf (identity st) x) ∈ dirty.map (converted input st tgt) → x ∈ rows := by
    intro x mem hit
    obtain ⟨d,there,equal⟩ := mem_map.mp hit
    obtain ⟨x',good,rfl⟩ := known d there
    rw [convertedKey,convertedKey] at equal
    exact (member x).mpr ⟨mem,conv.apart x' x good (typed x mem) equal ▸ there⟩
  have holds : ∀ x ∈ rows, converted input st tgt (keyOf (identity st) x) ∈ after.map (keyOf (identity st)) := by
    intro x row
    obtain ⟨y,there,equal⟩ := mem_map.mp (landed.there _ (mem_map_of_mem row))
    rw [stagedKey inside,← convertedKey] at equal
    exact mem_map.mpr ⟨y,(survives y).mpr ⟨there,fun _ => ⟨x,row,equal.symm⟩⟩,equal⟩
  have kept : ∀ y, keyOf (identity st) y ∉ dirty.map (converted input st tgt) → (y ∈ after ↔ y ∈ b) := by
    intro y out
    rw [survives,and_iff_left fun hit => absurd hit out]
    refine landed.frame y fun hit => out ?_
    obtain ⟨x,row,equal⟩ := (staged _).mp hit
    exact equal ▸ mem_map_of_mem ((member x).mp row).2
  refine ⟨after,?_,⟨kept,fun d mem absent y there equal => ?_,fun y mem hit => ?_,fun x mem hit => ?_,
    fun x mem hit y there equal c col => ?_⟩⟩
  · rw [applyKeys,reread,Option.bind_some,made,Option.bind_some,deleted]
  · obtain ⟨x,row,found⟩ := ((survives y).mp there).2 (equal ▸ mem_map_of_mem mem)
    exact absent (mem_map.mpr ⟨x,((member x).mp row).1,found.trans equal⟩)
  · by_cases dirtied : keyOf (identity st) y ∈ dirty.map (converted input st tgt)
    · obtain ⟨x,row,equal⟩ := mem_map.mp hit
      exact equal ▸ holds x (chosen x row (equal ▸ dirtied))
    · exact mem_map_of_mem ((kept y dirtied).mpr mem)
  · exact holds x ((member x).mpr ⟨mem,hit⟩)
  · rw [convertedKey,← stagedKey inside] at equal
    have row := (member x).mpr ⟨mem,hit⟩
    have value := landed.current _ (mem_map_of_mem row) y ((survives y).mp there).1 equal c col
    exact value.trans (if_pos col)

theorem ownKey {x} (typed : Typed input st x) :
    ∀ d ∈ [keyOf (identity st) x], ∃ x, Typed input st x ∧ keyOf (identity st) x = d :=
  fun _ mem => ⟨x,typed,(mem_singleton.mp mem).symm⟩

include inside in
theorem legibleOf (effect : Exact input others st tgt) : Legible input st tgt := by
  have keyed : ∀ x, Typed input st x → none ∉ keyOf (identity st) x := by
    intro x typed missing
    obtain ⟨after,made,_⟩ := effect [] _ [] (fun _ none => absurd none not_mem_nil) nodup_nil (ownKey typed)
    have refused : valueTuple input (captureColsFor st) (keyOf (identity st) x) = none := by
      rw [tupleOf,typedConvert typed fun c mem => transportedColumn (inside c mem),if_neg (not_not.mpr missing)]
    have failed : rereadCurrent input st [] [keyOf (identity st) x] = none := by
      rw [rereadCurrent,keysetInPredicate,if_neg fun all => all _ mem_cons_self refused,Option.map_none]
    rw [applyKeys,failed,Option.bind_none] at made
    cases made
  refine ⟨keyed,fun x typed => ?_⟩
  by_contra unread
  have only : ∀ r ∈ [x], Typed input st r := fun r mem => mem_singleton.mp mem ▸ typed
  obtain ⟨after,made,_⟩ := effect [x] _ [] only (nodup_singleton _) (ownKey typed)
  have failed : stageUpsert input others tgt (transported st) [x] [] = none := by
    unfold stageUpsert
    split
    · rfl
    · exact if_neg fun all => unread (all x mem_cons_self)
  rw [applyKeys,rereadFinds inside only keyed (ownKey typed),Option.bind_some,filter_cons_of_pos (by simp),filter_nil,
    failed,Option.bind_none] at made
  cases made

include inside in
theorem convertibleOf (same : identity st = identity tgt) (effect : Exact input others st tgt) : Convertible input st tgt := by
  have legible := legibleOf inside effect
  refine ⟨legible,fun x x' typed typed' equal => ?_⟩
  by_contra differs
  have only : ∀ r ∈ [x'], Typed input st r := fun r mem => mem_singleton.mp mem ▸ typed'
  generalize landed : complete others (transported st) (stageRow input tgt (transported st) x') = y
  have key : keyOf (identity st) y = converted input st tgt (keyOf (identity st) x') := by
    rw [← landed,completeKey inside,stagedKey inside,convertedKey]
  obtain ⟨after,made,changed⟩ := effect [x'] _ [y] only (nodup_singleton _) (ownKey typed)
  have reread : rereadCurrent input st [x'] [keyOf (identity st) x] = some [] := by
    rw [rereadFinds inside only legible.keyed (ownKey typed),filter_cons_of_neg (by simpa using Ne.symm differs),
      filter_nil]
  rw [applyKeys,reread,Option.bind_some] at made
  obtain ⟨⟨merged,staging⟩,upserted,deleted⟩ := Option.bind_eq_some_iff.mp made
  have nothing : staging = [] := by
    unfold stageUpsert at upserted
    split at upserted
    · cases upserted
    · cases upserted
      rfl
  subst nothing
  rw [deleteFinds inside same legible (ownKey typed)] at deleted
  cases deleted
  obtain ⟨z,left,found⟩ := mem_map.mp (changed.stays y mem_cons_self (mem_singleton.mpr key))
  have unstaged : ∀ r ∈ ([] : List Row), Typed input st r := fun _ none => absurd none not_mem_nil
  have kept := (survivesIff inside legible (ownKey typed) unstaged).mp (mem_filter.mp left).2
  have dirty : keyOf (identity st) z ∈ [keyOf (identity st) x].map (converted input st tgt) := by
    rw [found,key,convertedKey,← equal,← convertedKey]
    exact mem_singleton.mpr rfl
  obtain ⟨_,none,_⟩ := kept dirty
  exact absurd none not_mem_nil

end Effect

def accounts : TableRef := ⟨"public","accounts"⟩

def accountsBy (primary unique : String) : Table where
  ref := accounts
  columns := [⟨"id","bigint",false,false,""⟩,⟨"code","bigint",false,false,""⟩]
  primaryKey := some ⟨"accounts_pkey",[primary],true⟩
  uniqueKeys := [⟨"accounts_key",[unique],false⟩]
  foreignKeys := []
  storageEngine := ""

theorem accountsAccepted (components primary unique) : (buildPreflight components "accounts" 160000 160000
    [accountsBy "id" "code"] [accountsBy primary unique]).blocked = false := by
  rw [Bool.eq_false_iff,Ne,blockedIff]
  rintro (cyclic | ⟨t,mem,_,f,found,block⟩)
  · revert cyclic
    simp [classifyCyclicFKs,selectedFKs,accountsBy]
  · cases mem_singleton.mp mem
    -- the comparison reads the columns of the target and not its keys
    have same : compareTable (accountsBy "id" "code") (targetOf [accountsBy primary unique] (accountsBy "id" "code")) =
        compareTable (accountsBy "id" "code") (some (accountsBy "id" "code")) := rfl
    have none : ∀ f ∈ compatFindings accounts (compareTable (accountsBy "id" "code") (some (accountsBy "id" "code"))),
        f.severity ≠ .block := by decide
    exact none f (same ▸ found) block

theorem accountsConvertible : Convertible (fun _ => some) (accountsBy "id" "code") (accountsBy "id" "code") := by
  have same : ∀ x, convert (fun _ => some) (accountsBy "id" "code") x = x := by
    intro x
    funext c
    exact Option.bind_fun_some (x c)
  refine ⟨⟨fun x typed null => ?_,fun x _ c _ set => ?_⟩,fun x x' _ _ equal => ?_⟩
  · have id : x "id" = none := (mem_singleton.mp null).symm
    exact absurd ((typed _ mem_cons_self).1 id) (by decide)
  · rw [same]
    exact set
  · rwa [same,same] at equal

def account (id code : UInt8) : Row := fun c => if c = "id" then some [id] else if c = "code" then some [code] else none

end Replicare.PgIdentity
