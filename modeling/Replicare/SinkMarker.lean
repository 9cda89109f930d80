import Mathlib.Data.List.Nodup
import Replicare.Runs
import Replicare.Engine

/-! The statements a cluster member's sink issues in its session, and the marker that keeps the
capture triggers of the target from firing for them. -/
namespace Replicare.SinkMarker
open Engine
open List hiding set

variable {K V : Type*} [DecidableEq K]

inductive Write (K V : Type*) where
  | copy (table : TableRef) (rows : List (K × V))
  | upsert (table : TableRef) (rows : List (K × V)) (update : Option (V → V → V))
  | delete (table : TableRef) (gone : K → Bool)
  | fill (table : TableRef) (set : K → Option (V → V))

/- `mark` is SET LOCAL replicare.apply or SET @replicare_apply; `other` is a
statement on staging, constraints, the register or the clock. -/
inductive Stmt (K V : Type*) where
  | begin
  | commit
  | rollback
  | mark (on : Bool)
  | other (sql : String)
  | dml (w : Write K V)

structure Db (K V : Type*) where
  rows : TableRef → List (K × V)
  deltas : List (TableRef × Op × K)
  stamps : List (TableRef × K × Bool)

/- `saved` is the database at BEGIN while a transaction is open. -/
structure Session (K V : Type*) where
  db : Db K V
  saved : Option (Db K V)
  marker : Bool

def Write.table : Write K V → TableRef
  | .copy t _ => t
  | .upsert t _ _ => t
  | .delete t _ => t
  | .fill t _ => t

def upsertRow (update : Option (V → V → V)) (acc : List (K × V) × List (Op × K)) (row : K × V) :
    List (K × V) × List (Op × K) :=
  if row.1 ∈ acc.1.map Prod.fst then
    match update with
    | none => acc
    | some f => (acc.1.map fun x => if x.1 = row.1 then (x.1,f x.2 row.2) else x,acc.2++[(.update,row.1)])
  else (acc.1++[row],acc.2++[(.insert,row.1)])

def Write.effect (w : Write K V) (rows : List (K × V)) : Option (List (K × V) × List (Op × K)) :=
  match w with
  | .copy _ new =>
      if (new.map Prod.fst).Nodup ∧ ∀ k ∈ new.map Prod.fst, k ∉ rows.map Prod.fst then
        some (rows++new,new.map fun x => (.insert,x.1))
      else none
  | .upsert _ new update => some (new.foldl (upsertRow update) (rows,[]))
  | .delete _ gone => some (rows.filter fun x => !gone x.1,(rows.filter fun x => gone x.1).map fun x => (.delete,x.1))
  | .fill _ set => some (rows.map fun x => (x.1,(set x.1).elim x.2 fun f => f x.2),
      (rows.filter fun x => (set x.1).isSome).map fun x => (.update,x.1))

def Write.touches (w : Write K V) (rows : List (K × V)) : Bool := (w.effect rows).any fun e => !e.2.isEmpty

def triggerBody (db : Db K V) (table : TableRef) (events : List (Op × K)) : Db K V :=
  { db with
    deltas := db.deltas++events.map fun e => (table,e.1,e.2)
    stamps := db.stamps++events.map fun e => (table,e.2,e.1 == .delete) }

def kept (d : Dialect) (marker : Bool) : Bool :=
  match d with
  | .postgres => false
  | .mysql => marker

def exec (d : Dialect) (s : Session K V) : Stmt K V → Option (Session K V)
  | .begin => some { s with saved := some s.db }
  | .commit => some { s with saved := none, marker := kept d s.marker }
  | .rollback => some ⟨s.saved.getD s.db,none,kept d s.marker⟩
  -- outside a transaction SET LOCAL has no effect
  | .mark on => some { s with marker := if d = .mysql ∨ s.saved.isSome then on else s.marker }
  | .other _ => some s
  | .dml w => (w.effect (s.db.rows w.table)).map fun e =>
      let db := { s.db with rows := Function.update s.db.rows w.table e.1 }
      { s with db := if s.marker then db else triggerBody db w.table e.2 }

inductive ApplyCall (K V : Type*) where
  | stageUpsert (table : TableRef) (rows : List (K × V)) (update : Option (V → V → V))
  | deleteAbsent (table : TableRef) (gone : K → Bool)
  | fillCyclic (sets : List (TableRef × (K → Option (V → V))))

/- A table of a cyclic component goes over by one COPY into an empty target, by one
staging table upserted in chunks, or by a staged upsert for each key range. -/
inductive CyclicLoad (K V : Type*) where
  | copy (table : TableRef) (rows : List (K × V))
  | staged (table : TableRef) (chunks : List (List (K × V))) (update : Option (V → V → V))
  | range (table : TableRef) (rows : List (K × V)) (update : Option (V → V → V))

inductive CyclicCopy (K V : Type*) where
  | deferred (loads : List (CyclicLoad K V))
  | nullFill (loads : List (CyclicLoad K V)) (fills : List (TableRef × (K → Option (V → V))))

inductive LoadMode where
  | direct
  | merge
  deriving DecidableEq, Repr

inductive Operation (K V : Type*) where
  | applyTx (cyclic : Bool) (calls : List (ApplyCall K V))
  | applyPass (table : TableRef) (rows : List (K × V)) (update : Option (V → V → V)) (gone : K → Bool)
  | bulkLoad (mode : LoadMode) (table : TableRef) (rows : List (K × V)) (update : Option (V → V → V))
  | deleteRange (table : TableRef) (inRange : K → Bool)
  | copyCyclicComponent (c : CyclicCopy K V)

def other (sql : List String) : List (Stmt K V) := sql.map .other

namespace Postgres

def setApplyMarker (origin : Bool) : List (Stmt K V) := if origin then [.mark true] else []

def directLoad (origin : Bool) (t : TableRef) (rows : List (K × V)) : List (Stmt K V) :=
  if origin then [.begin]++setApplyMarker origin++[.dml (.copy t rows),.commit] else [.dml (.copy t rows)]

def mergeLoad (origin : Bool) (t : TableRef) (rows : List (K × V)) (update : Option (V → V → V)) : List (Stmt K V) :=
  [.begin]++setApplyMarker origin++other ["CREATE TEMP TABLE","COPY staging"]++[.dml (.upsert t rows update),.commit]

def deleteRange (t : TableRef) (inRange : K → Bool) : List (Stmt K V) := [.dml (.delete t inRange)]

def beginApply (origin : Bool) : List (Stmt K V) :=
  [.begin]++setApplyMarker origin++other ["SET CONSTRAINTS ALL DEFERRED"]

def applyCall (origin : Bool) : ApplyCall K V → List (Stmt K V)
  | .stageUpsert t rows update =>
      other ((if origin then ["ensure mesh objects"] else [])++["CREATE TEMP TABLE","COPY staging"])++
        [.dml (.upsert t rows update)]++other (if origin then ["upsert register","observe clock"] else [])
  | .deleteAbsent t gone => [.dml (.delete t gone)]++other (if origin then ["upsert register","observe clock"] else [])
  | .fillCyclic sets => sets.map fun p => .dml (.fill p.1 p.2)

def applyPass (origin : Bool) (t : TableRef) (rows : List (K × V)) (update : Option (V → V → V)) (gone : K → Bool) : List (Stmt K V) :=
  [.begin]++setApplyMarker origin++other ["CREATE TEMP TABLE","COPY staging"]++
    [.dml (.upsert t rows update),.dml (.delete t gone),.commit]

def cyclicRows : CyclicLoad K V → List (Stmt K V)
  | .copy t rows => [.dml (.copy t rows)]
  | .staged t chunks update =>
      other ["CREATE TEMP TABLE","COPY staging"]++chunks.map fun rows => .dml (.upsert t rows update)
  | .range t rows update => other ["CREATE TEMP TABLE","COPY staging"]++[.dml (.upsert t rows update)]

/- A COPY into an empty target is sent on the bare connection. -/
def cyclicLoad : CyclicLoad K V → List (Stmt K V)
  | .copy t rows => cyclicRows (.copy t rows)
  | load => [.begin]++cyclicRows load++[.commit]

def fillFKRange (t : TableRef) (set : K → Option (V → V)) : List (Stmt K V) :=
  [.begin]++other ["CREATE TEMP TABLE","COPY staging"]++[.dml (.fill t set),.commit]

def copyCyclicComponent : CyclicCopy K V → List (Stmt K V)
  | .deferred loads => [.begin]++other ["SET CONSTRAINTS ALL DEFERRED"]++loads.flatMap cyclicRows++[.commit]
  | .nullFill loads fills => loads.flatMap cyclicLoad++fills.flatMap fun p => fillFKRange p.1 p.2

def stmts (origin : Bool) : Operation K V → List (Stmt K V)
  | .applyTx _ calls => beginApply origin++calls.flatMap (applyCall origin)++[.commit]
  | .applyPass t rows update gone => applyPass origin t rows update gone
  | .bulkLoad .direct t rows _ => directLoad origin t rows
  | .bulkLoad .merge t rows update => mergeLoad origin t rows update
  | .deleteRange t inRange => deleteRange t inRange
  | .copyCyclicComponent c => copyCyclicComponent c

end Postgres

namespace MySQL

def mergeLoad (t : TableRef) (rows : List (K × V)) (update : Option (V → V → V)) : List (Stmt K V) :=
  [.begin]++other ["DROP TEMPORARY TABLE","CREATE TEMPORARY TABLE","LOAD DATA staging"]++
    [.dml (.upsert t rows update),.commit]

def bulkLoad (mode : LoadMode) (t : TableRef) (rows : List (K × V)) (update : Option (V → V → V)) : List (Stmt K V) :=
  match mode with
  | .direct => [.dml (.copy t rows)]
  | .merge => mergeLoad t rows update

def markedBulkLoad (mode : LoadMode) (t : TableRef) (rows : List (K × V)) (update : Option (V → V → V)) : List (Stmt K V) :=
  [.mark true]++bulkLoad mode t rows update

def deleteRange (t : TableRef) (inRange : K → Bool) : List (Stmt K V) := [.dml (.delete t inRange)]

def beginApply (origin cyclic : Bool) : List (Stmt K V) :=
  [.begin]++(if origin then [.mark true] else [])++other (if cyclic then ["SET FOREIGN_KEY_CHECKS = 0"] else [])

def applyCall (origin : Bool) : ApplyCall K V → List (Stmt K V)
  | .stageUpsert t rows update =>
      other (["CREATE TEMPORARY TABLE","LOAD DATA staging"]++if origin then ["mark winners"] else [])++
        [.dml (.upsert t rows update)]++other (if origin then ["upsert register","observe clock"] else [])
  | .deleteAbsent t gone => [.dml (.delete t gone)]++other (if origin then ["upsert register","observe clock"] else [])
  | .fillCyclic _ => []

def commitApply (cyclic : Bool) : List (Stmt K V) :=
  other (if cyclic then ["SET FOREIGN_KEY_CHECKS = 1","verify orphans"] else [])++[.commit]

def applyPass (t : TableRef) (rows : List (K × V)) (update : Option (V → V → V)) (gone : K → Bool) : List (Stmt K V) :=
  [.begin]++other ["DROP TEMPORARY TABLE","CREATE TEMPORARY TABLE","LOAD DATA staging"]++
    [.dml (.upsert t rows update),.dml (.delete t gone),.commit]

def stmts (origin : Bool) : Operation K V → List (Stmt K V)
  | .applyTx cyclic calls => beginApply origin cyclic++calls.flatMap (applyCall origin)++commitApply cyclic
  | .applyPass t rows update gone => applyPass t rows update gone
  | .bulkLoad mode t rows update => if origin then markedBulkLoad mode t rows update else bulkLoad mode t rows update
  | .deleteRange t inRange => deleteRange t inRange
  | .copyCyclicComponent _ => []

/- What the pinned connection is left with, once BeginApply is through. -/
def cleanup (origin : Bool) : Operation K V → List (Stmt K V)
  | .applyTx cyclic _ => other (["DROP TEMPORARY TABLE"]++if cyclic then ["SET FOREIGN_KEY_CHECKS = 1"] else [])++
      if origin then [.mark false] else []
  | .bulkLoad .. => if origin then [.mark false] else []
  | _ => []

end MySQL

def stmts (d : Dialect) (origin : Bool) (o : Operation K V) : List (Stmt K V) :=
  match d with
  | .postgres => Postgres.stmts origin o
  | .mysql => MySQL.stmts origin o

def cleanup (d : Dialect) (origin : Bool) (o : Operation K V) : List (Stmt K V) :=
  match d with
  | .postgres => []
  | .mysql => MySQL.cleanup origin o

/- BeginApply of the MySQL sink fails here; it rolls back and does not clean up. -/
def starting (d : Dialect) (origin : Bool) (o : Operation K V) (n : Nat) : Bool :=
  match d, o with
  | .mysql, .applyTx cyclic _ => decide (n < (MySQL.beginApply origin cyclic : List (Stmt K V)).length)
  | _, _ => false

/- An operation that runs through, or fails after its first `n` statements. -/
def attempt (d : Dialect) (origin : Bool) (a : Operation K V × Option Nat) : List (Stmt K V) :=
  match a.2 with
  | none => stmts d origin a.1++cleanup d origin a.1
  | some n => (stmts d origin a.1).take n++[.rollback]++if starting d origin a.1 n then [] else cleanup d origin a.1

/- A cyclic BeginApply of the MySQL sink that fails at turning the FK checks off, with the
marker already set: the session keeps it. -/
def strands (d : Dialect) (a : Operation K V × Option Nat) : Bool :=
  match d, a with
  | .mysql, (.applyTx true _,some n) => decide (n = 2)
  | _, _ => false

def marks (d : Dialect) : Operation K V → Bool
  | .applyTx .. => true
  | .bulkLoad .. => true
  | .applyPass .. => d == .postgres
  | .deleteRange .. => false
  | .copyCyclicComponent _ => false

def fresh (db : Db K V) : Session K V := ⟨db,none,false⟩

abbrev Scope := Bool × Bool

def Session.scope (s : Session K V) : Scope := (s.saved.isSome,s.marker)

def scopeAfter (d : Dialect) (f : Scope) : Stmt K V → Scope
  | .begin => (true,f.2)
  | .commit => (false,kept d f.2)
  | .rollback => (false,kept d f.2)
  | .mark on => (f.1,if d = .mysql ∨ f.1 then on else f.2)
  | .other _ => f
  | .dml _ => f

def scopeRun (d : Dialect) (f : Scope) (ss : List (Stmt K V)) : Scope := ss.foldl (scopeAfter d) f

def Uniform (d : Dialect) (b : Bool) : Scope → List (Stmt K V) → Prop
  | _, [] => True
  | f, .dml _::rest => f.2 = b ∧ Uniform d b f rest
  | f, s::rest => Uniform d b (scopeAfter d f s) rest

section
variable {d : Dialect} {b : Bool} {f : Scope} {s t : Session K V}

theorem execScope {q} (ok : exec d s q = some t) : t.scope = scopeAfter d s.scope q := by
  cases q with
  | dml w =>
    obtain ⟨e,_,rfl⟩ := Option.map_eq_some_iff.mp ok
    rfl
  | _ =>
    cases ok
    rfl

theorem runScope {ss} (ok : Runs.run (exec d) s ss = some t) : t.scope = scopeRun d s.scope ss := by
  induction ss generalizing s with
  | nil => cases ok; rfl
  | cons q rest ih =>
    obtain ⟨m,first,last⟩ := Runs.runCons ok
    rw [ih last,execScope first]
    rfl

omit [DecidableEq K] in
theorem uniformCons {q : Stmt K V} {rest} (all : Uniform d b f (q::rest)) :
    (∀ w, q = .dml w → f.2 = b) ∧ Uniform d b (scopeAfter d f q) rest := by
  cases q with
  | dml w => exact ⟨fun _ _ => all.1,all.2⟩
  | _ => exact ⟨nofun,all⟩

omit [DecidableEq K] in
theorem uniformAppend {ss ts : List (Stmt K V)} :
    Uniform d b f (ss++ts) ↔ Uniform d b f ss ∧ Uniform d b (scopeRun d f ss) ts := by
  induction ss generalizing f with
  | nil => simp [Uniform,scopeRun]
  | cons q rest ih =>
    cases q <;> simp only [cons_append,Uniform,ih,scopeRun,foldl_cons,scopeAfter,and_assoc]

theorem uniformAt {ss : List (Stmt K V)} {n w} (all : Uniform d b s.scope ss) (here : ss[n]? = some (.dml w))
    (ok : Runs.run (exec d) s (ss.take n) = some t) : t.marker = b := by
  induction ss generalizing s n with
  | nil => cases here
  | cons q rest ih =>
    cases n with
    | zero =>
      cases here
      cases ok
      exact all.1
    | succ n =>
      obtain ⟨m,first,last⟩ := Runs.runCons ok
      refine ih ?_ here last
      rw [execScope first]
      exact (uniformCons all).2

section Plain
omit [DecidableEq K]

def Stmt.plain : Stmt K V → Bool
  | .other _ => true
  | .dml _ => true
  | _ => false

variable {ss : List (Stmt K V)}

theorem plainScope (all : ∀ q ∈ ss, q.plain = true) : scopeRun d f ss = f := by
  induction ss with
  | nil => rfl
  | cons q rest ih =>
    have head := all q mem_cons_self
    have tail := ih fun r mem => all r (mem_cons_of_mem _ mem)
    cases q <;> first | exact tail | cases head

theorem plainUniform (all : ∀ q ∈ ss, q.plain = true) (marker : f.2 = b) : Uniform d b f ss := by
  induction ss with
  | nil => trivial
  | cons q rest ih =>
    have head := all q mem_cons_self
    have tail := ih fun r mem => all r (mem_cons_of_mem _ mem)
    cases q with
    | other sql => exact tail
    | dml w => exact ⟨marker,tail⟩
    | _ => cases head

theorem otherPlain (sql) : ∀ q ∈ (other sql : List (Stmt K V)), q.plain = true := by
  intro q mem
  obtain ⟨_,_,rfl⟩ := mem_map.mp mem
  rfl

theorem plainAppend {ts : List (Stmt K V)} (left : ∀ q ∈ ss, q.plain = true) (right : ∀ q ∈ ts, q.plain = true) :
    ∀ q ∈ ss++ts, q.plain = true := fun q mem => (mem_append.mp mem).elim (left q) (right q)

theorem dmlPlain (w : Write K V) : ∀ q ∈ [Stmt.dml w], q.plain = true := by
  intro q mem
  cases mem_singleton.mp mem
  rfl

theorem callPlain (c : ApplyCall K V) : ∀ q ∈ Postgres.applyCall true c, q.plain = true := by
  cases c with
  | stageUpsert t rows update => exact plainAppend (plainAppend (otherPlain _) (dmlPlain _)) (otherPlain _)
  | deleteAbsent t gone => exact plainAppend (dmlPlain _) (otherPlain _)
  | fillCyclic sets =>
    intro q mem
    obtain ⟨_,_,rfl⟩ := mem_map.mp mem
    rfl

theorem mysqlCallPlain (c : ApplyCall K V) : ∀ q ∈ MySQL.applyCall true c, q.plain = true := by
  cases c with
  | stageUpsert t rows update => exact plainAppend (plainAppend (otherPlain _) (dmlPlain _)) (otherPlain _)
  | deleteAbsent t gone => exact plainAppend (dmlPlain _) (otherPlain _)
  | fillCyclic sets => exact fun q mem => absurd mem not_mem_nil

theorem cyclicRowsPlain (c : CyclicLoad K V) : ∀ q ∈ Postgres.cyclicRows c, q.plain = true := by
  cases c with
  | copy t rows => exact dmlPlain _
  | range t rows update => exact plainAppend (otherPlain _) (dmlPlain _)
  | staged t chunks update =>
    refine plainAppend (otherPlain _) fun q mem => ?_
    obtain ⟨_,_,rfl⟩ := mem_map.mp mem
    rfl

theorem flatMapPlain {α : Type*} {l : List α} {g : α → List (Stmt K V)} (each : ∀ a, ∀ q ∈ g a, q.plain = true) :
    ∀ q ∈ l.flatMap g, q.plain = true := by
  intro q mem
  obtain ⟨a,_,mem⟩ := mem_flatMap.mp mem
  exact each a q mem

structure Closed (d : Dialect) (b : Bool) (ss : List (Stmt K V)) : Prop where
  uniform : Uniform d b (false,false) ss
  ends : scopeRun d (false,false) ss = (false,false)

theorem scopeAppend {ts : List (Stmt K V)} : scopeRun d f (ss++ts) = scopeRun d (scopeRun d f ss) ts :=
  foldl_append

theorem closedAppend {ts : List (Stmt K V)} (left : Closed d b ss) (right : Closed d b ts) : Closed d b (ss++ts) := by
  refine ⟨uniformAppend.mpr ⟨left.uniform,?_⟩,?_⟩
  · rw [left.ends]
    exact right.uniform
  · rw [scopeAppend,left.ends,right.ends]

theorem closedFlatMap {α : Type*} {l : List α} {g : α → List (Stmt K V)} (each : ∀ a, Closed d b (g a)) :
    Closed d b (l.flatMap g) := by
  induction l with
  | nil => exact ⟨trivial,rfl⟩
  | cons a l ih => exact closedAppend (each a) ih

section
variable (all : ∀ q ∈ ss, q.plain = true)
include all

theorem closedPlain : Closed d false ss :=
  ⟨plainUniform all rfl,plainScope all⟩

theorem closedBetween {opening closing : List (Stmt K V)}
    (opens : Uniform d b (false,false) opening) (marker : (scopeRun d (false,false) opening).2 = b)
    (closes : Uniform d b (scopeRun d (false,false) opening) closing)
    (ends : scopeRun d (scopeRun d (false,false) opening) closing = (false,false)) :
    Closed d b (opening++ss++closing) := by
  refine ⟨uniformAppend.mpr ⟨uniformAppend.mpr ⟨opens,plainUniform all marker⟩,?_⟩,?_⟩
  · rw [scopeAppend,plainScope all]
    exact closes
  · rw [scopeAppend,scopeAppend,plainScope all,ends]

theorem closedTx : Closed d false ([.begin]++ss++[.commit]) := by
  refine closedBetween all trivial rfl trivial ?_
  cases d <;> rfl

end

theorem cyclicLoadClosed (c : CyclicLoad K V) : Closed .postgres false (Postgres.cyclicLoad c) := by
  cases c with
  | copy t rows => exact closedPlain (dmlPlain _)
  | _ => exact closedTx (cyclicRowsPlain _)

theorem postgresClosed (o : Operation K V) : Closed .postgres (marks .postgres o) (Postgres.stmts true o) := by
  cases o with
  | applyTx cyclic calls => exact closedBetween (flatMapPlain callPlain) trivial rfl trivial rfl
  | applyPass t rows update gone => exact ⟨⟨rfl,rfl,trivial⟩,rfl⟩
  | bulkLoad mode t rows update => cases mode <;> exact ⟨⟨rfl,trivial⟩,rfl⟩
  | deleteRange t inRange => exact closedPlain (dmlPlain _)
  | copyCyclicComponent c =>
    cases c with
    | deferred loads => exact closedBetween (flatMapPlain cyclicRowsPlain) trivial rfl trivial rfl
    | nullFill loads fills =>
      exact closedAppend (closedFlatMap cyclicLoadClosed) (closedFlatMap fun p => ⟨⟨rfl,trivial⟩,rfl⟩)

theorem mysqlClosed (o : Operation K V) : Closed .mysql (marks .mysql o) (MySQL.stmts true o++MySQL.cleanup true o) := by
  cases o with
  | applyTx cyclic calls =>
    rw [MySQL.stmts,append_assoc]
    cases cyclic <;> exact closedBetween (flatMapPlain mysqlCallPlain) trivial rfl trivial rfl
  | applyPass t rows update gone => exact ⟨⟨rfl,rfl,trivial⟩,rfl⟩
  | bulkLoad mode t rows update => cases mode <;> exact ⟨⟨rfl,trivial⟩,rfl⟩
  | deleteRange t inRange => exact closedPlain (dmlPlain _)
  | copyCyclicComponent c => exact ⟨trivial,rfl⟩

theorem stmtsUniform (d : Dialect) (o : Operation K V) : Uniform d (marks d o) (false,false) (stmts d true o) := by
  cases d with
  | postgres => exact (postgresClosed o).uniform
  | mysql => exact (uniformAppend.mp (mysqlClosed o).uniform).1

theorem unmarkedScope (none : ∀ q ∈ ss, q ≠ .mark true) (unset : f.2 = false) : (scopeRun d f ss).2 = false := by
  induction ss generalizing f with
  | nil => exact unset
  | cons q rest ih =>
    refine ih (fun r mem => none r (mem_cons_of_mem _ mem)) ?_
    have head := none q mem_cons_self
    cases q with
    | mark on =>
      cases on with
      | true => exact absurd rfl head
      | false => simp [scopeAfter,unset]
    | _ => cases d <;> simp [scopeAfter,kept,unset]

theorem mysqlUnmarked {o : Operation K V} (unmarked : marks .mysql o = false) :
    ∀ q ∈ MySQL.stmts true o, q ≠ .mark true := by
  cases o with
  | applyPass t rows update gone => simp [MySQL.stmts,MySQL.applyPass,other]
  | deleteRange t inRange => simp [MySQL.stmts,MySQL.deleteRange]
  | copyCyclicComponent c => simp [MySQL.stmts]
  | _ => cases unmarked

theorem beginEnds {cyclic : Bool} {calls : List (ApplyCall K V)} {n : Nat}
    (unset : strands .mysql (.applyTx cyclic calls,some n) = false)
    (reached : scopeRun .mysql (false,false) ((stmts .mysql true (.applyTx cyclic calls)).take n) = f) :
    scopeRun .mysql (scopeRun .mysql f [(.rollback : Stmt K V)])
      (if starting .mysql true (.applyTx cyclic calls) n then [] else cleanup .mysql true (.applyTx cyclic calls)) = (false,false) := by
  by_cases early : starting .mysql true (.applyTx cyclic calls) n = true
  · rw [if_pos early]
    have few : n < (MySQL.beginApply true cyclic : List (Stmt K V)).length := of_decide_eq_true early
    -- two statements are through only where the checks are switched
    have one : n = 0 ∨ n = 1 := by
      cases cyclic with
      | false =>
        have bound : n < 2 := few
        omega
      | true =>
        have bound : n < 3 := few
        have other : n ≠ 2 := of_decide_eq_false unset
        omega
    rw [←reached]
    rcases one with rfl | rfl
    · rfl
    · cases cyclic <;> rfl
  · rw [if_neg early]
    cases cyclic <;> rfl

theorem attemptEnds (d : Dialect) {a : Operation K V × Option Nat} (unset : strands d a = false) :
    scopeRun d (false,false) (attempt d true a) = (false,false) := by
  obtain ⟨o,stop⟩ := a
  cases d with
  | postgres =>
    cases stop with
    | none => simpa [attempt,cleanup,stmts] using (postgresClosed o).ends
    | some n =>
      simp [attempt,cleanup,scopeRun,scopeAfter,kept]
  | mysql =>
    cases stop with
    | none => exact (mysqlClosed o).ends
    | some n =>
      simp only [attempt,scopeAppend]
      generalize reached : scopeRun .mysql (false,false) ((stmts .mysql true o).take n) = f
      cases unmarked : marks .mysql o with
      | false =>
        have off : f.2 = false := by
          rw [←reached]
          exact unmarkedScope (fun q mem => mysqlUnmarked unmarked q (mem_of_mem_take mem)) rfl
        cases o with
        | applyTx => cases unmarked
        | bulkLoad => cases unmarked
        | _ => simp [starting,cleanup,MySQL.cleanup,scopeRun,scopeAfter,kept,off]
      | true =>
        cases o with
        | applyTx cyclic calls => exact beginEnds unset reached
        | bulkLoad => rfl
        | _ => cases unmarked

theorem historyEnds {history : List (Operation K V × Option Nat)} (unset : ∀ a ∈ history, strands d a = false) :
    scopeRun d (false,false) (history.flatMap (attempt d true)) = (false,false) := by
  induction history with
  | nil => rfl
  | cons a rest ih =>
    rw [flatMap_cons,scopeAppend,attemptEnds d (unset a mem_cons_self),ih fun b mem => unset b (mem_cons_of_mem _ mem)]

end Plain

theorem execQuiet {w} (ok : exec d s (.dml w) = some t) : (t.db.deltas = s.db.deltas ∧ t.db.stamps = s.db.stamps) ↔
      (s.marker = true ∨ w.touches (s.db.rows w.table) = false) := by
  obtain ⟨e,effect,rfl⟩ := Option.map_eq_some_iff.mp ok
  have touched : w.touches (s.db.rows w.table) = !e.2.isEmpty := by rw [Write.touches,effect]; rfl
  rw [touched]
  cases marked : s.marker <;> simp [triggerBody]

end

theorem loopSuppressedIff {d : Dialect} {db : Db K V} {history : List (Operation K V × Option Nat)}
    {o : Operation K V} {n w s t} (unset : ∀ a ∈ history, strands d a = false)
    (reached : Runs.run (exec d) (fresh db) (history.flatMap (attempt d true)++(stmts d true o).take n) = some s)
    (issued : (stmts d true o)[n]? = some (.dml w)) (ok : exec d s (.dml w) = some t) :
    (t.db.deltas = s.db.deltas ∧ t.db.stamps = s.db.stamps) ↔
      (marks d o = true ∨ w.touches (s.db.rows w.table) = false) := by
  obtain ⟨m,earlier,rest⟩ := Runs.runSplit reached
  have idle : m.scope = (false,false) := (runScope earlier).trans (historyEnds unset)
  have marker : s.marker = marks d o := uniformAt (idle ▸ stmtsUniform d o) issued rest
  rw [execQuiet ok,marker]

def notes : TableRef := ⟨"public","notes"⟩

def oneRow : Db Nat Nat := ⟨fun t => if t = notes then [(1,10)] else [],[],[]⟩

def clearNotes : Operation Nat Nat := .deleteRange notes fun _ => true

/- The load of a reseed, after its clear. -/
theorem loopSuppressedLoad :
    ∃ s t, Runs.run (exec .postgres) (fresh oneRow) ([(clearNotes,none)].flatMap (attempt .postgres true)++
        (stmts .postgres true (.bulkLoad .direct notes [(1,11)] none)).take 2) = some s ∧
      exec .postgres s (.dml (.copy notes [(1,11)])) = some t ∧ t.db.rows notes = [(1,11)] ∧
      t.db.deltas = s.db.deltas ∧ t.db.stamps = s.db.stamps := by
  have reached := (rfl : Runs.run (exec .postgres) (fresh oneRow) ([(clearNotes,none)].flatMap (attempt .postgres true)++
    (stmts .postgres true (.bulkLoad .direct notes [(1,11)] none)).take 2) = some _)
  exact ⟨_,_,reached,rfl,rfl,(loopSuppressedIff (by simp [strands]) reached rfl rfl).mpr (.inl rfl)⟩

theorem unmarkedWritesCaptured : (∀ d, ∃ t, Runs.run (exec d) (fresh oneRow) (attempt d true (clearNotes,none)) = some t ∧
      t.db.deltas = [(notes,.delete,1)] ∧ t.db.stamps = [(notes,1,true)]) ∧
    (∃ t, Runs.run (exec .postgres) (fresh oneRow)
        (attempt .postgres true (.copyCyclicComponent (.deferred [.staged notes [[(2,20)]] none]),none)) = some t ∧
      t.db.deltas = [(notes,.insert,2)] ∧ t.db.stamps = [(notes,2,false)]) ∧
    ∃ t, Runs.run (exec .postgres) (fresh oneRow) (attempt .postgres true (.copyCyclicComponent
        (.nullFill [.range notes [(2,20)] none] [(notes,fun k => if k = 2 then some (· + 1) else none)]),none)) = some t ∧
      t.db.deltas = [(notes,.insert,2),(notes,.update,2)] ∧ t.db.stamps = [(notes,2,false),(notes,2,false)] := by
  refine ⟨fun d => ?_,⟨_,rfl,by decide,by decide⟩,⟨_,rfl,by decide,by decide⟩⟩
  cases d <;> exact ⟨_,rfl,by decide,by decide⟩

end Replicare.SinkMarker
