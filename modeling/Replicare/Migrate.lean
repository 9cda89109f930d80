import Mathlib.Data.List.Sort
import Mathlib.Data.List.Infix
import Replicare.Engine

/-! The schema migrations: a set of numbered migrations is validated, those above the recorded
version are run one after the other, each with the record of its version, in a transaction of
Postgres or statement by statement on MySQL. -/
namespace Replicare.Migrate
open Engine List

structure Migration where
  version : Int
  name : String
  statements : List String

structure MigrationSet where
  name : String
  versionTable : String
  migrations : List Migration

inductive Refusal where
  | versionTable
  | version (want got : Int) (name : String)
  | unnamed (version : Int)
  | empty (version : Int) (name : String)

def sorted (s : MigrationSet) : List Migration := s.migrations.insertionSort fun a b => a.version ≤ b.version

def validateFrom : Nat → List Migration → Except Refusal Unit
  | _, [] => .ok ()
  | i, m::ms =>
    if m.version ≠ i+1 then .error (.version (i+1) m.version m.name)
    else if m.name = "" then .error (.unnamed m.version)
    else if m.statements = [] then .error (.empty m.version m.name)
    else validateFrom (i+1) ms

def validate (s : MigrationSet) : Except Refusal Unit :=
  if s.versionTable = "" then .error .versionTable else validateFrom 0 (sorted s)

def pending (s : MigrationSet) (current : Int) : List Migration := (sorted s).filter fun m => current < m.version

structure Database (σ : Type*) where
  schema : σ
  rows : List (Int×String)
  log : List String

def currentVersion : List (Int×String) → Int
  | [] => 0
  | r::rows => rows.foldl (fun v r => max v r.1) r.1

structure Fate where
  left : Option Nat
  late : Bool

variable {σ : Type*} (exec : String → σ → σ)

abbrev Session (σ : Type*) := Database σ×Option Nat

def command (late : Bool) (f : Database σ → Option (Database σ)) (s : Session σ) : Except (Database σ) (Session σ) :=
  match s.2 with
  | some 0 => .error (if late then (f s.1).getD s.1 else s.1)
  | left =>
    match f s.1 with
    | none => .error s.1
    | some db => .ok (db,left.map Nat.pred)

def execute (statement : String) (db : Database σ) : Database σ :=
  { db with schema := exec statement db.schema, log := db.log++[statement] }

def recordVersion (dialect : Dialect) (m : Migration) (db : Database σ) : Option (Database σ) :=
  if m.version ∈ db.rows.map Prod.fst then
    match dialect with
    | .postgres => none
    | .mysql => some { db with rows := db.rows.map fun r => if r.1 = m.version then (r.1,m.name) else r }
  else some { db with rows := db.rows++[(m.version,m.name)] }

def statementsThenVersion (dialect : Dialect) (late : Bool) (m : Migration) (s : Session σ) :
    Except (Database σ) (Session σ) := do
  let s ← m.statements.foldlM (fun s statement => command late (fun db => some (execute exec statement db)) s) s
  command late (recordVersion dialect m) s

def inTx (dialect : Dialect) (late : Bool) (s : Session σ) (m : Migration) : Except (Database σ) (Session σ) :=
  match dialect with
  | .mysql => statementsThenVersion exec .mysql late m s
  | .postgres =>
    -- an error before the commit rolls back, at the commit either may be the case
    match (do statementsThenVersion exec .postgres late m (← command late some s)) with
    | .error _ => .error s.1
    | .ok t => if t.2 = some 0 then .error (if late then t.1 else s.1) else .ok (t.1,t.2.map Nat.pred)

def prepare (late : Bool) (s : Session σ) : Except (Database σ) (Session σ) := do
  let s ← command late some s
  let s ← command late some s
  command late some s

def apply (dialect : Dialect) (set : MigrationSet) (fate : Fate) (db : Database σ) : Except (Database σ) (Database σ) :=
  match validate set with
  | .error _ => .error db
  | .ok _ => do
    let s ← prepare fate.late (db,fate.left)
    let s ← (pending set (currentVersion s.1.rows)).foldlM (inTx exec dialect fate.late) s
    .ok s.1

def attempt (dialect : Dialect) (set : MigrationSet) (db : Database σ) (fate : Fate) : Database σ :=
  match apply exec dialect set fate db with
  | .ok db => db
  | .error db => db

def attempts (dialect : Dialect) (set : MigrationSet) (db : Database σ) (fates : List Fate) : Database σ :=
  fates.foldl (attempt exec dialect set) db

def ran (statements : List String) (db : Database σ) : Database σ :=
  statements.foldl (fun db statement => execute exec statement db) db

def finish (db : Database σ) (m : Migration) : Database σ :=
  { ran exec m.statements db with rows := db.rows++[(m.version,m.name)] }

def completed (set : MigrationSet) (db : Database σ) : Database σ :=
  (pending set (currentVersion db.rows)).foldl (finish exec) db

def Rerunnable (m : Migration) : Prop :=
  ∀ part, part <+: m.statements → ∀ x, m.statements.foldl (fun x st => exec st x) (part.foldl (fun x st => exec st x) x) =
    m.statements.foldl (fun x st => exec st x) x

def Cut (dialect : Dialect) (m : Migration) (before after : Database σ) : Prop :=
  after = finish exec before m ∨ ∃ part, part <+: m.statements ∧ (dialect = .postgres → part = []) ∧
    after = ran exec part before

/- What holds of the result of a call, and of what its failure leaves. -/
structure Ends {ε α : Type*} (r : Except ε α) (good : α → Prop) (bad : ε → Prop) : Prop where
  ok : ∀ t, r = .ok t → good t
  error : ∀ left, r = .error left → bad left

section Ends
variable {ε : Type*} {α β : Type _} {r : Except ε α} {good good' : α → Prop} {bad bad' : ε → Prop}

theorem Ends.done {t} (holds : good t) : Ends (.ok t : Except ε α) good bad :=
  ⟨fun _ same => Except.ok.inj same ▸ holds,fun _ failed => (by cases failed)⟩

theorem Ends.failed {left} (holds : bad left) : Ends (.error left : Except ε α) good bad :=
  ⟨fun _ same => (by cases same),fun _ failed => Except.error.inj failed ▸ holds⟩

theorem Ends.imp (ends : Ends r good bad) (one : ∀ t, good t → good' t) (two : ∀ left, bad left → bad' left) :
    Ends r good' bad' :=
  ⟨fun t same => one t (ends.ok t same),fun left failed => two left (ends.error left failed)⟩

theorem Ends.bind {f : α → Except ε β} {next : β → Prop} (ends : Ends r good bad)
    (rest : ∀ t, good t → Ends (f t) next bad) : Ends (r >>= f) next bad := by
  cases r with
  | error left => exact .failed (ends.error left rfl)
  | ok t => exact rest t (ends.ok t rfl)

end Ends

section Ran
variable {exec}

@[simp] theorem ranSchema (statements) (db) :
    (ran exec statements db).schema = statements.foldl (fun x st => exec st x) db.schema := by
  induction statements generalizing db with
  | nil => rfl
  | cons st statements ih => exact ih (execute exec st db)

@[simp] theorem ranRows (statements) (db) : (ran exec statements db).rows = db.rows := by
  induction statements generalizing db with
  | nil => rfl
  | cons st statements ih => exact ih (execute exec st db)

@[simp] theorem ranLog (statements) (db) : (ran exec statements db).log = db.log++statements := by
  induction statements generalizing db with
  | nil => exact (append_nil _).symm
  | cons st statements ih =>
    refine (ih (execute exec st db)).trans ?_
    rw [execute,append_assoc,singleton_append]

@[simp] theorem finishRows (m) (db) : (finish exec db m).rows = db.rows++[(m.version,m.name)] := rfl

theorem commandEnds (late f) (s : Session σ) :
    Ends (command late f s) (fun t => f s.1 = some t.1) fun db => db = s.1 ∨ f s.1 = some db := by
  obtain ⟨db,left⟩ := s
  simp only [command]
  split
  · refine .failed ?_
    cases late with
    | false => exact .inl rfl
    | true =>
      cases made : f db with
      | none => exact .inl rfl
      | some after => exact .inr rfl
  · cases made : f db with
    | none => exact .failed (.inl rfl)
    | some after => exact .done rfl

theorem prepareEnds (late) (s : Session σ) : Ends (prepare late s) (fun t => t.1 = s.1) fun db => db = s.1 := by
  have one : ∀ u : Session σ, u.1 = s.1 → Ends (command late some u) (fun t => t.1 = s.1) fun db => db = s.1 := by
    intro u same
    refine (commandEnds late some u).imp (fun t took => ?_) fun db left => ?_
    · exact (Option.some.inj took).symm.trans same
    · rcases left with rfl | took
      · exact same
      · exact (Option.some.inj took).symm.trans same
  exact (one s rfl).bind fun u same => (one u same).bind fun v same => one v same

theorem statementsEnds (late statements) (s : Session σ) :
    Ends (statements.foldlM (fun s statement => command late (fun db => some (execute exec statement db)) s) s)
      (fun t => t.1 = ran exec statements s.1) fun db => ∃ part, part <+: statements ∧ db = ran exec part s.1 := by
  induction statements generalizing s with
  | nil => exact .done rfl
  | cons st statements ih =>
    rw [foldlM_cons]
    refine ((commandEnds late _ s).imp (fun _ => id) fun db left => ?_).bind fun u took => ?_
    · rcases left with none | took
      · exact ⟨[], nil_prefix,none⟩
      · exact ⟨[st],⟨statements,rfl⟩,(Option.some.inj took).symm⟩
    · have next : execute exec st s.1 = u.1 := Option.some.inj took
      refine (ih u).imp (fun t all => ?_) fun db => ?_
      · rw [all,←next]
        rfl
      · rintro ⟨part,inside,rfl⟩
        refine ⟨st::part,cons_prefix_cons.mpr ⟨rfl,inside⟩,?_⟩
        rw [←next]
        rfl

theorem recordFresh {dialect m} {db : Database σ} (fresh : ∀ r ∈ db.rows, r.1 < m.version) :
    recordVersion dialect m db = some { db with rows := db.rows++[(m.version,m.name)] } := by
  refine if_neg fun mem => ?_
  obtain ⟨r,row,same⟩ := mem_map.mp mem
  exact absurd same (fresh r row).ne

theorem bodyEnds {dialect late m} {s : Session σ} (fresh : ∀ r ∈ s.1.rows, r.1 < m.version) :
    Ends (statementsThenVersion exec dialect late m s) (fun t => t.1 = finish exec s.1 m)
      fun db => db = finish exec s.1 m ∨ ∃ part, part <+: m.statements ∧ db = ran exec part s.1 := by
  refine ((statementsEnds late m.statements s).imp (fun _ => id) fun db => Or.inr).bind fun u all => ?_
  have record : recordVersion dialect m u.1 = some (finish exec s.1 m) := by
    rw [all,recordFresh (by rwa [ranRows]),ranRows]
    rfl
  refine (commandEnds late _ u).imp (fun t took => ?_) fun db left => ?_
  · exact Option.some.inj (took.symm.trans record)
  · rcases left with none | took
    · exact .inr ⟨m.statements,prefix_rfl,none.trans all⟩
    · exact .inl (Option.some.inj (took.symm.trans record))

theorem txEnds {dialect late m} {s : Session σ} (fresh : ∀ r ∈ s.1.rows, r.1 < m.version) :
    Ends (inTx exec dialect late s m) (fun t => t.1 = finish exec s.1 m) (Cut exec dialect m s.1) := by
  cases dialect with
  | mysql =>
    refine (bodyEnds fresh).imp (fun _ => id) fun db left => ?_
    rcases left with whole | ⟨part,inside,same⟩
    · exact .inl whole
    · exact .inr ⟨part,inside,by simp,same⟩
  | postgres =>
    have undone : Cut exec .postgres m s.1 s.1 := .inr ⟨[], nil_prefix,fun _ => rfl,rfl⟩
    have body : Ends (do statementsThenVersion exec .postgres late m (← command late some s))
        (fun t => t.1 = finish exec s.1 m) fun _ => True := by
      refine ((commandEnds late some s).imp (fun _ => id) fun _ _ => trivial).bind fun u took => ?_
      have same : s.1 = u.1 := Option.some.inj took
      rw [same] at fresh ⊢
      exact (bodyEnds fresh).imp (fun _ => id) fun _ _ => trivial
    simp only [inTx]
    split
    · exact .failed undone
    · rename_i t ran
      have done := body.ok t ran
      split
      · refine .failed ?_
        split
        · exact .inl done
        · exact undone
      · exact .done done

theorem bodyWhole {dialect m} {db : Database σ} (late : Bool) (fresh : ∀ r ∈ db.rows, r.1 < m.version) :
    statementsThenVersion exec dialect late m (db,none) = .ok (finish exec db m,none) := by
  have all : ∀ (statements : List String) (db : Database σ),
      statements.foldlM (fun s statement => command late (fun db => some (execute exec statement db)) s) (db,none) =
        Except.ok (ran exec statements db,none) := by
    intro statements
    induction statements with
    | nil => exact fun db => rfl
    | cons st statements ih => exact fun db => ih (execute exec st db)
  have record : recordVersion dialect m (ran exec m.statements db) = some (finish exec db m) := by
    rw [recordFresh (by rwa [ranRows]),ranRows]
    rfl
  simp only [statementsThenVersion,all,bind,Except.bind]
  simp only [command,record]
  rfl

theorem txWhole {dialect m} {db} (late) (fresh : ∀ r ∈ db.rows, r.1 < m.version) :
    inTx exec dialect late (db,none) m = .ok (finish exec db m,none) := by
  cases dialect with
  | mysql => exact bodyWhole late fresh
  | postgres =>
    have begun : command late some (db,none) = .ok (db,none) := rfl
    simp only [inTx,begun,bind,Except.bind,bodyWhole late fresh]
    rfl

theorem finishedRows (ms : List Migration) (db : Database σ) :
    (ms.foldl (finish exec) db).rows = db.rows++ms.map fun m => (m.version,m.name) := by
  induction ms generalizing db with
  | nil => simp
  | cons m ms ih => simp [ih]

end Ran

section Order
variable {s : MigrationSet}

theorem validFrom {ms i u} (ok : validateFrom i ms = .ok u) : (∀ m ∈ ms, (i : Int) < m.version) ∧
    ms.Pairwise fun a b => a.version < b.version := by
  induction ms generalizing i with
  | nil => exact ⟨by simp,.nil⟩
  | cons m ms ih =>
    rw [validateFrom] at ok
    split at ok
    · cases ok
    · rename_i version
      split at ok
      · cases ok
      · split at ok
        · cases ok
        · have rest := ih ok
          have here : m.version = i+1 := not_not.mp version
          refine ⟨fun n mem => ?_,pairwise_cons.mpr ⟨fun n mem => ?_,rest.2⟩⟩
          · rcases mem_cons.mp mem with rfl | mem
            · omega
            · have later := rest.1 n mem
              push_cast at later
              omega
          · have later := rest.1 n mem
            push_cast at later
            omega

theorem pendingOrdered (valid : validate s = .ok ()) (current) : (pending s current).Pairwise fun a b =>
    a.version < b.version := by
  rw [validate] at valid
  split at valid
  · cases valid
  · exact (validFrom valid).2.filter _

theorem foldMaxBelow {rows : List (Int×String)} {v a : Int} (below : ∀ r ∈ rows, r.1 < v) (start : a < v) :
    rows.foldl (fun v r => max v r.1) a < v := by
  induction rows generalizing a with
  | nil => exact start
  | cons r rows ih => exact ih (fun q mem => below q (mem_cons_of_mem r mem)) (max_lt start (below r mem_cons_self))

theorem foldMaxLe (rows : List (Int×String)) (a : Int) :
    a ≤ rows.foldl (fun v r => max v r.1) a ∧ ∀ r ∈ rows, r.1 ≤ rows.foldl (fun v r => max v r.1) a := by
  induction rows generalizing a with
  | nil => exact ⟨le_refl a,by simp⟩
  | cons r rows ih =>
    have rest := ih (max a r.1)
    refine ⟨(le_max_left a r.1).trans rest.1,fun q mem => ?_⟩
    rcases mem_cons.mp mem with rfl | mem
    · exact (le_max_right a _).trans rest.1
    · exact rest.2 q mem

theorem rowLe {rows r} (mem : r ∈ rows) : r.1 ≤ currentVersion rows := by
  cases rows with
  | nil => cases mem
  | cons q rows =>
    have bound := foldMaxLe rows q.1
    rcases mem_cons.mp mem with rfl | mem
    · exact bound.1
    · exact bound.2 r mem

theorem currentSnoc {rows v name} (below : ∀ r ∈ rows, r.1 < v) : currentVersion (rows++[(v,name)]) = v := by
  cases rows with
  | nil => rfl
  | cons q rows =>
    have less := foldMaxBelow (fun r mem => below r (mem_cons_of_mem q mem)) (below q mem_cons_self)
    rw [cons_append,currentVersion,foldl_append]
    exact max_eq_right less.le

end Order

section Progress
variable {exec} {s : MigrationSet} {db₀ db : Database σ} {dialect : Dialect} {finished todo : List Migration}

structure Progress (exec : String → σ → σ) (dialect : Dialect) (s : MigrationSet) (db₀ : Database σ)
    (finished todo : List Migration) (db : Database σ) : Prop where
  split : pending s (currentVersion db₀.rows) = finished++todo
  rows : db.rows = db₀.rows++finished.map fun m => (m.version,m.name)
  executed : ∀ m ∈ finished, m.statements <:+: db.log
  atomic : dialect = .postgres → db = finished.foldl (finish exec) db₀
  onward : (∀ m ∈ s.migrations, Rerunnable exec m) → (todo.foldl (finish exec) db).schema = (completed exec s db₀).schema

theorem finishSchema {a b : Database σ} (ms : List Migration) (same : a.schema = b.schema) :
    (ms.foldl (finish exec) a).schema = (ms.foldl (finish exec) b).schema := by
  induction ms generalizing a b with
  | nil => exact same
  | cons m ms ih =>
    refine ih ?_
    simp [finish,same]

theorem progressStart : Progress exec dialect s db₀ [] (pending s (currentVersion db₀.rows)) db₀ :=
  ⟨rfl,by simp,by simp,fun _ => rfl,fun _ => rfl⟩

theorem progressFinish {m} (here : Progress exec dialect s db₀ finished (m::todo) db) :
    Progress exec dialect s db₀ (finished++[m]) todo (finish exec db m) := by
  refine ⟨by rw [here.split]; simp,by simp [here.rows],?_,fun pg => ?_,here.onward⟩
  · intro n mem
    have log : (finish exec db m).log = db.log++m.statements := ranLog m.statements db
    rw [log]
    rcases mem_append.mp mem with old | new
    · exact (here.executed n old).trans (prefix_append _ _).isInfix
    · rw [mem_singleton.mp new]
      exact (suffix_append _ _).isInfix
  · rw [foldl_append,←here.atomic pg]
    rfl

theorem progressPart {m part} (here : Progress exec dialect s db₀ finished (m::todo) db) (inside : part <+: m.statements)
    (none : dialect = .postgres → part = []) : Progress exec dialect s db₀ finished (m::todo) (ran exec part db) := by
  refine ⟨here.split,by rw [ranRows,here.rows],fun n mem => ?_,fun pg => ?_,fun rerun => ?_⟩
  · rw [ranLog]
    exact (here.executed n mem).trans (prefix_append _ _).isInfix
  · rw [none pg]
    exact here.atomic pg
  · have known : m ∈ s.migrations := by
      have listed : m ∈ pending s (currentVersion db₀.rows) := by simp [here.split]
      exact (mem_insertionSort _).mp (mem_of_mem_filter listed)
    rw [←here.onward rerun]
    refine finishSchema todo ?_
    simpa [finish] using rerun m known part inside db.schema

variable (valid : validate s = .ok ())
include valid

theorem rowsBelow {rows m front rest} (split : pending s (currentVersion rows) = front++m::rest) :
    ∀ r ∈ rows++front.map fun m => (m.version,m.name), r.1 < m.version := by
  intro r mem
  have ordered := pendingOrdered valid (currentVersion rows)
  rw [split] at ordered
  rcases mem_append.mp mem with old | new
  · have above : m ∈ pending s (currentVersion rows) := by simp [split]
    exact (rowLe old).trans_lt (by simpa using (mem_filter.mp above).2)
  · obtain ⟨n,before,rfl⟩ := mem_map.mp new
    exact (pairwise_append.mp ordered).2.2 n before m mem_cons_self

theorem recordedLast {rows front l rest} (split : pending s (currentVersion rows) = front++l::rest) :
    currentVersion (rows++(front++[l]).map fun m => (m.version,m.name)) = l.version := by
  rw [map_append,←append_assoc]
  exact currentSnoc (rowsBelow valid split)

section
variable (here : Progress exec dialect s db₀ finished todo db)
include here

theorem loopProgress {late} (left : Option Nat) :
    Ends (todo.foldlM (inTx exec dialect late) (db,left)) (fun t => Progress exec dialect s db₀ (finished++todo) [] t.1)
      fun after => ∃ finished todo, Progress exec dialect s db₀ finished todo after := by
  induction todo generalizing finished db left with
  | nil => exact .done (by rwa [append_nil])
  | cons m todo ih =>
    rw [foldlM_cons]
    have fresh : ∀ r ∈ db.rows, r.1 < m.version := here.rows ▸ rowsBelow valid here.split
    refine ((txEnds fresh).imp (fun _ => id) fun after cut => ?_).bind fun u next => ?_
    · rcases cut with rfl | ⟨part,inside,none,rfl⟩
      · exact ⟨_,_,progressFinish here⟩
      · exact ⟨_,_,progressPart here inside none⟩
    · have rest := ih (next ▸ progressFinish here) u.2
      rwa [append_assoc,singleton_append] at rest

theorem progressPending : pending s (currentVersion db.rows) = todo := by
  rcases eq_nil_or_concat finished with rfl | ⟨front,l,rfl⟩
  · have same : db.rows = db₀.rows := by simpa using here.rows
    rw [same,here.split,nil_append]
  · have split : pending s (currentVersion db₀.rows) = front++l::todo := by simpa using here.split
    have ordered := pendingOrdered valid (currentVersion db₀.rows)
    have above : currentVersion db₀.rows < l.version := by
      have mem : l ∈ pending s (currentVersion db₀.rows) := by simp [split]
      simpa using (mem_filter.mp mem).2
    have twice : pending s l.version = (pending s (currentVersion db₀.rows)).filter fun m => l.version < m.version := by
      rw [pending,pending,filter_filter]
      refine filter_congr fun m _ => ?_
      have reach : l.version < m.version → currentVersion db₀.rows < m.version := above.trans
      simpa using reach
    rw [split] at ordered
    obtain ⟨_,tail,across⟩ := pairwise_append.mp ordered
    have low : front.filter (fun m => l.version < m.version) = [] := by
      refine filter_eq_nil_iff.mpr fun m mem => ?_
      have below := across m mem l mem_cons_self
      simpa using below.le
    have high : todo.filter (fun m => l.version < m.version) = todo := by
      refine filter_eq_self.mpr fun m mem => ?_
      simpa using (pairwise_cons.mp tail).1 m mem
    rw [here.rows,concat_eq_append,recordedLast valid split,twice,split,filter_append,low,filter_cons,high]
    simp

theorem applyProgress (fate) : Ends (apply exec dialect s fate db) (Progress exec dialect s db₀ (finished++todo) [])
      fun after => ∃ finished todo, Progress exec dialect s db₀ finished todo after := by
  rw [apply,valid]
  refine ((prepareEnds fate.late (db,fate.left)).imp (fun _ => id) fun after same => ?_).bind fun u same => ?_
  · exact same ▸ ⟨finished,todo,here⟩
  · obtain ⟨v,left⟩ := u
    cases same
    rw [progressPending valid here]
    exact (loopProgress valid here _).bind fun t ran => .done ran

end

theorem attemptsProgress (fates) :
    ∃ finished todo, Progress exec dialect s db₀ finished todo (attempts exec dialect s db₀ fates) := by
  induction fates using List.reverseRecOn with
  | nil => exact ⟨_,_,progressStart⟩
  | append_singleton fates fate ih =>
    obtain ⟨finished,todo,here⟩ := ih
    have next := applyProgress valid here fate
    rw [attempts,foldl_append]
    change ∃ finished todo, Progress exec dialect s db₀ finished todo
      (attempt exec dialect s (attempts exec dialect s db₀ fates) fate)
    rw [attempt]
    cases ran : apply exec dialect s fate (attempts exec dialect s db₀ fates) with
    | error after => exact next.error after ran
    | ok after => exact ⟨_,_,next.ok after ran⟩

theorem applyWhole (late) (here : Progress exec dialect s db₀ finished todo db) :
    ∃ after, apply exec dialect s ⟨none,late⟩ db = .ok after := by
  have loop : ∀ {todo finished db}, Progress exec dialect s db₀ finished todo db →
    ∃ t, todo.foldlM (inTx exec dialect late) (db,none) = .ok t := by
    intro todo
    induction todo with
    | nil => exact fun _ => ⟨_,rfl⟩
    | cons m todo ih =>
      intro finished db here
      rw [foldlM_cons,txWhole late (here.rows ▸ rowsBelow valid here.split)]
      exact ih (progressFinish here)
  obtain ⟨t,done⟩ := loop here
  have begun : prepare late (db,none) = .ok (db,none) := rfl
  refine ⟨t.1,?_⟩
  simp only [apply,valid,begun,bind,Except.bind,progressPending valid here,done]

theorem completedVersion : currentVersion (completed exec s db₀).rows =
    ((pending s (currentVersion db₀.rows)).getLast?.map Migration.version).getD (currentVersion db₀.rows) := by
  rw [completed,finishedRows]
  rcases eq_nil_or_concat (pending s (currentVersion db₀.rows)) with none | ⟨front,l,split⟩
  · simp [none]
  · rw [concat_eq_append] at split
    rw [split,recordedLast valid split]
    simp

end Progress

theorem migrationsConverge {s : MigrationSet} (valid : validate s = .ok ()) (db₀ : Database σ) (fates : List Fate)
    (last : Fate) :
    (∀ after, apply exec .postgres s last (attempts exec .postgres s db₀ fates) = .ok after → after = completed exec s db₀) ∧
    ((∀ m ∈ s.migrations, Rerunnable exec m) →
      ∀ after, apply exec .mysql s last (attempts exec .mysql s db₀ fates) = .ok after →
      after.schema = (completed exec s db₀).schema ∧ after.rows = (completed exec s db₀).rows) ∧
    (∀ r ∈ (attempts exec .mysql s db₀ fates).rows, r ∈ db₀.rows ∨
      ∃ m ∈ pending s (currentVersion db₀.rows), r = (m.version,m.name) ∧
        m.statements <:+: (attempts exec .mysql s db₀ fates).log) ∧
    (pending s (currentVersion db₀.rows)).Pairwise (fun a b => a.version < b.version) ∧
    currentVersion (completed exec s db₀).rows =
      ((pending s (currentVersion db₀.rows)).getLast?.map Migration.version).getD (currentVersion db₀.rows) ∧
    ∀ dialect late, ∃ after, apply exec dialect s ⟨none,late⟩ (attempts exec dialect s db₀ fates) = .ok after := by
  have reached : ∀ dialect after, apply exec dialect s last (attempts exec dialect s db₀ fates) = .ok after →
      Progress exec dialect s db₀ (pending s (currentVersion db₀.rows)) [] after := by
    intro dialect after ok
    obtain ⟨finished,todo,here⟩ := attemptsProgress valid fates
    rw [here.split]
    exact (applyProgress valid here _).ok after ok
  refine ⟨fun after ok => (reached .postgres after ok).atomic rfl,fun rerun after ok => ?_,fun r mem => ?_,
    pendingOrdered valid _,completedVersion valid,fun dialect late => ?_⟩
  · have here := reached .mysql after ok
    exact ⟨here.onward rerun,by rw [here.rows,completed,finishedRows]⟩
  · have there : ∃ finished todo, Progress exec .mysql s db₀ finished todo (attempts exec .mysql s db₀ fates) :=
      attemptsProgress valid fates
    obtain ⟨finished,todo,here⟩ := there
    rw [here.rows] at mem
    refine (mem_append.mp mem).imp_right fun new => ?_
    obtain ⟨m,done,rfl⟩ := mem_map.mp new
    exact ⟨m,by simp [here.split,done],rfl,here.executed m done⟩
  · obtain ⟨finished,todo,here⟩ := attemptsProgress valid fates
    exact applyWhole valid late here

def pairExec (statement : String) (x : Nat×Nat) : Nat×Nat :=
  if statement = "copy" then (x.2,x.2) else (x.1,5)

def pairSet : MigrationSet := ⟨"meta","schema_version",[⟨1,"first",["copy","set"]⟩]⟩

def setFirst : MigrationSet := ⟨"meta","schema_version",[⟨1,"first",["set","copy"]⟩]⟩

theorem setFirstRerunnable : ∀ m ∈ sorted setFirst, Rerunnable pairExec m := by
  intro m mem
  cases mem_singleton.mp mem
  intro part inside x
  have first : part = [] ∨ ∃ rest, part = "set"::rest ∧ (rest = [] ∨ rest = ["copy"]) := by
    simpa [prefix_cons_iff] using inside
  rcases first with rfl | ⟨rest,rfl,rfl | rfl⟩ <;> simp [pairExec]

/- The first run executes both statements and is cut before it records the version. -/
theorem migrationsSetOnly : (attempts pairExec .mysql setFirst ⟨(0,0),[],[]⟩ [⟨some 5,false⟩]).log = ["set","copy"] ∧
    (attempts pairExec .mysql setFirst ⟨(0,0),[],[]⟩ [⟨some 5,false⟩]).rows = [] ∧
      ∃ after, apply pairExec .mysql setFirst ⟨none,false⟩
        (attempts pairExec .mysql setFirst ⟨(0,0),[],[]⟩ [⟨some 5,false⟩]) =
        .ok after ∧ after.schema = (5,5) ∧ after.rows = [(1,"first")] := by
  have whole := migrationsConverge (s := setFirst) pairExec rfl ⟨(0,0),[],[]⟩ [⟨some 5,false⟩] ⟨none,false⟩
  obtain ⟨after,ok⟩ := whole.2.2.2.2.2 .mysql false
  exact ⟨rfl,rfl,after,ok,whole.2.1 setFirstRerunnable after ok⟩

/- Each statement is idempotent, but the copy after the set is not the copy before it. -/
theorem migrationsCopyAgain : validate pairSet = .ok () ∧ (∀ st x, pairExec st (pairExec st x) = pairExec st x) ∧
    (apply pairExec .mysql pairSet ⟨none,false⟩
      (attempts pairExec .mysql pairSet ⟨(0,0),[],[]⟩ [⟨some 5,false⟩])).toOption.map Database.schema = some (5,5) ∧
    (completed pairExec pairSet ⟨(0,0),[],[]⟩).schema = (0,5) := by
  refine ⟨rfl,fun st x => ?_,rfl,rfl⟩
  by_cases copy : st = "copy" <;> simp [pairExec,copy]

end Replicare.Migrate
