import Mathlib.Algebra.Order.Ring.Nat
import Mathlib.Data.List.Nodup
import Replicare.Runs
import Replicare.Stored

/-! The apply transaction of the MySQL sink, statement by statement, on the one connection of
its pool. Temporary tables and session variables outlive the transaction. -/
namespace Replicare.MysqlApply
open Engine Relations Stored List

structure Constraint where
  name : String
  parent : TableRef
  pairs : List (String × String)
  paired : pairs ≠ []

def Constraint.edge (child : TableRef) (c : Constraint) : ForeignKey :=
  ⟨c.name,child,c.pairs.map Prod.fst,c.parent,c.pairs.map Prod.snd,false⟩

structure Site where
  constraints : TableRef → List Constraint
  named : ∀ r, ((constraints r).map Constraint.name).Nodup
  registerOf : TableRef → TableRef
  hlc : TableRef
  enforced : Base → Option Base

structure KeyColumn where
  constraint : String
  column : String
  parent : TableRef
  parentColumn : String

def Constraint.usage (c : Constraint) : List KeyColumn := c.pairs.map fun p => ⟨c.name,p.1,c.parent,p.2⟩

def keyColumnUsage (site : Site) (r : TableRef) : List KeyColumn := (site.constraints r).flatMap Constraint.usage

def addColumn (k : KeyColumn) (fk : ForeignKey) : ForeignKey :=
  { fk with childCols := fk.childCols++[k.column], parentCols := fk.parentCols++[k.parentColumn] }

def collect (t : TableRef) (fks : List ForeignKey) (k : KeyColumn) : List ForeignKey :=
  if k.constraint ∈ fks.map ForeignKey.name then fks.map fun fk => if fk.name = k.constraint then addColumn k fk else fk
  else fks++[addColumn k ⟨k.constraint,t,[],k.parent,[],false⟩]

def introspectForeignKeys (t : TableRef) (usage : List KeyColumn) : List ForeignKey := usage.foldl (collect t) []

def tableMeta (site : Site) (r : TableRef) : List ForeignKey := introspectForeignKeys r (keyColumnUsage site r)

section Introspection
variable {t : TableRef} {fks : List ForeignKey}

theorem collectNew {k} (unknown : k.constraint ∉ fks.map ForeignKey.name) :
    collect t fks k = fks++[addColumn k ⟨k.constraint,t,[],k.parent,[],false⟩] := if_neg unknown

theorem collectLast {k fk} (fresh : k.constraint ∉ fks.map ForeignKey.name) (named : fk.name = k.constraint) :
    collect t (fks++[fk]) k = fks++[addColumn k fk] := by
  have known : k.constraint ∈ (fks++[fk]).map ForeignKey.name := by simp [named]
  have others : (fks.map fun fk => if fk.name = k.constraint then addColumn k fk else fk) = fks := by
    conv_rhs => rw [←map_id fks]
    refine map_congr_left fun x mem => if_neg fun same => fresh ?_
    exact mem_map.mpr ⟨x,mem,same⟩
  rw [collect,if_pos known,map_append,others]
  simp [named]

theorem collectMore {c : Constraint} (fresh : c.name ∉ fks.map ForeignKey.name) (rest : List (String × String)) (fk : ForeignKey)
    (named : fk.name = c.name) :
    (rest.map fun p => (⟨c.name,p.1,c.parent,p.2⟩ : KeyColumn)).foldl (collect t) (fks++[fk]) =
    fks++[{ fk with childCols := fk.childCols++rest.map Prod.fst, parentCols := fk.parentCols++rest.map Prod.snd }] := by
  induction rest generalizing fk with
  | nil => simp
  | cons p rest ih =>
    rw [map_cons,foldl_cons,collectLast fresh named,ih (addColumn ⟨c.name,p.1,c.parent,p.2⟩ fk) named]
    simp [addColumn]

theorem collectUsage {c : Constraint} (fresh : c.name ∉ fks.map ForeignKey.name) :
    c.usage.foldl (collect t) fks = fks++[c.edge t] := by
  obtain ⟨p,rest,split⟩ := exists_cons_of_ne_nil c.paired
  rw [Constraint.usage,split,map_cons,foldl_cons,collectNew fresh,collectMore fresh rest _ rfl]
  simp [addColumn,Constraint.edge,split]

theorem collectAll (cs : List Constraint) (fresh : ∀ c ∈ cs, c.name ∉ fks.map ForeignKey.name) (named : (cs.map Constraint.name).Nodup) :
    (cs.flatMap Constraint.usage).foldl (collect t) fks = fks++cs.map (Constraint.edge t) := by
  induction cs generalizing fks with
  | nil => simp
  | cons c cs ih =>
    obtain ⟨apart,named⟩ := nodup_cons.mp named
    rw [flatMap_cons,foldl_append,collectUsage (fresh c mem_cons_self),ih ?_ named]
    · simp
    · intro d mem known
      rw [map_append,mem_append] at known
      rcases known with old | new
      · exact fresh d (mem_cons_of_mem _ mem) old
      · rw [map_singleton,mem_singleton] at new
        exact apart (mem_map.mpr ⟨d,mem,new⟩)

end Introspection

theorem tableMetaEdges (site : Site) (r : TableRef) : tableMeta site r = (site.constraints r).map (Constraint.edge r) :=
  collectAll (site.constraints r) (fun _ _ => not_mem_nil) (site.named r)

/- The rows of a join, with NULLs for a child row that matches nothing. -/
def leftJoin (on : Row → Row → Bool) (children parents : List Row) : List (Row × Option Row) :=
  children.flatMap fun c => if (parents.filter (on c)).isEmpty then [(c,none)] else (parents.filter (on c)).map fun p => (c,some p)

/- c.x = p.y, which NULL never satisfies. -/
def equals (x y : Option Bytes) : Bool := x.isSome && x == y

def joinOn (fk : ForeignKey) (c p : Row) : Bool := (fk.childCols.zip fk.parentCols).all fun e => equals (c e.1) (p e.2)

def notNull (fk : ForeignKey) (c : Row) : Bool := fk.childCols.all fun x => (c x).isSome

def rows (b : Base) (r : TableRef) : List Row := (b r).map Prod.snd

def orphans (fk : ForeignKey) (b : Base) : List (Row × Option Row) :=
  (leftJoin (joinOn fk) (rows b fk.child) (rows b fk.parent)).filter fun e =>
    notNull fk e.1 && (e.2.bind fun p => p (fk.parentCols.headD "")).isNone

def Held (fk : ForeignKey) (b : Base) : Prop :=
  ∀ x ∈ rows b fk.child, (∀ c ∈ fk.childCols, x c ≠ none) → ∃ parent ∈ rows b fk.parent, references fk x parent

theorem joinOnReferences (r : TableRef) (c : Constraint) (x parent : Row) :
    joinOn (c.edge r) x parent = true ↔ references (c.edge r) x parent := by
  have zipped : (c.pairs.map Prod.fst).zip (c.pairs.map Prod.snd) = c.pairs := by
    rw [zip_map',map_id'']
    exact fun _ => rfl
  simp only [joinOn,Constraint.edge,zipped,all_eq_true,equals,Bool.and_eq_true,beq_iff_eq,Option.isSome_iff_ne_none,references,
    List.map_map,map_inj_left,mem_map,Function.comp_apply]
  constructor
  · intro all
    refine ⟨?_,fun e mem => (all e mem).2⟩
    rintro _ ⟨e,mem,rfl⟩
    exact (all e mem).1
  · rintro ⟨whole,same⟩ e mem
    exact ⟨whole e.1 ⟨e,mem,rfl⟩,same e mem⟩

theorem orphansNone (r : TableRef) (c : Constraint) (b : Base) : orphans (c.edge r) b = [] ↔ Held (c.edge r) b := by
  have first : ∀ x parent, references (c.edge r) x parent → parent ((c.edge r).parentCols.headD "") ≠ none := by
    intro x parent held
    obtain ⟨p,rest,split⟩ := exists_cons_of_ne_nil c.paired
    have same := held.2
    have there := held.1 p.1 (by simp [Constraint.edge,split])
    simp only [Constraint.edge,split,map_cons,List.cons.injEq] at same
    simpa [Constraint.edge,split,←same.1] using there
  simp only [orphans,filter_eq_nil_iff,leftJoin,mem_flatMap,Bool.and_eq_true,not_and,Bool.not_eq_true]
  constructor
  · intro quiet x mem complete
    by_contra missing
    have nothing : (rows b (c.edge r).parent).filter (joinOn (c.edge r) x) = [] := by
      refine filter_eq_nil_iff.mpr fun parent there joined => missing ⟨parent,there,(joinOnReferences r c x parent).mp joined⟩
    have found := quiet (x,none) ⟨x,mem,by simp [nothing]⟩ (by
      simpa [notNull,Option.isSome_iff_ne_none] using complete)
    simp at found
  · rintro held ⟨x,other⟩ ⟨y,mem,joined⟩ complete
    by_cases nothing : ((rows b (c.edge r).parent).filter (joinOn (c.edge r) y)).isEmpty
    · rw [if_pos nothing,mem_singleton] at joined
      cases joined
      obtain ⟨parent,there,refers⟩ := held x mem (by simpa [notNull,Option.isSome_iff_ne_none] using complete)
      have listed := mem_filter.mpr ⟨there,(joinOnReferences r c x parent).mpr refers⟩
      rw [List.isEmpty_iff.mp nothing] at listed
      cases listed
    · rw [if_neg nothing,mem_map] at joined
      obtain ⟨parent,there,same⟩ := joined
      cases same
      have refers := (joinOnReferences r c _ parent).mp (mem_filter.mp there).2
      have present := first _ _ refers
      simpa [Option.isSome_iff_ne_none] using present

/- How a statement fails. A refused one has no effect and the session goes on; a done
context refuses without an error number. With the connection the session is gone, and
the statement may have landed before. -/
inductive Failure where
  | refused (errno : Option Nat)
  | lost (landed : Bool)
  deriving DecidableEq, Repr

inductive Stmt where
  | describe (ref : TableRef)
  | begin
  | setMarker (on : Bool)
  | setChecks (on : Bool)
  | createStaging (n : Nat)
  | loadStaging (n : Nat) (rows : Rows)
  | markWinners (n : Nat)
  | upsert (ref : TableRef) (n : Nat) (wins : KeyValues → Bool)
  | write (ref : TableRef) (rows : Rows)
  | readMax (ref : TableRef)
  | record (ref : TableRef) (n : Nat)
  | lookup (ref : TableRef)
  | deleteAbsent (ref : TableRef) (dirtyKeys : List KeyValues)
  | deleteTombstones (ref : TableRef) (wins : KeyValues → Bool)
  | verify (fk : ForeignKey)
  | commit
  | dropStaging (n : Nat)

structure State where
  target : Base
  work : Option Base
  temps : List (Nat × Rows)
  checks : Bool
  marker : Bool
  staging : List (TableRef × Nat)

def fresh (target : Base) : State := ⟨target,none,[],true,false,[]⟩

def State.staged (s : State) (n : Nat) : Rows := (s.temps.lookup n).getD []

def State.stagedFor (s : State) (ref : TableRef) : Rows := ((s.staging.lookup ref).map s.staged).getD []

section Transaction
variable (site : Site)

def State.change (s : State) (f : Base → Base) : Option State :=
  s.work.bind fun b => (if s.checks then site.enforced (f b) else some (f b)).map fun b => { s with work := some b }

def exec (s : State) : Stmt → Option State
  | .describe _ => some s
  | .begin => some { s with work := some s.target }
  | .setMarker on => some { s with marker := on }
  | .setChecks on => some { s with checks := on }
  | .createStaging n => if n ∈ s.temps.map Prod.fst then none else some { s with temps := s.temps++[(n,[])] }
  | .loadStaging n rows => some { s with temps := s.temps.map fun e => if e.1 = n then (n,e.2++rows) else e }
  | .markWinners _ => some s
  | .upsert ref n wins => s.change site fun b => Stored.upsert b ref ((s.staged n).filter fun e => wins e.1)
  | .write ref rows => s.change site fun b => Stored.upsert b ref rows
  | .readMax _ => some s
  | .record ref n => some { s with staging := (ref,n)::s.staging.filter fun e => decide (e.1 ≠ ref) }
  | .lookup ref => if ref ∈ s.staging.map Prod.fst then some s else none
  | .deleteAbsent ref dirtyKeys => s.change site fun b => erase b ref fun k =>
      decide (k ∈ dirtyKeys) && !decide (k ∈ (s.stagedFor ref).map Prod.fst)
  | .deleteTombstones ref wins => s.change site fun b => erase b ref fun k =>
      wins k && decide (k ∈ (s.stagedFor ref).map Prod.fst)
  | .verify fk => s.work.bind fun b => if (orphans fk b).isEmpty then some s else none
  | .commit => s.work.map fun b => { s with target := b, work := none }
  | .dropStaging n => some { s with temps := s.temps.filter fun e => decide (e.1 ≠ n) }

structure Guard where
  wins : KeyValues → Bool
  register : Rows
  clock : Option Rows

inductive Call where
  | stageUpsert (ref : TableRef) (reread : Rows) (guard : Guard)
  | deleteAbsent (ref : TableRef) (dirtyKeys : List KeyValues) (guard : Guard)

structure Transaction where
  origin : Bool
  cyclic : Bool
  compTables : List TableRef
  calls : List Call

variable (tx : Transaction)

def beginApply : List Stmt :=
  tx.compTables.map .describe++[.begin]++(if tx.origin then [.setMarker true] else [])++
    if tx.cyclic then [.setChecks false] else []

def observeFromStaging (ref : TableRef) (clock : Option Rows) : List Stmt :=
  .readMax ref::clock.toList.map fun row => .write site.hlc row

def stageUpsertCluster (n : Nat) (ref : TableRef) (reread : Rows) (guard : Guard) : List Stmt :=
  [.describe ref,.createStaging n,.loadStaging n reread,.markWinners n,.upsert ref n guard.wins,
    .write (site.registerOf ref) guard.register]++observeFromStaging site ref guard.clock++[.record ref n]

def stageUpsert (n : Nat) (ref : TableRef) (reread : Rows) (guard : Guard) : List Stmt :=
  if tx.origin then stageUpsertCluster site n ref reread guard
  else [.describe ref,.createStaging n,.loadStaging n reread,.upsert ref n fun _ => true,.record ref n]

def deleteTombstonesCluster (ref : TableRef) (guard : Guard) : List Stmt :=
  [.lookup ref,.deleteTombstones ref guard.wins,.write (site.registerOf ref) guard.register]++observeFromStaging site ref guard.clock

def deleteAbsent (ref : TableRef) (dirtyKeys : List KeyValues) (guard : Guard) : List Stmt :=
  if tx.origin then deleteTombstonesCluster site ref guard
  else .lookup ref::if dirtyKeys.isEmpty then [] else [.deleteAbsent ref dirtyKeys]

/- `n` is nextStg. -/
def callStmts (n : Nat) : Call → List Stmt
  | .stageUpsert ref reread guard => stageUpsert site tx n ref reread guard
  | .deleteAbsent ref dirtyKeys guard => deleteAbsent site tx ref dirtyKeys guard

def Call.stages : Call → Nat
  | .stageUpsert .. => 1
  | .deleteAbsent .. => 0

def nextStg (n : Nat) (calls : List Call) : Nat := n+(calls.map Call.stages).sum

def callsStmts : Nat → List Call → List Stmt
  | _, [] => []
  | n, c::calls => callStmts site tx n c++callsStmts (n+c.stages) calls

def verifyNoOrphans : List Stmt := (tx.compTables.flatMap (tableMeta site)).map .verify

def commit : List Stmt := (if tx.cyclic then .setChecks true::verifyNoOrphans site tx else [])++[.commit]

/- Where a transaction is when a statement fails: at which of BeginApply, of one of its
calls, or of Commit. -/
inductive Point where
  | inBegin (k : Nat)
  | inCall (i k : Nat)
  | inCommit (k : Nat)
  deriving DecidableEq, Repr

def reached : Point → List Stmt
  | .inBegin k => (beginApply tx).take k
  | .inCall i k => beginApply tx++callsStmts site tx 0 (tx.calls.take i)++
      ((tx.calls[i]?).elim [] (callStmts site tx (nextStg 0 (tx.calls.take i)))).take k
  | .inCommit k => beginApply tx++callsStmts site tx 0 tx.calls++(commit site tx).take k

def stmtAt : Point → Option Stmt
  | .inBegin k => (beginApply tx)[k]?
  | .inCall i k => (tx.calls[i]?).bind fun c => (callStmts site tx (nextStg 0 (tx.calls.take i)) c)[k]?
  | .inCommit k => (commit site tx)[k]?

def Stmt.fallible : Stmt → Bool
  | .record .. => false
  | _ => true

def Stmt.commits : Stmt → Bool
  | .commit => true
  | _ => false

/- How the statements of closeConn are answered, and whether conn.Close reports that
database/sql has given a lost connection up already. -/
structure Release where
  answer : Stmt → Option Failure
  reports : Bool

def cleanups (staging : List (TableRef × Nat)) : List Stmt :=
  staging.map (fun e => .dropStaging e.2)++(if tx.cyclic then [.setChecks true] else [])++
    if tx.origin then [.setMarker false] else []

def sweep (answer : Stmt → Option Failure) : State → List Stmt → State × Bool
  | s, [] => ({ s with staging := [] },false)
  | s, q::rest =>
      match answer q with
      | none => sweep answer ((exec site s q).getD s) rest
      | some (.refused _) => sweep answer s rest
      | some (.lost _) => (fresh s.target,true)

def closeConn (release : Release) (s : State) : State × Bool := sweep site release.answer s (cleanups tx s.staging)

def rollback (s : State) : State := { s with work := none }

/- What a failure leaves behind. In BeginApply the sink rolls back and gives the
connection back as it is; later it also cleans up. A COMMIT that the server refuses
has rolled back. -/
def fail (release : Release) (q : Stmt) (s : State) : Point → Failure → State
  | _, .lost landed => fresh (if q.commits && landed then s.work.getD s.target else s.target)
  | .inBegin _, .refused _ => { rollback s with staging := [] }
  | _, .refused _ => (closeConn site tx release (rollback s)).1

inductive Ending where
  | success
  | stopped (p : Point) (f : Failure)
  | unreleased
  deriving DecidableEq, Repr

/- One run of the transaction, to its end or to the statement that fails; none where the
statements before it are not accepted. After the commit the error of closeConn is the
error of Commit. -/
def attempt (cut : Option (Point × Failure)) (release : Release) (s : State) : Option (State × Ending) :=
  match cut with
  | none => (Runs.run (exec site) s (beginApply tx++callsStmts site tx 0 tx.calls++commit site tx)).map fun m =>
      ((closeConn site tx release m).1,if (closeConn site tx release m).2 && release.reports then .unreleased else .success)
  | some (p,f) => ((stmtAt site tx p).filter Stmt.fallible).bind fun q =>
      (Runs.run (exec site) s (reached site tx p)).map fun m => (fail site tx release q m p f,.stopped p f)

end Transaction

structure Scope where
  opened : Bool
  names : List Nat
  checks : Bool
  marker : Bool
  staging : List (TableRef × Nat)

def State.scope (s : State) : Scope := ⟨s.work.isSome,s.temps.map Prod.fst,s.checks,s.marker,s.staging⟩

def scopeAfter (f : Scope) : Stmt → Scope
  | .begin => { f with opened := true }
  | .commit => { f with opened := false }
  | .setMarker on => { f with marker := on }
  | .setChecks on => { f with checks := on }
  | .createStaging n => { f with names := f.names++[n] }
  | .dropStaging n => { f with names := f.names.filter fun m => decide (m ≠ n) }
  | .record ref n => { f with staging := (ref,n)::f.staging.filter fun e => decide (e.1 ≠ ref) }
  | _ => f

section Published
variable {site : Site} {tx : Transaction} {s t m : State} {release : Release}

theorem changeScope {f} (ok : s.change site f = some t) : t.scope = s.scope ∧ t.target = s.target := by
  obtain ⟨b,work,made⟩ := Option.bind_eq_some_iff.mp ok
  obtain ⟨_,_,rfl⟩ := Option.map_eq_some_iff.mp made
  simp [State.scope,work]

theorem execStep {q} (ok : exec site s q = some t) :
    t.scope = scopeAfter s.scope q ∧ (q.commits = false → t.target = s.target) := by
  cases q with
  | upsert | write | deleteAbsent | deleteTombstones => exact (changeScope ok).imp_right fun kept _ => kept
  | createStaging n =>
    obtain ⟨_,same⟩ := Option.ite_none_left_eq_some.mp ok
    cases same
    simp [State.scope,scopeAfter]
  | loadStaging n rows =>
    cases ok
    have names : (s.temps.map fun e => if e.1 = n then (n,e.2++rows) else e).map Prod.fst = s.temps.map Prod.fst := by
      rw [List.map_map]
      refine map_congr_left fun e _ => ?_
      by_cases same : e.1 = n <;> simp [same]
    simp [State.scope,scopeAfter,names]
  | dropStaging n =>
    cases ok
    simp [State.scope,scopeAfter,filter_map,Function.comp_def]
  | lookup ref =>
    obtain ⟨_,same⟩ := Option.ite_none_right_eq_some.mp ok
    cases same
    exact ⟨rfl,fun _ => rfl⟩
  | verify fk =>
    obtain ⟨b,_,made⟩ := Option.bind_eq_some_iff.mp ok
    obtain ⟨_,same⟩ := Option.ite_none_right_eq_some.mp made
    cases same
    exact ⟨rfl,fun _ => rfl⟩
  | commit =>
    obtain ⟨b,_,rfl⟩ := Option.map_eq_some_iff.mp ok
    exact ⟨rfl,Bool.noConfusion⟩
  | _ =>
    cases ok
    exact ⟨rfl,fun _ => rfl⟩

theorem execScope {q} (ok : exec site s q = some t) : t.scope = scopeAfter s.scope q := (execStep ok).1

theorem execTarget {q} (held : q.commits = false) (ok : exec site s q = some t) : t.target = s.target := (execStep ok).2 held

theorem runTarget {l} (held : ∀ q ∈ l, q.commits = false) (ok : Runs.run (exec site) s l = some t) :
    t.target = s.target := by
  induction l generalizing s with
  | nil => cases ok; rfl
  | cons q rest ih =>
    obtain ⟨m,first,last⟩ := Runs.runCons ok
    exact (ih (fun r mem => held r (mem_cons_of_mem _ mem)) last).trans (execTarget (held q mem_cons_self) first)

theorem beginHeld : ∀ q ∈ beginApply tx, q.commits = false := by
  intro q mem
  simp only [beginApply,mem_append,mem_map,mem_singleton] at mem
  rcases mem with ((⟨r,_,rfl⟩ | rfl) | marker) | checks
  · rfl
  · rfl
  · split at marker
    · cases mem_singleton.mp marker
      rfl
    · cases marker
  · split at checks
    · cases mem_singleton.mp checks
      rfl
    · cases checks

theorem observeHeld {ref clock} : ∀ q ∈ observeFromStaging site ref clock, q.commits = false := by
  intro q mem
  rcases mem_cons.mp mem with rfl | written
  · rfl
  · obtain ⟨_,_,rfl⟩ := mem_map.mp written
    rfl

theorem callHeld {n c} : ∀ q ∈ callStmts site tx n c, q.commits = false := by
  intro q mem
  cases c with
  | stageUpsert ref reread guard =>
    simp only [callStmts,stageUpsert,stageUpsertCluster] at mem
    split at mem
    · simp only [mem_append,mem_cons,not_mem_nil,or_false] at mem
      rcases mem with ((rfl | rfl | rfl | rfl | rfl | rfl) | observed) | rfl
      all_goals first | rfl | exact observeHeld q observed
    · simp only [mem_cons,not_mem_nil,or_false] at mem
      rcases mem with rfl | rfl | rfl | rfl | rfl <;> rfl
  | deleteAbsent ref dirtyKeys guard =>
    simp only [callStmts,deleteAbsent,deleteTombstonesCluster] at mem
    split at mem
    · simp only [mem_append,mem_cons,not_mem_nil,or_false] at mem
      rcases mem with (rfl | rfl | rfl) | observed
      all_goals first | rfl | exact observeHeld q observed
    · rcases mem_cons.mp mem with rfl | deleted
      · rfl
      · split at deleted
        · cases deleted
        · cases mem_singleton.mp deleted
          rfl

theorem callsHeld {n calls} : ∀ q ∈ callsStmts site tx n calls, q.commits = false := by
  induction calls generalizing n with
  | nil => exact fun q mem => absurd mem not_mem_nil
  | cons c calls ih =>
    intro q mem
    rcases mem_append.mp mem with here | later
    · exact callHeld q here
    · exact ih q later

theorem bodyHeld {calls} : ∀ q ∈ beginApply tx++callsStmts site tx 0 calls, q.commits = false := by
  intro q mem
  rcases mem_append.mp mem with early | late
  · exact beginHeld q early
  · exact callsHeld q late

/- What Commit does before its COMMIT. -/
def checksBack (site : Site) (tx : Transaction) : List Stmt := if tx.cyclic then .setChecks true::verifyNoOrphans site tx else []

theorem checksBackHeld : ∀ q ∈ checksBack site tx, q.commits = false := by
  intro q mem
  unfold checksBack at mem
  split at mem
  · rcases mem_cons.mp mem with rfl | verified
    · rfl
    · obtain ⟨_,_,rfl⟩ := mem_map.mp verified
      rfl
  · cases mem

theorem commitAt {k q} (here : (commit site tx)[k]? = some q) :
    q.commits = false ∧ (commit site tx).take k = (checksBack site tx).take k ∨
    q.commits = true ∧ (commit site tx).take k = checksBack site tx := by
  have shape : commit site tx = checksBack site tx++[.commit] := rfl
  rw [shape] at here ⊢
  rcases Nat.lt_or_ge k (checksBack site tx).length with inside | beyond
  · rw [getElem?_append_left inside] at here
    exact .inl ⟨checksBackHeld q (mem_of_getElem? here),take_append_of_le_length inside.le⟩
  · rw [getElem?_append_right beyond] at here
    have last : k = (checksBack site tx).length := by
      obtain ⟨bound,_⟩ := List.getElem?_eq_some_iff.mp here
      simp only [length_singleton] at bound
      omega
    subst last
    rw [Nat.sub_self] at here
    cases here
    exact .inr ⟨rfl,take_left⟩

def NoOrphans (site : Site) (tx : Transaction) (b : Base) : Prop :=
  ∀ r ∈ tx.compTables, ∀ c ∈ site.constraints r, Held (c.edge r) b

theorem verifyRun {fks : List ForeignKey} (ok : Runs.run (exec site) s (fks.map .verify) = some t) :
    t = s ∧ ∀ fk ∈ fks, ∃ b, s.work = some b ∧ orphans fk b = [] := by
  induction fks generalizing s with
  | nil =>
    cases ok
    exact ⟨rfl,fun _ mem => absurd mem not_mem_nil⟩
  | cons fk fks ih =>
    obtain ⟨m,first,last⟩ := Runs.runCons ok
    obtain ⟨b,work,made⟩ := Option.bind_eq_some_iff.mp first
    obtain ⟨clear,same⟩ := Option.ite_none_right_eq_some.mp made
    cases same
    obtain ⟨stays,rest⟩ := ih last
    refine ⟨stays,fun fk' mem => ?_⟩
    rcases mem_cons.mp mem with rfl | mem
    · exact ⟨b,work,List.isEmpty_iff.mp clear⟩
    · exact rest fk' mem

theorem checkedWork (off : tx.cyclic = true) (ok : Runs.run (exec site) s (checksBack site tx) = some t) :
    ∀ b, t.work = some b → NoOrphans site tx b := by
  intro b work r member c known
  rw [checksBack,if_pos off] at ok
  obtain ⟨m,first,last⟩ := Runs.runCons ok
  obtain ⟨rfl,all⟩ := verifyRun last
  have listed : c.edge r ∈ tx.compTables.flatMap (tableMeta site) := by
    refine mem_flatMap.mpr ⟨r,member,?_⟩
    rw [tableMetaEdges]
    exact mem_map_of_mem known
  obtain ⟨b',same,clear⟩ := all _ listed
  cases work.symm.trans same
  exact (orphansNone r c b).mp clear

theorem checksBackWork (ok : Runs.run (exec site) s (checksBack site tx) = some t) : t.work = s.work := by
  unfold checksBack at ok
  split at ok
  · obtain ⟨m,first,last⟩ := Runs.runCons ok
    obtain ⟨rfl,_⟩ := verifyRun last
    cases first
    rfl
  · cases ok
    rfl

theorem sweepTarget {answer l} (held : ∀ q ∈ l, q.commits = false) : (sweep site answer s l).1.target = s.target := by
  induction l generalizing s with
  | nil => rfl
  | cons q rest ih =>
    have later := fun r mem => held r (mem_cons_of_mem q mem)
    unfold sweep
    split
    · rw [ih later]
      cases made : exec site s q with
      | none => rfl
      | some t => exact execTarget (held q mem_cons_self) made
    · exact ih later
    · rfl

theorem closeTarget : (closeConn site tx release s).1.target = s.target := by
  refine sweepTarget fun q mem => ?_
  simp only [cleanups,mem_append,mem_map] at mem
  rcases mem with (⟨_,_,rfl⟩ | checks) | marker
  · rfl
  · split at checks
    · cases mem_singleton.mp checks
      rfl
    · cases checks
  · split at marker
    · cases mem_singleton.mp marker
      rfl
    · cases marker

/- The server has carried the COMMIT out and the sink gets an error: the answer is lost, or
the connection is, in the cleanup that follows. -/
def Landed (site : Site) (tx : Transaction) (e : Ending) : Prop :=
  e = .unreleased ∨ ∃ k q, stmtAt site tx (.inCommit k) = some q ∧ q.commits = true ∧ e = .stopped (.inCommit k) (.lost true)

theorem execOpen {q} (held : q.commits = false) (begun : s.work.isSome = true) (ok : exec site s q = some t) :
    t.work.isSome = true := by
  have scope := congrArg Scope.opened (execScope ok)
  cases q with
  | commit => cases held
  | begin => exact scope
  | _ => exact scope.trans begun

theorem runOpen {l} (held : ∀ q ∈ l, q.commits = false) (begun : s.work.isSome = true)
    (ok : Runs.run (exec site) s l = some t) : t.work.isSome = true := by
  induction l generalizing s with
  | nil =>
    cases ok
    exact begun
  | cons q rest ih =>
    obtain ⟨m,first,last⟩ := Runs.runCons ok
    exact ih (fun r mem => held r (mem_cons_of_mem _ mem)) (execOpen (held q mem_cons_self) begun first) last

theorem bodyOpen {calls} (ok : Runs.run (exec site) s (beginApply tx++callsStmts site tx 0 calls) = some t) :
    t.work.isSome = true := by
  have split : beginApply tx++callsStmts site tx 0 calls = tx.compTables.map .describe++.begin::
      ((if tx.origin then [.setMarker true] else [])++(if tx.cyclic then [.setChecks false] else [])++callsStmts site tx 0 calls) := by
    simp [beginApply]
  have held := @bodyHeld site tx calls
  rw [split] at ok held
  obtain ⟨m,_,rest⟩ := Runs.runSplit ok
  obtain ⟨m',first,last⟩ := Runs.runCons rest
  cases first
  exact runOpen (fun q mem => held q (mem_append_right _ (mem_cons_of_mem _ mem))) rfl last

theorem failTarget {q p f} (alone : q.commits = false ∨ f ≠ .lost true) :
    (fail site tx release q s p f).target = s.target := by
  cases f with
  | lost landed =>
    have kept : (q.commits && landed) = false := by
      cases landed with
      | false => exact Bool.and_false _
      | true =>
        rcases alone with held | other
        · rw [held]
          rfl
        · exact absurd rfl other
    simp only [fail,fresh,kept,Bool.false_eq_true,if_false]
  | refused errno =>
    cases p with
    | inBegin k => rfl
    | _ => exact closeTarget

/- What the calls of a transaction leave for its COMMIT. -/
def stagedState (site : Site) (tx : Transaction) (s : State) : Option Base :=
  (Runs.run (exec site) s (beginApply tx++callsStmts site tx 0 tx.calls)).bind State.work

/- The state in which the COMMIT is sent. -/
structure Ready (site : Site) (tx : Transaction) (s m : State) : Prop where
  target : m.target = s.target
  work : ∃ b, m.work = some b ∧ stagedState site tx s = some b ∧ (tx.cyclic = true → NoOrphans site tx b)

theorem readyOf (ok : Runs.run (exec site) s (beginApply tx++callsStmts site tx 0 tx.calls++checksBack site tx) = some m) :
    Ready site tx s m := by
  obtain ⟨m',body,back⟩ := Runs.runSplit ok
  have begun := runOpen checksBackHeld (bodyOpen body) back
  obtain ⟨b,work⟩ := Option.isSome_iff_exists.mp begun
  have staged : stagedState site tx s = some b := by
    rw [stagedState,body,Option.bind_some,←checksBackWork back]
    exact work
  exact ⟨(runTarget checksBackHeld back).trans (runTarget bodyHeld body),b,work,staged,fun off => checkedWork off back b work⟩

theorem stopped {p q} (here : stmtAt site tx p = some q) (ok : Runs.run (exec site) s (reached site tx p) = some m) :
    q.commits = false ∧ m.target = s.target ∨ (∃ k, p = .inCommit k) ∧ q.commits = true ∧ Ready site tx s m := by
  cases p with
  | inBegin k =>
    exact .inl ⟨beginHeld q (mem_of_getElem? here),runTarget (fun r mem => beginHeld r (mem_of_mem_take mem)) ok⟩
  | inCall i k =>
    obtain ⟨c,known,place⟩ := Option.bind_eq_some_iff.mp here
    refine .inl ⟨callHeld q (mem_of_getElem? place),runTarget (fun r mem => ?_) ok⟩
    rcases mem_append.mp mem with body | now
    · exact bodyHeld r body
    · rw [known] at now
      exact callHeld r (mem_of_mem_take now)
  | inCommit k =>
    have there : reached site tx (.inCommit k) = beginApply tx++callsStmts site tx 0 tx.calls++(commit site tx).take k := rfl
    rw [there] at ok
    rcases commitAt here with ⟨held,before⟩ | ⟨last,before⟩
    · rw [before] at ok
      refine .inl ⟨held,runTarget (fun r mem => ?_) ok⟩
      rcases mem_append.mp mem with body | back
      · exact bodyHeld r body
      · exact checksBackHeld r (mem_of_mem_take back)
    · rw [before] at ok
      exact .inr ⟨⟨k,rfl⟩,last,readyOf ok⟩

end Published

/- The target after an attempt from `s`. -/
structure Shows (site : Site) (tx : Transaction) (s : State) (e : Ending) (after : Base) : Prop where
  published : e = .success ∨ Landed site tx e → stagedState site tx s = some after ∧ NoOrphans site tx after
  kept : e ≠ .success → ¬Landed site tx e → after = s.target

theorem attemptShows {site tx cut release s s' e} (off : tx.cyclic = true)
    (ran : attempt site tx cut release s = some (s',e)) : Shows site tx s e s'.target := by
  cases cut with
  | none =>
    obtain ⟨m,ok,same⟩ := Option.map_eq_some_iff.mp ran
    obtain ⟨rfl,rfl⟩ := Prod.mk.inj same
    have shape : commit site tx = checksBack site tx++[.commit] := rfl
    rw [shape,←append_assoc] at ok
    obtain ⟨m',before,last⟩ := Runs.runSplit ok
    obtain ⟨t,done,last⟩ := Runs.runCons last
    cases last
    obtain ⟨b,work,staged,clear⟩ := (readyOf before).work
    obtain ⟨b',work',rfl⟩ := Option.map_eq_some_iff.mp done
    cases work.symm.trans work'
    have held := @closeTarget site tx { m' with target := b, work := none } release
    rw [held]
    refine ⟨fun _ => ⟨staged,clear off⟩,fun failed calm => ?_⟩
    split at failed
    · rename_i reported
      exact absurd (.inl (if_pos reported)) calm
    · exact absurd rfl failed
  | some cut =>
    obtain ⟨p,f⟩ := cut
    obtain ⟨q,found,ran⟩ := Option.bind_eq_some_iff.mp ran
    obtain ⟨here,_⟩ := Option.filter_eq_some_iff.mp found
    obtain ⟨m,ok,same⟩ := Option.map_eq_some_iff.mp ran
    obtain ⟨rfl,rfl⟩ := Prod.mk.inj same
    refine ⟨fun landed => ?_,fun _ calm => ?_⟩
    · rcases landed with success | unreleased | ⟨k,q',there,last,same⟩
      · cases success
      · cases unreleased
      · cases same
        cases here.symm.trans there
        rcases stopped here ok with ⟨held,_⟩ | ⟨_,_,ready⟩
        · cases last.symm.trans held
        · obtain ⟨b,work,staged,clear⟩ := ready.work
          have shown : (fail site tx release q m (.inCommit k) (.lost true)).target = b := by
            simp [fail,fresh,last,work]
          rw [shown]
          exact ⟨staged,clear off⟩
    · rcases stopped here ok with ⟨held,target⟩ | ⟨⟨k,rfl⟩,last,ready⟩
      · exact (failTarget (.inl held)).trans target
      · refine (failTarget (.inr ?_)).trans ready.target
        rintro rfl
        exact calm (.inr ⟨k,q,here,last,rfl⟩)

theorem commitSound {site : Site} {tx : Transaction} {cut release s s' e} (off : tx.cyclic = true)
    (ran : attempt site tx cut release s = some (s',e)) :
    (e = .success ∨ Landed site tx e → stagedState site tx s = some s'.target ∧ NoOrphans site tx s'.target) ∧
    (e ≠ .success → ¬Landed site tx e → s'.target = s.target) :=
  ⟨(attemptShows off ran).published,(attemptShows off ran).kept⟩

def authors : TableRef := ⟨"rc_it","a"⟩
def books : TableRef := ⟨"rc_it","b"⟩

def pair : Site where
  constraints r :=
    if r = authors then [⟨"a_ibfk_1",books,[("b_id","id")],cons_ne_nil _ _⟩]
    else if r = books then [⟨"b_ibfk_1",authors,[("a_id","id")],cons_ne_nil _ _⟩]
    else []
  named r := by
    split
    · exact nodup_singleton _
    · split
      · exact nodup_singleton _
      · exact nodup_nil
  registerOf r := ⟨"replicare",r.name⟩
  hlc := ⟨"replicare","hlc_state"⟩
  enforced := some

def unguarded : Guard := ⟨fun _ => true,[],none⟩

def bootstrap : Transaction where
  origin := false
  cyclic := true
  compTables := [authors,books]
  calls := [.stageUpsert authors [([some [1]],rowOf [("id",[1]),("b_id",[10])])] unguarded,
    .stageUpsert books [([some [10]],rowOf [("id",[10]),("a_id",[1])])] unguarded]

def answered : Release := ⟨fun _ => none,false⟩

def vacant : Base := fun _ => []

theorem bootstrapSound : ∃ s', attempt pair bootstrap none answered (fresh vacant) = some (s',.success) ∧
    stagedState pair bootstrap (fresh vacant) = some s'.target ∧ NoOrphans pair bootstrap s'.target ∧
    (s'.target authors).length = 1 := by
  have ran := (rfl : attempt pair bootstrap none answered (fresh vacant) = some (_,.success))
  obtain ⟨staged,closed⟩ := (commitSound rfl ran).1 (.inl rfl)
  exact ⟨_,ran,staged,closed,rfl⟩

/- The answer to the COMMIT is lost, or the connection right after it: Commit returns an
error and the rows are there. -/
theorem bootstrapUnanswered : (∃ s', attempt pair bootstrap (some (.inCommit 3,.lost true)) answered (fresh vacant) =
      some (s',.stopped (.inCommit 3) (.lost true)) ∧ s'.target ≠ vacant) ∧
    ∃ s', attempt pair bootstrap none ⟨fun _ => some (.lost false),true⟩ (fresh vacant) = some (s',.unreleased) ∧ s'.target ≠ vacant := by
  constructor
  · refine ⟨_,rfl,fun same => ?_⟩
    exact absurd (congrArg List.length (congrFun same authors)) (by decide)
  · refine ⟨_,rfl,fun same => ?_⟩
    exact absurd (congrArg List.length (congrFun same authors)) (by decide)

end Replicare.MysqlApply
