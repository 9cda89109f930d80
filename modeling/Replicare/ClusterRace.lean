import Replicare.Mesh
import Replicare.MeshTrigger

/-! The statements of the cluster apply under READ COMMITTED, interleaved with local
transactions. -/
namespace Replicare.ClusterRace
open Engine LastWriter Hlc MeshApply MeshTrigger Runs List Function

variable {K V N : Type*} [DecidableEq K] [LinearOrder N]

structure Columns (V : Type*) where
  update : Bool
  same : update = false → ∀ x y : V, x = y

inductive Stage (K V N : Type*) where
  | staged
  | values (todo : List (Record K V N))
  | registers (todo : List (Record K V N))
  | observed
  | deleted
  | tombstoned
  | finished
  | committed

/- `log` collects what the local transactions wrote; no step reads it. -/
structure State (K V N : Type*) where
  tables : MeshTrigger.Tables K V N
  stage : Stage K V N
  locked : K → Bool
  clockLocked : Bool
  log : List (Record K V N)

inductive Action (K V : Type*) where
  | write (pt : Int) (c : Change K V)
  | advance (pt : Int)

def aliveWinners (register : K → Option (Entry N)) (stg : List (Record K V N)) : List (Record K V N) :=
  stg.filter fun r => meshVersionGreater register r && !r.deleted

def records (c : Change K V) (t : MeshTrigger.Tables K V N) : List (Record K V N) :=
  c.event.keys.map fun k => ⟨k,Clock.version t.clock t.node,t.rows k⟩

def State.replica (s : State K V N) : Replica K V N := ⟨s.tables.rows,s.tables.register⟩

def State.withRows (s : State K V N) (rows : K → Option V) (stage : Stage K V N) : State K V N :=
  { s with tables := { s.tables with rows := rows }, stage := stage }

def State.withRegister (s : State K V N) (register : K → Option (Entry N)) (stage : Stage K V N) : State K V N :=
  { s with tables := { s.tables with register := register }, stage := stage }

def State.lock (s : State K V N) (k : K) : State K V N := { s with locked := update s.locked k true }

section Step
variable (cols : Columns V) (phase : MeshApply.Phase) (stg : List (Record K V N))

/- INSERT ... ON CONFLICT for one winner: the conflicting row is updated and locked, or
left alone. -/
def upsertRow (s : State K V N) (r : Record K V N) (todo : List (Record K V N)) : State K V N :=
  if cols.update || (s.tables.rows r.key).isNone then
    (s.withRows (update s.tables.rows r.key r.row) (.values todo)).lock r.key
  else { s with stage := .values todo }

def registerRow (s : State K V N) (r : Record K V N) (todo : List (Record K V N)) : State K V N :=
  (s.withRegister (update s.tables.register r.key (some ⟨r.version,false⟩)) (.registers todo)).lock r.key

/- `hlc_observe` is called, and takes the lock, if anything is staged. -/
def observe (s : State K V N) (pt : Int) (stage : Stage K V N) : State K V N :=
  { s with
    tables := { s.tables with clock := Mesh.observeFromStaging s.tables.clock pt stg }
    stage := stage
    clockLocked := s.clockLocked || !stg.isEmpty }

def advance (s : State K V N) (pt : Int) : Option (State K V N) :=
  match s.stage with
  | .staged => some { s with stage := .values (aliveWinners s.tables.register stg) }
  | .values (r::todo) => some (upsertRow cols s r todo)
  | .values [] => some { s with stage := .registers (aliveWinners s.tables.register stg) }
  | .registers (r::todo) => some (registerRow s r todo)
  | .registers [] => some (observe stg s pt .observed)
  | .observed =>
      match phase with
      | .upsert => some { s with stage := .committed }
      | .delete => some (s.withRows
          (clusterTombstoneDelete (stg.filter (meshVersionGreater s.tables.register)) s.tables.rows) .deleted)
  | .deleted => some (s.withRegister
      (clusterRegisterUpsert true (stg.filter (meshVersionGreater s.tables.register)) s.tables.register) .tombstoned)
  | .tombstoned => some (observe stg s pt .finished)
  | .finished => some { s with stage := .committed }
  | .committed => none

def Stage.over : Stage K V N → Bool
  | .committed => true
  | _ => false

def write (s : State K V N) (pt : Int) (c : Change K V) : Option (State K V N) :=
  if s.stage.over || s.clockLocked || c.event.keys.any s.locked then none
  else (MeshTrigger.step .postgres s.tables (pt,c)).map fun t =>
    { s with tables := t, log := s.log++records c t }

def step (s : State K V N) : Action K V → Option (State K V N)
  | .write pt c => write s pt c
  | .advance pt => advance cols phase stg s pt

end Step

def start (tables : MeshTrigger.Tables K V N) : State K V N := ⟨tables,.staged,fun _ => false,false,[]⟩

section View

structure View (K V N : Type*) where
  row : Option V
  entry : Option (Entry N)
  won : Option (Record K V N)

def view (history : List (Record K V N)) (s : State K V N) (k : K) : View K V N :=
  ⟨s.tables.rows k,s.tables.register k,winner (history++s.log) k⟩

def beats (e : Option (Entry N)) (r : Record K V N) : Bool :=
  match e with
  | none => true
  | some e => decide (e.version < r.version)

def Plain (base : K → Option V) (k : K) (v : View K V N) : Prop :=
  v.entry = v.won.map Record.entry ∧ v.row = shown base k v.won

def Half (r : Record K V N) (v : View K V N) : Prop :=
  v.entry = v.won.map Record.entry ∧ beats v.entry r = true ∧ v.row = r.row

def Done (r : Record K V N) (v : View K V N) : Prop :=
  v.entry = some r.entry ∧ v.row = r.row ∧ absorb Record.version v.won r = some r

/- Value and version are those of the newest write, with `r` among them. -/
def Settled (base : K → Option V) (r : Record K V N) (v : View K V N) : Prop :=
  v.entry = (absorb Record.version v.won r).map Record.entry ∧ v.row = shown base r.key (absorb Record.version v.won r)

variable {base : K → Option V} {k : K} {v : View K V N} {r : Record K V N}

omit [DecidableEq K]

theorem absorbEntry (same : v.entry = v.won.map Record.entry) :
    absorb Record.version v.won r = if beats v.entry r then some r else v.won := by
  unfold beats
  rw [same]
  cases v.won with
  | none => rfl
  | some h => by_cases newer : h.version < r.version <;> simp [absorb,Record.entry,newer]

theorem ownLoses : beats (some r.entry) r = false := by simp [beats,Record.entry]

theorem plainSettled (plain : Plain base r.key v) (loses : beats v.entry r = false) : Settled base r v := by
  unfold Settled
  rw [absorbEntry plain.1,loses]
  exact plain

theorem doneSettled (done : Done r v) : Settled base r v := by
  unfold Settled
  rw [done.2.2]
  exact ⟨done.1,done.2.1⟩

theorem halfDone (half : Half r v) : Done r { v with entry := some r.entry } := by
  obtain ⟨same,wins,row⟩ := half
  refine ⟨rfl,row,?_⟩
  rw [absorbEntry same,wins]
  rfl

end View

inductive Advanced (cols : Columns V) (phase : MeshApply.Phase) (stg : List (Record K V N)) (s : State K V N) :
    State K V N → Prop where
  | staged (here : s.stage = .staged) :
      Advanced cols phase stg s { s with stage := .values (aliveWinners s.tables.register stg) }
  | value {r todo} (here : s.stage = .values (r::todo)) : Advanced cols phase stg s (upsertRow cols s r todo)
  | valued (here : s.stage = .values []) :
      Advanced cols phase stg s { s with stage := .registers (aliveWinners s.tables.register stg) }
  | register {r todo} (here : s.stage = .registers (r::todo)) : Advanced cols phase stg s (registerRow s r todo)
  | observe {pt} (here : s.stage = .registers []) : Advanced cols phase stg s (observe stg s pt .observed)
  | upserted (here : s.stage = .observed) (only : phase = .upsert) :
      Advanced cols phase stg s { s with stage := .committed }
  | delete (here : s.stage = .observed) (both : phase = .delete) : Advanced cols phase stg s (s.withRows
      (clusterTombstoneDelete (stg.filter (meshVersionGreater s.tables.register)) s.tables.rows) .deleted)
  | tombstone (here : s.stage = .deleted) : Advanced cols phase stg s (s.withRegister
      (clusterRegisterUpsert true (stg.filter (meshVersionGreater s.tables.register)) s.tables.register) .tombstoned)
  | again {pt} (here : s.stage = .tombstoned) : Advanced cols phase stg s (ClusterRace.observe stg s pt .finished)
  | commit (here : s.stage = .finished) : Advanced cols phase stg s { s with stage := .committed }

theorem advanced {cols : Columns V} {phase} {stg : List (Record K V N)} {s t : State K V N} {pt}
    (ok : advance cols phase stg s pt = some t) : Advanced cols phase stg s t := by
  unfold advance at ok
  split at ok
  · cases ok; exact .staged (by assumption)
  · cases ok; exact .value (by assumption)
  · cases ok; exact .valued (by assumption)
  · cases ok; exact .register (by assumption)
  · cases ok; exact .observe (by assumption)
  · split at ok
    · cases ok; exact .upserted (by assumption) rfl
    · cases ok; exact .delete (by assumption) rfl
  · cases ok; exact .tombstone (by assumption)
  · cases ok; exact .again (by assumption)
  · cases ok; exact .commit (by assumption)
  · cases ok

def Shielded (s : State K V N) (k : K) : Prop := s.locked k = true ∨ s.clockLocked = true

/- What the commit of a local transaction does. -/
structure Wrote (history : List (Record K V N)) (s : State K V N) (t : State K V N) (keys : List K) : Prop where
  stage : t.stage = s.stage
  locked : t.locked = s.locked
  clockLocked : t.clockLocked = s.clockLocked
  running : s.stage ≠ .committed
  free : s.clockLocked = false
  open_ : ∀ k ∈ keys, ¬Shielded s k
  later : s.tables.clock < t.tables.clock
  fresh : ∀ k ∈ keys, ∃ e, t.tables.register k = some e ∧ e.version.stamp = t.tables.clock
  frame : ∀ k, k ∉ keys → view history t k = view history s k
  plain : ∀ (base : K → Option V), ∀ k ∈ keys, (view history s k).entry = (view history s k).won.map Record.entry →
    (∀ e, s.tables.register k = some e → e.version.stamp ≤ s.tables.clock) → Plain base k (view history t k)

theorem wrote {history : List (Record K V N)} {s t : State K V N} {pt c} (ok : write s pt c = some t) :
    Wrote history s t c.event.keys := by
  unfold write at ok
  split at ok <;> try contradiction
  rename_i free
  simp only [Bool.or_eq_true,not_or,Bool.not_eq_true,any_eq_false] at free
  obtain ⟨u,stepped_,rfl⟩ := Option.map_eq_some_iff.mp ok
  have done := stepped stepped_
  have recordsDistinct : ((records c u).map Record.key).Nodup := by
    have keys : (records c u).map Record.key = c.event.keys := by simp [records,comp_def]
    rw [keys]
    exact keysDistinct c.event
  have running : s.stage ≠ .committed := fun ended => by
    have still := free.1.1
    rw [ended] at still
    cases still
  refine ⟨rfl,rfl,rfl,running,free.1.2,fun k mem shielded => ?_,done.later,fun k mem => ⟨_,done.stamped k mem,rfl⟩,
    fun k out => ?_,fun base k mem same low => ?_⟩
  · rcases shielded with locked | clock
    · exact absurd locked (by simp [free.2 k mem])
    · exact absurd clock (by simp [free.1.2])
  · have apart : ∀ r ∈ records c u, r.key ≠ k := by
      intro r mem same
      obtain ⟨x,inside,rfl⟩ := mem_map.mp mem
      exact out (same ▸ inside)
    simp only [view,done.rows k out,done.register k out,← append_assoc,winnerFrame apart]
  · have listed : (⟨k,Clock.version u.clock u.node,u.rows k⟩ : Record K V N) ∈ records c u :=
      mem_map.mpr ⟨k,mem,rfl⟩
    have newest : winner (history++(s.log++records c u)) k = some ⟨k,Clock.version u.clock u.node,u.rows k⟩ := by
      rw [← append_assoc,winnerOffer recordsDistinct listed]
      have absorbed := absorbEntry (r := ⟨k,Clock.version u.clock u.node,u.rows k⟩) same
      have wins : beats (view history s k).entry ⟨k,Clock.version u.clock u.node,u.rows k⟩ = true := by
        cases entry : s.tables.register k with
        | none => simp [view,entry,beats]
        | some e =>
          have above : e.version < Clock.version u.clock u.node := stampLt (lt_of_le_of_lt (low e entry) done.later)
          simp [view,entry,beats,above]
      rw [wins,if_pos rfl] at absorbed
      exact absorbed
    simp only [Plain,view]
    rw [newest,done.stamped k mem]
    exact ⟨rfl,rfl⟩

def Calm (cols : Columns V) (s : State K V N) : Action K V → Prop
  | .write _ _ => True
  | .advance _ =>
      match s.stage with
      | .values (r::_) => beats (s.tables.register r.key) r = true ∨ s.tables.rows r.key = r.row
      | .registers (r::_) => cols.update = false → s.tables.rows r.key = r.row ∧
          (beats (s.tables.register r.key) r = true ∨ s.tables.register r.key = some r.entry)
      | _ => True

section Invariant
variable (cols : Columns V) (phase : MeshApply.Phase) (stg : List (Record K V N))
variable (base : K → Option V) (history : List (Record K V N))

structure Each (waiting : Record K V N → Prop) (s : State K V N) : Prop where
  keys : ∀ k, Plain base k (view history s k) ∨ ∃ r ∈ effective phase stg, r.key = k ∧
    (Half r (view history s k) ∧ waiting r ∨ Done r (view history s k) ∧ Shielded s k)
  below : ∀ k e, s.tables.register k = some e → Shielded s k ∨ e.version.stamp ≤ s.tables.clock

def Loses (s : State K V N) (r : Record K V N) : Prop := beats (s.tables.register r.key) r = false

structure Todo (todo : List (Record K V N)) : Prop where
  inside : ∀ r ∈ todo, r ∈ stg ∧ r.deleted = false
  distinct : (todo.map Record.key).Nodup

structure Valuing (left : List (Record K V N)) (s : State K V N) : Prop where
  each : Each phase stg base history (fun r => r.deleted = false) s
  todo : Todo stg left
  covers : cols.update = true → ∀ r ∈ stg, r.deleted = false → Loses s r ∨ r ∈ left ∨
    (Shielded s r.key ∧ s.tables.rows r.key = r.row)

structure Registering (left : List (Record K V N)) (s : State K V N) : Prop where
  each : Each phase stg base history (fun r => r ∈ left) s
  todo : Todo stg left
  rest : ∀ r ∈ stg, r.deleted = false → Loses s r ∨ r ∈ left
  held : cols.update = true → ∀ r ∈ left, Shielded s r.key ∧ s.tables.rows r.key = r.row ∧ ¬Loses s r

/- Once the clock has observed the staging, local transactions wait. -/
structure Closing (waiting settled : Record K V N → Prop) (s : State K V N) : Prop where
  each : Each phase stg base history waiting s
  closed : s.clockLocked = true ∨ stg = []
  rest : ∀ r ∈ stg, settled r → Loses s r

def Inv (s : State K V N) : Prop :=
  match s.stage with
  | .staged => Each phase stg base history (fun _ => False) s
  | .values todo => Valuing cols phase stg base history todo s
  | .registers todo => Registering cols phase stg base history todo s
  | .observed => Closing phase stg base history (fun _ => False) (fun r => r.deleted = false) s
  | .deleted => phase = .delete ∧
      Closing phase stg base history (fun r => r.deleted = true) (fun r => r.deleted = false) s ∧
      ∀ r ∈ stg, r.deleted = true → ¬Loses s r → s.tables.rows r.key = none
  | .tombstoned => phase = .delete ∧ Closing phase stg base history (fun _ => False) (fun _ => True) s
  | .finished => phase = .delete ∧ Closing phase stg base history (fun _ => False) (fun _ => True) s
  | .committed => Shows base (history++s.log++effective phase stg) s.replica

end Invariant

section Keeps
variable {cols : Columns V} {phase : MeshApply.Phase} {stg : List (Record K V N)}
variable {base : K → Option V} {history : List (Record K V N)} {s t : State K V N} {keys : List K}

theorem Wrote.shielded (done : Wrote history s t keys) (k) : Shielded t k ↔ Shielded s k := by
  unfold Shielded
  rw [done.locked,done.clockLocked]

theorem eachWrite {waiting} (each : Each phase stg base history waiting s)
    (done : Wrote history s t keys) : Each phase stg base history waiting t := by
  have old : ∀ k ∉ keys, t.tables.register k = s.tables.register k :=
    fun k out => congrArg View.entry (done.frame k out)
  refine ⟨fun k => ?_,fun k e entry => ?_⟩
  · by_cases touched : k ∈ keys
    · have free := done.open_ k touched
      have low : ∀ e, s.tables.register k = some e → e.version.stamp ≤ s.tables.clock :=
        fun e entry => (each.below k e entry).resolve_left free
      refine .inl (done.plain base k touched ?_ low)
      rcases each.keys k with plain | ⟨r,_,_,⟨half,_⟩ | ⟨_,shielded⟩⟩
      · exact plain.1
      · exact half.1
      · exact absurd shielded free
    · rw [done.frame k touched]
      simpa only [done.shielded] using each.keys k
  · by_cases touched : k ∈ keys
    · obtain ⟨d,stored,stamp⟩ := done.fresh k touched
      cases stored.symm.trans entry
      exact .inr (le_of_eq stamp)
    · rw [old k touched] at entry
      rw [done.shielded]
      exact (each.below k e entry).imp id fun low => le_trans low (le_of_lt done.later)

theorem losesWrite {waiting} (each : Each phase stg base history waiting s)
    (done : Wrote history s t keys) {r} (loses : Loses s r) : Loses t r := by
  by_cases touched : r.key ∈ keys
  · obtain ⟨d,stored,stamp⟩ := done.fresh r.key touched
    unfold Loses beats at loses ⊢
    cases entry : s.tables.register r.key with
    | none => simp [entry] at loses
    | some e =>
      have low := (each.below r.key e entry).resolve_left (done.open_ r.key touched)
      have above : e.version < d.version := stampLt (lt_of_le_of_lt low (stamp.symm ▸ done.later))
      simp only [entry,decide_eq_false_iff_not,not_lt] at loses
      simp only [stored,decide_eq_false_iff_not,not_lt]
      exact le_trans loses (le_of_lt above)
  · unfold Loses at loses ⊢
    rw [show t.tables.register r.key = s.tables.register r.key from congrArg View.entry (done.frame _ touched)]
    exact loses

theorem rowWrite (done : Wrote history s t keys) {k} (shielded : Shielded s k) : view history t k = view history s k :=
  done.frame k fun touched => done.open_ k touched shielded

theorem closingWrite {waiting settled} (closing : Closing phase stg base history waiting settled s)
    (done : Wrote history s t keys) : Closing phase stg base history waiting settled t := by
  have empty : stg = [] := closing.closed.resolve_left fun locked => by
    rw [done.free] at locked
    cases locked
  refine ⟨eachWrite closing.each done,.inr empty,fun r mem => ?_⟩
  rw [empty] at mem
  cases mem

theorem invWrite (inv : Inv cols phase stg base history s) (done : Wrote history s t keys) :
    Inv cols phase stg base history t := by
  unfold Inv at inv ⊢
  rw [done.stage]
  cases stage : s.stage with
  | staged =>
    rw [stage] at inv
    exact eachWrite inv done
  | values left =>
    rw [stage] at inv
    refine ⟨eachWrite inv.each done,inv.todo,fun update r mem alive => ?_⟩
    rcases inv.covers update r mem alive with loses | listed | ⟨shielded,row⟩
    · exact .inl (losesWrite inv.each done loses)
    · exact .inr (.inl listed)
    · have same := congrArg View.row (rowWrite done shielded)
      exact .inr (.inr ⟨(done.shielded _).mpr shielded,same.trans row⟩)
  | registers left =>
    rw [stage] at inv
    refine ⟨eachWrite inv.each done,inv.todo,fun r mem alive => ?_,fun update r listed => ?_⟩
    · exact (inv.rest r mem alive).imp (losesWrite inv.each done) id
    · obtain ⟨shielded,row,wins⟩ := inv.held update r listed
      have same := rowWrite done shielded
      have entry : t.tables.register r.key = s.tables.register r.key := congrArg View.entry same
      refine ⟨(done.shielded _).mpr shielded,(congrArg View.row same).trans row,fun loses => wins ?_⟩
      unfold Loses at loses ⊢
      rw [← entry]
      exact loses
  | observed =>
    rw [stage] at inv
    exact closingWrite inv done
  | deleted =>
    rw [stage] at inv
    have next := closingWrite inv.2.1 done
    refine ⟨inv.1,next,fun r mem => ?_⟩
    rw [next.closed.resolve_left fun locked => by rw [done.clockLocked,done.free] at locked; cases locked] at mem
    cases mem
  | committed => exact absurd stage done.running
  | _ =>
    rw [stage] at inv
    exact ⟨inv.1,closingWrite inv.2 done⟩

omit [DecidableEq K] in
theorem aliveTodo (distinct : (stg.map Record.key).Nodup) (register) : Todo stg (aliveWinners register stg) := by
  refine ⟨fun r mem => ?_,distinct.sublist (filter_sublist.map Record.key)⟩
  obtain ⟨inside,passes⟩ := mem_filter.mp mem
  exact ⟨inside,by simpa using ((Bool.and_eq_true _ _).mp passes).2⟩

omit [DecidableEq K] in
theorem aliveMem {register r} (mem : r ∈ stg) (alive : r.deleted = false)
    (wins : beats (register r.key) r = true) : r ∈ aliveWinners register stg := by
  refine mem_filter.mpr ⟨mem,?_⟩
  rw [show meshVersionGreater register r = true from wins,alive]
  rfl

omit [DecidableEq K] in
theorem aliveWins {register r} (mem : r ∈ aliveWinners register stg) : beats (register r.key) r = true :=
  ((Bool.and_eq_true _ _).mp (mem_filter.mp mem).2).1

omit [DecidableEq K] [LinearOrder N] in
theorem effectiveAlive {r} (mem : r ∈ stg) (alive : r.deleted = false) : r ∈ effective phase stg :=
  memEffective.mpr ⟨mem,by simp [alive]⟩

theorem Each.mono {waiting other} (each : Each phase stg base history waiting s)
    (same : ∀ k, view history t k = view history s k) (shielded : ∀ k, Shielded s k → Shielded t k)
    (clock : ∀ k, Shielded t k ∨ s.tables.clock ≤ t.tables.clock)
    (more : ∀ r ∈ effective phase stg, beats (s.tables.register r.key) r = true → waiting r → other r) :
    Each phase stg base history other t := by
  refine ⟨fun k => ?_,fun k e entry => ?_⟩
  · rw [same k]
    rcases each.keys k with plain | ⟨r,mem,rfl,⟨half,waits⟩ | ⟨done,shut⟩⟩
    · exact .inl plain
    · exact .inr ⟨r,mem,rfl,.inl ⟨half,more r mem half.2.1 waits⟩⟩
    · exact .inr ⟨r,mem,rfl,.inr ⟨done,shielded _ shut⟩⟩
  · rw [show t.tables.register k = s.tables.register k from congrArg View.entry (same k)] at entry
    rcases each.below k e entry with shut | low
    · exact .inl (shielded k shut)
    · exact (clock k).imp id fun later => le_trans low later

theorem Each.open_ {waiting} (distinct : (stg.map Record.key).Nodup)
    (each : Each phase stg base history waiting s) {r} (mem : r ∈ stg)
    (wins : beats (s.tables.register r.key) r = true) :
    (view history s r.key).entry = (view history s r.key).won.map Record.entry := by
  rcases each.keys r.key with plain | ⟨q,inside,key,⟨half,_⟩ | ⟨done,_⟩⟩
  · exact plain.1
  · exact half.1
  · cases inj_on_of_nodup_map distinct ((effectiveSublist phase stg).subset inside) mem key
    have entry : s.tables.register r.key = some r.entry := done.1
    rw [entry,ownLoses] at wins
    cases wins

omit [LinearOrder N] in
theorem upsertRowAt (cols : Columns V) (s : State K V N) {r : Record K V N} (todo) (alive : r.deleted = false) (k) :
    (upsertRow cols s r todo).tables.rows k = if k = r.key then r.row else s.tables.rows k := by
  unfold upsertRow
  split
  · show update s.tables.rows r.key r.row k = _
    by_cases same : k = r.key
    · rw [if_pos same,same,update_self]
    · rw [if_neg same,update_of_ne same]
  · rename_i kept
    simp only [Bool.or_eq_true,not_or,Bool.not_eq_true] at kept
    split
    · rename_i same
      subst same
      obtain ⟨x,held⟩ := Option.isSome_iff_exists.mp (by simpa using kept.2)
      obtain ⟨y,staged⟩ := Option.isSome_iff_exists.mp (by simpa [Record.deleted] using alive)
      rw [show (⟨s.tables,.values todo,s.locked,s.clockLocked,s.log⟩ : State K V N).tables.rows r.key = s.tables.rows r.key
        from rfl,held,staged,cols.same kept.1 x y]
    · rfl

omit [LinearOrder N] in
theorem upsertRowRest (cols : Columns V) (s : State K V N) (r : Record K V N) (todo) :
    (upsertRow cols s r todo).tables.register = s.tables.register ∧
    (upsertRow cols s r todo).tables.clock = s.tables.clock ∧ (upsertRow cols s r todo).log = s.log ∧
    (∀ k, Shielded s k → Shielded (upsertRow cols s r todo) k) ∧
    ((cols.update = true ∨ s.tables.rows r.key = none) → (upsertRow cols s r todo).locked r.key = true) ∧
    (upsertRow cols s r todo).stage = .values todo := by
  unfold upsertRow
  split
  · refine ⟨rfl,rfl,rfl,fun k shut => shut.imp (fun locked => ?_) id,fun _ => update_self ..,rfl⟩
    show update s.locked r.key true k = true
    by_cases same : k = r.key
    · rw [same,update_self]
    · rw [update_of_ne same]
      exact locked
  · rename_i kept
    simp only [Bool.or_eq_true,not_or,Bool.not_eq_true] at kept
    refine ⟨rfl,rfl,rfl,fun k shut => shut,fun written => ?_,rfl⟩
    rcases written with update | absent
    · rw [kept.1] at update
      cases update
    · rw [absent] at kept
      exact absurd kept.2 (by simp)

omit [DecidableEq K] [LinearOrder N] in
theorem Todo.tail {r todo} (all : Todo stg (r::todo)) : Todo stg todo :=
  ⟨fun q mem => all.inside q (mem_cons_of_mem _ mem),(nodup_cons.mp all.distinct).2⟩

omit [DecidableEq K] [LinearOrder N] in
theorem Todo.apart {r q todo} (all : Todo stg (r::todo)) (mem : q ∈ todo) : q.key ≠ r.key :=
  fun same => (nodup_cons.mp all.distinct).1 (mem_map.mpr ⟨q,mem,same⟩)

section
variable (distinct : (stg.map Record.key).Nodup)
include distinct

theorem valueKeeps {r : Record K V N} {todo} (inv : Valuing cols phase stg base history (r::todo) s)
    (calm : beats (s.tables.register r.key) r = true ∨ s.tables.rows r.key = r.row) :
    Valuing cols phase stg base history todo (upsertRow cols s r todo) := by
  obtain ⟨mem,alive⟩ := inv.todo.inside r mem_cons_self
  obtain ⟨register,clock,log,shut,own,_⟩ := upsertRowRest cols s r todo
  have rows := upsertRowAt cols s todo alive
  have other : ∀ k, k ≠ r.key → view history (upsertRow cols s r todo) k = view history s k := by
    intro k apart
    simp only [view,rows k,if_neg apart,register,log]
  have here : view history (upsertRow cols s r todo) r.key = { view history s r.key with row := r.row } := by
    simp only [view,rows r.key,if_true,register,log]
  refine ⟨⟨fun k => ?_,fun k e entry => ?_⟩,inv.todo.tail,fun update q inside alive => ?_⟩
  · by_cases same : k = r.key
    · subst same
      rcases calm with wins | found
      · -- still a winner: its version comes with the register statement
        rw [here]
        exact .inr ⟨r,effectiveAlive mem alive,rfl,.inl ⟨⟨inv.each.open_ distinct mem wins,wins,rfl⟩,alive⟩⟩
      · rw [here,show ({ view history s r.key with row := r.row } : View K V N) = view history s r.key by
          rw [← found]
          rfl]
        rcases inv.each.keys r.key with plain | ⟨q,inside,key,half | ⟨done,shielded⟩⟩
        · exact .inl plain
        · exact .inr ⟨q,inside,key,.inl half⟩
        · exact .inr ⟨q,inside,key,.inr ⟨done,shut _ shielded⟩⟩
    · rw [other k same]
      rcases inv.each.keys k with plain | ⟨q,inside,key,half | ⟨done,shielded⟩⟩
      · exact .inl plain
      · exact .inr ⟨q,inside,key,.inl half⟩
      · exact .inr ⟨q,inside,key,.inr ⟨done,shut _ shielded⟩⟩
  · rw [register] at entry
    rw [clock]
    exact (inv.each.below k e entry).imp (shut k) id
  · have entry : Loses s q → Loses (upsertRow cols s r todo) q := by
      unfold Loses
      rw [register]
      exact id
    by_cases same : q.key = r.key
    · cases inj_on_of_nodup_map distinct inside mem same
      refine .inr (.inr ⟨.inl (own (.inl update)),?_⟩)
      rw [rows,if_pos rfl]
    · rcases inv.covers update q inside alive with loses | listed | ⟨shielded,row⟩
      · exact .inl (entry loses)
      · rcases mem_cons.mp listed with rfl | later
        · exact absurd rfl same
        · exact .inr (.inl later)
      · refine .inr (.inr ⟨shut _ shielded,?_⟩)
        rw [rows,if_neg same]
        exact row

theorem valuedKeeps (inv : Valuing cols phase stg base history [] s) :
    Registering cols phase stg base history (aliveWinners s.tables.register stg)
      { s with stage := .registers (aliveWinners s.tables.register stg) } := by
  refine ⟨inv.each.mono (fun _ => rfl) (fun _ shut => shut) (fun _ => .inr (le_refl _)) fun r mem wins alive => ?_,
    aliveTodo distinct _,fun r mem alive => ?_,fun update r listed => ?_⟩
  · exact aliveMem ((effectiveSublist phase stg).subset mem) alive wins
  · rcases Bool.eq_false_or_eq_true (beats (s.tables.register r.key) r) with wins | loses
    · exact .inr (aliveMem mem alive wins)
    · exact .inl loses
  · have wins := aliveWins listed
    obtain ⟨mem,alive⟩ := (aliveTodo distinct _).inside r listed
    rcases inv.covers update r mem alive with loses | listed | ⟨shielded,row⟩
    · exact absurd (wins.symm.trans loses) (by simp)
    · cases listed
    · exact ⟨shielded,row,fun loses => absurd (wins.symm.trans loses) (by simp)⟩

theorem registerKeeps {r todo} (inv : Registering cols phase stg base history (r::todo) s)
    (calm : s.tables.rows r.key = r.row ∧
      (beats (s.tables.register r.key) r = true ∨ s.tables.register r.key = some r.entry)) :
    Registering cols phase stg base history todo (registerRow s r todo) := by
  obtain ⟨mem,alive⟩ := inv.todo.inside r mem_cons_self
  have written : (some ⟨r.version,false⟩ : Option (Entry N)) = some r.entry := by rw [Record.entry,alive]
  have register : ∀ k, (registerRow s r todo).tables.register k =
      if k = r.key then some r.entry else s.tables.register k := by
    intro k
    show update s.tables.register r.key (some ⟨r.version,false⟩) k = _
    by_cases same : k = r.key
    · rw [if_pos same,same,update_self,written]
    · rw [if_neg same,update_of_ne same]
  have shut : ∀ k, Shielded s k → Shielded (registerRow s r todo) k := by
    rintro k (locked | clock)
    · left
      show update s.locked r.key true k = true
      by_cases same : k = r.key
      · rw [same,update_self]
      · rw [update_of_ne same]
        exact locked
    · exact .inr clock
  have own : Shielded (registerRow s r todo) r.key := .inl (update_self ..)
  have other : ∀ k, k ≠ r.key → view history (registerRow s r todo) k = view history s k := by
    intro k apart
    have entry := register k
    rw [if_neg apart] at entry
    exact View.mk.injEq .. ▸ ⟨rfl,entry,rfl⟩
  have here : view history (registerRow s r todo) r.key = { view history s r.key with entry := some r.entry } := by
    have entry := register r.key
    rw [if_pos rfl] at entry
    exact View.mk.injEq .. ▸ ⟨rfl,entry,rfl⟩
  refine ⟨⟨fun k => ?_,fun k e entry => ?_⟩,inv.todo.tail,fun q inside alive => ?_,fun update q listed => ?_⟩
  · by_cases same : k = r.key
    · subst same
      rcases calm.2 with wins | stored
      · rw [here]
        have half : Half r (view history s r.key) := ⟨inv.each.open_ distinct mem wins,wins,calm.1⟩
        exact .inr ⟨r,effectiveAlive mem alive,rfl,.inr ⟨halfDone half,own⟩⟩
      · rw [here,show ({ view history s r.key with entry := some r.entry } : View K V N) = view history s r.key by
          rw [← stored]
          rfl]
        rcases inv.each.keys r.key with plain | ⟨q,inside,key,⟨half,_⟩ | ⟨done,_⟩⟩
        · exact .inl plain
        · cases inj_on_of_nodup_map distinct ((effectiveSublist phase stg).subset inside) mem key
          have wins : beats (s.tables.register r.key) r = true := half.2.1
          rw [stored,ownLoses] at wins
          cases wins
        · exact .inr ⟨q,inside,key,.inr ⟨done,own⟩⟩
    · rw [other k same]
      rcases inv.each.keys k with plain | ⟨q,inside,key,⟨half,waits⟩ | ⟨done,shielded⟩⟩
      · exact .inl plain
      · rcases mem_cons.mp waits with rfl | later
        · exact absurd key.symm same
        · exact .inr ⟨q,inside,key,.inl ⟨half,later⟩⟩
      · exact .inr ⟨q,inside,key,.inr ⟨done,shut _ shielded⟩⟩
  · by_cases same : k = r.key
    · exact .inl (same ▸ own)
    · rw [register,if_neg same] at entry
      exact (inv.each.below k e entry).imp (shut k) id
  · by_cases same : q.key = r.key
    · cases inj_on_of_nodup_map distinct inside mem same
      left
      unfold Loses
      rw [register,if_pos rfl,ownLoses]
    · rcases inv.rest q inside alive with loses | listed
      · left
        unfold Loses
        rw [register,if_neg same]
        exact loses
      · rcases mem_cons.mp listed with rfl | later
        · exact absurd rfl same
        · exact .inr later
  · have apart := inv.todo.apart listed
    obtain ⟨shielded,row,wins⟩ := inv.held update q (mem_cons_of_mem _ listed)
    refine ⟨shut _ shielded,row,fun loses => wins ?_⟩
    unfold Loses at loses ⊢
    rw [register,if_neg apart] at loses
    exact loses

omit distinct in
theorem observeEach {waiting other} (each : Each phase stg base history waiting s) (pt stage)
    (more : ∀ r ∈ effective phase stg, waiting r → other r) :
    Each phase stg base history other (observe stg s pt stage) ∧
      ((observe stg s pt stage).clockLocked = true ∨ stg = []) := by
  have closed : (observe stg s pt stage).clockLocked = true ∨ stg = [] := by
    cases stg with
    | nil => exact .inr rfl
    | cons r rest => exact .inl (by simp [observe])
  refine ⟨each.mono (fun _ => rfl) (fun k shut => ?_) (fun k => ?_) fun r mem _ => more r mem,closed⟩
  · exact shut.imp id fun clock => by simp [observe,clock]
  · rcases closed with locked | empty
    · exact .inl (.inr locked)
    · refine .inr (le_of_eq ?_)
      subst empty
      rfl

omit distinct in
theorem observeKeeps (inv : Registering cols phase stg base history [] s) (pt) :
    Closing phase stg base history (fun _ => False) (fun r => r.deleted = false) (observe stg s pt .observed) := by
  obtain ⟨each,closed⟩ := observeEach inv.each pt .observed fun r _ waits => not_mem_nil waits
  exact ⟨each,closed,fun r mem alive => (inv.rest r mem alive).resolve_right not_mem_nil⟩

theorem deleteRows (s) (k) : (∃ r ∈ stg, r.key = k ∧ r.deleted = true ∧ ¬Loses s r ∧
      clusterTombstoneDelete (stg.filter (meshVersionGreater s.tables.register)) s.tables.rows k = none ∧
      clusterRegisterUpsert true (stg.filter (meshVersionGreater s.tables.register)) s.tables.register k = some r.entry) ∨
    (∀ r ∈ stg, r.key = k → r.deleted = true → Loses s r) ∧
      clusterTombstoneDelete (stg.filter (meshVersionGreater s.tables.register)) s.tables.rows k = s.tables.rows k ∧
      clusterRegisterUpsert true (stg.filter (meshVersionGreater s.tables.register)) s.tables.register k =
        s.tables.register k := by
  by_cases named : ∃ r ∈ stg, r.key = k
  · obtain ⟨r,mem,rfl⟩ := named
    have both := tombstonesAt (n := s.replica) distinct mem (meshVersionGreater s.tables.register)
    by_cases due : r.deleted = true ∧ ¬Loses s r
    · have wins : meshVersionGreater s.tables.register r = true := Bool.eq_true_of_not_eq_false due.2
      simp only [wins,due.1,Bool.and_self,if_true,Prod.mk.injEq] at both
      refine .inl ⟨r,mem,rfl,due.1,due.2,both.1,both.2.trans ?_⟩
      rw [Record.entry,due.1]
    · have skipped : (meshVersionGreater s.tables.register r && r.deleted) = false := by
        rw [Bool.and_eq_false_iff]
        by_cases gone : r.deleted = true
        · exact .inl (not_not.mp fun wins => due ⟨gone,wins⟩)
        · exact .inr (by simpa using gone)
      rw [skipped] at both
      refine .inr ⟨fun q inside key gone => ?_,Prod.mk.inj both⟩
      cases inj_on_of_nodup_map distinct inside mem key
      exact not_not.mp fun wins => due ⟨gone,wins⟩
  · have apart : ∀ (p q : Record K V N → Bool), ∀ r ∈ (stg.filter q).filter p, r.key ≠ k :=
      fun p q r mem same => named ⟨r,(mem_filter.mp (mem_filter.mp mem).1).1,same⟩
    exact .inr ⟨fun r mem key => absurd ⟨r,mem,key⟩ named,writeAllFrame (apart _ _),writeAllFrame (apart _ _)⟩

theorem deleteKeeps (both : phase = .delete)
    (inv : Closing phase stg base history (fun _ => False) (fun r => r.deleted = false) s) :
    let t := s.withRows (clusterTombstoneDelete (stg.filter (meshVersionGreater s.tables.register)) s.tables.rows) .deleted
    Closing phase stg base history (fun r => r.deleted = true) (fun r => r.deleted = false) t ∧
      ∀ r ∈ stg, r.deleted = true → ¬Loses t r → t.tables.rows r.key = none := by
  intro t
  refine ⟨⟨⟨fun k => ?_,inv.each.below⟩,inv.closed,inv.rest⟩,fun r mem gone wins => ?_⟩
  · rcases deleteRows distinct s k with ⟨r,mem,rfl,gone,wins,row,_⟩ | ⟨_,row,_⟩
    · have due : beats (s.tables.register r.key) r = true := by simpa [Loses] using wins
      have entry := inv.each.open_ distinct mem due
      have listed : r ∈ effective phase stg := memEffective.mpr ⟨mem,by simp [both]⟩
      refine .inr ⟨r,listed,rfl,.inl ⟨⟨entry,due,?_⟩,gone⟩⟩
      exact row.trans (Option.isNone_iff_eq_none.mp gone).symm
    · have same : view history t k = view history s k := by
        simp only [view,t,State.withRows]
        rw [row]
      rw [same]
      rcases inv.each.keys k with plain | ⟨r,mem,key,⟨_,never⟩ | done⟩
      · exact .inl plain
      · cases never
      · exact .inr ⟨r,mem,key,.inr done⟩
  · rcases deleteRows distinct s r.key with ⟨_,_,_,_,_,row,_⟩ | ⟨lose,_⟩
    · exact row
    · exact absurd (lose r mem rfl gone) wins

theorem tombstoneKeeps (both : phase = .delete)
    (inv : Closing phase stg base history (fun r => r.deleted = true) (fun r => r.deleted = false) s)
    (gone : ∀ r ∈ stg, r.deleted = true → ¬Loses s r → s.tables.rows r.key = none) :
    Closing phase stg base history (fun _ => False) (fun _ => True) (s.withRegister
      (clusterRegisterUpsert true (stg.filter (meshVersionGreater s.tables.register)) s.tables.register) .tombstoned) := by
  have shut : ∀ k, (∃ r ∈ stg, r.key = k) → Shielded s k := by
    rintro k ⟨r,mem,_⟩
    refine .inr (inv.closed.resolve_right fun empty => ?_)
    rw [empty] at mem
    cases mem
  refine ⟨⟨fun k => ?_,fun k e entry => ?_⟩,inv.closed,fun r mem _ => ?_⟩
  · rcases deleteRows distinct s k with ⟨r,mem,rfl,dead,wins,_,entry⟩ | ⟨lose,_,entry⟩
    · have due : beats (s.tables.register r.key) r = true := by simpa [Loses] using wins
      have row : s.tables.rows r.key = r.row := (gone r mem dead wins).trans (Option.isNone_iff_eq_none.mp dead).symm
      have half : Half r (view history s r.key) := ⟨inv.each.open_ distinct mem due,due,row⟩
      refine .inr ⟨r,memEffective.mpr ⟨mem,by simp [both]⟩,rfl,.inr ⟨?_,shut _ ⟨r,mem,rfl⟩⟩⟩
      have shown_ := halfDone half
      exact ⟨entry,shown_.2.1,shown_.2.2⟩
    · have same : view history (s.withRegister (clusterRegisterUpsert true
          (stg.filter (meshVersionGreater s.tables.register)) s.tables.register) .tombstoned) k = view history s k := by
        simp only [view,State.withRegister]
        rw [entry]
      rw [same]
      rcases inv.each.keys k with plain | ⟨r,mem,key,⟨half,dead⟩ | done⟩
      · exact .inl plain
      · subst key
        have loses := lose r ((effectiveSublist phase stg).subset mem) rfl dead
        exact absurd (half.2.1.symm.trans loses) (by simp)
      · exact .inr ⟨r,mem,key,.inr done⟩
  · rcases deleteRows distinct s k with ⟨r,mem,key,_⟩ | ⟨_,_,same⟩
    · exact .inl (shut k ⟨r,mem,key⟩)
    · exact inv.each.below k e (same.symm.trans entry)
  · simp only [Loses,State.withRegister]
    rcases deleteRows distinct s r.key with ⟨q,inside,key,_,_,_,entry⟩ | ⟨lose,_,entry⟩
    · cases inj_on_of_nodup_map distinct inside mem key
      rw [entry,ownLoses]
    · rw [entry]
      cases dead : r.deleted with
      | true => exact lose r mem rfl dead
      | false => exact inv.rest r mem dead

theorem settledShows (each : Each phase stg base history (fun _ => False) s)
    (lose : ∀ r ∈ effective phase stg, Loses s r) : Shows base (history++s.log++effective phase stg) s.replica := by
  have separate := distinct.sublist ((effectiveSublist phase stg).map Record.key)
  intro k
  by_cases named : ∃ r ∈ effective phase stg, r.key = k
  · obtain ⟨r,mem,rfl⟩ := named
    rw [winnerOffer separate mem]
    have settled : Settled base r (view history s r.key) := by
      rcases each.keys r.key with plain | ⟨q,inside,key,⟨_,never⟩ | ⟨done,_⟩⟩
      · exact plainSettled plain (lose r mem)
      · cases never
      · cases inj_on_of_nodup_map separate inside mem key
        exact doneSettled done
    exact settled
  · rw [winnerFrame fun r mem same => named ⟨r,mem,same⟩]
    exact (each.keys k).resolve_right fun ⟨r,mem,key,_⟩ => named ⟨r,mem,key⟩

theorem invAdvance (inv : Inv cols phase stg base history s) {pt}
    (calm : Calm cols s (.advance pt)) (ok : advance cols phase stg s pt = some t) :
    Inv cols phase stg base history t := by
  unfold Inv at inv
  cases advanced ok with
  | staged here =>
    rw [here] at inv
    refine ⟨inv.mono (fun _ => rfl) (fun _ shut => shut) (fun _ => .inr (le_refl _)) fun _ _ _ never => never.elim,
      aliveTodo distinct _,fun _ r mem alive => ?_⟩
    rcases Bool.eq_false_or_eq_true (beats (s.tables.register r.key) r) with wins | loses
    · exact .inr (.inl (aliveMem mem alive wins))
    · exact .inl loses
  | @value r todo here =>
    rw [here] at inv
    simp only [Calm,here] at calm
    have next := valueKeeps distinct inv calm
    simpa only [Inv,(upsertRowRest cols s r todo).2.2.2.2.2] using next
  | valued here =>
    rw [here] at inv
    exact valuedKeeps distinct inv
  | @register r todo here =>
    rw [here] at inv
    simp only [Calm,here] at calm
    refine registerKeeps distinct inv ?_
    cases update : cols.update with
    | false => exact calm update
    | true =>
      obtain ⟨_,row,wins⟩ := inv.held update r mem_cons_self
      exact ⟨row,.inl (by simpa [Loses] using wins)⟩
  | observe here =>
    rw [here] at inv
    exact observeKeeps inv _
  | upserted here only =>
    rw [here] at inv
    have shows_ : Shows base (history++s.log++effective phase stg) s.replica := settledShows distinct inv.each ?_
    · exact shows_
    intro r mem
    obtain ⟨inside,alive⟩ := memEffective.mp mem
    exact inv.rest r inside (by simpa [only] using alive)
  | delete here both =>
    rw [here] at inv
    exact ⟨both,deleteKeeps distinct both inv⟩
  | tombstone here =>
    rw [here] at inv
    exact ⟨inv.1,tombstoneKeeps distinct inv.1 inv.2.1 inv.2.2⟩
  | again here =>
    rw [here] at inv
    obtain ⟨each,closed⟩ := observeEach inv.2.each _ .finished fun _ _ never => never
    exact ⟨inv.1,each,closed,inv.2.rest⟩
  | commit here =>
    rw [here] at inv
    have shows_ : Shows base (history++s.log++effective phase stg) s.replica :=
      settledShows distinct inv.2.each fun r mem => inv.2.rest r ((effectiveSublist phase stg).subset mem) trivial
    exact shows_

end

end Keeps

section Broken
variable {cols : Columns V} {phase : MeshApply.Phase} {stg : List (Record K V N)}
variable {base : K → Option V} {history : List (Record K V N)} {s t : State K V N} {r : Record K V N}

def Stage.todo : Stage K V N → List (Record K V N)
  | .values todo => todo
  | .registers todo => todo
  | _ => []

def Past (s : State K V N) (r : Record K V N) : Prop :=
  match s.stage with
  | .staged => False
  | .values todo => r ∉ todo ∧ Loses s r
  | .registers todo => r ∉ todo
  | _ => True

/- A locked key with the value of one writer and the version of another. -/
structure Broken (stg : List (Record K V N)) (base : K → Option V) (history : List (Record K V N)) (s : State K V N)
    (r : Record K V N) : Prop where
  mem : r ∈ stg
  alive : r.deleted = false
  locked : s.locked r.key = true
  listed : ∀ q ∈ s.stage.todo, q ∈ stg
  past : Past s r
  wrong : ¬Settled base r (view history s r.key)

theorem brokenWrite (broken : Broken stg base history s r) {keys} (done : Wrote history s t keys) :
    Broken stg base history t r := by
  have same := rowWrite done (.inl broken.locked)
  have entry : t.tables.register r.key = s.tables.register r.key := congrArg View.entry same
  refine ⟨broken.mem,broken.alive,done.locked ▸ broken.locked,done.stage ▸ broken.listed,?_,same ▸ broken.wrong⟩
  have past := broken.past
  unfold Past Loses at past ⊢
  rw [done.stage,entry]
  exact past

section
variable (distinct : (stg.map Record.key).Nodup)
include distinct

section
variable (broken : Broken stg base history s r)
include broken

theorem brokenAdvance {pt} (ok : advance cols phase stg s pt = some t) : Broken stg base history t r := by
  have past := broken.past
  have listed := broken.listed
  have frame : ∀ u : State K V N, view history u r.key = view history s r.key → u.locked r.key = true →
      (∀ q ∈ u.stage.todo, q ∈ stg) → Past u r → Broken stg base history u r :=
    fun u same locked inside past => ⟨broken.mem,broken.alive,locked,inside,past,same ▸ broken.wrong⟩
  have apart : ∀ q ∈ stg, q ≠ r → r.key ≠ q.key := fun q mem other same =>
    other (inj_on_of_nodup_map distinct mem broken.mem same.symm)
  unfold Past at past
  cases advanced ok with
  | staged here =>
    rw [here] at past
    exact past.elim
  | @value q todo here =>
    rw [here] at past listed
    simp only [mem_cons,not_or] at past
    have other := apart q (listed q mem_cons_self) (Ne.symm past.1.1)
    have stage := (upsertRowRest cols s q todo).2.2.2.2.2
    have register := (upsertRowRest cols s q todo).1
    refine frame _ ?_ ?_ ?_ ?_
    · unfold upsertRow
      split
      · simp only [view,State.withRows,State.lock,update_of_ne other]
      · rfl
    · unfold upsertRow
      split
      · exact (update_of_ne other _ _).trans broken.locked
      · exact broken.locked
    · rw [stage]
      exact fun p mem => listed p (mem_cons_of_mem _ mem)
    · unfold Past Loses
      rw [stage,register]
      exact ⟨past.1.2,past.2⟩
  | valued here =>
    rw [here] at past
    refine frame _ rfl broken.locked (fun q mem => (mem_filter.mp mem).1) ?_
    intro mem
    exact absurd ((aliveWins mem).symm.trans past.2) (by simp)
  | @register q todo here =>
    rw [here] at past listed
    simp only [mem_cons,not_or] at past
    have other := apart q (listed q mem_cons_self) (Ne.symm past.1)
    refine frame _ ?_ ((update_of_ne other _ _).trans broken.locked)
      (fun p mem => listed p (mem_cons_of_mem _ mem)) past.2
    simp only [view,registerRow,State.withRegister,State.lock,update_of_ne other]
  | delete here both =>
    refine frame _ ?_ broken.locked (fun q mem => absurd mem not_mem_nil) trivial
    rcases deleteRows distinct s r.key with ⟨q,mem,key,dead,_⟩ | ⟨_,row,_⟩
    · cases inj_on_of_nodup_map distinct mem broken.mem key
      exact absurd (dead.symm.trans broken.alive) (by simp)
    · simp only [view,State.withRows]
      rw [row]
  | tombstone here =>
    refine frame _ ?_ broken.locked (fun q mem => absurd mem not_mem_nil) trivial
    rcases deleteRows distinct s r.key with ⟨q,mem,key,dead,_⟩ | ⟨_,_,entry⟩
    · cases inj_on_of_nodup_map distinct mem broken.mem key
      exact absurd (dead.symm.trans broken.alive) (by simp)
    · simp only [view,State.withRegister]
      rw [entry]
  | _ => exact frame _ rfl broken.locked (fun q mem => absurd mem not_mem_nil) trivial

theorem brokenRun {acts} (ran : run (step cols phase stg) s acts = some t) : Broken stg base history t r := by
  refine runInvariant (P := fun s => Broken stg base history s r) (fun s a t held ok => ?_) ran broken
  cases a with
  | write pt c => exact brokenWrite held (wrote ok)
  | advance pt => exact brokenAdvance distinct held ok

theorem brokenShows : ¬Shows base (history++s.log++effective phase stg) s.replica := by
  intro shows_
  have separate := distinct.sublist ((effectiveSublist phase stg).map Record.key)
  have here := shows_ r.key
  rw [winnerOffer separate (effectiveAlive broken.mem broken.alive)] at here
  exact broken.wrong here

end

theorem valueBreaks {todo} (inv : Valuing cols phase stg base history (r::todo) s)
    (disturbed : ¬(beats (s.tables.register r.key) r = true ∨ s.tables.rows r.key = r.row)) :
    Broken stg base history (upsertRow cols s r todo) r := by
  obtain ⟨loses,other⟩ := not_or.mp disturbed
  have loses : beats (s.tables.register r.key) r = false := Bool.eq_false_of_not_eq_true loses
  obtain ⟨mem,alive⟩ := inv.todo.inside r mem_cons_self
  obtain ⟨register,_,log,_,own,stage⟩ := upsertRowRest cols s r todo
  have plain : Plain base r.key (view history s r.key) := by
    rcases inv.each.keys r.key with plain | ⟨q,inside,key,⟨half,_⟩ | ⟨done,_⟩⟩
    · exact plain
    · cases inj_on_of_nodup_map distinct ((effectiveSublist phase stg).subset inside) mem key
      exact absurd (half.2.1.symm.trans loses) (by simp)
    · cases inj_on_of_nodup_map distinct ((effectiveSublist phase stg).subset inside) mem key
      exact absurd done.2.1 other
  refine ⟨mem,alive,own ?_,?_,?_,fun settled => other ?_⟩
  · -- a row that is there and not updated would have been the staged one
    cases update : cols.update with
    | true => exact .inl rfl
    | false =>
      refine .inr ?_
      by_contra present
      obtain ⟨x,held⟩ := Option.ne_none_iff_exists'.mp present
      obtain ⟨y,staged⟩ := Option.isSome_iff_exists.mp (by simpa [Record.deleted] using alive)
      exact other (by rw [held,staged,cols.same update x y])
  · rw [stage]
    exact fun q listed => (inv.todo.tail.inside q listed).1
  · unfold Past Loses
    rw [stage,register]
    exact ⟨fun listed => inv.todo.apart listed rfl,loses⟩
  · have won : absorb Record.version (view history s r.key).won r = (view history s r.key).won := by
      rw [absorbEntry plain.1,show beats (view history s r.key).entry r = false from loses]
      rfl
    have row := settled.2
    simp only [view,upsertRowAt cols s todo alive,if_true,log] at row
    exact plain.2.trans ((row.trans (congrArg (shown base r.key) won)).symm)

theorem registerBreaks {todo} (inv : Registering cols phase stg base history (r::todo) s) (keyOnly : cols.update = false)
    (disturbed : ¬(s.tables.rows r.key = r.row ∧
      (beats (s.tables.register r.key) r = true ∨ s.tables.register r.key = some r.entry))) :
    Broken stg base history (registerRow s r todo) r := by
  obtain ⟨mem,alive⟩ := inv.todo.inside r mem_cons_self
  have entry : (view history (registerRow s r todo) r.key).entry = some r.entry := by
    simp only [view,registerRow,State.withRegister,State.lock,update_self,Record.entry,alive]
  refine ⟨mem,alive,update_self ..,fun q listed => (inv.todo.tail.inside q listed).1,
    fun listed => inv.todo.apart listed rfl,fun settled => disturbed ?_⟩
  have row : s.tables.rows r.key = shown base r.key (absorb Record.version (view history s r.key).won r) := settled.2
  have same : some r.entry = (absorb Record.version (view history s r.key).won r).map Record.entry :=
    entry.symm.trans settled.1
  have newest : (view history s r.key).entry = (view history s r.key).won.map Record.entry ∨
      s.tables.register r.key = some r.entry ∧ s.tables.rows r.key = r.row := by
    rcases inv.each.keys r.key with plain | ⟨q,inside,key,⟨half,_⟩ | ⟨done,_⟩⟩
    · exact .inl plain.1
    · exact .inl half.1
    · cases inj_on_of_nodup_map distinct ((effectiveSublist phase stg).subset inside) mem key
      exact .inr ⟨done.1,done.2.1⟩
  rcases newest with open_ | ⟨stored,row⟩
  · rw [absorbEntry open_] at row same
    split at row
    · rename_i wins
      exact ⟨row,.inl wins⟩
    · rename_i loses
      rw [if_neg loses,← open_] at same
      refine ⟨?_,.inr same.symm⟩
      -- the newest write has the version of `r` and a row, and there is only one row
      cases won : (view history s r.key).won with
      | none =>
        rw [open_,won] at same
        cases same
      | some w =>
        rw [open_,won] at same
        have dead : w.deleted = r.deleted := congrArg Entry.deleted (Option.some.inj same).symm
        rw [alive] at dead
        obtain ⟨x,held⟩ := Option.isSome_iff_exists.mp (by simpa [Record.deleted] using dead)
        obtain ⟨y,staged⟩ := Option.isSome_iff_exists.mp (by simpa [Record.deleted] using alive)
        rw [row,won,staged]
        show w.row = some y
        rw [held,cols.same keyOnly x y]
  · exact ⟨row,.inr stored⟩

theorem disturbedBreaks (inv : Inv cols phase stg base history s) {a}
    (disturbed : ¬Calm cols s a) (ok : step cols phase stg s a = some t) : ∃ r, Broken stg base history t r := by
  cases a with
  | write pt c => exact absurd trivial disturbed
  | advance pt =>
    unfold Inv at inv
    unfold Calm at disturbed
    cases advanced ok with
    | @value r todo here =>
      simp only [here] at inv disturbed
      exact ⟨r,valueBreaks distinct inv disturbed⟩
    | @register r todo here =>
      simp only [here] at inv disturbed
      obtain ⟨keyOnly,moved⟩ := Classical.not_imp.mp disturbed
      exact ⟨r,registerBreaks distinct inv keyOnly moved⟩
    | staged here | valued here | observe here | upserted here _ | delete here _ | tombstone here | again here
    | commit here =>
      simp only [here] at disturbed
      exact absurd trivial disturbed

theorem pairedAlong {acts} : ∀ {s : State K V N},
    Inv cols phase stg base history s → run (step cols phase stg) s acts = some t → t.stage = .committed →
    (Shows base (history++t.log++effective phase stg) t.replica ↔ Along (step cols phase stg) (Calm cols) s acts) := by
  induction acts with
  | nil =>
    intro s inv ran ended
    cases ran
    unfold Inv at inv
    rw [ended] at inv
    exact ⟨fun _ => trivial,fun _ => inv⟩
  | cons a acts ih =>
    intro s inv ran ended
    obtain ⟨m,ok,rest⟩ := runCons ran
    by_cases calm : Calm cols s a
    · have kept : Inv cols phase stg base history m := by
        cases a with
        | write pt c => exact invWrite inv (wrote ok)
        | advance pt => exact invAdvance distinct inv calm ok
      refine (ih kept rest ended).trans ⟨fun along => ⟨calm,fun u taken => ?_⟩,fun along => along.2 m ok⟩
      cases ok.symm.trans taken
      exact along
    · obtain ⟨r,broken⟩ := disturbedBreaks distinct inv calm ok
      exact ⟨fun shows_ => absurd shows_ (brokenShows distinct (brokenRun distinct broken rest)),
        fun along => absurd along.1 calm⟩

end

end Broken

theorem applyPairedIff (cols : Columns V) (phase : MeshApply.Phase) (stg : List (Record K V N))
    (distinct : (stg.map Record.key).Nodup) (base : K → Option V) (history : List (Record K V N))
    (tables : MeshTrigger.Tables K V N) (paired : Shows base history ⟨tables.rows,tables.register⟩)
    (below : Below tables) (acts : List (Action K V)) (t : State K V N)
    (ran : run (step cols phase stg) (start tables) acts = some t) (ended : t.stage = .committed) :
    Shows base (history++t.log++effective phase stg) t.replica ↔
      Along (step cols phase stg) (Calm cols) (start tables) acts := by
  refine pairedAlong distinct (s := start tables) ⟨fun k => .inl ?_,fun k e stored => .inr (below k e stored)⟩ ran ended
  simpa only [Plain,view,start,append_nil] using paired k

instance [DecidableEq V] (cols : Columns V) (s : State K V N) : (a : Action K V) → Decidable (Calm cols s a)
  | .write _ _ => isTrue trivial
  | .advance _ =>
      match stage : s.stage with
      | .values (r::_) => decidable_of_iff
          (beats (s.tables.register r.key) r = true ∨ s.tables.rows r.key = r.row) (by simp only [Calm,stage])
      | .registers (r::_) => decidable_of_iff (cols.update = false → s.tables.rows r.key = r.row ∧
          (beats (s.tables.register r.key) r = true ∨ s.tables.register r.key = some r.entry)) (by simp only [Calm,stage])
      | .staged | .values [] | .registers [] | .observed | .deleted | .tombstoned | .finished | .committed =>
          isTrue (by simp only [Calm,stage])

def updatable : Columns Nat := ⟨true,fun never => absurd never (by simp)⟩

def stored : MeshTrigger.Tables Unit Nat Nat :=
  ⟨fun _ => some 1,fun _ => some ⟨⟨1,0,0⟩,false⟩,[],⟨1,0⟩,0⟩

def written : List (Record Unit Nat Nat) := [⟨(),⟨1,0,0⟩,some 1⟩]

def incoming : List (Record Unit Nat Nat) := [⟨(),⟨5,0,1⟩,some 2⟩]

theorem storedPaired : Shows (fun _ => none) written ⟨stored.rows,stored.register⟩ := fun () => by decide

theorem storedBelow : Below stored := by
  intro k e held
  cases held
  decide

theorem applyPairedAfterWrite : ∃ t : State Unit Nat Nat, run (step updatable .upsert incoming) (start stored)
      [.write 3 (.update () () 7),.advance 9,.advance 9,.advance 9,.advance 9,.advance 9,.advance 9] = some t ∧
    t.tables.rows () = some 2 ∧ Shows (fun _ => none) (written++t.log++effective .upsert incoming) t.replica := by
  refine ⟨_,rfl,rfl,?_⟩
  exact (applyPairedIff updatable .upsert incoming (by decide) (fun _ => none) written stored storedPaired storedBelow
    [.write 3 (.update () () 7),.advance 9,.advance 9,.advance 9,.advance 9,.advance 9,.advance 9] _ rfl rfl).mpr
    (by decide +kernel)

/- The local update commits after the peer's row has been chosen and before it is written:
the peer's value stands with the local version, which is the newer one. -/
theorem valueOverNewerWrite : ∃ t : State Unit Nat Nat, run (step updatable .upsert incoming) (start stored)
      [.advance 9,.write 8 (.update () () 7),.advance 9,.advance 9,.advance 9,.advance 9] = some t ∧
    t.stage = .committed ∧ t.log = [⟨(),⟨8,0,0⟩,some 7⟩] ∧ t.tables.register () = some ⟨⟨8,0,0⟩,false⟩ ∧
    t.tables.rows () = some 2 ∧ ¬Shows (fun _ => none) (written++t.log++effective .upsert incoming) t.replica := by
  refine ⟨_,rfl,rfl,rfl,rfl,rfl,fun shows_ => ?_⟩
  exact absurd (shows_ ()).2 (by decide +kernel)

end Replicare.ClusterRace
