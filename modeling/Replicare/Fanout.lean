import Replicare.Runs
import Replicare.Enforce

/-! Several syncers, one per target, over one source. They share its delta and track tables;
each runs its own passes and enforces retention for its own target only. -/
namespace Replicare.Fanout
open Engine hiding Component
open Consume Purge Enforce List Function

structure World where
  control : Control KeyValues
  inflight : TargetID → TableRef → List DeltaID

inductive Action where
  | write (table : TableRef) (delta : Delta KeyValues)
  | read (target : TargetID) (table : TableRef) (batch : Int)
  | confirm (target : TargetID) (table : TableRef)
  | enforce (target : TargetID) (obs : TableRef → Probe)
  | reseeded (target : TargetID)

def World.hold (s : World) (target : TargetID) (table : TableRef) (ids : List DeltaID) : World :=
  { s with inflight := update s.inflight target (update (s.inflight target) table ids) }

section Step
variable (dialect : Dialect) (ret : RetentionPolicy) (c : Component) (targets : List TargetID)

/- The call streamOnce makes at the end of every pass. -/
def streamEnforce (control : Control KeyValues) (target : TargetID) (obs : TableRef → Probe) : Control KeyValues :=
  (enforce dialect [target] ret c obs control).1

def clearFlags (control : Control KeyValues) (target : TargetID) : Control KeyValues :=
  { control with cursor := update control.cursor target fun t =>
      if t ∈ c.tables then ⟨.streaming,false⟩ else control.cursor target t }

def step (s : World) : Action → Option World
  | .write table d =>
      if table ∈ c.tables then
        if fresh : Fresh (s.control.queue table) d.id then
          some { s with control := s.control.put table (capture (s.control.queue table) d fresh) }
        else none
      else none
  | .read target table batch =>
      if target ∈ targets ∧ table ∈ c.tables then
        some (s.hold target table ((readDirtyKeys (s.control.queue table) target batch).map DirtyKey.deltaID))
      else none
  | .confirm target table =>
      if target ∈ targets ∧ table ∈ c.tables then
        some { s.hold target table [] with
          control := s.control.put table
            (confirmConsumed (s.control.queue table) target (s.inflight target table)) }
      else none
  | .enforce target obs =>
      if target ∈ targets then
        some ⟨streamEnforce dialect ret c s.control target obs,update s.inflight target fun _ => []⟩
      else none
  | .reseeded target =>
      if target ∈ targets then some { s with control := clearFlags c s.control target } else none

end Step

def start : World := ⟨⟨fun _ => .empty,fun _ _ => ⟨.streaming,false⟩,[]⟩,fun _ _ => []⟩

def PurgeSafe (c : Component) (targets : List TargetID) (s t : World) : Prop :=
  ∀ r ∈ c.tables, ∀ d ∈ (s.control.queue r).deltas, d ∉ (t.control.queue r).deltas →
    ∀ tg ∈ targets, Consumed (t.control.queue r) tg d.id ∨ Marked c.tables t.control tg

def PurgeSafeRuns (dialect : Dialect) (ret : RetentionPolicy) (c : Component) (targets : List TargetID) : Prop :=
  ∀ actions s a t, Runs.run (step dialect ret c targets) start actions = some s →
    step dialect ret c targets s a = some t → PurgeSafe c targets s t

theorem enforcePurgeSafe {dialect ret c targets s target obs} (alone : ∀ tg ∈ targets, tg = target) :
    PurgeSafe c targets s ⟨streamEnforce dialect ret c s.control target obs,update s.inflight target fun _ => []⟩ := by
  intro r hr d before after tg mem
  obtain rfl := alone tg mem
  dsimp only [streamEnforce] at after ⊢
  rw [(enforceQueue c s.control).1 r hr] at after ⊢
  rcases purgeDeletes before after (mem_singleton_self tg) with consumed | beyond
  · by_cases hit : tg ∈ overCapTargets dialect (s.control.queue r) [tg] ret (obs r)
    · exact .inr (enforceMarked.mpr (.inr ⟨r,hr,hit⟩))
    · refine .inl (purgeConsumedIff.mpr ⟨consumed,?_⟩)
      rw [purgeReseeds]
      exact hit
  · exact .inr (enforceMarked.mpr (.inr ⟨r,hr,beyond⟩))

theorem putGrows {control : Control KeyValues} {table q} (grows : ∀ d ∈ (control.queue table).deltas, d ∈ q.deltas) {r d}
    (mem : d ∈ (control.queue r).deltas) : d ∈ ((control.put table q).queue r).deltas := by
  by_cases here : r = table
  · subst here
    simpa [Control.put] using grows d mem
  · simpa [Control.put,here] using mem

theorem stepPurgeSafe {dialect ret} {c : Component} {targets} {s t : World} {a}
    (alone : ∀ x ∈ targets, ∀ y ∈ targets, x = y) (ok : step dialect ret c targets s a = some t) :
    PurgeSafe c targets s t := by
  have kept : (∀ r, ∀ d ∈ (s.control.queue r).deltas, d ∈ (t.control.queue r).deltas) → PurgeSafe c targets s t :=
    fun grows r _ d before after => absurd (grows r d before) after
  cases a with
  | write table d =>
    simp only [step] at ok
    split at ok <;> try contradiction
    split at ok <;> try contradiction
    cases ok
    exact kept fun r e mem => putGrows (fun x hx => mem_cons_of_mem _ hx) mem
  | confirm target table =>
    simp only [step] at ok
    split at ok <;> try contradiction
    cases ok
    exact kept fun r e mem => putGrows (q := confirmConsumed _ _ _) (fun x hx => hx) mem
  | enforce target obs =>
    simp only [step] at ok
    split at ok <;> try contradiction
    rename_i listed
    cases ok
    exact enforcePurgeSafe fun tg mem => alone tg mem target listed
  | _ =>
    simp only [step] at ok
    split at ok <;> try contradiction
    cases ok
    exact kept fun r e mem => mem

def firstDelta : Delta KeyValues := ⟨1,.insert,[],0⟩
def captured : Queue KeyValues := capture .empty firstDelta (by decide)

theorem capturedRead (target) : (readDirtyKeys captured target 0).map DirtyKey.deltaID = [1] := rfl

def drainOne (table : TableRef) (target : TargetID) : List Action :=
  [.write table firstDelta,.read target table 0,.confirm target table]

theorem drainOneRuns (dialect ret) {c targets table target} (ht : table ∈ c.tables) (hx : target ∈ targets) :
    ∃ s, Runs.run (step dialect ret c targets) start (drainOne table target) = some s ∧
      s.control.queue table = confirmConsumed captured target [1] ∧ s.control.cursor = start.control.cursor := by
  have put : ∀ (control : Control KeyValues) q, (control.put table q).queue table = q := by
    intro control q
    simp [Control.put]
  let written : World := ⟨start.control.put table captured,start.inflight⟩
  let held : World := written.hold target table [1]
  have fresh : Fresh (start.control.queue table) firstDelta.id :=
    (by decide : Fresh (.empty : Queue KeyValues) firstDelta.id)
  have first : step dialect ret c targets start (.write table firstDelta) = some written := by
    simp only [step,if_pos ht,dif_pos fresh]
    rfl
  have second : step dialect ret c targets written (.read target table 0) = some held := by
    simp only [step,hx,ht,and_self,if_true]
    rw [put,capturedRead]
  have third : step dialect ret c targets held (.confirm target table) = some
      ⟨held.control.put table (confirmConsumed captured target [1]),(held.hold target table []).inflight⟩ := by
    have ids : held.inflight target table = [1] := by simp [held,World.hold]
    have queue : held.control.queue table = captured := put _ _
    simp only [step,hx,ht,and_self,if_true,ids,queue]
  have ran : Runs.run (step dialect ret c targets) start (drainOne table target) = some
      ⟨held.control.put table (confirmConsumed captured target [1]),(held.hold target table []).inflight⟩ := by
    simp only [drainOne,Runs.run,first,second,third,Option.bind_some]
  exact ⟨_,ran,put _ _,rfl⟩

theorem purgeSafeRunsIff (dialect : Dialect) (ret : RetentionPolicy) (c : Component) (targets : List TargetID) :
    PurgeSafeRuns dialect ret c targets ↔ c.tables = [] ∨ ∀ x ∈ targets, ∀ y ∈ targets, x = y := by
  refine ⟨fun safe => ?_,fun few actions s a t _ ok => ?_⟩
  · by_contra both
    simp only [not_or,not_forall] at both
    obtain ⟨nonempty,x,hx,y,hy,apart⟩ := both
    obtain ⟨table,ht⟩ := exists_mem_of_ne_nil _ nonempty
    obtain ⟨s,ran,queue,cursor⟩ := drainOneRuns dialect ret ht hx
    have passed : step dialect ret c targets s (.enforce x fun _ => ⟨0,0⟩) = some
        ⟨streamEnforce dialect ret c s.control x fun _ => ⟨0,0⟩,update s.inflight x fun _ => []⟩ := by
      simp only [step,if_pos hx]
    have drained : unconsumed (s.control.queue table) x = [] := by
      rw [queue]
      simp [unconsumed,captured,capture,confirmConsumed,Consumed,Queue.empty,firstDelta]
    have gone := safe (drainOne table x) s _ _ ran passed table ht firstDelta
      (by rw [queue]; exact mem_singleton_self firstDelta)
      (by
        dsimp only [streamEnforce]
        rw [(enforceQueue c s.control).1 table ht]
        exact soleTargetDrained drained firstDelta) y hy
    dsimp only [streamEnforce] at gone
    rcases gone with consumed | marked
    · rw [(enforceQueue c s.control).1 table ht,purgeConsumedIff,queue,confirmedIff] at consumed
      rcases consumed.1 with old | now
      · exact absurd old (by simp [Consumed,captured,capture,Queue.empty])
      · exact apart now.1.symm
    · rcases enforceMarked.mp marked with before | found
      · have flag := before table ht
        rw [cursor] at flag
        cases flag
      · obtain ⟨_,_,beyond⟩ := found
        exact apart (mem_singleton.mp (overCapSource beyond).1).symm
  · rcases few with none | alone
    · intro r hr
      rw [none] at hr
      exact absurd hr not_mem_nil
    · exact stepPurgeSafe alone ok

theorem secondTargetStarved : ¬PurgeSafeRuns .postgres ⟨0,0⟩ onlyOrders ["a","b"] := by
  intro safe
  have passed := (rfl : Runs.run (step .postgres ⟨0,0⟩ onlyOrders ["a","b"]) start (drainOne orders "a") = _)
  have deleted := safe (drainOne orders "a") _ (.enforce "a" fun _ => ⟨0,0⟩) _ passed rfl orders (by decide) firstDelta
    (by decide) (by decide) "b" (by decide)
  rcases deleted with consumed | marked
  · revert consumed
    decide
  · have flag := marked orders (by decide)
    revert flag
    decide

end Replicare.Fanout
