import Replicare.HlcEngines
import Replicare.MeshApply

/-! The capture trigger of a cluster member in both engines: one clock tick for a changed row,
a delta for every key it touches, and the register entry of each of them. -/
namespace Replicare.MeshTrigger
open Engine Hlc HlcEngines MeshApply Runs List Function

variable {K V N : Type*} [DecidableEq K]

structure Tables (K V N : Type*) where
  rows : K → Option V
  register : K → Option (Entry N)
  deltas : List (Op × K)
  clock : Clock
  node : N

inductive Change (K V : Type*) where
  | insert (key : K) (row : V)
  | update (old new : K) (row : V)
  | delete (key : K)
  deriving DecidableEq, Repr

/- What a row trigger sees: the operation and the keys of OLD and NEW. -/
inductive Event (K : Type*) where
  | insert (new : K)
  | update (old new : K)
  | delete (old : K)
  deriving DecidableEq, Repr

inductive Statement (K : Type*) where
  | capture (op : Op) (key : K)
  | stamp (key : K) (deleted : Bool)
  deriving DecidableEq, Repr

namespace Postgres

/- The branches on TG_OP of the trigger function. -/
def meshTriggerFunction : Event K → List (Statement K)
  | .insert new => [.capture .insert new,.stamp new false]
  | .update old new =>
      if new ≠ old then [.capture .delete old,.capture .update new,.stamp old true,.stamp new false]
      else [.capture .update new,.stamp new false]
  | .delete old => [.capture .delete old,.stamp old true]

end Postgres

namespace MySQL

def meshTrigger : Event K → List (Statement K)
  | .insert new => [.capture .insert new,.stamp new false]
  | .delete old => [.capture .delete old,.stamp old true]
  | .update old new =>
      if ¬new = old then [.capture .delete old,.capture .update new,.stamp old true,.stamp new false]
      else [.capture .update new,.stamp new false]

end MySQL

def body (dialect : Dialect) (e : Event K) : List (Statement K) :=
  match dialect with
  | .postgres => Postgres.meshTriggerFunction e
  | .mysql => MySQL.meshTrigger e

def hlcTick (dialect : Dialect) (c : Clock) (pt : Int) : Option Clock :=
  match dialect with
  | .postgres => HlcEngines.Postgres.hlcTick c pt
  | .mysql => HlcEngines.MySQL.hlcTickBody c pt

def Statement.exec (v : Version N) (t : Tables K V N) : Statement K → Tables K V N
  | .capture op k => { t with deltas := t.deltas++[(op,k)] }
  | .stamp k deleted => { t with register := update t.register k (some ⟨v,deleted⟩) }

def Clock.version (c : Clock) (node : N) : Version N := ⟨c.physical,c.logical,node⟩

/- A write marked as an apply does not fire the trigger. -/
def fire (dialect : Dialect) (marked : Bool) (pt : Int) (e : Event K) (t : Tables K V N) : Option (Tables K V N) :=
  if marked then some t
  else (hlcTick dialect t.clock pt).map fun c =>
    (body dialect e).foldl (Statement.exec (Clock.version c t.node)) { t with clock := c }

def Change.event : Change K V → Event K
  | .insert k _ => .insert k
  | .update old new _ => .update old new
  | .delete k => .delete k

def Change.allowed (rows : K → Option V) : Change K V → Bool
  | .insert k _ => (rows k).isNone
  | .update old new _ => (rows old).isSome && (decide (new = old) || (rows new).isNone)
  | .delete k => (rows k).isSome

def Change.write (rows : K → Option V) : Change K V → K → Option V
  | .insert k row => Function.update rows k (some row)
  | .update old new row => Function.update (Function.update rows old none) new (some row)
  | .delete k => Function.update rows k none

/- A local statement on one row, with the wall clock its trigger reads. -/
def step (dialect : Dialect) (t : Tables K V N) (a : Int × Change K V) : Option (Tables K V N) :=
  if a.2.allowed t.rows then fire dialect false a.1 a.2.event { t with rows := a.2.write t.rows } else none

def Event.keys : Event K → List K
  | .insert k => [k]
  | .update old new => if new ≠ old then [old,new] else [new]
  | .delete k => [k]

def touched (acts : List (Int × Change K V)) : List K := acts.flatMap fun a => a.2.event.keys

def Alive (t : Tables K V N) (k : K) : Prop := ∃ e, t.register k = some e ∧ e.deleted = false

def Below (t : Tables K V N) : Prop := ∀ k e, t.register k = some e → e.version.stamp ≤ t.clock

theorem sameBody (dialect : Dialect) (e : Event K) : body dialect e = Postgres.meshTriggerFunction e := by
  cases dialect <;> cases e <;> rfl

theorem hlcTickAdvances {dialect c d pt} (ok : hlcTick dialect c pt = some d) : c < d := by
  cases dialect with
  | postgres => exact postgresTick ok ▸ tickAdvances c pt
  | mysql => exact mysqlTick ok ▸ tickAdvances c pt

theorem execFrame (v : Version N) (ss : List (Statement K)) (t : Tables K V N) :
    (ss.foldl (Statement.exec v) t).rows = t.rows ∧ (ss.foldl (Statement.exec v) t).clock = t.clock ∧
    (ss.foldl (Statement.exec v) t).node = t.node := by
  induction ss generalizing t with
  | nil => exact ⟨rfl,rfl,rfl⟩
  | cons s ss ih => cases s <;> exact ih _

def Event.removes (k : K) : Event K → Bool
  | .insert _ => false
  | .update _ new => !decide (k = new)
  | .delete _ => true

theorem execBody (v : Version N) (e : Event K) (t : Tables K V N) :
    let u := (Postgres.meshTriggerFunction e).foldl (Statement.exec v) t
    (∀ k ∈ e.keys, u.register k = some ⟨v,e.removes k⟩) ∧ (∀ k, k ∉ e.keys → u.register k = t.register k) ∧
    ∃ ds : List (Op × K), u.deltas = t.deltas++ds ∧ ∀ k ∈ e.keys, k ∈ ds.map Prod.snd := by
  cases e with
  | insert new =>
    simp only [Postgres.meshTriggerFunction,foldl_cons,foldl_nil,Statement.exec,Event.keys,Event.removes]
    refine ⟨by simp,fun k apart => ?_,[(.insert,new)],rfl,by simp⟩
    exact update_of_ne (fun same => apart (mem_singleton.mpr same)) _ _
  | delete old =>
    simp only [Postgres.meshTriggerFunction,foldl_cons,foldl_nil,Statement.exec,Event.keys,Event.removes]
    refine ⟨by simp,fun k apart => ?_,[(.delete,old)],rfl,by simp⟩
    exact update_of_ne (fun same => apart (mem_singleton.mpr same)) _ _
  | update old new =>
    simp only [Postgres.meshTriggerFunction,Event.keys,Event.removes]
    split
    · -- the old key becomes a tombstone, the new one alive, with one version
      rename_i moved
      simp only [foldl_cons,foldl_nil,Statement.exec]
      refine ⟨by simp [Ne.symm moved],fun k apart => ?_,[(.delete,old),(.update,new)],by simp,by simp⟩
      simp only [mem_cons,not_mem_nil,or_false,not_or] at apart
      rw [update_of_ne apart.2,update_of_ne apart.1]
    · simp only [foldl_cons,foldl_nil,Statement.exec]
      refine ⟨by simp,fun k apart => ?_,[(.update,new)],rfl,by simp⟩
      exact update_of_ne (fun same => apart (mem_singleton.mpr same)) _ _

theorem keysDistinct (e : Event K) : e.keys.Nodup := by
  cases e with
  | insert new => exact nodup_singleton new
  | delete old => exact nodup_singleton old
  | update old new =>
    simp only [Event.keys]
    split
    · rename_i moved
      simpa using Ne.symm moved
    · exact nodup_singleton new

theorem writeTouched (rows : K → Option V) (c : Change K V) :
    (∀ k ∈ c.event.keys, (c.write rows k).isNone = c.event.removes k) ∧
    ∀ k, k ∉ c.event.keys → c.write rows k = rows k := by
  cases c with
  | update old new row =>
    simp only [Change.event,Event.keys,Event.removes,Change.write]
    split
    · rename_i moved
      refine ⟨by simp [Ne.symm moved],fun k apart => ?_⟩
      simp only [mem_cons,not_mem_nil,or_false,not_or] at apart
      rw [update_of_ne apart.2,update_of_ne apart.1]
    · rename_i same
      have one : new = old := not_not.mp same
      subst one
      refine ⟨by simp,fun k apart => ?_⟩
      have other : k ≠ new := fun same => apart (mem_singleton.mpr same)
      rw [update_of_ne other,update_of_ne other]
  | _ =>
    refine ⟨by simp [Change.event,Event.keys,Change.write,Event.removes],fun x apart => ?_⟩
    exact update_of_ne (fun same => apart (mem_singleton.mpr same)) _ _

structure Stepped (t : Tables K V N) (a : Int × Change K V) (u : Tables K V N) : Prop where
  later : t.clock < u.clock
  stamped : ∀ k ∈ a.2.event.keys, u.register k = some ⟨Clock.version u.clock u.node,(u.rows k).isNone⟩
  register : ∀ k, k ∉ a.2.event.keys → u.register k = t.register k
  rows : ∀ k, k ∉ a.2.event.keys → u.rows k = t.rows k
  added : ∃ ds : List (Op × K), u.deltas = t.deltas++ds ∧ ∀ k ∈ a.2.event.keys, k ∈ ds.map Prod.snd

theorem stepped {dialect : Dialect} {t u : Tables K V N} {a} (ok : step dialect t a = some u) : Stepped t a u := by
  simp only [step,fire] at ok
  split at ok <;> try contradiction
  obtain ⟨d,ticked,rfl⟩ := Option.map_eq_some_iff.mp ok
  rw [sameBody]
  obtain ⟨rows,clock,node⟩ := execFrame (Clock.version d t.node) (Postgres.meshTriggerFunction a.2.event)
    { t with rows := a.2.write t.rows, clock := d }
  obtain ⟨stamped,others,added⟩ := execBody (Clock.version d t.node) a.2.event
    { t with rows := a.2.write t.rows, clock := d }
  obtain ⟨gone,left⟩ := writeTouched t.rows a.2
  refine ⟨clock.symm ▸ hlcTickAdvances ticked,fun k mem => ?_,others,fun k apart => ?_,added⟩
  · rw [stamped k mem,rows,clock,node,gone k mem]
  · rw [rows]
    exact left k apart

section Runs
variable {dialect : Dialect} {t u : Tables K V N} {acts : List (Int × Change K V)}

def InStep (t : Tables K V N) (k : K) : Prop := Alive t k ↔ (t.rows k).isSome

theorem stampedInStep {a k} (ok : step dialect t a = some u) (mem : k ∈ a.2.event.keys) : InStep u k := by
  unfold InStep Alive
  rw [(stepped ok).stamped k mem]
  cases u.rows k <;> simp

theorem inStepStep {a k} (held : InStep t k) (ok : step dialect t a = some u) : InStep u k := by
  by_cases mem : k ∈ a.2.event.keys
  · exact stampedInStep ok mem
  · have done := stepped ok
    unfold InStep Alive
    rw [done.register k mem,done.rows k mem]
    exact held

theorem touchedInStep {k} (ok : run (step dialect) t acts = some u) (mem : k ∈ touched acts) : InStep u k := by
  induction acts generalizing t with
  | nil => cases mem
  | cons a acts ih =>
    obtain ⟨m,first,rest⟩ := runCons ok
    simp only [touched,flatMap_cons,mem_append] at mem
    rcases mem with here | later
    · exact runInvariant (P := fun t => InStep t k) (fun _ _ _ held step => inStepStep held step) rest (stampedInStep first here)
    · exact ih rest later

/- The version the register holds for a key after an event that touches it. -/
def registered (u : Tables K V N) (e : Event K) (k : K) : List (Version N) :=
  if k ∈ e.keys then ((u.register k).map Entry.version).toList else []

def versionsOf (dialect : Dialect) (t : Tables K V N) (acts : List (Int × Change K V)) (k : K) : List (Version N) :=
  match acts with
  | [] => []
  | a::rest =>
      match step dialect t a with
      | none => []
      | some u => registered u a.2.event k++versionsOf dialect u rest k

theorem registeredVersion {a k v} (ok : step dialect t a = some u) (mem : v ∈ registered u a.2.event k) :
    v = Clock.version u.clock u.node := by
  unfold registered at mem
  split at mem
  · rename_i touches
    rw [(stepped ok).stamped k touches] at mem
    exact mem_singleton.mp mem
  · cases mem

theorem versionsAbove (k) : ∀ v ∈ versionsOf dialect t acts k, t.clock < v.stamp := by
  induction acts generalizing t with
  | nil => simp [versionsOf]
  | cons a acts ih =>
    intro v mem
    cases first : step dialect t a with
    | none => simp [versionsOf,first] at mem
    | some m =>
      have later := (stepped first).later
      simp only [versionsOf,first,mem_append] at mem
      rcases mem with here | rest
      · exact registeredVersion first here ▸ later
      · exact lt_trans later (ih v rest)

variable [LinearOrder N]

theorem versionsIncrease (k) : (versionsOf dialect t acts k).Pairwise (· < ·) := by
  induction acts generalizing t with
  | nil => simp [versionsOf]
  | cons a acts ih =>
    cases first : step dialect t a with
    | none => simp [versionsOf,first]
    | some m =>
      simp only [versionsOf,first]
      refine pairwise_append.mpr ⟨?_,ih,fun v here w rest => ?_⟩
      · unfold registered
        split
        · cases m.register k <;> simp
        · exact List.Pairwise.nil
      · rw [registeredVersion first here]
        exact stampLt (versionsAbove k w rest)

end Runs

theorem triggerKeepsRegister [LinearOrder N] (dialect : Dialect) (s m t : Tables K V N) (acts : List (Int × Change K V))
    (a : Int × Change K V) (below : Below s) (ran : run (step dialect) s acts = some m)
    (last : step dialect m a = some t) :
    (∀ k ∈ touched (acts++[a]), Alive t k ↔ (t.rows k).isSome) ∧ (∀ k ∈ a.2.event.keys, ∃ e, t.register k = some e) ∧
    (∀ k, (versionsOf dialect s (acts++[a]) k).Pairwise (· < ·) ∧
      ∀ e, s.register k = some e → ∀ v ∈ versionsOf dialect s (acts++[a]) k, e.version < v) ∧
    ∃ ds : List (Op × K), t.deltas = m.deltas++ds ∧ ∀ k, t.rows k ≠ m.rows k → k ∈ ds.map Prod.snd := by
  refine ⟨fun k mem => touchedInStep (runSnoc ran last) mem,fun k mem => ⟨_,(stepped last).stamped k mem⟩,
    fun k => ⟨versionsIncrease k,fun e entry v mem => ?_⟩,?_⟩
  · exact stampLt (lt_of_le_of_lt (below k e entry) (versionsAbove k v mem))
  · have done := stepped last
    obtain ⟨ds,appended,covers⟩ := done.added
    refine ⟨ds,appended,fun k changed => covers k ?_⟩
    by_contra apart
    exact changed (done.rows k apart)

def oneRow : Tables Bool Nat Nat :=
  ⟨fun k => if k then none else some 5,fun k => if k then none else some ⟨⟨1,0,7⟩,false⟩,[],⟨2,0⟩,3⟩

/- The row moves to another key and its old key is used again, with a wall clock going back. -/
theorem triggerKeepsRegisterMoved : ∃ m t : Tables Bool Nat Nat,
    run (step .mysql) oneRow [(10,.update false true 6)] = some m ∧ step .mysql m (9,.insert false 8) = some t ∧
    (∀ k, Alive t k ↔ (t.rows k).isSome) ∧
    versionsOf .mysql oneRow [(10,.update false true 6),(9,.insert false 8)] false = [⟨10,0,3⟩,⟨10,1,3⟩] ∧
    (versionsOf .mysql oneRow [(10,.update false true 6),(9,.insert false 8)] false).Pairwise (· < ·) := by
  refine ⟨_,_,rfl,rfl,?_⟩
  have below : Below oneRow := by
    intro k e entry
    cases k <;> cases entry
    decide
  have holds := triggerKeepsRegister .mysql oneRow _ _ [(10,.update false true 6)] (9,.insert false 8) below rfl rfl
  refine ⟨fun k => holds.1 k ?_,?_,(holds.2.2.1 false).1⟩
  · cases k <;> decide
  · rfl

end Replicare.MeshTrigger
