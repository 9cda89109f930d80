import Replicare.Enforce
import Replicare.Runs

/-! The size cap against the on-disk size of the delta tables. -/
namespace Replicare.SizeCap
open Engine hiding Component
open Consume Purge Enforce Runs

structure Store (K : Type*) where
  control : Control K
  disk : TableRef → Int

/- An insert grows the table by `grow` bytes, none where it reuses freed space. -/
inductive Event (K : Type*) where
  | capture (table : TableRef) (delta : Delta K) (grow : Nat)
  | confirm (table : TableRef) (target : TargetID) (ids : List DeltaID)
  | pass (now : Int)
  | reseed (target : TargetID)

section Pass
variable {K : Type*} (dialect : Dialect) (targets : List TargetID) (ret : RetentionPolicy) (c : Component)

def Store.probe (s : Store K) (now : Int) (table : TableRef) : Probe := ⟨now,s.disk table⟩

def reseeded (s : Control K) (target : TargetID) : Control K :=
  { s with cursor := Function.update s.cursor target fun t => if t ∈ c.tables then ⟨.streaming,false⟩ else s.cursor target t }

def step (s : Store K) : Event K → Option (Store K)
  | .capture table d grow => if fresh : Fresh (s.control.queue table) d.id then
      some { control := s.control.put table (Consume.capture (s.control.queue table) d fresh)
             disk := Function.update s.disk table (s.disk table+grow) } else none
  | .confirm table target ids => some { s with control := s.control.put table (confirmConsumed (s.control.queue table) target ids) }
  | .pass now => some { s with control := (enforce dialect targets ret c (s.probe now) s.control).1 }
  | .reseed target => some { s with control := reseeded c s.control target }

def SizeHit (s : Store K) (now : Int) (table : TableRef) (tg : TargetID) : Prop :=
  tg ∈ overCapTargets dialect (s.control.queue table) targets { ret with maxAgeSeconds := 0 } (s.probe now table)
instance (s : Store K) (now table tg) : Decidable (SizeHit dialect targets ret s now table tg) :=
  inferInstanceAs (Decidable (tg ∈ overCapTargets dialect (s.control.queue table) targets { ret with maxAgeSeconds := 0 } (s.probe now table)))

def Spared (tg : TargetID) (s : Store K) : Event K → Prop
  | .pass now => ∀ t ∈ c.tables, ¬SizeHit dialect targets ret s now t tg
  | _ => True

def Keeping (table : TableRef) (tg : TargetID) (s : Store K) : Event K → Prop
  | .pass now => ∀ t ∈ c.tables, t = table ∨ ret.maxBytes < s.disk t →
      ¬Laggard dialect (s.control.queue t) targets (s.probe now t) tg
  | _ => True

def Modest (rowSize : Int) (tg : TargetID) (s : Store K) (_ : Event K) : Prop :=
  ∀ t ∈ c.tables, (unconsumed (s.control.queue t) tg).length*rowSize < ret.maxBytes
instance (rowSize tg) (s : Store K) (a) : Decidable (Modest ret c rowSize tg s a) :=
  inferInstanceAs (Decidable (∀ t ∈ c.tables, (unconsumed (s.control.queue t) tg).length*rowSize < ret.maxBytes))

variable {dialect targets ret c} {s : Store K}

theorem sizeHitIff {now table tg} : SizeHit dialect targets ret s now table tg ↔
    0 < ret.maxBytes ∧ ret.maxBytes < s.disk table ∧ Laggard dialect (s.control.queue table) targets (s.probe now table) tg := by
  unfold SizeHit
  rw [overCapIff]
  simp [OverCap,Aged,Oversized,Store.probe,and_assoc]

theorem diskGrows {t : Store K} {a} (ok : step dialect targets ret c s a = some t) (table) : s.disk table ≤ t.disk table := by
  cases a with
  | capture r d grow =>
    simp only [step] at ok
    split at ok
    · cases ok
      by_cases here : table = r
      · subst here
        simp
      · simp [here]
    · cases ok
  | _ =>
    cases ok
    rfl

theorem sizeHitMarked {now table tg} (member : table ∈ c.tables) (hit : SizeHit dialect targets ret s now table tg) :
    Marked c.tables (enforce dialect targets ret c (s.probe now) s.control).1 tg := by
  obtain ⟨positive,above,lags⟩ := sizeHitIff.mp hit
  exact enforceMarked.mpr (.inr ⟨table,member,overCapIff.mpr (.inr ⟨⟨positive,above⟩,lags⟩)⟩)

theorem sizeSparedIff {s t : Store K} {now : Int} {table : TableRef} {tg : TargetID} (member : table ∈ c.tables)
    (hit : SizeHit dialect targets ret s now table tg) (passed : step dialect targets ret c s (.pass now) = some t) (later : List (Event K)) :
    Marked c.tables t.control tg ∧
    (Along (step dialect targets ret c) (Spared dialect targets ret c tg) t later ↔
      Along (step dialect targets ret c) (Keeping dialect targets ret c table tg) t later) := by
  obtain ⟨positive,above,_⟩ := sizeHitIff.mp hit
  have start : ret.maxBytes < t.disk table := above.trans_le (diskGrows passed table)
  have stays : ∀ u a v, ret.maxBytes < (u : Store K).disk table → step dialect targets ret c u a = some v → ret.maxBytes < v.disk table :=
    fun u a v high ok => high.trans_le (diskGrows ok table)
  have same : ∀ u a, ret.maxBytes < (u : Store K).disk table →
      (Spared dialect targets ret c tg u a ↔ Keeping dialect targets ret c table tg u a) := by
    intro u a high
    cases a with
    | pass now =>
      refine forall₂_congr fun r _ => ?_
      rw [sizeHitIff]
      refine ⟨fun spared either lags => ?_,fun keeping hit => keeping (.inr hit.2.1) hit.2.2⟩
      rcases either with rfl | larger
      · exact spared ⟨positive,high,lags⟩
      · exact spared ⟨positive,larger,lags⟩
    | _ => rfl
  refine ⟨?_,fun spared => ?_,fun keeping => ?_⟩
  · cases passed
    exact sizeHitMarked member hit
  · exact alongUnder (fun u a v high _ ok => stays u a v high ok) (fun u a high spared => (same u a high).mp spared) spared start
  · exact alongUnder (fun u a v high _ ok => stays u a v high ok) (fun u a high keeping => (same u a high).mpr keeping) keeping start

def Drained (c : Component) (tg : TargetID) (s : Store K) : Event K → Prop
  | .pass _ => ∀ t ∈ c.tables, unconsumed (s.control.queue t) tg = []
  | _ => True
instance [DecidableEq K] (tg) (s : Store K) (a) : Decidable (Drained c tg s a) := by
  cases a <;> unfold Drained <;> infer_instance

theorem drainedKeeping {a table tg} (drained : Drained c tg s a) : Keeping dialect [tg] ret c table tg s a := by
  cases a with
  | pass now =>
    rintro t member _ ⟨_,_,_,held,_⟩
    exact held (drained t member)
  | _ => trivial

end Pass

def vacant : Store Nat := ⟨⟨fun _ => .empty,fun _ _ => ⟨.streaming,false⟩,[]⟩,fun _ => 0⟩

def fills : List (Event Nat) := [.capture orders ⟨1,.insert,1,0⟩ 30,.capture orders ⟨2,.insert,2,0⟩ 30,
  .capture orders ⟨3,.insert,3,0⟩ 30,.capture orders ⟨4,.insert,4,0⟩ 30]

theorem drainedSpared : ∃ s ∈ run (step .mysql ["t"] ⟨0,100⟩ onlyOrders) vacant fills,
    ∃ t ∈ step .mysql ["t"] ⟨0,100⟩ onlyOrders s (.pass 1),
      Along (step .mysql ["t"] ⟨0,100⟩ onlyOrders) (Spared .mysql ["t"] ⟨0,100⟩ onlyOrders "t") t
        [.reseed "t",.capture orders ⟨5,.insert,5,2⟩ 30,.confirm orders "t" [5],.pass 3] := by
  obtain ⟨s,ran,hit,t,passed,drained⟩ : ∃ s ∈ run (step .mysql ["t"] ⟨0,100⟩ onlyOrders) vacant fills,
      SizeHit .mysql ["t"] ⟨0,100⟩ s 1 orders "t" ∧ ∃ t ∈ step .mysql ["t"] ⟨0,100⟩ onlyOrders s (.pass 1),
        Along (step .mysql ["t"] ⟨0,100⟩ onlyOrders) (Drained onlyOrders "t") t
          [.reseed "t",.capture orders ⟨5,.insert,5,2⟩ 30,.confirm orders "t" [5],.pass 3] := by
    decide +kernel
  refine ⟨s,ran,t,passed,(sizeSparedIff (List.mem_singleton_self orders) hit passed _).2.mpr ?_⟩
  exact alongUnder (P := fun _ => True) (fun _ _ _ _ _ _ => trivial) (fun s a _ drained => drainedKeeping drained) drained trivial

theorem oneRowSacrificedAgain :
    (∃ s ∈ run (step .postgres ["t"] ⟨0,100⟩ onlyOrders) vacant fills, SizeHit .postgres ["t"] ⟨0,100⟩ s 1 orders "t" ∧
      ∃ t ∈ run (step .postgres ["t"] ⟨0,100⟩ onlyOrders) s [.pass 1,.reseed "t"],
        Along (step .postgres ["t"] ⟨0,100⟩ onlyOrders) (Modest ⟨0,100⟩ onlyOrders 30 "t") t
          [.capture orders ⟨5,.insert,5,2⟩ 0,.pass 3] ∧
        ∃ u ∈ run (step .postgres ["t"] ⟨0,100⟩ onlyOrders) t [.capture orders ⟨5,.insert,5,2⟩ 0],
          SizeHit .postgres ["t"] ⟨0,100⟩ u 3 orders "t") ∧
    ∃ s ∈ run (step .mysql ["t"] ⟨0,100⟩ onlyOrders) vacant fills, SizeHit .mysql ["t"] ⟨0,100⟩ s 1 orders "t" ∧
      ∃ t ∈ run (step .mysql ["t"] ⟨0,100⟩ onlyOrders) s [.pass 1,.reseed "t"],
        Along (step .mysql ["t"] ⟨0,100⟩ onlyOrders) (Modest ⟨0,100⟩ onlyOrders 30 "t") t
          [.capture orders ⟨5,.insert,5,2⟩ 0,.pass 3] ∧
        ∃ u ∈ run (step .mysql ["t"] ⟨0,100⟩ onlyOrders) t [.capture orders ⟨5,.insert,5,2⟩ 0],
          SizeHit .mysql ["t"] ⟨0,100⟩ u 3 orders "t" := by
  decide +kernel

end Replicare.SizeCap
