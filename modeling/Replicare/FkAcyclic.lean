import Replicare.FkProgress

/-! Repeated drain passes of an acyclic component. -/
namespace Replicare.FkAcyclic
open Engine Relations Consume Stored Rounds FkDrain FkPlan FkProgress

variable {job : Job} {s : State}

theorem acyclicDrainsIff {arrange : Nat → Nat → Nat → List Nat} (limited : 0 < job.batch)
    (initial : Consistent job.fks (view s.target)) (final : Consistent job.fks (view job.source))
    (steady : (course job.plain s).Steady job.fks) (whole : ∀ n, Whole (arrange n)) :
    (∃ n, Drained job (passes (fun n t => (drainAcyclic job (arrange n) t).state) s n)) ↔
      Unblocked job.plain s 2 ∧ Offered job.plain s := by
  simp only [drainAcyclicPhases]
  have bounded : 0 < job.plain.batch := limited
  exact phasesDrainIff bounded initial final steady whole (.inr ⟨rfl,fun _ => rfl⟩)

def products : TableRef := ⟨"public","products"⟩
def orderItems : TableRef := ⟨"public","order_items"⟩
def skuKey : ForeignKey := ⟨"order_items_sku_fkey",orderItems,["sku"],products,["sku"],false⟩

def product (sku : UInt8) : KeyValues × Row := ([some [sku]],rowOf [("sku",[sku])])
def orderItem (id sku : UInt8) : KeyValues × Row := ([some [id]],rowOf [("id",[id]),("sku",[sku])])

def keyCols (r : TableRef) : List String := if r = products then ["sku"] else ["id"]

def oneByOne (source : Base) : Job := ⟨[skuKey],fun _ => [],source,[products,orderItems],"replica",1⟩

def queued (parents children : Queue KeyValues) : Queues := fun r => if r = products then parents else children

def inserted : State where
  target := listed []
  queue := queued ⟨[⟨1,.insert,[some [20]],0⟩],∅,by decide⟩ ⟨[⟨1,.insert,[some [1]],0⟩],∅,by decide⟩

def insertedSource : Base := listed [(products,[product 20]),(orderItems,[orderItem 1 20])]

theorem insertedDrained : Drained (oneByOne insertedSource)
    (passes (fun _ t => (drainAcyclicSeq (oneByOne insertedSource) t).state) inserted 1) := by
  intro r known
  have each : r = products ∨ r = orderItems := by simpa [oneByOne] using known
  rcases each with rfl | rfl
  · exact ⟨by decide +kernel,fun k => rfl⟩
  · exact ⟨by decide +kernel,fun k => rfl⟩

theorem acyclicDrainsIffInserted :
    (∃ n, Drained (oneByOne insertedSource) (passes (fun _ t => (drainAcyclicSeq (oneByOne insertedSource) t).state) inserted n)) ∧
      Unblocked (oneByOne insertedSource).plain inserted 2 ∧ Offered (oneByOne insertedSource).plain inserted := by
  have target : Keyed keyCols (view inserted.target) := listedKeyed (l := []) (by decide)
  have source : Keyed keyCols (view insertedSource) :=
    listedKeyed (l := [(products,[product 20]),(orderItems,[orderItem 1 20])]) (by decide)
  refine ⟨⟨1,insertedDrained⟩,(acyclicDrainsIff (by decide) (by decide) (by decide) ?_ fun _ => topoOrderWhole).mp
    ⟨1,insertedDrained⟩⟩
  exact steadyOfKeyed keyCols (by decide) (fun _ _ _ => List.not_mem_nil) (fun _ _ => .inr fun _ _ => List.not_mem_nil) target source

def renamed : State where
  target := listed [(products,[product 10]),(orderItems,[orderItem 1 10])]
  queue := queued ⟨[⟨2,.update,[some [20]],0⟩,⟨1,.delete,[some [10]],0⟩],∅,by decide⟩ ⟨[⟨1,.update,[some [1]],0⟩],∅,by decide⟩

def renamedJob : Job := oneByOne insertedSource

theorem renamedGathered : gatherWork renamedJob renamed.queue =
    [⟨products,[[some [10]]],[1]⟩,⟨orderItems,[[some [1]]],[1]⟩] := by
  decide

theorem renamedStays : (drainAcyclicSeq renamedJob renamed).state = renamed := by
  have parentStaged : perTableUpsert renamedJob renamed.target ⟨products,[[some [10]]],[1]⟩ = some renamed.target := by
    unfold perTableUpsert
    rw [show rereadCurrent renamedJob ⟨products,[[some [10]]],[1]⟩ = [] from rfl,upsertNothing]
    exact acceptTaken (by decide)
  have childRefused : perTableUpsert renamedJob renamed.target ⟨orderItems,[[some [1]]],[1]⟩ = none :=
    acceptRefused (by decide)
  have parentRefused : perTableDelete renamedJob renamed.target ⟨products,[[some [10]]],[1]⟩ = none := by
    unfold perTableDelete deleteAbsent
    rw [parentStaged,Option.bind_some]
    exact acceptRefused (by decide)
  unfold drainAcyclicSeq drainAcyclic
  simp only [renamedGathered,topoForward (j := 0) (by decide),topoBackward,phase,parentStaged,childRefused,
    List.reverse_singleton,parentRefused,Option.map_none]

theorem renamedKeyLivelock : 0 < renamedJob.batch ∧ ParentsFirst renamedJob ∧ Consistent renamedJob.fks (view renamed.target) ∧
    Consistent renamedJob.fks (view renamedJob.source) ∧ Covered renamedJob renamed ∧
      ∀ n, ¬Drained renamedJob (passes (fun _ t => (drainAcyclicSeq renamedJob t).state) renamed n) := by
  refine ⟨by decide,by decide,by decide,by decide,coveredOfListed (by decide),fun n drained => ?_⟩
  rw [passesStay fun _ => renamedStays] at drained
  have queue := (drained products (by decide)).1
  revert queue
  decide

end Replicare.FkAcyclic
