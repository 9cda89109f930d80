import Replicare.FkProgress
import Replicare.PgPreflight

/-! Repeated NULL-then-fill passes of a cyclic Postgres component. -/
namespace Replicare.FkCyclic
open Engine Relations Consume Stored Rounds FkDrain FkPlan FkProgress PgPreflight List

variable {job : Job} {s : State}

theorem nullFillDrainsIff {arrange : Nat → Nat → Nat → List Nat} (limited : 0 < job.batch)
    (initial : Consistent job.fks (view s.target)) (final : Consistent job.fks (view job.source))
    (steady : (course job s).Steady job.fks) (whole : ∀ n, Whole (arrange n)) :
    (∃ n, Drained job (passes (fun n t => (drainCyclicNullFill job (arrange n) t).state) s n)) ↔
      Unblocked job s 3 ∧ Offered job s :=
  phasesDrainIff limited initial final steady whole (.inl rfl)

theorem shopAccepted (components) : (buildPreflight components "shop" 160000 160000 shopTables shopTables).blocked = false := by
  rw [Bool.eq_false_iff,Ne,blockedIff]
  decide

def shopJob (source : Base) : Job where
  fks := [ofUser,lastOrder]
  cyclicCols := nullFillColsByTable (classifyCyclicFKs shopTables)
  source := source
  tables := [orders,users]
  id := "replica"
  batch := 1000

def user (id order : UInt8) : KeyValues × Row := ([some [id]],rowOf [("id",[id]),("last_order",[order])])
def order (id user : UInt8) : KeyValues × Row := ([some [id]],rowOf [("id",[id]),("user_id",[user])])

def both : List (TableRef × Rows) := [(orders,[order 7 1]),(users,[user 1 7])]

def changed (op : Op) : Queues := fun r => ⟨[⟨1,op,if r = orders then [some [7]] else [some [1]],0⟩],∅,nodup_singleton _⟩

theorem blendFilled (cols) (x) (old) : blend cols (blend cols x old) (some x) = x := by
  funext c
  unfold blend
  split <;> rfl

theorem insertedDrained : Drained (shopJob (listed both))
    (passes (fun _ t => (drainCyclicNullFillSeq (shopJob (listed both)) t).state) ⟨listed [],changed .insert⟩ 1) := by
  have filled : ∀ (cols : List String) (e : KeyValues × Row) (old),
      [(e.1,blend cols (blend cols e.2 old) (some e.2))] = [e] := by
    intro cols e old
    rw [blendFilled]
  intro r known
  have each : r = orders ∨ r = users := by simpa [shopJob] using known
  rcases each with rfl | rfl
  · refine ⟨by decide +kernel,fun k => ?_⟩
    exact congrArg (fun rows : Rows => rows.lookup k) (filled ["user_id"] (order 7 1) (some _))
  · refine ⟨by decide +kernel,fun k => ?_⟩
    exact congrArg (fun rows : Rows => rows.lookup k) (filled ["last_order"] (user 1 7) (some _))

theorem nullFillDrainsIffInserted : (∃ n, Drained (shopJob (listed both))
      (passes (fun _ t => (drainCyclicNullFillSeq (shopJob (listed both)) t).state) ⟨listed [],changed .insert⟩ n)) ∧
    Unblocked (shopJob (listed both)) ⟨listed [],changed .insert⟩ 3 ∧
      Offered (shopJob (listed both)) ⟨listed [],changed .insert⟩ := by
  have free : ∀ r, ∀ c ∈ ["id"], c ∉ (shopJob (listed both)).cyclicCols r := by
    intro r c key mem
    obtain ⟨x,known,_,_,column⟩ := memNullFillCols mem
    have apart : ∀ x ∈ classifyCyclicFKs shopTables, ∀ c ∈ x.fk.childCols, c ∉ ["id"] := by decide
    exact apart x known c column key
  have steady : (course (shopJob (listed both)) ⟨listed [],changed .insert⟩).Steady _ := steadyOfKeyed (fun _ => ["id"])
    (by decide) free (by decide) (listedKeyed (l := []) (by decide)) (listedKeyed (l := both) (by decide))
  exact ⟨⟨1,insertedDrained⟩,(nullFillDrainsIff (by decide) (by decide) (by decide) steady fun _ => topoOrderWhole).mp
    ⟨1,insertedDrained⟩⟩

def deleted : State := ⟨listed both,changed .delete⟩

theorem deletedStays : (drainCyclicNullFillSeq (shopJob (listed [])) deleted).state = deleted := by
  have gathered : gatherWork (shopJob (listed [])) deleted.queue =
      [⟨orders,[[some [7]]],[1]⟩,⟨users,[[some [1]]],[1]⟩] := by decide
  have staged : ∀ w : Work, stageUpsertCyclic (shopJob (listed [])) deleted.target w = some deleted.target := by
    intro w
    unfold stageUpsertCyclic
    rw [show rereadCurrent (shopJob (listed [])) w = [] from rfl,mergeNothing]
    exact acceptTaken (by decide)
  have first : phase (nullFillPhase (shopJob (listed [])) 0) [⟨orders,[[some [7]]],[1]⟩,⟨users,[[some [1]]],[1]⟩]
      deleted.target = (deleted.target,[⟨orders,[[some [7]]],[1]⟩,⟨users,[[some [1]]],[1]⟩]) := by
    simp [phase,nullFillPhase,perTableApplyCyclic,staged]
  have ordersRefused : deleteAbsent (shopJob (listed [])) deleted.target ⟨orders,[[some [7]]],[1]⟩ = none :=
    acceptRefused (by decide)
  have usersRefused : deleteAbsent (shopJob (listed [])) deleted.target ⟨users,[[some [1]]],[1]⟩ = none :=
    acceptRefused (by decide)
  have second : phase (nullFillPhase (shopJob (listed [])) 1) [⟨users,[[some [1]]],[1]⟩,⟨orders,[[some [7]]],[1]⟩]
      deleted.target = (deleted.target,[]) := by
    simp [phase,nullFillPhase,perTableApplyCyclic,staged,ordersRefused,usersRefused]
  unfold drainCyclicNullFillSeq drainCyclicNullFill drainPhases
  rw [gathered]
  simp only [Rounds.pass,topoForward (j := 0) (by decide),first,Nat.zero_add,topoBackward,reverse_cons,reverse_nil,
    nil_append,cons_append,second]
  rfl

theorem mutualDeletesLivelock : (∀ components, (buildPreflight components "shop" 160000 160000 shopTables shopTables).blocked = false) ∧
    0 < (shopJob (listed [])).batch ∧ Consistent (shopJob (listed [])).fks (view deleted.target) ∧
      Consistent (shopJob (listed [])).fks (view (shopJob (listed [])).source) ∧ Covered (shopJob (listed [])) deleted ∧
        ∀ n, ¬Drained (shopJob (listed [])) (passes (fun _ t => (drainCyclicNullFillSeq (shopJob (listed [])) t).state) deleted n) := by
  refine ⟨shopAccepted,by decide,by decide,by decide,coveredOfListed (by decide),fun n drained => ?_⟩
  rw [passesStay fun _ => deletedStays] at drained
  have queue := (drained users (by decide)).1
  revert queue
  decide

end Replicare.FkCyclic
