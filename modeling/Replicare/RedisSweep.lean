import Replicare.RedisStream

/-! Sweeps over the target that may fail. The scan state lives in the sink and moves on before
EXISTS and DEL, so a step that fails has dropped what it scanned. -/
namespace Replicare.RedisSweep
open Engine Coalesce RedisKeys RedisScan RedisStream Runs List

section Orphan
variable {n m : Nat} {V : Type} (site : Site n m)

def Orphaned (k : Bytes) (w : World n m V) : Action V → Prop
  | .client source => source k = none
  | .write target => target k = w.target k
  | .drain call => (∀ i, call.upsertViews i k = none) ∧ ∀ i, call.deleteViews i k = none
  | .sweep call => (∀ i, call.views i k = none) ∧ call.steady k = true ∧
      Honest site.targetOwner (fun k => held w.target k ∧ call.steady k = true) w.targetRecon
        (fun k => w.targetOwed k ∧ call.steady k = true) (pagesOf call.answers)

/- The step gets as far as the DEL of the key. -/
def Carries (call : SweepCall V) (k : Bytes) : Prop :=
  none ∉ call.answers ∧
    match call.fault with
    | .none => True
    | .exister => False
    | .del carried => carried k = true

def Spares (_ : World n m V) : Action V → Prop
  | .sweep call => ∀ k ∈ collected (chosen site.sel) (pagesOf call.answers), (∃ i, call.views i k ≠ none) ∨ Carries call k
  | _ => True

variable {site} {w t : World n m V} {k : Bytes}

theorem appliedOrphan {call : DrainCall V} {keys : List Bytes} (upserts : ∀ i, call.upsertViews i k = none)
    (again : ∀ i, call.deleteViews i k = none) (b : Keyspace V) : applied b call keys k = b k ∨ applied b call keys k = none := by
  have away : ∀ (views : Nat → Keyspace V) (records : List (Bytes × V)), (∀ i, views i k = none) →
      (∀ e ∈ records, e ∈ rereadCurrent views keys) → k ∉ records.map Prod.fst := by
    rintro views records missing sub named
    obtain ⟨⟨c,v⟩,member,rfl⟩ := mem_map.mp named
    obtain ⟨i,_,found⟩ := rereadMem.mp (sub _ member)
    rw [missing i] at found
    cases found
  have part : ∀ (carried : Nat → Bool) (records : List (Bytes × V)), ∀ e ∈ carriedOut carried records, e ∈ records := by
    intro carried records e member
    obtain ⟨⟨d,i⟩,kept,rfl⟩ := mem_map.mp member
    exact fst_mem_of_mem_zipIdx (mem_of_mem_filter kept)
  have upserted := away _ _ upserts fun e member => member
  have restaged := away _ _ again fun e member => member
  have deletes : ∀ passed : List Bytes, deleteAbsent ((rereadCurrent call.deleteViews keys).map Prod.fst)
      (restoreStream (restoreStream b (rereadCurrent call.upsertViews keys)) (rereadCurrent call.deleteViews keys)) passed k = b k ∨
    deleteAbsent ((rereadCurrent call.deleteViews keys).map Prod.fst)
      (restoreStream (restoreStream b (rereadCurrent call.upsertViews keys)) (rereadCurrent call.deleteViews keys)) passed k = none := by
    intro passed
    rw [deleteAbsent,delAt,restoreAway restaged,restoreAway upserted]
    split
    · exact .inr rfl
    · exact .inl rfl
  cases fault : call.fault with
  | none =>
    simp only [applied,fault]
    exact deletes keys
  | upsert carried =>
    simp only [applied,fault]
    exact .inl (restoreAway (away _ _ upserts (part carried _)))
  | restage carried =>
    simp only [applied,fault]
    rw [restoreAway (away _ _ again (part carried _)),restoreAway upserted]
    exact .inl rfl
  | del carried =>
    simp only [applied,fault]
    exact deletes _

theorem carriesDeletes {call keys complete} (carries : Carries call k)
    (missing : k ∈ missingAtSource call.views keys) : k ∈ (deleted w call keys complete).1 := by
  obtain ⟨_,carried⟩ := carries
  cases fault : call.fault with
  | none =>
    rw [deletedFine fault]
    exact missing
  | exister =>
    rw [fault] at carried
    exact carried.elim
  | del through =>
    rw [fault] at carried
    rw [deleted,fault]
    dsimp only
    split
    · exact missing
    · exact mem_filter.mpr ⟨missing,carried⟩

theorem reportedComplete {call keys complete} (zero : (deleted w call keys complete).2.next = 0)
    (fine : (deleted w call keys complete).2.failed = false) : complete = true := by
  have reports : (deleted w call keys complete).2.failed = true ∨ (deleted w call keys complete).2.next = if complete then 0 else 1 := by
    cases fault : call.fault with
    | none =>
      rw [deletedFine fault]
      exact .inr rfl
    | _ =>
      rw [deleted,fault]
      dsimp only
      split
      · exact .inr rfl
      · exact .inl rfl
  rcases reports with failed | next
  · rw [fine] at failed
    cases failed
  · rw [zero] at next
    cases complete with
    | true => rfl
    | false => cases next

theorem completeFresh {keep : Bytes → Bool} {max : Nat} {r s : Recon m} {answers : List Answer} {keys : List Bytes}
    (ended : Ended keep max r [] answers s (.batch keys true)) : s = newRecon := by
  cases ended
  rfl

theorem sweepOrphan {call result} (picked : chosen site.sel k = true) (orphaned : Orphaned site k w (.sweep call))
    (spares : Spares site w (.sweep call)) (took : deleteSweepStep site w call = some (t,result))
    (covered : Covered site.targetOwner k w.targetRecon w.targetOwed (w.target k = none)) :
    Covered site.targetOwner k t.targetRecon t.targetOwed (t.target k = none) ∧
      (result.next = 0 → result.failed = false → t.target k = none) := by
  obtain ⟨missing,steady,honest⟩ := orphaned
  have met_ : met w call k = w.target k := by rw [met,if_pos steady]
  have gone : w.target k = none → t.target k = none := by
    intro before
    rcases sweepCases took with ⟨r,keys,complete,_,_,_,rfl⟩ | ⟨r,_,_,rfl⟩
    · simp only [delAt,met_,before,ite_self]
    · exact met_.trans before
  by_cases before : w.target k = none
  · exact ⟨.inl (gone before),fun _ _ => gone before⟩
  have here : held w.target k ∧ call.steady k = true := ⟨Option.isSome_iff_ne_none.mpr before,steady⟩
  have start : Covered site.targetOwner k w.targetRecon (fun k => w.targetOwed k ∧ call.steady k = true) False :=
    coveredMono covered before fun _ owes => ⟨owes,steady⟩
  -- a page with the key is a step that carries its DEL through
  have carries : k ∈ (pagesOf call.answers).flatMap Page.keys → Carries call k := by
    intro found
    rcases spares k (mem_filter.mpr ⟨found,picked⟩) with ⟨i,present⟩ | carried
    · exact absurd (missing i) present
    · exact carried
  rcases sweepCases took with ⟨r,keys,complete,ended,_,rfl,rfl⟩ | ⟨r,ended,rfl,rfl⟩
  · obtain ⟨onward,completes⟩ := endedCovers ended here honest start
    have deletes : False ∨ k ∈ (pagesOf call.answers).flatMap Page.keys →
        del (met w call) (deleted w call keys complete).1 k = none := by
      intro found
      have returned := found.resolve_left id
      have member : k ∈ keys := by
        rw [endedBatch ended]
        exact mem_filter.mpr ⟨returned,picked⟩
      obtain ⟨i,at_⟩ := mem_iff_getElem?.mp member
      rw [delAt,if_pos (carriesDeletes (carries returned) (missingMem.mpr ⟨i,at_,missing i⟩))]
    refine ⟨coveredMono onward deletes fun now owes => ⟨owes,Option.isSome_iff_ne_none.mpr now⟩,fun zero fine => ?_⟩
    have ends := reportedComplete zero fine
    rw [ends] at completes
    exact deletes (completes _ rfl)
  · obtain ⟨onward,_⟩ := endedCovers ended here honest start
    have unread : False ∨ k ∈ (pagesOf call.answers).flatMap Page.keys → met w call k = none := by
      intro found
      have answered := (carries (found.resolve_left id)).1
      exact absurd ended (noFailure answered)
    exact ⟨coveredMono onward unread fun now owes => ⟨owes,Option.isSome_iff_ne_none.mpr now⟩,fun _ fine => by cases fine⟩

theorem orphanKept {a : Action V} (picked : chosen site.sel k = true) (orphaned : Orphaned site k w a ∧ Spares site w a)
    (took : step site w a = some t) (covered : Covered site.targetOwner k w.targetRecon w.targetOwed (w.target k = none)) :
    Covered site.targetOwner k t.targetRecon t.targetOwed (t.target k = none) := by
  obtain ⟨orphaned,spares⟩ := orphaned
  cases a with
  | client source =>
    cases took
    exact covered
  | write target =>
    cases took
    have same : target k = w.target k := orphaned
    exact coveredMono covered same.trans fun now owes => ⟨owes,Option.isSome_iff_ne_none.mpr now⟩
  | drain call =>
    obtain ⟨upserts,again⟩ := orphaned
    rcases drainCases took with ⟨r,keys,complete,_,rfl⟩ | ⟨r,_,rfl⟩
    · have kept := @appliedOrphan V k call (coalesce id (dirty w.changeID keys)).1 upserts again w.target
      refine coveredMono covered (fun before => ?_) fun now owes => ⟨owes,Option.isSome_iff_ne_none.mpr now⟩
      exact kept.elim (fun same => same.trans before) id
    · exact covered
  | sweep call =>
    obtain ⟨⟨u,result⟩,swept,rfl⟩ := Option.map_eq_some_iff.mp took
    exact (sweepOrphan picked orphaned spares swept covered).1

/- Between two reported passes. -/
theorem sweepComplete {first last : SweepCall V} {before start middle after : World n m V} {zero one : Result} {acts : List (Action V)}
    (begins : deleteSweepStep site before first = some (start,zero)) (reported : zero.next = 0 ∧ zero.failed = false)
    (ran : run (step site) start acts = some middle) (ends : deleteSweepStep site middle last = some (after,one))
    (completed : one.next = 0 ∧ one.failed = false) (spares : Along (step site) (Spares site) start (acts++[.sweep last])) :
    ∀ k, chosen site.sel k = true → Along (step site) (Orphaned site k) start (acts++[.sweep last]) → after.target k = none := by
  intro k picked orphaned
  obtain ⟨early,final⟩ := alongSplit (alongBoth orphaned spares) ran
  have fresh : Covered site.targetOwner k start.targetRecon start.targetOwed (start.target k = none) := by
    rcases sweepCases begins with ⟨r,keys,complete,ended,_,rfl,rfl⟩ | ⟨r,_,rfl,_⟩
    · rw [reportedComplete reported.1 reported.2] at ended
      rw [completeFresh ended]
      exact coveredNew
    · cases reported.2
  have covered := runKeeps (fun w a t covered met took => orphanKept picked met took covered) early ran fresh
  exact (sweepOrphan picked final.1.1 final.1.2 ends covered).2 completed.1 completed.2

end Orphan

def bySingles : Site 0 0 := ⟨none,1,fun _ => Fin.last 0,fun _ => Fin.last 0⟩

def orphan : Keyspace Bytes := fun k => if k = [1] then some [11] else none

def blank : World 0 0 Bytes := ⟨fun _ => none,fun _ => none,newRecon,newRecon,0,0,fun _ => False,fun _ => False⟩

def emptyPass : SweepCall Bytes := ⟨[some ⟨[],0⟩],fun _ => false,orphan,fun _ _ => none,.none⟩
def findsKey (fault : SweepFault) : SweepCall Bytes := ⟨[some ⟨[[1]],0⟩],fun _ => true,orphan,fun _ _ => none,fault⟩
def endsPass : SweepCall Bytes := ⟨[],fun _ => true,orphan,fun _ _ => none,.none⟩

def passed (w : World 0 0 Bytes) (call : SweepCall Bytes) : World 0 0 Bytes := ((deleteSweepStep bySingles w call).map Prod.fst).getD w

theorem findsHonest {w : World 0 0 Bytes} (target : ∀ k, w.target k = orphan k) (recon : w.targetRecon = newRecon) (fault : SweepFault) :
    Honest bySingles.targetOwner (fun k => held w.target k ∧ (findsKey fault).steady k = true) w.targetRecon
      (fun k => w.targetOwed k ∧ (findsKey fault).steady k = true) (pagesOf (findsKey fault).answers) := by
  rw [recon]
  refine honestWhole fun k here => ?_
  rw [held,target k] at here
  by_cases first : k = [1]
  · simp [first]
  · simp [orphan,first] at here

/- The key is found and deleted. -/
theorem sweepFindsKey : ∃ start middle after, deleteSweepStep bySingles blank emptyPass = some (start,⟨0,0,false⟩) ∧
    deleteSweepStep bySingles start (findsKey .none) = some (middle,⟨1,1,false⟩) ∧
    deleteSweepStep bySingles middle endsPass = some (after,⟨0,0,false⟩) ∧ after.target [1] = none := by
  have finds : Orphaned bySingles [1] (passed blank emptyPass) (.sweep (findsKey .none)) :=
    ⟨fun _ => rfl,rfl,findsHonest (fun _ => rfl) rfl _⟩
  have spares : Spares bySingles (passed blank emptyPass) (.sweep (findsKey .none)) :=
    fun k _ => .inr ⟨by simp [findsKey],trivial⟩
  have ends : ∀ w : World 0 0 Bytes, Orphaned bySingles [1] w (.sweep endsPass) ∧ Spares bySingles w (.sweep endsPass) :=
    fun w => ⟨⟨fun _ => rfl,rfl,trivial⟩,fun k member => by cases member⟩
  refine ⟨_,_,_,rfl,rfl,rfl,?_⟩
  refine @sweepComplete 0 0 Bytes bySingles emptyPass endsPass blank _ _ _ _ _ [.sweep (findsKey .none)] rfl ⟨rfl,rfl⟩ rfl rfl ⟨rfl,rfl⟩ ?_
    [1] rfl ?_
  · exact ⟨spares,fun t _ => ⟨(ends t).2,fun _ _ => trivial⟩⟩
  · exact ⟨finds,fun t _ => ⟨(ends t).1,fun _ _ => trivial⟩⟩

/- EXISTS fails after the scan has moved past the key, and the next step reports the pass. -/
theorem sweepDropsKey : ∃ start middle after, deleteSweepStep bySingles blank emptyPass = some (start,⟨0,0,false⟩) ∧
    deleteSweepStep bySingles start (findsKey .exister) = some (middle,⟨0,0,true⟩) ∧
    deleteSweepStep bySingles middle endsPass = some (after,⟨0,0,false⟩) ∧
    Orphaned bySingles [1] start (.sweep (findsKey .exister)) ∧ Orphaned bySingles [1] middle (.sweep endsPass) ∧
    after.target [1] = some [11] := by
  refine ⟨_,_,_,rfl,rfl,rfl,⟨fun _ => rfl,rfl,findsHonest (fun _ => rfl) rfl _⟩,⟨fun _ => rfl,rfl,trivial⟩,rfl⟩

end Replicare.RedisSweep
