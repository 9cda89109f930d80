import Replicare.Coalesce
import Replicare.RedisScan
import Replicare.Runs

/-! One-way Redis streaming: drain passes that re-read what the rolling source scan and the
notifications name, and sweep steps that delete what the rolling target scan finds and the
source does not have. -/
namespace Replicare.RedisStream
open Engine Coalesce RedisKeys RedisScan Runs List Function

abbrev Keyspace (V : Type) := Bytes → Option V

section Commands
variable {V : Type}

/- RESTORE ... REPLACE for each record. -/
def restoreStream (t : Keyspace V) (records : List (Bytes × V)) : Keyspace V :=
  records.foldl (fun t e => update t e.1 (some e.2)) t

def del (t : Keyspace V) (keys : List Bytes) : Keyspace V := keys.foldl (fun t k => update t k none) t

/- DUMP of each key; the view is the source at the time of the command. -/
def rereadCurrent (views : Nat → Keyspace V) (keys : List Bytes) : List (Bytes × V) :=
  keys.zipIdx.filterMap fun e => (views e.2 e.1).map fun v => (e.1,v)

def missingAtSource (views : Nat → Keyspace V) (keys : List Bytes) : List Bytes :=
  keys.zipIdx.filterMap fun e => if (views e.2 e.1).isSome then none else some e.1

def deleteAbsent (staged : List Bytes) (t : Keyspace V) (keys : List Bytes) : Keyspace V :=
  del t (keys.filter fun k => decide (k ∉ staged))

end Commands

def defaultScanCount : Nat := 512

def limit (max : Int) : Nat := if max ≤ 0 then defaultScanCount else max.toNat

structure Site (n m : Nat) where
  sel : Option Selection
  drainBatch : Int
  owner : Bytes → Fin (n+1)
  targetOwner : Bytes → Fin (m+1)

structure Notes where
  flagged : List Bytes
  gapped : Bool

/- The commands that a failed pipeline has still carried out. -/
inductive DrainFault where
  | none
  | upsert (carried : Nat → Bool)
  | restage (carried : Nat → Bool)
  | del (carried : Bytes → Bool)

structure DrainCall (V : Type) where
  notes : Notes
  answers : List Answer
  upsertViews : Nat → Keyspace V
  deleteViews : Nat → Keyspace V
  fault : DrainFault

inductive SweepFault where
  | none
  | exister
  | del (carried : Bytes → Bool)

structure SweepCall (V : Type) where
  answers : List Answer
  steady : Bytes → Bool
  others : Keyspace V
  views : Nat → Keyspace V
  fault : SweepFault

structure World (n m : Nat) (V : Type) where
  source : Keyspace V
  target : Keyspace V
  recon : Recon n
  targetRecon : Recon m
  changeID : DeltaID
  sweepCursor : Nat
  owed : Bytes → Prop
  targetOwed : Bytes → Prop

inductive Action (V : Type) where
  | client (source : Keyspace V)
  | write (target : Keyspace V)
  | drain (call : DrainCall V)
  | sweep (call : SweepCall V)

section Machine
variable {n m : Nat} {V : Type} (site : Site n m)

def begun (w : World n m V) (call : DrainCall V) : Recon n := if call.notes.gapped then w.recon.reset else w.recon

def readDirtyKeys (w : World n m V) (call : DrainCall V) : Recon n × Outcome × List Answer :=
  let batch := call.notes.flagged.filter (chosen site.sel)
  if limit site.drainBatch ≤ batch.length then (begun w call,.batch batch false,call.answers)
  else
    match scanBatch site.sel (limit site.drainBatch-batch.length) (begun w call) call.answers with
    | (r,.batch keys complete,rest) => (r,.batch (batch++keys) complete,rest)
    | other => other

def dirty (changeID : DeltaID) (keys : List Bytes) : List (DirtyKey Bytes) :=
  keys.zipIdx.map fun e => ⟨changeID+e.2+1,.update,e.1⟩

def carriedOut (carried : Nat → Bool) (records : List (Bytes × V)) : List (Bytes × V) :=
  (records.zipIdx.filter fun e => carried e.2).map Prod.fst

/- perTableUpsert, then perTableDelete, on the distinct keys. -/
def applied (t : Keyspace V) (call : DrainCall V) (distinct : List Bytes) : Keyspace V :=
  let upserts := rereadCurrent call.upsertViews distinct
  let again := rereadCurrent call.deleteViews distinct
  match call.fault with
  | .none => deleteAbsent (again.map Prod.fst) (restoreStream (restoreStream t upserts) again) distinct
  | .upsert carried => restoreStream t (carriedOut carried upserts)
  | .restage carried => restoreStream (restoreStream t upserts) (carriedOut carried again)
  | .del carried =>
    deleteAbsent (again.map Prod.fst) (restoreStream (restoreStream t upserts) again) (distinct.filter carried)

def still (t : Keyspace V) (owed : Bytes → Prop) (k : Bytes) : Prop := owed k ∧ (t k).isSome = true

def held (t : Keyspace V) (k : Bytes) : Prop := (t k).isSome = true

def drain (w : World n m V) (call : DrainCall V) : Option (World n m V) :=
  let owed := owedAfter site.owner (held w.source) (begun w call) w.owed (pagesOf call.answers)
  match readDirtyKeys site w call with
  | (r,.batch keys _,[]) =>
    let t := applied w.target call (coalesce id (dirty w.changeID keys)).1
    some { w with target := t, recon := r, changeID := w.changeID+keys.length, owed := owed, targetOwed := still t w.targetOwed }
  | (r,.failed,[]) =>
    some { w with recon := r, changeID := w.changeID+(call.notes.flagged.filter (chosen site.sel)).length, owed := owed }
  | _ => none

structure Result where
  deleted : Nat
  next : Nat
  failed : Bool
  deriving DecidableEq, Repr

def scanTargetKeys (w : World n m V) (call : SweepCall V) : Recon m × Outcome × List Answer :=
  scanBatch site.sel (limit site.drainBatch) w.targetRecon call.answers

def met (w : World n m V) (call : SweepCall V) : Keyspace V := fun k => if call.steady k then w.target k else call.others k

def deleted (w : World n m V) (call : SweepCall V) (keys : List Bytes) (complete : Bool) : List Bytes × Result :=
  let missing := missingAtSource call.views keys
  let fine : Result := ⟨missing.length,if complete then 0 else 1,false⟩
  match call.fault with
  | .none => (missing,fine)
  | .exister => if keys.isEmpty then (missing,fine) else ([],⟨0,w.sweepCursor,true⟩)
  | .del carried => if missing.isEmpty then (missing,fine) else (missing.filter carried,⟨0,w.sweepCursor,true⟩)

def deleteSweepStep (w : World n m V) (call : SweepCall V) : Option (World n m V × Result) :=
  let owed := owedAfter site.targetOwner (fun k => held w.target k ∧ call.steady k = true) w.targetRecon
    (fun k => w.targetOwed k ∧ call.steady k = true) (pagesOf call.answers)
  match scanTargetKeys site w call with
  | (r,.batch keys complete,[]) =>
    let done := deleted w call keys complete
    let t := del (met w call) done.1
    some ({ w with target := t, targetRecon := r, sweepCursor := done.2.next, targetOwed := still t owed },done.2)
  | (r,.failed,[]) => some ({ w with target := met w call, targetRecon := r, targetOwed := still (met w call) owed },⟨0,w.sweepCursor,true⟩)
  | _ => none

def step (w : World n m V) : Action V → Option (World n m V)
  | .client source => some { w with source := source, owed := still source w.owed }
  | .write target => some { w with target := target, targetOwed := still target w.targetOwed }
  | .drain call => drain site w call
  | .sweep call => (deleteSweepStep site w call).map Prod.fst

end Machine

section Keyspaces
variable {V : Type} {t : Keyspace V} {k : Bytes} {keys : List Bytes} {S : Keyspace V}

theorem restoreAway {records} (away : k ∉ records.map Prod.fst) : restoreStream t records k = t k := by
  induction records generalizing t with
  | nil => rfl
  | cons e records ih =>
    rw [map_cons,mem_cons,not_or] at away
    rw [restoreStream,foldl_cons,←restoreStream,ih away.2,update_of_ne away.1]

theorem restoreHere {records v} (named : k ∈ records.map Prod.fst) (same : ∀ e ∈ records, e.1 = k → e.2 = v) :
    restoreStream t records k = some v := by
  induction records generalizing t with
  | nil => cases named
  | cons e records ih =>
    rw [restoreStream,foldl_cons,←restoreStream]
    by_cases later : k ∈ records.map Prod.fst
    · exact ih later fun e member => same e (.tail _ member)
    · have here : k = e.1 := by simpa [later] using named
      rw [restoreAway later,here,update_self,same e (.head _) here.symm]

theorem delAt (keys) : del t keys k = if k ∈ keys then none else t k := by
  induction keys generalizing t with
  | nil => rfl
  | cons c keys ih =>
    rw [del,foldl_cons,←del,ih]
    by_cases here : k = c
    · simp [here]
    · simp [here]

theorem rereadMem {views : Nat → Keyspace V} {v : V} :
    (k,v) ∈ rereadCurrent views keys ↔ ∃ i, keys[i]? = some k ∧ views i k = some v := by
  simp only [rereadCurrent,mem_filterMap,Option.map_eq_some_iff,Prod.mk.injEq,Prod.exists,mem_zipIdx_iff_getElem?]
  constructor
  · rintro ⟨c,i,at_,x,found,rfl,rfl⟩
    exact ⟨i,at_,found⟩
  · rintro ⟨i,at_,found⟩
    exact ⟨k,i,at_,v,found,rfl,rfl⟩

theorem missingMem {views : Nat → Keyspace V} :
    k ∈ missingAtSource views keys ↔ ∃ i, keys[i]? = some k ∧ views i k = none := by
  simp only [missingAtSource,mem_filterMap,Option.ite_none_left_eq_some,Prod.exists,mem_zipIdx_iff_getElem?,Option.some.injEq,
    Bool.not_eq_true,Option.isSome_eq_false_iff,Option.isNone_iff_eq_none]
  constructor
  · rintro ⟨c,i,at_,found,rfl⟩
    exact ⟨i,at_,found⟩
  · rintro ⟨i,at_,found⟩
    exact ⟨k,i,at_,found,rfl⟩

theorem rereadNamed : k ∈ (rereadCurrent (fun _ => S) keys).map Prod.fst ↔ k ∈ keys ∧ S k ≠ none := by
  rw [mem_map]
  constructor
  · rintro ⟨⟨c,v⟩,member,rfl⟩
    obtain ⟨i,at_,found⟩ := rereadMem.mp member
    refine ⟨mem_of_getElem? at_,?_⟩
    rw [found]
    simp
  · rintro ⟨member,present⟩
    obtain ⟨v,found⟩ := Option.ne_none_iff_exists'.mp present
    obtain ⟨i,at_⟩ := mem_iff_getElem?.mp member
    exact ⟨(k,v),rereadMem.mpr ⟨i,at_,found⟩,rfl⟩

theorem restoreReread :
    restoreStream t (rereadCurrent (fun _ => S) keys) k = if k ∈ keys ∧ S k ≠ none then S k else t k := by
  split
  · rename_i both
    obtain ⟨v,found⟩ := Option.ne_none_iff_exists'.mp both.2
    rw [found]
    refine restoreHere (rereadNamed.mpr both) ?_
    rintro ⟨c,x⟩ member rfl
    obtain ⟨i,_,here⟩ := rereadMem.mp member
    exact Option.some.inj (here.symm.trans found)
  · rename_i neither
    exact restoreAway fun named => neither (rereadNamed.mp named)

theorem distinctMem {changeID keys} : k ∈ (coalesce id (dirty changeID keys)).1 ↔ k ∈ keys := by
  have keysOf : (dirty changeID keys).map DirtyKey.key = keys := by
    rw [dirty,List.map_map]
    exact zipIdx_map_fst 0 keys
  have named : k ∈ keys ↔ ∃ d ∈ dirty changeID keys, d.key = k := by
    rw [←mem_map,keysOf]
  rw [named]
  constructor
  · exact coalesceSource
  · rintro ⟨d,member,rfl⟩
    exact (coalesceKeepsIff id _).mpr (fun _ _ _ _ same => same) d member

theorem appliedQuiet {call : DrainCall V} (upserts : call.upsertViews = fun _ => S)
    (again : call.deleteViews = fun _ => S) (fine : call.fault = .none) : applied t call keys k = if k ∈ keys then S k else t k := by
  rw [applied,fine,upserts,again]
  simp only [deleteAbsent,delAt,mem_filter,decide_eq_true_eq,rereadNamed,restoreReread]
  by_cases member : k ∈ keys
  · by_cases absent : S k = none
    · simp [member,absent]
    · simp [member,absent]
  · simp [member]

end Keyspaces

section Steps
variable {n m : Nat} {V : Type} {site : Site n m} {w t : World n m V}

theorem readBatch {call r keys complete} (read : readDirtyKeys site w call = (r,.batch keys complete,[])) :
    complete = false ∧ call.answers = [] ∧ r = begun w call ∧ keys = call.notes.flagged.filter (chosen site.sel) ∨
    ∃ max scanned, Ended (chosen site.sel) max (begun w call) [] call.answers r (.batch scanned complete) ∧
      keys = call.notes.flagged.filter (chosen site.sel)++scanned := by
  rw [readDirtyKeys] at read
  split at read
  · simp only [Prod.mk.injEq,Outcome.batch.injEq] at read
    obtain ⟨state,⟨same,open_⟩,none⟩ := read
    exact .inl ⟨open_.symm,none,state.symm,same.symm⟩
  · split at read
    · rename_i scanned
      cases read
      exact .inr ⟨_,_,scanExact scanned Outcome.noConfusion,rfl⟩
    · rename_i other
      exact absurd read (other _ _ _ _)

theorem readChosen {call r keys complete}
    (read : readDirtyKeys site w call = (r,.batch keys complete,[])) {k} (member : k ∈ keys) : chosen site.sel k = true := by
  rcases readBatch read with ⟨_,_,_,rfl⟩ | ⟨max,scanned,ended,rfl⟩
  · exact (mem_filter.mp member).2
  · rw [endedBatch ended,mem_append] at member
    exact member.elim (fun flagged => (mem_filter.mp flagged).2) fun found => (mem_filter.mp found).2

theorem drainCases {call} (took : drain site w call = some t) :
    (∃ r keys complete, readDirtyKeys site w call = (r,.batch keys complete,[]) ∧
      t = { w with
        target := applied w.target call (coalesce id (dirty w.changeID keys)).1, recon := r, changeID := w.changeID+keys.length,
        owed := owedAfter site.owner (held w.source) (begun w call) w.owed (pagesOf call.answers),
        targetOwed := still (applied w.target call (coalesce id (dirty w.changeID keys)).1) w.targetOwed }) ∨
    ∃ r, readDirtyKeys site w call = (r,.failed,[]) ∧
      t = { w with
        recon := r, changeID := w.changeID+(call.notes.flagged.filter (chosen site.sel)).length,
        owed := owedAfter site.owner (held w.source) (begun w call) w.owed (pagesOf call.answers) } := by
  rw [drain] at took
  simp only at took
  split at took
  · rename_i r keys complete read
    exact .inl ⟨r,keys,complete,read,(Option.some.inj took).symm⟩
  · rename_i r read
    exact .inr ⟨r,read,(Option.some.inj took).symm⟩
  · cases took

def owing (site : Site n m) (w : World n m V) (call : SweepCall V) : Bytes → Prop :=
  owedAfter site.targetOwner (fun k => held w.target k ∧ call.steady k = true) w.targetRecon
    (fun k => w.targetOwed k ∧ call.steady k = true) (pagesOf call.answers)

theorem sweepCases {call result} (took : deleteSweepStep site w call = some (t,result)) :
    (∃ r keys complete, Ended (chosen site.sel) (limit site.drainBatch) w.targetRecon [] call.answers r (.batch keys complete) ∧
      scanTargetKeys site w call = (r,.batch keys complete,[]) ∧ result = (deleted w call keys complete).2 ∧
      t = { w with
        target := del (met w call) (deleted w call keys complete).1, targetRecon := r,
        sweepCursor := (deleted w call keys complete).2.next,
        targetOwed := still (del (met w call) (deleted w call keys complete).1) (owing site w call) }) ∨
    ∃ r, Ended (chosen site.sel) (limit site.drainBatch) w.targetRecon [] call.answers r .failed ∧ result = ⟨0,w.sweepCursor,true⟩ ∧
      t = { w with target := met w call, targetRecon := r, targetOwed := still (met w call) (owing site w call) } := by
  rw [deleteSweepStep] at took
  simp only at took
  split at took
  · rename_i r keys complete read
    cases took
    exact .inl ⟨r,keys,complete,scanExact read Outcome.noConfusion,read,rfl,rfl⟩
  · rename_i r read
    cases took
    exact .inr ⟨r,scanExact read Outcome.noConfusion,rfl,rfl⟩
  · cases took

theorem deletedMissing {call keys complete k}
    (gone : k ∈ (deleted w call keys complete).1) : k ∈ missingAtSource call.views keys := by
  rw [deleted] at gone
  split at gone
  · exact gone
  · split at gone
    · exact gone
    · cases gone
  · split at gone
    · exact gone
    · exact mem_of_mem_filter gone

theorem deletedFine {call keys complete} (fine : call.fault = .none) : deleted w call keys complete =
      (missingAtSource call.views keys,⟨(missingAtSource call.views keys).length,if complete then 0 else 1,false⟩) := by
  rw [deleted,fine]

theorem sweepDeletes {call result} (took : deleteSweepStep site w call = some (t,result)) {k}
    (here : met w call k ≠ none) (gone : t.target k = none) :
    chosen site.sel k = true ∧ ∃ r keys complete i, scanTargetKeys site w call = (r,.batch keys complete,[]) ∧
      keys[i]? = some k ∧ call.views i k = none := by
  rcases sweepCases took with ⟨r,keys,complete,ended,scanned,_,rfl⟩ | ⟨r,_,_,rfl⟩
  · simp only [delAt] at gone
    split at gone
    · rename_i member
      obtain ⟨i,at_,missing⟩ := missingMem.mp (deletedMissing member)
      refine ⟨?_,r,keys,complete,i,scanned,at_,missing⟩
      have found := mem_of_getElem? at_
      rw [endedBatch ended] at found
      exact (mem_filter.mp found).2
    · exact absurd gone here
  · exact absurd gone here

end Steps

section Quiet
variable {n m : Nat} {V : Type} (site : Site n m)

structure QuietDrain (w : World n m V) (call : DrainCall V) : Prop where
  upserts : call.upsertViews = fun _ => w.source
  again : call.deleteViews = fun _ => w.source
  fine : call.fault = .none
  answered : none ∉ call.answers
  honest : Honest site.owner (held w.source) (begun w call) w.owed (pagesOf call.answers)

structure QuietSweep (w : World n m V) (call : SweepCall V) : Prop where
  views : call.views = fun _ => w.source
  fine : call.fault = .none
  answered : none ∉ call.answers
  alone : ∀ k, call.steady k = true
  honest : Honest site.targetOwner (fun k => held w.target k ∧ call.steady k = true) w.targetRecon
    (fun k => w.targetOwed k ∧ call.steady k = true) (pagesOf call.answers)

def Quiet (w : World n m V) : Action V → Prop
  | .client _ => False
  | .write _ => False
  | .drain call => QuietDrain site w call
  | .sweep call => QuietSweep site w call

def drainBegins (w : World n m V) : Action V → Prop
  | .drain call => begun w call = newRecon
  | _ => False

def drainCompletes (w : World n m V) : Action V → Prop
  | .drain call => ∃ r keys, readDirtyKeys site w call = (r,.batch keys true,[])
  | _ => False

def sweepBegins (w : World n m V) : Action V → Prop
  | .sweep _ => w.targetRecon = newRecon
  | _ => False

def sweepCompletes (w : World n m V) : Action V → Prop
  | .sweep call => ∃ t result, deleteSweepStep site w call = some (t,result) ∧ result.next = 0 ∧ result.failed = false
  | _ => False

variable {site} {w t : World n m V}

theorem noFailure {keep : Bytes → Bool} {max : Nat} {r s : Recon n} {answers : List Answer} (answered : none ∉ answers) :
    ¬Ended keep max r [] answers s .failed := by
  intro ended
  cases ended with
  | failed reads => simp at answered

theorem quietDrain {call} (quiet : QuietDrain site w call) (took : drain site w call = some t) :
    ∃ r keys complete, readDirtyKeys site w call = (r,.batch keys complete,[]) ∧
      (∀ k, t.target k = if k ∈ keys then w.source k else w.target k) ∧ t.source = w.source ∧ t.recon = r ∧ t.targetRecon = w.targetRecon ∧
      t.owed = owedAfter site.owner (held w.source) (begun w call) w.owed (pagesOf call.answers) ∧
      t.targetOwed = still t.target w.targetOwed := by
  rcases drainCases took with ⟨r,keys,complete,read,rfl⟩ | ⟨r,read,_⟩
  · refine ⟨r,keys,complete,read,fun k => ?_,rfl,rfl,rfl,rfl,rfl⟩
    simp only [appliedQuiet quiet.upserts quiet.again quiet.fine,distinctMem]
  · rw [readDirtyKeys] at read
    split at read
    · cases read
    · split at read
      · cases read
      · exact absurd (scanExact read Outcome.noConfusion) (noFailure quiet.answered)

theorem quietSweep {call} (quiet : QuietSweep site w call) {result} (took : deleteSweepStep site w call = some (t,result)) :
    ∃ r keys complete, Ended (chosen site.sel) (limit site.drainBatch) w.targetRecon [] call.answers r (.batch keys complete) ∧
      (∀ k, t.target k = if k ∈ keys ∧ w.source k = none then none else w.target k) ∧ (result.next = 0 ↔ complete = true) ∧
      t.source = w.source ∧ t.recon = w.recon ∧ t.owed = w.owed ∧ t.targetRecon = r ∧ t.targetOwed = still t.target (owing site w call) := by
  rcases sweepCases took with ⟨r,keys,complete,ended,_,rfl,rfl⟩ | ⟨r,ended,_⟩
  · have untouched : met w call = w.target := by
      funext k
      rw [met,if_pos (quiet.alone k)]
    refine ⟨r,keys,complete,ended,fun k => ?_,?_,rfl,rfl,rfl,rfl,rfl⟩
    · have missing : k ∈ missingAtSource call.views keys ↔ k ∈ keys ∧ w.source k = none := by
        rw [missingMem,quiet.views,mem_iff_getElem?,exists_and_right]
      simp only [deletedFine quiet.fine,delAt,untouched,missing]
    · rw [deletedFine quiet.fine]
      cases complete <;> simp
  · exact absurd ended (noFailure quiet.answered)

theorem quietStep {a} (quiet : Quiet site w a) (took : step site w a = some t) :
    t.source = w.source ∧ ∀ k, t.target k = w.target k ∨ chosen site.sel k = true ∧ t.target k = w.source k := by
  cases a with
  | drain call =>
    obtain ⟨r,keys,complete,read,target,source,_⟩ := quietDrain quiet took
    refine ⟨source,fun k => ?_⟩
    rw [target k]
    split
    · exact .inr ⟨readChosen read ‹_›,rfl⟩
    · exact .inl rfl
  | sweep call =>
    obtain ⟨⟨u,result⟩,swept,rfl⟩ := Option.map_eq_some_iff.mp took
    obtain ⟨r,keys,complete,ended,target,_,source,_⟩ := quietSweep quiet swept
    refine ⟨source,fun k => ?_⟩
    rw [target k]
    split
    · rename_i both
      rw [endedBatch ended] at both
      exact .inr ⟨(mem_filter.mp both.1).2,both.2.symm⟩
    · exact .inl rfl
  | _ => exact quiet.elim

theorem quietSource {acts} (quiet : Along (step site) (Quiet site) w acts) :
    Along (step site) (fun v a => Quiet site v a ∧ v.source = w.source) w acts := by
  refine alongUnder (P := fun v => v.source = w.source) ?_ (fun v a same met => ⟨met,same⟩) quiet rfl
  intro v a u same met took
  rw [(quietStep met took).1,same]

variable {k : Bytes} {S : Keyspace V}

theorem readCovers {call r keys complete seen}
    (read : readDirtyKeys site w call = (r,.batch keys complete,[])) (quiet : QuietDrain site w call)
    (picked : chosen site.sel k = true) (present : w.source k ≠ none) (start : Covered site.owner k w.recon w.owed seen ∨ begun w call = newRecon) :
    Covered site.owner k r (owedAfter site.owner (held w.source) (begun w call) w.owed (pagesOf call.answers)) (seen ∨ k ∈ keys) ∧
      (complete = true → seen ∨ k ∈ keys) := by
  have opened : Covered site.owner k (begun w call) w.owed seen := by
    rcases start with covered | fresh
    · rw [begun]
      split
      · exact coveredNew
      · exact covered
    · rw [fresh]
      exact coveredNew
  rcases readBatch read with ⟨open_,none,rfl,_⟩ | ⟨max,scanned,ended,rfl⟩
  · rw [none]
    refine ⟨coveredMono opened .inl fun _ owes => owes,fun completes => ?_⟩
    rw [open_] at completes
    cases completes
  · have here : held w.source k := Option.isSome_iff_ne_none.mpr present
    obtain ⟨covered,completes⟩ := endedCovers ended here quiet.honest opened
    have enough : seen ∨ k ∈ (pagesOf call.answers).flatMap Page.keys → seen ∨ k ∈ call.notes.flagged.filter (chosen site.sel)++scanned := by
      refine Or.imp_right fun found => ?_
      rw [endedBatch ended,mem_append]
      exact .inr (mem_filter.mpr ⟨found,picked⟩)
    refine ⟨coveredMono covered enough fun _ owes => owes,fun completes_ => ?_⟩
    rw [completes_] at completes
    exact enough (completes _ rfl)

theorem drainCovers {a} (picked : chosen site.sel k = true) (present : S k ≠ none)
    (under : Covered site.owner k w.recon w.owed (w.target k = S k) ∨ drainBegins w a) (quiet : Quiet site w a ∧ w.source = S)
    (took : step site w a = some t) :
    Covered site.owner k t.recon t.owed (t.target k = S k) ∧ (drainCompletes site w a → t.target k = S k) := by
  obtain ⟨quiet,rfl⟩ := quiet
  have arrived : w.target k = w.source k → t.target k = w.source k := by
    intro before
    rcases (quietStep quiet took).2 k with same | ⟨_,now⟩
    · rw [same,before]
    · exact now
  cases a with
  | sweep call =>
    have covered := under.resolve_right fun never => never
    obtain ⟨⟨u,result⟩,swept,rfl⟩ := Option.map_eq_some_iff.mp took
    obtain ⟨r,keys,complete,_,_,_,_,recon,owed,_⟩ := quietSweep quiet swept
    simp only [recon,owed]
    exact ⟨coveredMono covered arrived fun _ owes => owes,fun never => never.elim⟩
  | drain call =>
    obtain ⟨r,keys,complete,read,target,_,recon,_,owed,_⟩ := quietDrain quiet took
    obtain ⟨covered,completes⟩ := readCovers read quiet picked present under
    have enough : w.target k = w.source k ∨ k ∈ keys → t.target k = w.source k :=
      Or.rec arrived fun member => by rw [target k,if_pos member]
    rw [recon,owed]
    refine ⟨coveredMono covered enough fun _ owes => owes,?_⟩
    rintro ⟨r,keys,completed⟩
    cases read.symm.trans completed
    exact enough (completes rfl)
  | _ => exact quiet.elim

theorem sweepCovers {a} (picked : chosen site.sel k = true) (missing : S k = none)
    (under : Covered site.targetOwner k w.targetRecon w.targetOwed (w.target k = S k) ∨ sweepBegins w a) (quiet : Quiet site w a ∧ w.source = S)
    (took : step site w a = some t) :
    Covered site.targetOwner k t.targetRecon t.targetOwed (t.target k = S k) ∧ (sweepCompletes site w a → t.target k = S k) := by
  obtain ⟨quiet,rfl⟩ := quiet
  have arrived : w.target k = w.source k → t.target k = w.source k := by
    intro before
    rcases (quietStep quiet took).2 k with same | ⟨_,now⟩
    · rw [same,before]
    · exact now
  have keeps : ¬t.target k = w.source k → (t.target k).isSome = true := by
    intro here
    rw [missing] at here
    exact Option.isSome_iff_ne_none.mpr here
  cases a with
  | drain call =>
    have covered := under.resolve_right fun never => never
    obtain ⟨r,keys,complete,_,_,_,_,recon,_,owed⟩ := quietDrain quiet took
    rw [recon,owed]
    exact ⟨coveredMono covered arrived fun here owes => ⟨owes,keeps here⟩,fun never => never.elim⟩
  | sweep call =>
    have start : Covered site.targetOwner k w.targetRecon w.targetOwed (w.target k = w.source k) := by
      rcases under with covered | fresh
      · exact covered
      · rw [show w.targetRecon = newRecon from fresh]
        exact coveredNew
    obtain ⟨⟨u,result⟩,swept,rfl⟩ := Option.map_eq_some_iff.mp took
    obtain ⟨r,keys,complete,ended,target,next,_,_,_,recon,owed⟩ := quietSweep quiet swept
    by_cases before : w.target k = w.source k
    · exact ⟨.inl (arrived before),fun _ => arrived before⟩
    · have here : held w.target k ∧ call.steady k = true := by
        rw [missing] at before
        exact ⟨Option.isSome_iff_ne_none.mpr before,quiet.alone k⟩
      have steady : Covered site.targetOwner k w.targetRecon (fun k => w.targetOwed k ∧ call.steady k = true) (w.target k = w.source k) :=
        coveredMono start id fun _ owes => ⟨owes,quiet.alone k⟩
      obtain ⟨covered,completes⟩ := endedCovers ended here quiet.honest steady
      have enough : w.target k = w.source k ∨ k ∈ (pagesOf call.answers).flatMap Page.keys → u.target k = w.source k := by
        rintro (before | found)
        · exact arrived before
        · have member : k ∈ keys := by
            rw [endedBatch ended]
            exact mem_filter.mpr ⟨found,picked⟩
          rw [target k,if_pos ⟨member,missing⟩,missing]
      simp only [recon,owed]
      refine ⟨coveredMono covered enough fun here owes => ⟨owes,keeps here⟩,?_⟩
      rintro ⟨v,other,again,zero,_⟩
      cases swept.symm.trans again
      rw [next.mp zero] at completes
      exact enough (completes _ rfl)
  | _ => exact quiet.elim

end Quiet

section Converges
variable {n m : Nat} {V : Type} {site : Site n m}

theorem settledTarget {w t : World n m V} {acts : List (Action V)} (ran : run (step site) w acts = some t)
    (quiet : Along (step site) (Quiet site) w acts) (pass : PassIn (step site) drainBegins (drainCompletes site) False w acts)
    (sweep : PassIn (step site) sweepBegins (sweepCompletes site) False w acts) :
    (∀ k, chosen site.sel k = true → t.target k = w.source k) ∧ ∀ k, chosen site.sel k = false → t.target k = w.target k := by
  have still := quietSource quiet
  refine ⟨fun k picked => ?_,fun k unpicked => ?_⟩
  · have stays : ∀ v a u, v.target k = w.source k → Quiet site v a ∧ v.source = w.source → step site v a = some u → u.target k = w.source k := by
      rintro v a u here ⟨met,same⟩ took
      rcases (quietStep met took).2 k with kept | ⟨_,now⟩
      · rw [kept,here]
      · rw [now,same]
    by_cases missing : w.source k = none
    · exact passReaches (fun v a u under met took => (sweepCovers picked missing under met took).1)
        (fun v a u under met completes took => (sweepCovers picked missing under met took).2 completes) stays still ran False.elim sweep
    · exact passReaches (fun v a u under met took => (drainCovers picked missing under met took).1)
        (fun v a u under met completes took => (drainCovers picked missing under met took).2 completes) stays still ran False.elim pass
  · refine runKeeps (P := fun v => v.target k = w.target k) ?_ quiet ran rfl
    intro v a u same met took
    rcases (quietStep met took).2 k with kept | ⟨picked,_⟩
    · rw [kept,same]
    · rw [unpicked] at picked
      cases picked

theorem streamConverges {w t : World n m V} {acts : List (Action V)} (ran : run (step site) w acts = some t)
    (quiet : Along (step site) (Quiet site) w acts) (pass : PassIn (step site) drainBegins (drainCompletes site) False w acts)
    (sweep : PassIn (step site) sweepBegins (sweepCompletes site) False w acts) :
    (∀ k, chosen site.sel k = true → t.target k = w.source k) ∧ (∀ k, chosen site.sel k = false → t.target k = w.target k) ∧
    ∀ (before after : World n m V) call result k, deleteSweepStep site before call = some (after,result) →
      met before call k ≠ none → after.target k = none →
      chosen site.sel k = true ∧ ∃ r keys complete i, scanTargetKeys site before call = (r,.batch keys complete,[]) ∧
        keys[i]? = some k ∧ call.views i k = none := by
  obtain ⟨arrives,untouched⟩ := settledTarget ran quiet pass sweep
  exact ⟨arrives,untouched,fun before after call result k swept here gone => sweepDeletes swept here gone⟩

def oneShard : Site 0 0 := ⟨none,100,fun _ => 0,fun _ => 0⟩

def one : Keyspace Bytes := fun k => if k = [1] then some [11] else none
def two : Keyspace Bytes := fun k => if k = [2] then some [22] else none

def settled : World 0 0 Bytes := ⟨one,two,newRecon,newRecon,0,0,fun _ => False,fun _ => False⟩

def drainOne : DrainCall Bytes := ⟨⟨[],false⟩,[some ⟨[[1]],0⟩],fun _ => one,fun _ => one,.none⟩
def sweepBoth : SweepCall Bytes := ⟨[some ⟨[[1],[2]],0⟩],fun _ => true,two,fun _ => one,.none⟩

theorem drainOneReads : readDirtyKeys oneShard settled drainOne = (newRecon,.batch [[1]] true,[]) := rfl

theorem drainOneQuiet : QuietDrain oneShard settled drainOne := by
  refine ⟨rfl,rfl,rfl,by simp [drainOne],honestWhole fun k here => ?_⟩
  by_cases first : k = [1]
  · simp [first]
  · simp [held,settled,one,first] at here

theorem sweepBothQuiet {w} (source : w.source = one) (target : ∀ k, w.target k = if k ∈ [[1]] then one k else two k)
    (recon : w.targetRecon = newRecon) : QuietSweep oneShard w sweepBoth := by
  refine ⟨by rw [source]; rfl,rfl,by simp [sweepBoth],fun _ => rfl,?_⟩
  rw [recon]
  refine honestWhole fun k here => ?_
  rw [held,target k] at here
  by_cases first : k = [1]
  · simp [first]
  · by_cases second : k = [2]
    · simp [second]
    · simp [two,first,second] at here

def bothPasses : List (Action Bytes) := [.drain drainOne,.sweep sweepBoth]

theorem bothPassesRun : ∃ t, run (step oneShard) settled bothPasses = some t ∧ Along (step oneShard) (Quiet oneShard) settled bothPasses ∧
    PassIn (step oneShard) drainBegins (drainCompletes oneShard) False settled bothPasses ∧
    PassIn (step oneShard) sweepBegins (sweepCompletes oneShard) False settled bothPasses := by
  obtain ⟨u,first⟩ : ∃ u, step oneShard settled (.drain drainOne) = some u := ⟨_,rfl⟩
  obtain ⟨r,keys,complete,read,target,source,_,recon,_⟩ := quietDrain drainOneQuiet first
  cases drainOneReads.symm.trans read
  have scanned : scanTargetKeys oneShard u sweepBoth = (newRecon,.batch [[1],[2]] true,[]) := by
    rw [scanTargetKeys,recon]
    rfl
  obtain ⟨t,swept⟩ : ∃ t, deleteSweepStep oneShard u sweepBoth = some (t,⟨1,0,false⟩) := by
    rw [deleteSweepStep,scanned]
    exact ⟨_,rfl⟩
  have second : step oneShard u (.sweep sweepBoth) = some t := by
    rw [step,swept]
    rfl
  refine ⟨t,?_,⟨drainOneQuiet,fun v took => ?_⟩,.inl ⟨.inr rfl,newRecon,[[1]],drainOneReads⟩,
    .inr ⟨u,first,.inl ⟨.inr recon,t,_,swept,rfl,rfl⟩⟩⟩
  · rw [bothPasses,run,first,Option.bind_some,run,second]
    rfl
  · cases first.symm.trans took
    exact ⟨sweepBothQuiet source target recon,fun _ _ => trivial⟩

theorem streamOneKey : ∃ t, run (step oneShard) settled bothPasses = some t ∧ t.target [1] = some [11] ∧ t.target [2] = none := by
  obtain ⟨t,ran,quiet,pass,sweep⟩ := bothPassesRun
  have result := streamConverges ran quiet pass sweep
  exact ⟨t,ran,result.1 [1] rfl,result.1 [2] rfl⟩

end Converges

end Replicare.RedisStream
