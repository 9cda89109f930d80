import Mathlib.Data.Multiset.Basic
import Replicare.Engine
import Replicare.LastWriter
import Replicare.Hlc

/-! Version-guarded apply of a staged batch at a cluster member: the statements of the Postgres
sink, which compare with the register statement by statement, and those of the MySQL sink,
which mark the winners once. -/
namespace Replicare.MeshApply
open Engine LastWriter Hlc List

variable {K V N : Type*} [DecidableEq K] [LinearOrder N]

structure Record (K V N : Type*) where
  key : K
  version : Version N
  row : Option V
  deriving DecidableEq, Repr

structure Entry (N : Type*) where
  version : Version N
  deleted : Bool
  deriving DecidableEq, Repr

structure Replica (K V N : Type*) where
  rows : K → Option V
  register : K → Option (Entry N)

def Record.deleted (r : Record K V N) : Bool := r.row.isNone

def meshVersionGreater (register : K → Option (Entry N)) (r : Record K V N) : Bool :=
  match register r.key with
  | none => true
  | some e => decide (e.version < r.version)

def clusterAliveUpsert (won : List (Record K V N)) (rows : K → Option V) : K → Option V :=
  writeAll Record.key Record.row (won.filter fun r => !r.deleted) rows

def clusterRegisterUpsert (deleted : Bool) (won : List (Record K V N)) (register : K → Option (Entry N)) :
    K → Option (Entry N) :=
  writeAll Record.key (fun r => some ⟨r.version,deleted⟩) (won.filter fun r => r.deleted == deleted) register

def clusterTombstoneDelete (won : List (Record K V N)) (rows : K → Option V) : K → Option V :=
  writeAll Record.key (fun _ => none) (won.filter Record.deleted) rows

namespace Postgres

def stageUpsertCluster (n : Replica K V N) (stg : List (Record K V N)) : Replica K V N :=
  { rows := clusterAliveUpsert (stg.filter (meshVersionGreater n.register)) n.rows
    register := clusterRegisterUpsert false (stg.filter (meshVersionGreater n.register)) n.register }

def deleteTombstonesCluster (n : Replica K V N) (stg : List (Record K V N)) : Replica K V N :=
  { rows := clusterTombstoneDelete (stg.filter (meshVersionGreater n.register)) n.rows
    register := clusterRegisterUpsert true (stg.filter (meshVersionGreater n.register)) n.register }

end Postgres

namespace MySQL

/- Staging with the `rc_win` column. -/
abbrev Marked (K V N : Type*) := List (Record K V N × Bool)

def clusterMarkWinners (n : Replica K V N) (stg : List (Record K V N)) : Marked K V N :=
  stg.map fun r => (r,meshVersionGreater n.register r)

def Marked.won (stg : Marked K V N) : List (Record K V N) := (stg.filter Prod.snd).map Prod.fst

def stageUpsertCluster (n : Replica K V N) (stg : Marked K V N) : Replica K V N :=
  { rows := clusterAliveUpsert stg.won n.rows
    register := clusterRegisterUpsert false stg.won n.register }

def deleteTombstonesCluster (n : Replica K V N) (stg : Marked K V N) : Replica K V N :=
  { rows := clusterTombstoneDelete stg.won n.rows
    register := clusterRegisterUpsert true stg.won n.register }

end MySQL

inductive Phase where
  | upsert
  | delete
  deriving DecidableEq, Repr

def applyBatch (dialect : Dialect) (phase : Phase) (n : Replica K V N) (stg : List (Record K V N)) : Replica K V N :=
  match dialect, phase with
  | .postgres, .upsert => Postgres.stageUpsertCluster n stg
  | .postgres, .delete => Postgres.deleteTombstonesCluster (Postgres.stageUpsertCluster n stg) stg
  | .mysql, .upsert => MySQL.stageUpsertCluster n (MySQL.clusterMarkWinners n stg)
  | .mysql, .delete =>
      let marked := MySQL.clusterMarkWinners n stg
      MySQL.deleteTombstonesCluster (MySQL.stageUpsertCluster n marked) marked

def effective (phase : Phase) (stg : List (Record K V N)) : List (Record K V N) :=
  match phase with
  | .upsert => stg.filter fun r => !r.deleted
  | .delete => stg

omit [DecidableEq K] in
theorem markedWon (n : Replica K V N) (stg : List (Record K V N)) :
    (MySQL.clusterMarkWinners n stg).won = stg.filter (meshVersionGreater n.register) := by
  unfold MySQL.Marked.won MySQL.clusterMarkWinners
  rw [filter_map,List.map_map]
  exact map_id _

def settle (phase : Phase) (n : Replica K V N) (r : Record K V N) : Option V × Option (Entry N) :=
  if meshVersionGreater n.register r && (phase == .delete || !r.deleted) then
    (r.row,some ⟨r.version,r.deleted⟩)
  else (n.rows r.key,n.register r.key)

section Batch
variable {n : Replica K V N} {stg : List (Record K V N)} {r : Record K V N}

theorem stageUpsertAt (distinct : (stg.map Record.key).Nodup) (mem : r ∈ stg) :
    ((Postgres.stageUpsertCluster n stg).rows r.key,(Postgres.stageUpsertCluster n stg).register r.key) =
      settle .upsert n r := by
  unfold Postgres.stageUpsertCluster clusterAliveUpsert clusterRegisterUpsert settle
  dsimp only
  rw [filter_filter,filter_filter,writeFiltered distinct mem,writeFiltered distinct mem]
  cases win : meshVersionGreater n.register r <;> cases gone : r.deleted <;> simp

omit [LinearOrder N] in
theorem tombstonesAt (distinct : (stg.map Record.key).Nodup) (mem : r ∈ stg) (won) :
    (clusterTombstoneDelete (stg.filter won) n.rows r.key,
      clusterRegisterUpsert true (stg.filter won) n.register r.key) =
      if won r && r.deleted then (none,some ⟨r.version,true⟩) else (n.rows r.key,n.register r.key) := by
  unfold clusterTombstoneDelete clusterRegisterUpsert
  rw [filter_filter,filter_filter,writeFiltered distinct mem,writeFiltered distinct mem]
  cases win : won r <;> cases gone : r.deleted <;> simp

theorem mysqlStageSame : MySQL.stageUpsertCluster n (MySQL.clusterMarkWinners n stg) =
    Postgres.stageUpsertCluster n stg := by
  unfold MySQL.stageUpsertCluster Postgres.stageUpsertCluster
  rw [markedWon]

theorem stageUpsertTombstone (distinct : (stg.map Record.key).Nodup) (mem : r ∈ stg) (gone : r.deleted = true) :
    (Postgres.stageUpsertCluster n stg).rows r.key = n.rows r.key ∧
    (Postgres.stageUpsertCluster n stg).register r.key = n.register r.key := by
  have staged := stageUpsertAt (n := n) distinct mem
  simp only [settle,gone] at staged
  simpa using staged

theorem applyBatchAt (dialect phase) (distinct : (stg.map Record.key).Nodup) (mem : r ∈ stg) :
    ((applyBatch dialect phase n stg).rows r.key,(applyBatch dialect phase n stg).register r.key) =
      settle phase n r := by
  have first := stageUpsertAt (n := n) distinct mem
  cases phase with
  | upsert =>
    cases dialect with
    | postgres => exact first
    | mysql =>
      simp only [applyBatch]
      rw [mysqlStageSame]
      exact first
  | delete =>
    have second : ((applyBatch dialect .delete n stg).rows r.key,(applyBatch dialect .delete n stg).register r.key) =
        if meshVersionGreater n.register r && r.deleted then (none,some ⟨r.version,true⟩)
        else settle .upsert n r := by
      cases gone : r.deleted with
      | true =>
        have kept := stageUpsertTombstone (n := n) distinct mem gone
        cases dialect with
        | postgres =>
          simp only [applyBatch,Postgres.deleteTombstonesCluster]
          rw [tombstonesAt distinct mem]
          simp only [meshVersionGreater,kept,gone,settle]
          simp
        | mysql =>
          simp only [applyBatch,MySQL.deleteTombstonesCluster]
          rw [mysqlStageSame,markedWon,tombstonesAt distinct mem]
          simp only [kept,gone,settle]
          simp
      | false =>
        cases dialect with
        | postgres =>
          simp only [applyBatch,Postgres.deleteTombstonesCluster]
          rw [tombstonesAt distinct mem]
          simp [gone,first]
        | mysql =>
          simp only [applyBatch,MySQL.deleteTombstonesCluster]
          rw [mysqlStageSame,markedWon,tombstonesAt distinct mem]
          simp [gone,first]
    rw [second]
    unfold settle
    cases gone : r.deleted with
    | true =>
      have empty : r.row = none := Option.isNone_iff_eq_none.mp gone
      simp [empty]
    | false => simp

theorem applyBatchFrame (dialect phase) {k} (apart : ∀ r ∈ stg, r.key ≠ k) :
    (applyBatch dialect phase n stg).rows k = n.rows k ∧
    (applyBatch dialect phase n stg).register k = n.register k := by
  have inside : ∀ (p q : Record K V N → Bool), ∀ r ∈ (stg.filter q).filter p, r.key ≠ k :=
    fun p q r mem => apart r (mem_filter.mp (mem_filter.mp mem).1).1
  cases dialect with
  | postgres =>
    cases phase <;> simp only [applyBatch,Postgres.stageUpsertCluster,Postgres.deleteTombstonesCluster,
      clusterAliveUpsert,clusterRegisterUpsert,clusterTombstoneDelete,writeAllFrame (inside _ _),and_self]
  | mysql =>
    cases phase <;> simp only [applyBatch,MySQL.stageUpsertCluster,MySQL.deleteTombstonesCluster,markedWon,
      clusterAliveUpsert,clusterRegisterUpsert,clusterTombstoneDelete,writeAllFrame (inside _ _),and_self]

end Batch

def winner (history : List (Record K V N)) (k : K) : Option (Record K V N) :=
  (history.filter fun r => r.key = k).foldl (absorb Record.version) none

def Record.entry (r : Record K V N) : Entry N := ⟨r.version,r.deleted⟩

def shown (base : K → Option V) (k : K) : Option (Record K V N) → Option V
  | none => base k
  | some r => r.row

def Shows (base : K → Option V) (history : List (Record K V N)) (n : Replica K V N) : Prop :=
  ∀ k, n.register k = (winner history k).map Record.entry ∧ n.rows k = shown base k (winner history k)

theorem winnerAppend (history batch : List (Record K V N)) (k) :
    winner (history++batch) k = (batch.filter fun r => r.key = k).foldl (absorb Record.version) (winner history k) := by
  unfold winner
  rw [filter_append,foldl_append]

theorem winnerTop {history : List (Record K V N)} {k m} (won : winner history k = some m) :
    m ∈ history ∧ m.key = k ∧ ∀ r ∈ history, r.key = k → r.version ≤ m.version := by
  obtain ⟨mem,top⟩ := foldNewest won
  have listed : ∀ r, r ∈ (none : Option (Record K V N)).toList++history.filter (fun r => r.key = k) ↔
      r ∈ history ∧ r.key = k := by simp
  obtain ⟨inside,same⟩ := (listed m).mp mem
  exact ⟨inside,same,fun r hr key => top r ((listed r).mpr ⟨hr,key⟩)⟩

theorem winnerNone {history : List (Record K V N)} {k} : winner history k = none ↔ ∀ r ∈ history, r.key ≠ k := by
  unfold winner
  rw [foldNone]
  simp [filter_eq_nil_iff]

theorem winnerFrame {history batch : List (Record K V N)} {k} (apart : ∀ r ∈ batch, r.key ≠ k) :
    winner (history++batch) k = winner history k := by
  have nothing : batch.filter (fun r => r.key = k) = [] :=
    filter_eq_nil_iff.mpr fun r mem same => apart r mem (of_decide_eq_true same)
  rw [winnerAppend,nothing,foldl_nil]

theorem winnerOffer {history batch : List (Record K V N)} {r} (distinct : (batch.map Record.key).Nodup)
    (mem : r ∈ batch) : winner (history++batch) r.key = absorb Record.version (winner history r.key) r := by
  rw [winnerAppend,filterKey distinct mem,foldl_cons,foldl_nil]

omit [DecidableEq K] [LinearOrder N] in
theorem effectiveSublist (phase) (stg : List (Record K V N)) : (effective phase stg).Sublist stg := by
  cases phase with
  | upsert => exact filter_sublist
  | delete => exact List.Sublist.refl stg

omit [DecidableEq K] [LinearOrder N] in
theorem memEffective {phase} {stg : List (Record K V N)} {r} :
    r ∈ effective phase stg ↔ r ∈ stg ∧ (phase == .delete || !r.deleted) = true := by
  cases phase <;> simp [effective]

def accepts (phase : Phase) (n : Replica K V N) (stg : List (Record K V N)) : List (Record K V N) :=
  (effective phase stg).filter (meshVersionGreater n.register)

omit [DecidableEq K] in
theorem acceptsSublist (phase) (n : Replica K V N) (stg) : (accepts phase n stg).Sublist stg :=
  filter_sublist.trans (effectiveSublist phase stg)

theorem applyBatchKey (dialect phase) {n : Replica K V N} {stg} (distinct : (stg.map Record.key).Nodup) (k) :
    (∃ r ∈ accepts phase n stg, r.key = k ∧ (applyBatch dialect phase n stg).rows k = r.row ∧
      (applyBatch dialect phase n stg).register k = some r.entry) ∨
    (∀ r ∈ accepts phase n stg, r.key ≠ k) ∧ (applyBatch dialect phase n stg).rows k = n.rows k ∧
      (applyBatch dialect phase n stg).register k = n.register k := by
  by_cases present : ∃ r ∈ stg, r.key = k
  · obtain ⟨r,mem,rfl⟩ := present
    have settled := applyBatchAt (n := n) dialect phase distinct mem
    by_cases taken : r ∈ accepts phase n stg
    · obtain ⟨offered,wins⟩ := mem_filter.mp taken
      simp only [settle,wins,(memEffective.mp offered).2,Bool.and_self,if_true,Prod.mk.injEq] at settled
      exact .inl ⟨r,taken,rfl,settled⟩
    · have skipped : (meshVersionGreater n.register r && (phase == .delete || !r.deleted)) = false := by
        by_contra other
        obtain ⟨wins,offered⟩ := Bool.and_eq_true_iff.mp (Bool.not_eq_false _ ▸ other)
        exact taken (mem_filter.mpr ⟨memEffective.mpr ⟨mem,offered⟩,wins⟩)
      simp only [settle,skipped,Bool.false_eq_true,if_false,Prod.mk.injEq] at settled
      refine .inr ⟨fun x hx same => ?_,settled⟩
      rw [inj_on_of_nodup_map distinct ((acceptsSublist phase n stg).subset hx) mem same] at hx
      exact taken hx
  · have apart : ∀ r ∈ stg, r.key ≠ k := fun r mem same => present ⟨r,mem,same⟩
    exact .inr ⟨fun r mem => apart r ((acceptsSublist phase n stg).subset mem),applyBatchFrame dialect phase apart⟩

theorem guardAbsorbs {history : List (Record K V N)} {register : K → Option (Entry N)} {r}
    (shows_ : register r.key = (winner history r.key).map Record.entry) :
    absorb Record.version (winner history r.key) r =
      if meshVersionGreater register r then some r else winner history r.key := by
  unfold meshVersionGreater
  rw [shows_]
  cases winner history r.key with
  | none => rfl
  | some h => by_cases newer : h.version < r.version <;> simp [absorb,Record.entry,newer]

theorem showsBatch {base : K → Option V} {history} {n : Replica K V N} (shows_ : Shows base history n) (dialect phase)
    {stg} (distinct : (stg.map Record.key).Nodup) :
    Shows base (history++effective phase stg) (applyBatch dialect phase n stg) := by
  have separate := distinct.sublist ((effectiveSublist phase stg).map Record.key)
  intro k
  rcases applyBatchKey dialect phase (n := n) distinct k with ⟨r,taken,rfl,rows,register⟩ | ⟨skipped,rows,register⟩
  · obtain ⟨offered,wins⟩ := mem_filter.mp taken
    rw [winnerOffer separate offered,guardAbsorbs (shows_ r.key).1,if_pos wins]
    exact ⟨register,rows⟩
  · rw [rows,register]
    by_cases present : ∃ r ∈ effective phase stg, r.key = k
    · -- the record for the key is offered and loses
      obtain ⟨r,offered,rfl⟩ := present
      have loses : ¬(meshVersionGreater n.register r = true) := fun wins =>
        skipped r (mem_filter.mpr ⟨offered,wins⟩) rfl
      rw [winnerOffer separate offered,guardAbsorbs (shows_ r.key).1,if_neg loses]
      exact shows_ r.key
    · rw [winnerFrame fun r mem same => present ⟨r,mem,same⟩]
      exact shows_ k

def deliver (dialect : Dialect) (batches : List (Phase × List (Record K V N))) (n : Replica K V N) : Replica K V N :=
  batches.foldl (fun n b => applyBatch dialect b.1 n b.2) n

def delivered (batches : List (Phase × List (Record K V N))) : List (Record K V N) :=
  batches.flatMap fun b => effective b.1 b.2

theorem showsDeliver {base : K → Option V} (dialect) {batches : List (Phase × List (Record K V N))}
    (distinct : ∀ b ∈ batches, (b.2.map Record.key).Nodup) {history n} (shows_ : Shows base history n) :
    Shows base (history++delivered batches) (deliver dialect batches n) := by
  induction batches generalizing history n with
  | nil => simpa [delivered,deliver] using shows_
  | cons b rest ih =>
    have step := showsBatch shows_ dialect b.1 (distinct b mem_cons_self)
    have tail := ih (fun c mem => distinct c (mem_cons_of_mem _ mem)) step
    rw [append_assoc] at tail
    exact tail

/- Batches that deliver the records of `m`, cut, ordered and repeated anyhow. -/
structure Delivers (batches : List (Phase × List (Record K V N))) (m : Multiset (Record K V N)) : Prop where
  distinct : ∀ b ∈ batches, (b.2.map Record.key).Nodup
  exactly : ∀ r, r ∈ delivered batches ↔ r ∈ m

def Coherent (m : Multiset (Record K V N)) : Prop :=
  ∀ r ∈ m, ∀ s ∈ m, r.key = s.key → r.version = s.version → r.row = s.row

theorem winnerNewest {batches : List (Phase × List (Record K V N))} {m} (cut : Delivers batches m) (k) :
    ((∀ r ∈ m, r.key ≠ k) ∧ winner (delivered batches) k = none) ∨
    ∃ r ∈ m, r.key = k ∧ (∀ s ∈ m, s.key = k → s.version ≤ r.version) ∧ winner (delivered batches) k = some r := by
  cases found : winner (delivered batches) k with
  | none => exact .inl ⟨fun r mem => winnerNone.mp found r ((cut.exactly r).mpr mem),rfl⟩
  | some r =>
    obtain ⟨mem,same,top⟩ := winnerTop found
    exact .inr ⟨r,(cut.exactly r).mp mem,same,fun s hs => top s ((cut.exactly s).mpr hs),rfl⟩

theorem winnersAgree {m : Multiset (Record K V N)} (coherent : Coherent m) {batches others}
    (first : Delivers batches m) (second : Delivers others m) (k) :
    winner (delivered others) k = winner (delivered batches) k := by
  rcases winnerNewest first k with ⟨none,left⟩ | ⟨r,hr,key,top,left⟩
  · rcases winnerNewest second k with ⟨_,right⟩ | ⟨s,hs,same,_⟩
    · rw [left,right]
    · exact absurd same (none s hs)
  · rcases winnerNewest second k with ⟨none,_⟩ | ⟨s,hs,same,high,right⟩
    · exact absurd key (none r hr)
    · have version : s.version = r.version := le_antisymm (top s hs same) (high r hr key)
      have keys : s.key = r.key := same.trans key.symm
      have row := coherent s hs r hr keys version
      rw [left,right]
      cases s; cases r
      simp_all

def rowOfOne : Record Nat Nat Nat := ⟨1,⟨1,0,0⟩,some 5⟩
def tombstoneOfOne : Record Nat Nat Nat := ⟨1,⟨2,0,1⟩,none⟩

end Replicare.MeshApply
