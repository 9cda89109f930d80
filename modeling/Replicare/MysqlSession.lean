import Mathlib.Tactic.IntervalCases
import Replicare.MysqlApply

/-! What an apply transaction of the MySQL sink leaves in the session that its pool hands to
the next one: staging tables, FOREIGN_KEY_CHECKS and the apply marker. -/
namespace Replicare.MysqlSession
open Engine Stored MysqlApply List

def scopeRun (f : Scope) (l : List Stmt) : Scope := l.foldl scopeAfter f

def idle : Scope := ⟨false,[],true,false,[]⟩

def stagedRefs (calls : List Call) : List TableRef :=
  calls.filterMap fun c => match c with
    | .stageUpsert ref _ _ => some ref
    | .deleteAbsent .. => none

def put (staging : List (TableRef × Nat)) (ref : TableRef) (n : Nat) : List (TableRef × Nat) :=
  (ref,n)::staging.filter fun e => decide (e.1 ≠ ref)

def recorded (staging : List (TableRef × Nat)) : Nat → List TableRef → List (TableRef × Nat)
  | _, [] => staging
  | n, ref::refs => recorded (put staging ref n) (n+1) refs

section Scopes
variable {site : Site} {tx : Transaction} {s t : State} {f : Scope}

theorem scopeAppend (l l') : scopeRun f (l++l') = scopeRun (scopeRun f l) l' := foldl_append

theorem runScope {l} (ok : Runs.run (exec site) s l = some t) : t.scope = scopeRun s.scope l := by
  induction l generalizing s with
  | nil =>
    cases ok
    rfl
  | cons q rest ih =>
    obtain ⟨m,first,last⟩ := Runs.runCons ok
    rw [ih last,execScope first]
    rfl

def calm : Stmt → Bool
  | .describe _ | .loadStaging .. | .markWinners _ | .upsert .. | .write .. | .readMax _ | .lookup _ | .deleteAbsent ..
  | .deleteTombstones .. | .verify _ => true
  | _ => false

theorem calmScope {l} (all : ∀ q ∈ l, calm q = true) : scopeRun f l = f := by
  induction l with
  | nil => rfl
  | cons q rest ih =>
    have head := all q mem_cons_self
    have tail := ih fun r mem => all r (mem_cons_of_mem _ mem)
    have same : scopeAfter f q = f := by
      cases q <;> first | rfl | cases head
    rw [scopeRun,foldl_cons,same]
    exact tail

theorem observeEach {P : Stmt → Prop} {ref clock} (read : P (.readMax ref)) (write : ∀ r rows, P (.write r rows)) :
    ∀ q ∈ observeFromStaging site ref clock, P q := by
  intro q mem
  rcases mem_cons.mp mem with rfl | written
  · exact read
  · obtain ⟨_,_,rfl⟩ := mem_map.mp written
    exact write _ _

theorem deleteEach {P : Stmt → Prop} {ref dirtyKeys guard} (lookup : P (.lookup ref)) (read : P (.readMax ref))
    (write : ∀ r rows, P (.write r rows)) (dead : ∀ wins, P (.deleteTombstones ref wins)) (absent : P (.deleteAbsent ref dirtyKeys)) :
    ∀ q ∈ deleteAbsent site tx ref dirtyKeys guard, P q := by
  intro q mem
  unfold deleteAbsent deleteTombstonesCluster at mem
  split at mem
  · simp only [mem_append,mem_cons,not_mem_nil,or_false] at mem
    rcases mem with (rfl | rfl | rfl) | observed
    · exact lookup
    · exact dead _
    · exact write _ _
    · exact observeEach read write q observed
  · rcases mem_cons.mp mem with rfl | deleted
    · exact lookup
    · split at deleted
      · cases deleted
      · exact mem_singleton.mp deleted ▸ absent

theorem observeCalm {ref clock} : ∀ q ∈ observeFromStaging site ref clock, calm q = true := observeEach rfl fun _ _ => rfl

theorem deleteCalm {ref dirtyKeys guard} : ∀ q ∈ deleteAbsent site tx ref dirtyKeys guard, calm q = true :=
  deleteEach rfl rfl (fun _ _ => rfl) (fun _ => rfl) rfl

theorem stageShape (n) (ref reread guard) : ∃ middle, (∀ q ∈ middle, calm q = true) ∧
    stageUpsert site tx n ref reread guard = [.describe ref,.createStaging n]++middle++[.record ref n] := by
  unfold stageUpsert stageUpsertCluster
  split
  · refine ⟨[.loadStaging n reread,.markWinners n,.upsert ref n guard.wins,.write (site.registerOf ref) guard.register]++
      observeFromStaging site ref guard.clock,fun q mem => ?_,by simp⟩
    rcases mem_append.mp mem with here | observed
    · simp only [mem_cons,not_mem_nil,or_false] at here
      rcases here with rfl | rfl | rfl | rfl <;> rfl
    · exact observeCalm q observed
  · refine ⟨[.loadStaging n reread,.upsert ref n fun _ => true],fun q mem => ?_,rfl⟩
    simp only [mem_cons,not_mem_nil,or_false] at mem
    rcases mem with rfl | rfl <;> rfl

theorem stageScope (n) (ref reread guard) : scopeRun f (stageUpsert site tx n ref reread guard) =
    { f with names := f.names++[n], staging := put f.staging ref n } := by
  obtain ⟨middle,quiet,shape⟩ := @stageShape site tx n ref reread guard
  rw [shape,scopeAppend,scopeAppend,calmScope quiet]
  rfl

theorem callsScope (n) (calls) : scopeRun f (callsStmts site tx n calls) =
    { f with names := f.names++List.range' n (stagedRefs calls).length, staging := recorded f.staging n (stagedRefs calls) } := by
  induction calls generalizing f n with
  | nil => simp [callsStmts,scopeRun,stagedRefs,recorded]
  | cons c calls ih =>
    rw [callsStmts,scopeAppend]
    cases c with
    | stageUpsert ref reread guard =>
      rw [callStmts,stageScope,ih]
      simp [stagedRefs,recorded,Call.stages,range'_succ]
    | deleteAbsent ref dirtyKeys guard =>
      rw [callStmts,calmScope deleteCalm,ih]
      rfl

theorem nextStgStaged (n) (calls) : nextStg n calls = n+(stagedRefs calls).length := by
  induction calls with
  | nil => rfl
  | cons c calls ih =>
    unfold nextStg at ih ⊢
    cases c with
    | stageUpsert ref reread guard =>
      simp only [map_cons,sum_cons,Call.stages,stagedRefs,filterMap_cons,length_cons]
      unfold stagedRefs at ih
      omega
    | deleteAbsent ref dirtyKeys guard =>
      simpa [Call.stages,stagedRefs] using ih

theorem describesScope (refs : List TableRef) : scopeRun f (refs.map .describe) = f := by
  refine calmScope fun q mem => ?_
  obtain ⟨_,_,rfl⟩ := mem_map.mp mem
  rfl

theorem beginScope : scopeRun idle (beginApply tx) = ⟨true,[],!tx.cyclic,tx.origin,[]⟩ := by
  unfold beginApply
  rw [scopeAppend,scopeAppend,scopeAppend,describesScope]
  cases tx.origin <;> cases tx.cyclic <;> rfl

theorem beginPart {k : Nat} {q : Stmt} (here : (beginApply tx)[k]? = some q) :
    (scopeRun idle ((beginApply tx).take k)).names = [] ∧ (scopeRun idle ((beginApply tx).take k)).checks = true ∧
    ((scopeRun idle ((beginApply tx).take k)).marker = true ↔
      tx.origin = true ∧ tx.cyclic = true ∧ k = tx.compTables.length+2) := by
  obtain ⟨bound,_⟩ := List.getElem?_eq_some_iff.mp here
  unfold beginApply at bound ⊢
  rw [append_assoc,append_assoc] at bound ⊢
  simp only [length_append,length_map] at bound
  rw [take_append,scopeAppend]
  have early : scopeRun idle ((tx.compTables.map Stmt.describe).take k) = idle := by
    rw [←map_take]
    exact describesScope _
  rw [early,length_map]
  have last : k = tx.compTables.length+2 ↔ k-tx.compTables.length = 2 := by omega
  have inside : k-tx.compTables.length < ([Stmt.begin]++((if tx.origin then [Stmt.setMarker true] else [])++
      if tx.cyclic then [Stmt.setChecks false] else [])).length := by
    simp only [length_append]
    simp only [length_singleton] at bound ⊢
    omega
  rw [last]
  obtain ⟨j,rest⟩ : ∃ j, k-tx.compTables.length = j := ⟨_,rfl⟩
  rw [rest] at inside ⊢
  revert inside
  cases tx.origin <;> cases tx.cyclic <;> intro inside <;>
    simp only [Bool.false_eq_true,if_false,if_true,nil_append,append_nil,cons_append,length_cons,length_nil] at inside ⊢ <;>
    interval_cases j <;> simp [scopeRun,scopeAfter,idle]

def Call.staging : Call → Bool
  | .stageUpsert .. => true
  | .deleteAbsent .. => false

theorem callPart {n k c q} (here : (callStmts site tx n c)[k]? = some q) :
    scopeRun f ((callStmts site tx n c).take k) = { f with names := f.names++if Call.staging c && decide (2 ≤ k) then [n] else [] } := by
  obtain ⟨bound,_⟩ := List.getElem?_eq_some_iff.mp here
  cases c with
  | deleteAbsent ref dirtyKeys guard =>
    rw [callStmts,calmScope fun r mem => deleteCalm r (mem_of_mem_take mem)]
    simp [Call.staging]
  | stageUpsert ref reread guard =>
    obtain ⟨middle,quiet,shape⟩ := @stageShape site tx n ref reread guard
    rw [callStmts,shape] at bound ⊢
    have unrecorded : k ≤ ([Stmt.describe ref,.createStaging n]++middle).length := by
      simp only [length_append,length_singleton] at bound ⊢
      omega
    rw [take_append_of_le_length unrecorded]
    rcases k with _ | _ | k
    · simp [scopeRun]
    · simp [scopeRun,scopeAfter]
    · have later : ([Stmt.describe ref,.createStaging n]++middle).take (k+2) = [Stmt.describe ref,.createStaging n]++middle.take k := rfl
      rw [later,scopeAppend,calmScope fun r mem => quiet r (mem_of_mem_take mem)]
      simp [scopeRun,scopeAfter,Call.staging]

theorem verifiesCalm : ∀ r ∈ verifyNoOrphans site tx, calm r = true := by
  intro r mem
  obtain ⟨_,_,rfl⟩ := mem_map.mp mem
  rfl

theorem commitPart {k q} (here : (commit site tx)[k]? = some q) :
    scopeRun f ((commit site tx).take k) = { f with checks := f.checks || tx.cyclic && decide (0 < k) } := by
  have before : (commit site tx).take k = (checksBack site tx).take k := by
    rcases commitAt here with ⟨_,early⟩ | ⟨_,all⟩
    · exact early
    · have long := congrArg List.length all
      rw [length_take] at long
      rw [all,take_of_length_le (by omega)]
  rw [before,checksBack]
  cases tx.cyclic with
  | false => simp [scopeRun]
  | true =>
    cases k with
    | zero => simp [scopeRun]
    | succ k =>
      have rest : scopeRun f ((Stmt.setChecks true::verifyNoOrphans site tx).take (k+1)) =
          scopeRun { f with checks := true } ((verifyNoOrphans site tx).take k) := rfl
      rw [if_pos rfl,rest,calmScope fun r mem => verifiesCalm r (mem_of_mem_take mem)]
      simp

theorem commitScope : scopeRun f (commit site tx) = { f with opened := false, checks := f.checks || tx.cyclic } := by
  rw [commit,scopeAppend]
  cases tx.cyclic with
  | false => simp [scopeRun,scopeAfter]
  | true =>
    have rest : scopeRun f (Stmt.setChecks true::verifyNoOrphans site tx) =
        scopeRun { f with checks := true } (verifyNoOrphans site tx) := rfl
    rw [if_pos rfl,rest,calmScope verifiesCalm]
    simp [scopeRun,scopeAfter]

end Scopes

section Cleanup
variable {site : Site} {tx : Transaction} {s t : State} {release : Release}

def tidies : Stmt → Bool
  | .dropStaging _ | .setChecks true | .setMarker false => true
  | _ => false

theorem cleanupsTidy {staging} : ∀ q ∈ cleanups tx staging, tidies q = true := by
  intro q mem
  simp only [cleanups,mem_append,mem_map] at mem
  rcases mem with (⟨_,_,rfl⟩ | checks) | marker
  · rfl
  · split at checks
    · cases mem_singleton.mp checks
      rfl
    · cases checks
  · split at marker
    · cases mem_singleton.mp marker
      rfl
    · cases marker

theorem tidyAccepted {q} (tidy : tidies q = true) : ∃ t, exec site s q = some t ∧ t.target = s.target := by
  cases q with
  | dropStaging n | setChecks on | setMarker on => exact ⟨_,rfl,rfl⟩
  | _ => cases tidy

theorem sweepLost {answer l} (all : ∀ q ∈ l, tidies q = true)
    (lost : ∃ q ∈ l, ∃ landed, answer q = some (.lost landed)) : (sweep site answer s l).1 = fresh s.target := by
  induction l generalizing s with
  | nil =>
    obtain ⟨_,mem,_⟩ := lost
    cases mem
  | cons q rest ih =>
    obtain ⟨r,mem,landed,at_⟩ := lost
    have tail := fun q' mem => all q' (mem_cons_of_mem q mem)
    unfold sweep
    split
    · rename_i accepted
      obtain ⟨t,made,kept⟩ := @tidyAccepted site s q (all q mem_cons_self)
      rcases mem_cons.mp mem with rfl | later
      · cases accepted.symm.trans at_
      · rw [made,Option.getD_some,ih tail ⟨r,later,landed,at_⟩,kept]
    · rename_i errno refused
      rcases mem_cons.mp mem with rfl | later
      · cases refused.symm.trans at_
      · exact ih tail ⟨r,later,landed,at_⟩
    · rfl

theorem sweepScope {answer l} (all : ∀ q ∈ l, tidies q = true) (kept : ¬∃ q ∈ l, ∃ landed, answer q = some (.lost landed)) :
    (sweep site answer s l).1.scope = { scopeRun s.scope (l.filter fun q => (answer q).isNone) with staging := [] } := by
  induction l generalizing s with
  | nil => rfl
  | cons q rest ih =>
    have tail := fun q' mem => all q' (mem_cons_of_mem q mem)
    have later : ¬∃ q ∈ rest, ∃ landed, answer q = some (.lost landed) := by
      rintro ⟨r,mem,lost⟩
      exact kept ⟨r,mem_cons_of_mem _ mem,lost⟩
    unfold sweep
    split
    · rename_i accepted
      obtain ⟨t,made,_⟩ := @tidyAccepted site s q (all q mem_cons_self)
      rw [made,Option.getD_some,ih tail later,execScope made,filter_cons_of_pos (by rw [accepted]; rfl)]
      rfl
    · rename_i errno refused
      rw [ih tail later,filter_cons_of_neg (by rw [refused]; simp)]
    · rename_i landed lost
      exact absurd ⟨q,mem_cons_self,landed,lost⟩ kept

theorem dropsScope {f : Scope} {answer : Stmt → Option Failure} (staging : List (TableRef × Nat)) :
    scopeRun f ((staging.map fun e => Stmt.dropStaging e.2).filter fun q => (answer q).isNone) =
    { f with names := f.names.filter fun n => !(decide (n ∈ staging.map Prod.snd) && (answer (.dropStaging n)).isNone) } := by
  induction staging generalizing f with
  | nil => simp [scopeRun]
  | cons e staging ih =>
    have others : ∀ {n}, n ≠ e.2 → (n ∈ staging.map Prod.snd ↔ n ∈ (e::staging).map Prod.snd) := fun {n} other => by simp [other]
    rw [map_cons]
    cases accepted : (answer (.dropStaging e.2)).isNone with
    | false =>
      rw [filter_cons_of_neg (by simp [accepted]),ih]
      congr 1
      refine filter_congr fun n _ => ?_
      by_cases same : n = e.2
      · simp [same,accepted]
      · rw [decide_eq_decide.mpr (others same)]
    | true =>
      rw [filter_cons_of_pos (by simp [accepted]),scopeRun,foldl_cons]
      have rest := @ih (scopeAfter f (.dropStaging e.2))
      unfold scopeRun at rest
      rw [rest]
      simp only [scopeAfter,filter_filter]
      congr 1
      refine filter_congr fun n _ => ?_
      by_cases same : n = e.2
      · simp [same,accepted]
      · rw [decide_eq_decide.mpr (others same),decide_eq_true same,Bool.and_true]

theorem cleanupScope {f : Scope} {answer : Stmt → Option Failure} {staging : List (TableRef × Nat)} :
    scopeRun f ((cleanups tx staging).filter fun q => (answer q).isNone) =
    { f with
      names := f.names.filter fun n => !(decide (n ∈ staging.map Prod.snd) && (answer (.dropStaging n)).isNone)
      checks := f.checks || tx.cyclic && (answer (.setChecks true)).isNone
      marker := f.marker && !(tx.origin && (answer (.setMarker false)).isNone) } := by
  rw [cleanups,filter_append,filter_append,scopeAppend,scopeAppend,dropsScope]
  cases tx.cyclic <;> cases tx.origin <;> cases back : (answer (.setChecks true)).isNone <;>
    cases unset : (answer (.setMarker false)).isNone <;> simp [scopeRun,scopeAfter,back,unset]

theorem freshIff : s = fresh s.target ↔ s.scope = idle := by
  constructor
  · intro same
    rw [same]
    rfl
  · intro same
    obtain ⟨target,work,temps,checks,marker,staging⟩ := s
    simp only [State.scope,idle,Scope.mk.injEq,Option.isSome_eq_false_iff,Option.isNone_iff_eq_none,map_eq_nil_iff] at same
    obtain ⟨rfl,rfl,rfl,rfl,rfl⟩ := same
    rfl

theorem closeClean (ended : s.work = none) :
    (closeConn site tx release s).1 = fresh (closeConn site tx release s).1.target ↔
    (∃ q ∈ cleanups tx s.staging, ∃ landed, release.answer q = some (.lost landed)) ∨
    (∀ n ∈ s.temps.map Prod.fst, n ∈ s.staging.map Prod.snd ∧ release.answer (.dropStaging n) = none) ∧
    (s.checks = false → tx.cyclic = true ∧ release.answer (.setChecks true) = none) ∧
    (s.marker = true → tx.origin = true ∧ release.answer (.setMarker false) = none) := by
  by_cases lost : ∃ q ∈ cleanups tx s.staging, ∃ landed, release.answer q = some (.lost landed)
  · rw [closeTarget,closeConn,sweepLost cleanupsTidy lost]
    exact iff_of_true rfl (.inl lost)
  · rw [freshIff,closeConn,sweepScope cleanupsTidy lost,cleanupScope,or_iff_right lost]
    simp only [State.scope,idle,ended,Option.isSome_none,Scope.mk.injEq,true_and,and_true,filter_eq_nil_iff,Bool.not_eq_true,
      Bool.not_eq_false',Bool.and_eq_true,decide_eq_true_eq,Option.isNone_iff_eq_none]
    refine and_congr Iff.rfl (and_congr ?_ ?_)
    · cases s.checks <;> simp
    · cases s.marker <;> simp

end Cleanup

section Map
variable {staging : List (TableRef × Nat)} {n m : Nat} {refs : List TableRef}

theorem recordedBound (old : ∀ e ∈ staging, e.2 < n) : ∀ e ∈ recorded staging n refs, e.2 < n+refs.length := by
  induction refs generalizing staging n with
  | nil => exact old
  | cons ref refs ih =>
    intro e mem
    have later : ∀ e ∈ put staging ref n, e.2 < n+1 := by
      intro e mem
      rcases mem_cons.mp mem with rfl | before
      · exact Nat.lt_succ_self n
      · exact Nat.lt_succ_of_lt (old e (mem_of_mem_filter before))
    have bound := ih later e mem
    rw [length_cons]
    omega

theorem recordedGone (gone : m ∉ staging.map Prod.snd) (old : m < n) : m ∉ (recorded staging n refs).map Prod.snd := by
  induction refs generalizing staging n with
  | nil => exact gone
  | cons ref refs ih =>
    refine ih (fun back => ?_) (Nat.lt_succ_of_lt old)
    obtain ⟨e,mem,rfl⟩ := mem_map.mp back
    rcases mem_cons.mp mem with rfl | before
    · exact lt_irrefl _ old
    · exact gone (mem_map_of_mem (mem_of_mem_filter before))

theorem recordedAll (names : (staging.map Prod.snd).Nodup) (old : ∀ e ∈ staging, e.2 < n) :
    (∀ m ∈ staging.map Prod.snd++List.range' n refs.length, m ∈ (recorded staging n refs).map Prod.snd) ↔
    refs.Nodup ∧ ∀ ref ∈ refs, ref ∉ staging.map Prod.fst := by
  induction refs generalizing staging n with
  | nil => simp [recorded]
  | cons ref refs ih =>
    by_cases known : ref ∈ staging.map Prod.fst
    · refine iff_of_false (fun all => ?_) fun each => each.2 ref mem_cons_self known
      obtain ⟨e,mem,rfl⟩ := mem_map.mp known
      have small := old e mem
      have gone : e.2 ∉ (put staging e.1 n).map Prod.snd := by
        intro back
        obtain ⟨e',mem',same⟩ := mem_map.mp back
        rcases mem_cons.mp mem' with rfl | before
        · exact absurd same small.ne'
        · obtain ⟨mem',other⟩ := mem_filter.mp before
          cases inj_on_of_nodup_map names mem' mem same
          simp at other
      exact recordedGone gone (Nat.lt_succ_of_lt small) (all e.2 (mem_append_left _ (mem_map_of_mem mem)))
    · have same : put staging ref n = (ref,n)::staging := by
        rw [put,filter_eq_self.mpr fun e mem => ?_]
        exact decide_eq_true fun same => known (mem_map.mpr ⟨e,mem,same⟩)
      have fresh : n ∉ staging.map Prod.snd := by
        intro back
        obtain ⟨e,mem,same⟩ := mem_map.mp back
        exact absurd same (old e mem).ne
      have older : ∀ e ∈ (ref,n)::staging, e.2 < n+1 := by
        intro e mem
        rcases mem_cons.mp mem with rfl | before
        · exact Nat.lt_succ_self n
        · exact Nat.lt_succ_of_lt (old e before)
      have step := @ih ((ref,n)::staging) (n+1) (nodup_cons.mpr ⟨fresh,names⟩) older
      rw [recorded,same]
      refine Iff.trans ?_ (step.trans ?_)
      · refine forall_congr' fun m => imp_congr_left ?_
        simp only [length_cons,range'_succ,mem_append,mem_cons,map_cons]
        exact or_left_comm.trans (or_assoc.symm)
      · simp only [map_cons,mem_cons,not_or,nodup_cons,forall_eq_or_imp]
        constructor
        · rintro ⟨apart,each⟩
          exact ⟨⟨fun mem => (each ref mem).1 rfl,apart⟩,known,fun r mem => (each r mem).2⟩
        · rintro ⟨⟨new,apart⟩,_,each⟩
          exact ⟨apart,fun r mem => ⟨fun same => new (same ▸ mem),each r mem⟩⟩

end Map

def Swept (tx : Transaction) (release : Release) (calls : List Call) (off unrecorded : Bool) : Prop :=
  (∃ q ∈ cleanups tx (recorded [] 0 (stagedRefs calls)), ∃ landed, release.answer q = some (.lost landed)) ∨
  unrecorded = false ∧ (stagedRefs calls).Nodup ∧
    ∀ q ∈ cleanups tx (recorded [] 0 (stagedRefs calls)), release.answer q = none ∨ off = false ∧ q = .setChecks true

/- The failures that leave nothing behind. The third statement of StageUpsert and those
after it find a staging table that is not yet recorded; in BeginApply the statement
after the marker is the one that turns the checks off. -/
def Tidy (tx : Transaction) (release : Release) : Option (Point × Failure) → Prop
  | some (_,.lost _) => True
  | some (.inBegin k,.refused _) => ¬(tx.origin = true ∧ tx.cyclic = true ∧ k = tx.compTables.length+2)
  | some (.inCall i k,.refused _) =>
      Swept tx release (tx.calls.take i) tx.cyclic ((tx.calls[i]?).any Call.staging && decide (2 ≤ k))
  | some (.inCommit k,.refused _) => Swept tx release tx.calls (tx.cyclic && decide (k = 0)) false
  | none => Swept tx release tx.calls false false

section Sessions
variable {site : Site} {tx : Transaction} {s t m : State} {release : Release}

theorem cleanupsAll {staging : List (TableRef × Nat)} {P : Stmt → Prop} :
    (∀ q ∈ cleanups tx staging, P q) ↔ (∀ e ∈ staging, P (.dropStaging e.2)) ∧
      (tx.cyclic = true → P (.setChecks true)) ∧ (tx.origin = true → P (.setMarker false)) := by
  rw [cleanups,forall_mem_append,forall_mem_append,forall_mem_map,and_assoc]
  cases tx.cyclic <;> cases tx.origin <;> simp

theorem namesRecorded {calls : List Call} {unrecorded : Bool} {ok : Nat → Prop} :
    (∀ n ∈ List.range' 0 (stagedRefs calls).length++(if unrecorded then [(stagedRefs calls).length] else []),
      n ∈ (recorded [] 0 (stagedRefs calls)).map Prod.snd ∧ ok n) ↔
    unrecorded = false ∧ (stagedRefs calls).Nodup ∧ ∀ e ∈ recorded [] 0 (stagedRefs calls), ok e.2 := by
  have bound : ∀ e ∈ recorded [] 0 (stagedRefs calls), e.2 < (stagedRefs calls).length := by
    simpa using @recordedBound [] 0 (stagedRefs calls) fun _ mem => absurd mem not_mem_nil
  have all : (∀ m ∈ List.range' 0 (stagedRefs calls).length, m ∈ (recorded [] 0 (stagedRefs calls)).map Prod.snd) ↔
      (stagedRefs calls).Nodup := by
    simpa using @recordedAll [] 0 (stagedRefs calls) nodup_nil fun _ mem => absurd mem not_mem_nil
  constructor
  · intro each
    refine ⟨?_,all.mp fun m mem => (each m (mem_append_left _ mem)).1,fun e mem => ?_⟩
    · cases unrecorded with
      | false => rfl
      | true =>
        have here := (each _ (mem_append_right _ (mem_singleton_self _))).1
        obtain ⟨e,mem,same⟩ := mem_map.mp here
        exact absurd same (bound e mem).ne
    · refine (each e.2 (mem_append_left _ ?_)).2
      rw [mem_range'_1]
      exact ⟨Nat.zero_le _,by simpa using bound e mem⟩
  · rintro ⟨rfl,apart,oks⟩ n mem
    have listed := all.mpr apart n (by simpa using mem)
    obtain ⟨e,there,rfl⟩ := mem_map.mp listed
    exact ⟨listed,oks e there⟩

theorem sweptIff {calls : List Call} {off unrecorded : Bool} (ended : s.work = none)
    (names : s.temps.map Prod.fst = List.range' 0 (stagedRefs calls).length++if unrecorded then [(stagedRefs calls).length] else [])
    (checks : s.checks = !off) (cyclic : off = true → tx.cyclic = true) (marker : s.marker = tx.origin)
    (map : s.staging = recorded [] 0 (stagedRefs calls)) :
    (closeConn site tx release s).1 = fresh (closeConn site tx release s).1.target ↔ Swept tx release calls off unrecorded := by
  rw [closeClean ended,Swept,names,checks,marker,map,namesRecorded,cleanupsAll]
  refine or_congr Iff.rfl ?_
  simp only [reduceCtorEq,and_false,or_false,and_true,and_assoc]
  refine and_congr Iff.rfl (and_congr Iff.rfl (and_congr Iff.rfl (and_congr ?_ ?_)))
  · cases off with
    | false => simp
    | true => simp [cyclic rfl]
  · cases tx.origin <;> simp

theorem bodyScope {calls} (start : s.scope = idle)
    (ok : Runs.run (exec site) s (beginApply tx++callsStmts site tx 0 calls) = some t) :
    t.scope = ⟨true,List.range' 0 (stagedRefs calls).length,!tx.cyclic,tx.origin,recorded [] 0 (stagedRefs calls)⟩ := by
  rw [runScope ok,start,scopeAppend,beginScope,callsScope]
  simp

theorem failTidy {p q f} (start : s.scope = idle) (here : stmtAt site tx p = some q)
    (ok : Runs.run (exec site) s (reached site tx p) = some m) :
    fail site tx release q m p f = fresh (fail site tx release q m p f).target ↔ Tidy tx release (some (p,f)) := by
  cases f with
  | lost landed => cases p <;> exact iff_of_true rfl trivial
  | refused errno =>
    cases p with
    | inBegin k =>
      have scope := (runScope ok).trans (congrArg (scopeRun · _) start)
      obtain ⟨names,checks,marker⟩ := beginPart here
      rw [freshIff]
      have left : (fail site tx release q m (.inBegin k) (.refused errno)).scope = ⟨false,[],true,m.marker,[]⟩ := by
        have none := (congrArg Scope.names scope).trans names
        have on := (congrArg Scope.checks scope).trans checks
        simp only [State.scope] at none on
        simp [fail,rollback,State.scope,none,on]
      have same : m.marker = (scopeRun idle ((beginApply tx).take k)).marker := congrArg Scope.marker scope
      rw [left,idle,Tidy,←marker,←same]
      simp
    | inCall i k =>
      obtain ⟨c,known,place⟩ := Option.bind_eq_some_iff.mp here
      simp only [reached,known,Option.elim_some] at ok
      obtain ⟨m',body,part⟩ := Runs.runSplit ok
      have scope := (runScope part).trans (callPart place)
      rw [bodyScope start body,nextStgStaged,Nat.zero_add] at scope
      simp only [State.scope,Scope.mk.injEq] at scope
      obtain ⟨_,names,checks,marker,map⟩ := scope
      have done : fail site tx release q m (.inCall i k) (.refused errno) = (closeConn site tx release (rollback m)).1 := rfl
      rw [done,Tidy,known,Option.any_some]
      exact sweptIff rfl names checks id marker map
    | inCommit k =>
      simp only [reached] at ok
      obtain ⟨m',body,part⟩ := Runs.runSplit ok
      have scope := (runScope part).trans (commitPart here)
      rw [bodyScope start body] at scope
      simp only [State.scope,Scope.mk.injEq] at scope
      obtain ⟨_,names,checks,marker,map⟩ := scope
      have done : fail site tx release q m (.inCommit k) (.refused errno) = (closeConn site tx release (rollback m)).1 := rfl
      rw [done,Tidy]
      refine sweptIff rfl (by simpa [rollback] using names) ?_ (fun both => (Bool.and_eq_true_iff.mp both).1) marker map
      show m.checks = _
      rw [checks]
      cases tx.cyclic <;> cases k <;> simp

theorem throughTidy (start : s.scope = idle)
    (ok : Runs.run (exec site) s (beginApply tx++callsStmts site tx 0 tx.calls++commit site tx) = some m) :
    (closeConn site tx release m).1 = fresh (closeConn site tx release m).1.target ↔ Tidy tx release none := by
  obtain ⟨m',body,last⟩ := Runs.runSplit ok
  have scope := (runScope last).trans commitScope
  rw [bodyScope start body] at scope
  simp only [State.scope,Scope.mk.injEq] at scope
  obtain ⟨ended,names,checks,marker,map⟩ := scope
  refine sweptIff (Option.not_isSome_iff_eq_none.mp (by simp [ended])) (by simpa using names) ?_ Bool.noConfusion marker map
  rw [checks]
  cases tx.cyclic <;> rfl

theorem attemptTidy {cut s' e} (start : s = fresh s.target) (ran : attempt site tx cut release s = some (s',e)) :
    s' = fresh s'.target ↔ Tidy tx release cut := by
  have start := freshIff.mp start
  cases cut with
  | none =>
    obtain ⟨m,ok,same⟩ := Option.map_eq_some_iff.mp ran
    obtain ⟨rfl,rfl⟩ := Prod.mk.inj same
    exact throughTidy start ok
  | some cut =>
    obtain ⟨p,f⟩ := cut
    obtain ⟨q,found,ran⟩ := Option.bind_eq_some_iff.mp ran
    obtain ⟨here,_⟩ := Option.filter_eq_some_iff.mp found
    obtain ⟨m,ok,same⟩ := Option.map_eq_some_iff.mp ran
    obtain ⟨rfl,rfl⟩ := Prod.mk.inj same
    exact failTidy start here ok

end Sessions

/- DeleteAbsent comes after the StageUpsert of its table. -/
def Ordered : List TableRef → List Call → Prop
  | _, [] => True
  | seen, .stageUpsert ref _ _::calls => Ordered (ref::seen) calls
  | seen, .deleteAbsent ref _ _::calls => ref ∈ seen ∧ Ordered seen calls

section Next
variable {site : Site} {tx : Transaction} {s : State} {f : Scope}

def Fits (f : Scope) : Stmt → Prop
  | .createStaging n => n ∉ f.names
  | .lookup ref => ref ∈ f.staging.map Prod.fst
  | .verify _ => False
  | .upsert .. | .write .. | .deleteAbsent .. | .deleteTombstones .. | .commit => f.opened = true
  | _ => True

def FitsAll : Scope → List Stmt → Prop
  | _, [] => True
  | f, q::rest => Fits f q ∧ FitsAll (scopeAfter f q) rest

theorem fitsAppend {l l'} : FitsAll f (l++l') ↔ FitsAll f l ∧ FitsAll (scopeRun f l) l' := by
  induction l generalizing f with
  | nil => simp [FitsAll,scopeRun]
  | cons q rest ih => simp [FitsAll,ih,scopeRun,and_assoc]

section
variable (willing : ∀ b, ∃ b', site.enforced b = some b')
include willing

theorem changeTaken (begun : s.scope.opened = true) (g) : ∃ t, s.change site g = some t := by
  obtain ⟨b,work⟩ := Option.isSome_iff_exists.mp begun
  obtain ⟨b',taken⟩ := willing (g b)
  cases checks : s.checks <;> simp [State.change,work,checks,taken]

theorem fitsTaken {q} (fits : Fits s.scope q) : ∃ t, exec site s q = some t := by
  cases q with
  | createStaging n => exact ⟨_,if_neg fits⟩
  | lookup ref => exact ⟨_,if_pos fits⟩
  | verify fk => cases fits
  | upsert | write | deleteAbsent | deleteTombstones => exact changeTaken willing fits _
  | commit =>
    obtain ⟨b,work⟩ := Option.isSome_iff_exists.mp fits
    exact ⟨_,by rw [exec,work,Option.map_some]⟩
  | _ => exact ⟨_,rfl⟩

theorem fitsRun {l} (fits : FitsAll s.scope l) : ∃ t, Runs.run (exec site) s l = some t := by
  induction l generalizing s with
  | nil => exact ⟨s,rfl⟩
  | cons q rest ih =>
    obtain ⟨here,later⟩ := fits
    obtain ⟨m,first⟩ := fitsTaken willing here
    obtain ⟨t,last⟩ := @ih m (execScope first ▸ later)
    exact ⟨t,by rw [Runs.run,first]; exact last⟩

end

theorem calmFits {l} (all : ∀ q ∈ l, calm q = true) (each : ∀ q ∈ l, Fits f q) : FitsAll f l := by
  induction l with
  | nil => trivial
  | cons q rest ih =>
    have one : ∀ r ∈ [q], calm r = true := fun r mem => all r (mem_singleton.mp mem ▸ mem_cons_self)
    refine ⟨each q mem_cons_self,?_⟩
    have same : scopeAfter f q = f := calmScope one
    rw [same]
    exact ih (fun r mem => all r (mem_cons_of_mem _ mem)) fun r mem => each r (mem_cons_of_mem _ mem)

theorem deleteFits (begun : f.opened = true) {ref dirtyKeys guard} (known : ref ∈ f.staging.map Prod.fst) :
    FitsAll f (deleteAbsent site tx ref dirtyKeys guard) :=
  calmFits deleteCalm (deleteEach known trivial (fun _ _ => begun) (fun _ => begun) begun)

theorem stageFits (begun : f.opened = true) {n ref reread guard} (new : n ∉ f.names) :
    FitsAll f (stageUpsert site tx n ref reread guard) := by
  unfold stageUpsert stageUpsertCluster
  split
  · refine fitsAppend.mpr ⟨fitsAppend.mpr ⟨?_,?_⟩,trivial,trivial⟩
    · exact ⟨trivial,new,trivial,trivial,begun,begun,trivial⟩
    · exact calmFits observeCalm (observeEach trivial fun _ _ => begun)
  · exact ⟨trivial,new,trivial,begun,trivial,trivial⟩

theorem callsFit {n calls seen} (begun : f.opened = true) (small : ∀ m ∈ f.names, m < n)
    (known : ∀ ref ∈ seen, ref ∈ f.staging.map Prod.fst) (ordered : Ordered seen calls) :
    FitsAll f (callsStmts site tx n calls) := by
  induction calls generalizing f n seen with
  | nil => trivial
  | cons c calls ih =>
    rw [callsStmts]
    cases c with
    | stageUpsert ref reread guard =>
      refine fitsAppend.mpr ⟨stageFits begun fun mem => lt_irrefl n (small n mem),?_⟩
      rw [callStmts,stageScope]
      refine ih begun (fun m mem => ?_) (fun r mem => ?_) ordered
      · rcases mem_append.mp mem with old | new
        · exact Nat.lt_succ_of_lt (small m old)
        · rw [mem_singleton.mp new]
          exact Nat.lt_succ_self n
      · by_cases same : r = ref
        · simp [put,same]
        · obtain ⟨e,there,rfl⟩ := mem_map.mp (known r ((mem_cons.mp mem).resolve_left same))
          exact mem_map_of_mem (mem_cons_of_mem _ (mem_filter.mpr ⟨there,decide_eq_true same⟩))
    | deleteAbsent ref dirtyKeys guard =>
      obtain ⟨before,ordered⟩ := ordered
      refine fitsAppend.mpr ⟨deleteFits begun (known ref before),?_⟩
      rw [callStmts,calmScope deleteCalm]
      exact ih begun small known ordered

theorem beginFits : FitsAll idle (beginApply tx) := by
  refine fitsAppend.mpr ⟨fitsAppend.mpr ⟨fitsAppend.mpr ⟨?_,trivial,trivial⟩,?_⟩,?_⟩
  · refine calmFits (fun q mem => ?_) fun q mem => ?_ <;>
      obtain ⟨_,_,rfl⟩ := mem_map.mp mem
    · rfl
    · trivial
  · cases tx.origin <;> simp [FitsAll,Fits]
  · cases tx.cyclic <;> simp [FitsAll,Fits]

theorem verifiesRun {b} (work : s.work = some b) (clear : NoOrphans site tx b) :
    Runs.run (exec site) s (verifyNoOrphans site tx) = some s := by
  have each : ∀ fk ∈ tx.compTables.flatMap (tableMeta site), orphans fk b = [] := by
    intro fk mem
    obtain ⟨r,member,listed⟩ := mem_flatMap.mp mem
    rw [tableMetaEdges] at listed
    obtain ⟨c,known,rfl⟩ := mem_map.mp listed
    exact (orphansNone r c b).mpr (clear r member c known)
  unfold verifyNoOrphans
  generalize tx.compTables.flatMap (tableMeta site) = fks at each
  induction fks with
  | nil => rfl
  | cons fk fks ih =>
    have passed : exec site s (.verify fk) = some s := by
      rw [exec,work,Option.bind_some,each fk mem_cons_self]
      rfl
    rw [map_cons,Runs.run,passed]
    exact ih fun fk' mem => each fk' (mem_cons_of_mem _ mem)

theorem passThrough (willing : ∀ b, ∃ b', site.enforced b = some b') (ordered : Ordered [] tx.calls) (target) :
    ∃ m, Runs.run (exec site) (fresh target) (beginApply tx++callsStmts site tx 0 tx.calls) = some m ∧
      ((tx.cyclic = true → ∀ b, m.work = some b → NoOrphans site tx b) →
        ∃ t, attempt site tx none answered (fresh target) = some (t,.success)) := by
  have fits : FitsAll (fresh target).scope (beginApply tx++callsStmts site tx 0 tx.calls) := by
    refine fitsAppend.mpr ⟨beginFits,?_⟩
    have begun : scopeRun (fresh target).scope (beginApply tx) = _ := beginScope
    rw [begun]
    exact callsFit rfl (fun m mem => absurd mem not_mem_nil) (fun r mem => absurd mem not_mem_nil) ordered
  obtain ⟨m,body⟩ := fitsRun willing fits
  refine ⟨m,body,fun clear => ?_⟩
  obtain ⟨b,work⟩ := Option.isSome_iff_exists.mp (bodyOpen body)
  have back : ∃ m', Runs.run (exec site) m (checksBack site tx) = some m' ∧ m'.work = some b := by
    unfold checksBack
    cases cyclic : tx.cyclic with
    | false => exact ⟨m,rfl,work⟩
    | true =>
      refine ⟨{ m with checks := true },?_,work⟩
      rw [if_pos rfl,Runs.run,exec]
      exact verifiesRun work (clear cyclic b work)
  obtain ⟨m',ran,open_⟩ := back
  have whole : Runs.run (exec site) (fresh target) (beginApply tx++callsStmts site tx 0 tx.calls++commit site tx) =
      some { m' with target := b, work := none } := by
    rw [Runs.runAppend _ body]
    refine (Runs.runAppend [.commit] ran).trans ?_
    simp [Runs.run,exec,open_]
  have kept : ∀ (s : State) (l : List Stmt), (sweep site answered.answer s l).2 = false := by
    intro s l
    induction l generalizing s with
    | nil => rfl
    | cons q rest ih => exact ih _
  refine ⟨(closeConn site tx answered { m' with target := b, work := none }).1,?_⟩
  rw [attempt,whole,Option.map_some]
  have lost : (closeConn site tx answered { m' with target := b, work := none }).2 = false := kept _ _
  rw [lost]
  rfl

theorem callsFresh {n calls t} (ok : Runs.run (exec site) s (callsStmts site tx n calls) = some t) :
    ∀ m ∈ List.range' n (stagedRefs calls).length, m ∉ s.temps.map Prod.fst := by
  induction calls generalizing n s with
  | nil => exact fun m mem => absurd mem not_mem_nil
  | cons c calls ih =>
    rw [callsStmts] at ok
    obtain ⟨m',here,rest⟩ := Runs.runSplit ok
    have names := congrArg Scope.names (runScope here)
    cases c with
    | stageUpsert ref reread guard =>
      rw [callStmts,stageScope] at names
      simp only [State.scope] at names
      have created : n ∉ s.temps.map Prod.fst := by
        obtain ⟨middle,_,shape⟩ := @stageShape site tx n ref reread guard
        rw [callStmts,shape] at here
        obtain ⟨_,first,here⟩ := Runs.runCons here
        cases first
        obtain ⟨_,create,_⟩ := Runs.runCons here
        exact (Option.ite_none_left_eq_some.mp create).1
      intro m mem
      have ranged : List.range' n (stagedRefs (.stageUpsert ref reread guard::calls)).length =
          n::List.range' (n+1) (stagedRefs calls).length := range'_succ
      rw [ranged] at mem
      rcases mem_cons.mp mem with rfl | later
      · exact created
      · intro old
        refine ih rest m later ?_
        rw [names]
        exact mem_append_left _ old
    | deleteAbsent ref dirtyKeys guard =>
      rw [callStmts,calmScope deleteCalm] at names
      simp only [State.scope] at names
      rw [←names]
      exact ih rest

theorem beginNames : (scopeRun f (beginApply tx)).names = f.names := by
  unfold beginApply
  rw [scopeAppend,scopeAppend,scopeAppend,describesScope]
  cases tx.origin <;> cases tx.cyclic <;> rfl

theorem strandedHalts {n} (left : n ∈ s.temps.map Prod.fst) (many : n < (stagedRefs tx.calls).length) (release) :
    attempt site tx none release s = none := by
  cases ran : Runs.run (exec site) s (beginApply tx++callsStmts site tx 0 tx.calls++commit site tx) with
  | none => rw [attempt,ran,Option.map_none]
  | some t =>
    obtain ⟨m,body,_⟩ := Runs.runSplit ran
    obtain ⟨m',begun,calls⟩ := Runs.runSplit body
    have names : m'.temps.map Prod.fst = s.temps.map Prod.fst := (congrArg Scope.names (runScope begun)).trans beginNames
    have absent := callsFresh calls n (by rw [mem_range'_1]; omega)
    rw [names] at absent
    exact absurd left absent

end Next

def classifyMySQLFK (cyclic : Bool) (errno : Option Nat) : Bool := !cyclic && (errno == some 1451 || errno == some 1452)

def classifyMeshNotReady (errno : Option Nat) : Bool := errno == some 1049 || errno == some 1146

def transient (tx : Transaction) (errno : Option Nat) : Stmt → Bool
  | .upsert .. | .deleteAbsent .. | .deleteTombstones .. | .commit => classifyMySQLFK tx.cyclic errno
  | .markWinners _ => classifyMeshNotReady errno
  | _ => false

theorem sessionCleanIff {site : Site} {tx : Transaction} {cut release s s' e} (start : s = fresh s.target)
    (ran : attempt site tx cut release s = some (s',e)) :
    (s' = fresh s'.target ↔ Tidy tx release cut) ∧
    (Tidy tx release cut → ∀ next : Transaction, (∀ b, ∃ b', site.enforced b = some b') → Ordered [] next.calls →
      ∃ m, Runs.run (exec site) s' (beginApply next++callsStmts site next 0 next.calls) = some m ∧
        ((next.cyclic = true → ∀ b, m.work = some b → NoOrphans site next b) →
          ∃ t, attempt site next none answered s' = some (t,.success))) := by
  refine ⟨attemptTidy start ran,fun tidy next willing ordered => ?_⟩
  rw [(attemptTidy start ran).mpr tidy]
  exact passThrough willing ordered _

def parents : TableRef := ⟨"shop","parent"⟩
def items : TableRef := ⟨"shop","child"⟩

def family : Site where
  constraints r := if r = items then [⟨"child_ibfk_1",parents,[("parent_id","id")],cons_ne_nil _ _⟩] else []
  named r := by
    split
    · exact nodup_singleton _
    · exact nodup_nil
  registerOf r := ⟨"replicare",r.name⟩
  hlc := ⟨"replicare","hlc_state"⟩
  enforced := some

def childPass (origin cyclic : Bool) : Transaction where
  origin := origin
  cyclic := cyclic
  compTables := [items]
  calls := [.stageUpsert items [([some [7]],rowOf [("id",[7]),("parent_id",[1])])] unguarded]

theorem refusedCreateClean : ∃ s', attempt family (childPass false false) (some (.inCall 0 1,.refused (some 1114))) answered (fresh vacant) =
    some (s',.stopped (.inCall 0 1) (.refused (some 1114))) ∧ s' = fresh s'.target := by
  have ran := (rfl : attempt family (childPass false false) (some (.inCall 0 1,.refused (some 1114))) answered (fresh vacant) =
    some (_,.stopped (.inCall 0 1) (.refused (some 1114))))
  refine ⟨_,ran,(sessionCleanIff rfl ran).1.mpr (.inr ⟨rfl,by decide,?_⟩)⟩
  exact fun q _ => .inl rfl

/- A child before its parent is a transient failure. It leaves the staging table, and the
retry is refused at its CREATE, which is not transient; so is a register that a peer has
not yet made. A refused SET FOREIGN_KEY_CHECKS leaves the marker. -/
theorem staleStaging :
    (∃ s', attempt family (childPass false false) (some (.inCall 0 3,.refused (some 1452))) answered (fresh vacant) =
        some (s',.stopped (.inCall 0 3) (.refused (some 1452))) ∧
      (stmtAt family (childPass false false) (.inCall 0 3)).map (transient (childPass false false) (some 1452)) = some true ∧
      s'.temps.map Prod.fst = [0] ∧ (∀ release, attempt family (childPass false false) none release s' = none) ∧
      (attempt family (childPass false false) (some (.inCall 0 1,.refused (some 1050))) answered s').isSome = true ∧
      (stmtAt family (childPass false false) (.inCall 0 1)).map (transient (childPass false false) (some 1050)) = some false) ∧
    (∃ s', attempt family (childPass true false) (some (.inCall 0 3,.refused (some 1146))) answered (fresh vacant) =
        some (s',.stopped (.inCall 0 3) (.refused (some 1146))) ∧
      (stmtAt family (childPass true false) (.inCall 0 3)).map (transient (childPass true false) (some 1146)) = some true ∧
      s'.temps.map Prod.fst = [0]) ∧
    ∃ s', attempt family (childPass true true) (some (.inBegin 3,.refused none)) answered (fresh vacant) =
        some (s',.stopped (.inBegin 3) (.refused none)) ∧ s'.marker = true := by
  refine ⟨⟨_,rfl,rfl,rfl,fun release => ?_,rfl,rfl⟩,⟨_,rfl,rfl,rfl⟩,_,rfl,rfl⟩
  exact strandedHalts (n := 0) (by decide) (by decide) release

end Replicare.MysqlSession
