import Replicare.FkProgress

/-! The drain of a component with retries, and its single-transaction path: all upserts parents
first, all deletes children first, one commit. -/
namespace Replicare.FkAtomic
open Engine Relations Consume Coalesce Stored Rounds FkDrain FkPlan FkProgress List

/- A constraint error the retry may resolve, or one that halts. -/
inductive Fault where
  | transient
  | halt
  deriving DecidableEq, Repr

structure Result where
  state : State
  total : Nat
  fault : Option Fault

def Outcome.result (o : Outcome) : Result := ⟨o.state,o.total,if o.transient then some .transient else none⟩

def immediate (dialect : Dialect) (fks : List ForeignKey) : List ForeignKey :=
  match dialect with
  | .postgres => fks.filter fun fk => !fk.deferrable
  | .mysql => []

/- An orphan that MySQL finds before the commit is not retried. -/
def commitFault : Dialect → Fault
  | .postgres => .transient
  | .mysql => .halt

def Job.checking (job : Job) (fks : List ForeignKey) : Job := { job with fks := fks }

def statement (job : Job) (b : Base) (e : Bool × Work) : Option Base :=
  if e.1 then perTableUpsert job b e.2 else deleteAbsent job b e.2

def applyAtomic (dialect : Dialect) (job : Job) (work : List Work) (b : Base) : Option Base :=
  ((work.map (Prod.mk true)++work.reverse.map (Prod.mk false)).foldlM
    (statement (Job.checking job (immediate dialect job.fks))) b).bind (accept job.fks)

def drainAtomic (dialect : Dialect) (job : Job) (s : State) : Result :=
  let work := gatherWork job s.queue
  if work = [] then ⟨s,0,none⟩
  else
    match applyAtomic dialect job work s.target with
    | none => ⟨s,0,some (commitFault dialect)⟩
    | some b => ⟨⟨b,work.foldl (confirmWork job) s.queue⟩,(work.map fun w => w.ids.length).sum,none⟩

def drainComponentPool (dialect : Dialect) (cyclic : Bool) (job : Job) (arrange : Nat → Nat → List Nat) (s : State) : Result :=
  if !cyclic then Outcome.result (drainAcyclic job arrange s)
  else if dialect = .postgres ∧ ∃ r ∈ job.tables, job.cyclicCols r ≠ [] then Outcome.result (drainCyclicNullFill job arrange s)
  else drainAtomic dialect job s

def retrying (drain : State → Result) : Nat → State → Result
  | 0, s => ⟨s,0,some .halt⟩
  | attempts+1, s =>
      if (drain s).fault = some .transient then
        { retrying drain attempts (drain s).state with
          total := (drain s).total+(retrying drain attempts (drain s).state).total }
      else drain s

def maxAttempts : Nat := 5

def drainComponentRetrying (dialect : Dialect) (cyclic : Bool) (job : Job) (arrange : Nat → Nat → List Nat) (s : State) : Result :=
  retrying (drainComponentPool dialect cyclic job arrange) maxAttempts s

theorem retryingSame {drain} (clean : ∀ s, (drain s).fault ≠ none → (drain s).state = s) (attempts s) :
    (retrying drain (attempts+1) s).state = (drain s).state := by
  induction attempts with
  | zero =>
    simp only [retrying]
    split <;> rfl
  | succ attempts ih =>
    rw [retrying]
    split
    · rename_i failed
      have same := clean s (by rw [failed]; exact Option.some_ne_none _)
      show (retrying drain (attempts+1) (drain s).state).state = _
      rw [same,ih,same]
    · rfl

theorem atomicClean (dialect job s) (failed : (drainAtomic dialect job s).fault ≠ none) :
    (drainAtomic dialect job s).state = s := by
  unfold drainAtomic at failed ⊢
  by_cases idle : gatherWork job s.queue = []
  · simp [idle]
  · cases done : applyAtomic dialect job (gatherWork job s.queue) s.target with
    | none => simp [idle,done]
    | some b => simp [idle,done] at failed

section Cuts
variable (job : Job) (s : State)

abbrev Moved := Finset (TableRef × KeyValues)

def mix (m : Moved) : Tables := fun r k => if (r,k) ∈ m then view job.source r k else view s.target r k

def statementKeys (n : Nat) (e : Bool × TableRef) : Moved :=
  (((sliceKeys job s e.2 n).filter fun k => (view job.source e.2 k).isSome == e.1).map (Prod.mk e.2)).toFinset

def live (n : Nat) : List TableRef := job.tables.filter fun r => decide (n < slices job s r)

def statements (n : Nat) : List (Bool × TableRef) := (live job s n).map (Prod.mk true)++(live job s n).reverse.map (Prod.mk false)

def moved (l : List Moved) : Moved := l.foldr (fun a b => a ∪ b) ∅

def movedBy (n i : Nat) : Moved := moved (((statements job s n).take i).map (statementKeys job s n))

def before : Nat → Moved
  | 0 => ∅
  | n+1 => before n ∪ movedBy job s n (statements job s n).length

def CutHolds (dialect : Dialect) (n : Nat) : Prop :=
  (∀ i < (statements job s n).length, Consistent (immediate dialect job.fks) (mix job s (before job s n ∪ movedBy job s n (i+1)))) ∧
    Consistent job.fks (mix job s (before job s (n+1)))

structure At (t : State) (n : Nat) : Prop where
  target : view t.target = mix job s (before job s n)
  queue : Remains job s t fun _ => n

end Cuts

variable {job : Job} {s t : State} {m : Moved} {b : Base} {n : Nat}

theorem memStatementKeys {e r k} : (r,k) ∈ statementKeys job s n e ↔
    r = e.2 ∧ k ∈ sliceKeys job s e.2 n ∧ (view job.source e.2 k).isSome = e.1 := by
  simp only [statementKeys,mem_toFinset,mem_map,mem_filter,beq_iff_eq,Prod.mk.injEq]
  constructor
  · rintro ⟨k',⟨known,present⟩,rfl,rfl⟩
    exact ⟨rfl,known,present⟩
  · rintro ⟨rfl,known,present⟩
    exact ⟨k,⟨known,present⟩,rfl,rfl⟩

theorem statementMix (fks) {e} (held : view b = mix job s m)
    (read : e.2.distinct = sliceKeys job s e.2.ref n) : ∃ c, statement (Job.checking job fks) b e = accept fks c ∧
      view c = mix job s (m ∪ statementKeys job s n (e.1,e.2.ref)) := by
  obtain ⟨upserts,w⟩ := e
  cases upserts with
  | true =>
    refine ⟨upsert b w.ref (rereadCurrent job w),rfl,?_⟩
    funext r k
    have read : w.distinct = sliceKeys job s w.ref n := read
    rw [viewUpsert,held,rereadLookup,read]
    simp only [mix,Finset.mem_union,memStatementKeys]
    by_cases same : r = w.ref
    · subst same
      by_cases mem : k ∈ sliceKeys job s w.ref n
      · cases row : view job.source w.ref k <;> simp [mem]
      · simp [mem]
    · simp [same]
  | false =>
    refine ⟨erase b w.ref fun k => decide (k ∈ w.distinct) && !decide (k ∈ (rereadCurrent job w).map Prod.fst),rfl,?_⟩
    funext r k
    have read : w.distinct = sliceKeys job s w.ref n := read
    rw [viewErase,if_congr (and_congr_right fun _ => absentIff w k) rfl rfl,held,read]
    simp only [mix,Finset.mem_union,memStatementKeys]
    by_cases same : r = w.ref
    · subst same
      by_cases mem : k ∈ sliceKeys job s w.ref n
      · cases row : view job.source w.ref k <;> simp [mem]
      · simp [mem]
    · simp [same]

theorem foldMix (fks) {es : List (Bool × Work)} (read : ∀ e ∈ es, e.2.distinct = sliceKeys job s e.2.ref n)
    (held : view b = mix job s m) :
    (∀ i < es.length, Consistent fks (mix job s (m ∪ moved ((es.take (i+1)).map fun e => statementKeys job s n (e.1,e.2.ref))))) ∧
        (∃ c, es.foldlM (statement (Job.checking job fks)) b = some c ∧
          view c = mix job s (m ∪ moved (es.map fun e => statementKeys job s n (e.1,e.2.ref)))) ∨
      ¬(∀ i < es.length, Consistent fks (mix job s (m ∪ moved ((es.take (i+1)).map fun e => statementKeys job s n (e.1,e.2.ref))))) ∧
        es.foldlM (statement (Job.checking job fks)) b = none := by
  induction es generalizing b m with
  | nil => exact .inl ⟨fun i none => absurd none (Nat.not_lt_zero i),b,rfl,by simpa [moved] using held⟩
  | cons e es ih =>
    obtain ⟨c,made,seen⟩ := statementMix fks held (read e mem_cons_self)
    have first : ∀ l : List Moved, m ∪ moved (statementKeys job s n (e.1,e.2.ref)::l) =
        m ∪ statementKeys job s n (e.1,e.2.ref) ∪ moved l := fun l => (Finset.union_assoc _ _ _).symm
    simp only [foldlM_cons,made,take_succ_cons,map_cons,first]
    by_cases fits : Consistent fks (view c)
    · rw [acceptTaken fits]
      have later := ih (fun e mem => read e (mem_cons_of_mem _ mem)) seen
      have shifted : (∀ i < (e::es).length, Consistent fks (mix job s (m ∪ statementKeys job s n (e.1,e.2.ref) ∪
          moved ((es.take i).map fun e => statementKeys job s n (e.1,e.2.ref))))) ↔
          ∀ i < es.length, Consistent fks (mix job s (m ∪ statementKeys job s n (e.1,e.2.ref) ∪
            moved ((es.take (i+1)).map fun e => statementKeys job s n (e.1,e.2.ref)))) := by
        refine ⟨fun all i below => all (i+1) (Nat.succ_lt_succ below),fun all i below => ?_⟩
        cases i with
        | zero =>
          rw [take_zero,map_nil,moved,foldr_nil,Finset.union_empty,← seen]
          exact fits
        | succ i => exact all i (Nat.lt_of_succ_lt_succ below)
      rw [shifted]
      exact later
    · rw [acceptRefused fits]
      refine .inr ⟨fun all => fits ?_,rfl⟩
      have now := all 0 (Nat.succ_pos _)
      rwa [take_zero,map_nil,moved,foldr_nil,Finset.union_empty,← seen] at now

section Passes
variable (limited : 0 < job.batch) (dialect : Dialect)

theorem atStart : At job s s 0 where
  target := by
    funext r k
    simp [mix,before]
  queue := fun r _ => by simp

include limited in
theorem remainsPast (remains : Remains job s t fun _ => n) {r} (known : r ∈ job.tables) (past : r ∉ live job s n) :
    readDirtyKeys (t.queue r) job.id 0 = (readDirtyKeys (s.queue r) job.id 0).drop ((n+1)*job.batch.toNat) := by
  have beyond : ¬n < slices job s r := fun below => past (mem_filter.mpr ⟨known,decide_eq_true below⟩)
  rw [sliceIff limited,not_lt] at beyond
  rw [remains r known,drop_eq_nil_iff.mpr beyond,drop_eq_nil_iff.mpr (by rw [Nat.succ_mul]; omega)]

include limited in
theorem gatherLive (at_ : At job s t n) : (gatherWork job t.queue).map Work.ref = live job s n := gatherNames limited at_.queue

include limited in
theorem applyCut (at_ : At job s t n) :
    (CutHolds job s dialect n ∧ ∃ c, applyAtomic dialect job (gatherWork job t.queue) t.target = some c ∧
        view c = mix job s (before job s (n+1))) ∨
      ¬CutHolds job s dialect n ∧ applyAtomic dialect job (gatherWork job t.queue) t.target = none := by
  have named : ((gatherWork job t.queue).map (Prod.mk true)++(gatherWork job t.queue).reverse.map (Prod.mk false)).map
      (fun e => (e.1,e.2.ref)) = statements job s n := by
    unfold statements
    rw [← gatherLive limited at_]
    simp [Function.comp_def]
  have keys : ∀ i, (((gatherWork job t.queue).map (Prod.mk true)++(gatherWork job t.queue).reverse.map (Prod.mk false)).take i).map
      (fun e => statementKeys job s n (e.1,e.2.ref)) = ((statements job s n).take i).map (statementKeys job s n) := by
    intro i
    rw [← named,← map_take,List.map_map]
    rfl
  have count := congrArg List.length named
  rw [length_map] at count
  have whole := keys (statements job s n).length
  rw [take_of_length_le (le_of_eq count)] at whole
  have read : ∀ e ∈ (gatherWork job t.queue).map (Prod.mk true)++(gatherWork job t.queue).reverse.map (Prod.mk false),
      e.2.distinct = sliceKeys job s e.2.ref n := by
    intro e mem
    have inside : e.2 ∈ gatherWork job t.queue := by
      rcases mem_append.mp mem with up | down
      · obtain ⟨w,known,rfl⟩ := mem_map.mp up
        exact known
      · obtain ⟨w,known,rfl⟩ := mem_map.mp down
        exact mem_reverse.mp known
    exact (gatherSource limited at_.queue inside).2.2
  have statements_ := foldMix (immediate dialect job.fks) read at_.target
  simp only [keys,count,whole] at statements_
  rcases statements_ with ⟨each,c,made,seen⟩ | ⟨refused,failed⟩
  · have after : before job s n ∪ moved (((statements job s n).take (statements job s n).length).map (statementKeys job s n)) =
        before job s (n+1) := rfl
    rw [after] at seen
    unfold applyAtomic
    rw [made,Option.bind_some]
    by_cases fits : Consistent job.fks (view c)
    · exact .inl ⟨⟨each,seen ▸ fits⟩,c,acceptTaken fits,seen⟩
    · exact .inr ⟨fun holds => fits (seen.symm ▸ holds.2),acceptRefused fits⟩
  · refine .inr ⟨fun holds => refused holds.1,?_⟩
    unfold applyAtomic
    rw [failed]
    rfl

include limited in
theorem atomicMoves (at_ : At job s t n) (holds : CutHolds job s dialect n) : At job s (drainAtomic dialect job t).state (n+1) := by
  have names := gatherLive limited at_
  unfold drainAtomic
  by_cases idle : gatherWork job t.queue = []
  · rw [idle] at names
    have still : before job s (n+1) = before job s n := by
      simp [before,movedBy,statements,← names,moved]
    rw [if_pos idle]
    refine ⟨by rw [still]; exact at_.target,fun r known => ?_⟩
    exact remainsPast limited at_.queue known (by simp [← names])
  · rcases applyCut limited dialect at_ with ⟨_,c,made,seen⟩ | ⟨broken,_⟩
    · simp only [if_neg idle,made]
      refine ⟨seen,fun r known => ?_⟩
      have read : ∀ w ∈ gatherWork job t.queue, w = workOf job t.queue w.ref :=
        fun w mem => (gatherSource limited at_.queue mem).2.1
      have confirmed := remainsConfirm limited at_.queue read c r known
      rw [names] at confirmed
      by_cases front : r ∈ live job s n
      · simpa only [if_pos front] using confirmed
      · simp only [if_neg front] at confirmed
        rw [confirmed]
        exact (at_.queue r known).symm.trans (remainsPast limited at_.queue known front)
    · exact absurd holds broken

include limited in
theorem atomicStays (at_ : At job s t n) (broken : ¬CutHolds job s dialect n) : (drainAtomic dialect job t).state = t := by
  unfold drainAtomic
  by_cases idle : gatherWork job t.queue = []
  · simp [idle]
  · rcases applyCut limited dialect at_ with ⟨holds,_⟩ | ⟨_,failed⟩
    · exact absurd holds broken
    · simp [idle,failed]

theorem cutBehind (held : Consistent job.fks (mix job s (before job s n))) (ended : live job s n = []) :
    CutHolds job s dialect n := by
  have none : statements job s n = [] := by simp [statements,ended]
  refine ⟨fun i below => ?_,?_⟩
  · rw [none] at below
    exact absurd below (Nat.not_lt_zero i)
  · simpa [before,movedBy,none,moved] using held

theorem memMoved {l x} : x ∈ moved l ↔ ∃ a ∈ l, x ∈ a := by
  induction l with
  | nil => simp [moved]
  | cons a l ih =>
    have next : x ∈ moved (a::l) ↔ x ∈ a ∨ x ∈ moved l := Finset.mem_union
    rw [next,ih]
    simp

theorem memBefore {r k} : (r,k) ∈ before job s n ↔ r ∈ job.tables ∧ ∃ i < n, i < slices job s r ∧ k ∈ sliceKeys job s r i := by
  induction n with
  | zero => simp [before]
  | succ n ih =>
    have batch : (r,k) ∈ movedBy job s n (statements job s n).length ↔ r ∈ live job s n ∧ k ∈ sliceKeys job s r n := by
      rw [movedBy,take_length,memMoved]
      simp only [statements,map_append,List.map_map,mem_append,mem_map,mem_reverse,Function.comp]
      constructor
      · rintro ⟨_,⟨r',known,rfl⟩ | ⟨r',known,rfl⟩,mem⟩
        · obtain ⟨rfl,key,_⟩ := memStatementKeys.mp mem
          exact ⟨known,key⟩
        · obtain ⟨rfl,key,_⟩ := memStatementKeys.mp mem
          exact ⟨known,key⟩
      · rintro ⟨known,key⟩
        cases present : (view job.source r k).isSome with
        | true => exact ⟨_,.inl ⟨r,known,rfl⟩,memStatementKeys.mpr ⟨rfl,key,present⟩⟩
        | false => exact ⟨_,.inr ⟨r,known,rfl⟩,memStatementKeys.mpr ⟨rfl,key,present⟩⟩
    rw [before,Finset.mem_union,ih,batch,live,mem_filter,decide_eq_true_eq]
    constructor
    · rintro (⟨known,i,below,inside,key⟩ | ⟨⟨known,inside⟩,key⟩)
      · exact ⟨known,i,Nat.lt_succ_of_lt below,inside,key⟩
      · exact ⟨known,n,Nat.lt_succ_self n,inside,key⟩
    · rintro ⟨known,i,below,inside,key⟩
      rcases Nat.lt_succ_iff_lt_or_eq.mp below with earlier | rfl
      · exact .inl ⟨known,i,earlier,inside,key⟩
      · exact .inr ⟨⟨known,inside⟩,key⟩

theorem liveMono {i j} (below : i ≤ j) (none : live job s i = []) : live job s j = [] := by
  simp only [live,filter_eq_nil_iff,decide_eq_true_eq,not_lt] at none ⊢
  exact fun r known => (none r known).trans below

include limited in
theorem drainedCut (at_ : At job s t n) : Drained job t ↔ live job s n = [] ∧ Offered job s := by
  have empty := emptyIff limited at_.queue
  constructor
  · intro drained
    refine ⟨empty.mp fun r known => (drained r known).1,fun r known k differs => ?_⟩
    have reached := (drained r known).2 k
    rw [at_.target] at reached
    by_cases moved : (r,k) ∈ before job s n
    · obtain ⟨_,i,_,inside,key⟩ := memBefore.mp moved
      exact ⟨i,inside,key⟩
    · rw [mix,if_neg moved] at reached
      exact absurd reached differs
  · rintro ⟨ended,offered⟩ r known
    refine ⟨empty.mpr ended r known,fun k => ?_⟩
    rw [at_.target,mix]
    by_cases differs : view s.target r k = view job.source r k
    · rw [differs,ite_self]
    · obtain ⟨i,inside,key⟩ := offered r known k differs
      have past : ¬n < slices job s r := by
        simp only [live,filter_eq_nil_iff,decide_eq_true_eq] at ended
        exact ended r known
      rw [if_pos (memBefore.mpr ⟨known,i,by omega,inside,key⟩)]

end Passes

def AtomicPath (dialect : Dialect) (job : Job) : Prop := dialect = .mysql ∨ ∀ r ∈ job.tables, job.cyclicCols r = []
instance (dialect job) : Decidable (AtomicPath dialect job) :=
  inferInstanceAs (Decidable (dialect = .mysql ∨ ∀ r ∈ job.tables, job.cyclicCols r = []))

theorem retryingAtomic {dialect} (path : AtomicPath dialect job) (arrange t) :
    (drainComponentRetrying dialect true job arrange t).state = (drainAtomic dialect job t).state := by
  have same : drainComponentPool dialect true job arrange = drainAtomic dialect job := by
    funext t
    unfold drainComponentPool
    have other : ¬(dialect = .postgres ∧ ∃ r ∈ job.tables, job.cyclicCols r ≠ []) := by
      rintro ⟨rfl,r,known,filled⟩
      rcases path with wrong | plain
      · cases wrong
      · exact filled (plain r known)
    simp [other]
  unfold drainComponentRetrying
  rw [same]
  exact retryingSame (atomicClean dialect job) 4 t

theorem atomicDrainsIff {dialect : Dialect} {arrange : Nat → Nat → Nat → List Nat} (path : AtomicPath dialect job)
    (limited : 0 < job.batch) (initial : Consistent job.fks (view s.target)) :
    (∃ n, Drained job (passes (fun n t => (drainComponentRetrying dialect true job (arrange n) t).state) s n)) ↔
      (∀ n, CutHolds job s dialect n) ∧ Offered job s := by
  simp only [retryingAtomic path]
  have start : Consistent job.fks (mix job s (before job s 0)) := by rw [← atStart.target]; exact initial
  by_cases holds : ∀ n, CutHolds job s dialect n
  · have reached : ∀ n, At job s (passes (fun _ t => (drainAtomic dialect job t).state) s n) n := by
      intro n
      induction n with
      | zero => exact atStart
      | succ n ih => exact atomicMoves limited dialect ih (holds n)
    constructor
    · rintro ⟨n,drained⟩
      exact ⟨holds,((drainedCut limited (reached n)).mp drained).2⟩
    · rintro ⟨_,offered⟩
      refine ⟨(job.tables.map (slices job s)).sum,(drainedCut limited (reached _)).mpr ⟨?_,offered⟩⟩
      simp only [live,filter_eq_nil_iff,decide_eq_true_eq,not_lt]
      exact fun r known => single_le_sum (fun _ _ => Nat.zero_le _) _ (mem_map_of_mem known)
  · -- the passes stop before the first cut that does not hold
    obtain ⟨first,broken,least⟩ : ∃ n, ¬CutHolds job s dialect n ∧ ∀ i < n, CutHolds job s dialect i := by
      classical
      have some : ∃ n, ¬CutHolds job s dialect n := not_forall.mp holds
      exact ⟨Nat.find some,Nat.find_spec some,fun i below => not_not.mp (Nat.find_min some below)⟩
    have consistent : Consistent job.fks (mix job s (before job s first)) := by
      cases first with
      | zero => exact start
      | succ n => exact (least n (Nat.lt_succ_self n)).2
    have open_ : live job s first ≠ [] := fun ended => broken (cutBehind dialect consistent ended)
    have reached : ∀ n, ∃ i ≤ first, At job s (passes (fun _ t => (drainAtomic dialect job t).state) s n) i := by
      intro n
      induction n with
      | zero => exact ⟨0,Nat.zero_le _,atStart⟩
      | succ n ih =>
        obtain ⟨i,bound,at_⟩ := ih
        rcases Nat.eq_or_lt_of_le bound with rfl | below
        · exact ⟨i,le_refl i,by rw [passes,atomicStays limited dialect at_ broken]; exact at_⟩
        · exact ⟨i+1,below,atomicMoves limited dialect at_ (least i below)⟩
    constructor
    · rintro ⟨n,drained⟩
      obtain ⟨i,bound,at_⟩ := reached n
      exact absurd (liveMono bound ((drainedCut limited at_).mp drained).1) open_
    · exact fun both => absurd both.1 holds

def categories : TableRef := ⟨"shop","categories"⟩
def parentKey : ForeignKey := ⟨"categories_parent_fk",categories,["parent_id"],categories,["id"],true⟩

def nested : Job where
  fks := [parentKey]
  cyclicCols := fun _ => []
  source := listed [(categories,[([some [1]],rowOf [("id",[1])]),([some [2]],rowOf [("id",[2]),("parent_id",[1])])])]
  tables := [categories]
  id := "replica"
  batch := 1

def nestedQueue (first second : KeyValues) : Queues := fun _ =>
  ⟨[⟨1,.insert,first,0⟩,⟨2,.insert,second,0⟩],∅,by simp⟩

def parentFirst : State := ⟨listed [],nestedQueue [some [1]] [some [2]]⟩

theorem parentFirstDrained : Drained nested
    (passes (fun _ t => (drainComponentRetrying .mysql true nested topoOrder t).state) parentFirst 2) := by
  intro r known
  cases mem_singleton.mp known
  refine ⟨by decide +kernel,fun k => ?_⟩
  change lookup k [([some [2]],rowOf [("id",[2]),("parent_id",[1])]),([some [1]],rowOf [("id",[1])])] =
    lookup k [([some [1]],rowOf [("id",[1])]),([some [2]],rowOf [("id",[2]),("parent_id",[1])])]
  by_cases first : k = [some [1]]
  · cases first
    rfl
  · have other : (k == [some [1]]) = false := beq_false_of_ne first
    simp only [lookup_cons,other]

theorem atomicDrainsIffNested :
    (∃ n, Drained nested (passes (fun _ t => (drainComponentRetrying .mysql true nested topoOrder t).state) parentFirst n)) ∧
      (∀ n, CutHolds nested parentFirst .mysql n) ∧ Offered nested parentFirst :=
  ⟨⟨2,parentFirstDrained⟩,(atomicDrainsIff (by decide) (by decide) (by decide)).mp ⟨2,parentFirstDrained⟩⟩

def childFirst : State := ⟨listed [],nestedQueue [some [2]] [some [1]]⟩

theorem childFirstStays (dialect) : (drainAtomic dialect nested childFirst).state = childFirst := by
  have gathered : gatherWork nested childFirst.queue = [⟨categories,[[some [2]]],[1]⟩] := by decide
  have refused : applyAtomic dialect nested [⟨categories,[[some [2]]],[1]⟩] childFirst.target = none := by
    cases dialect <;> rfl
  simp [drainAtomic,gathered,refused]

theorem childFirstUndrained (dialect) : AtomicPath dialect nested ∧
    ∀ n, ¬Drained nested (passes (fun _ t => (drainComponentRetrying dialect true nested topoOrder t).state) childFirst n) := by
  have path : AtomicPath dialect nested := .inr fun _ _ => rfl
  refine ⟨path,fun n drained => ?_⟩
  simp only [retryingAtomic path] at drained
  rw [passesStay fun _ => childFirstStays dialect] at drained
  have queue := (drained categories mem_cons_self).1
  revert queue
  decide

theorem childFirstNeverCommits : 0 < nested.batch ∧ Consistent nested.fks (view childFirst.target) ∧
    Consistent nested.fks (view nested.source) ∧ Covered nested childFirst ∧
    (AtomicPath .postgres nested ∧
      ∀ n, ¬Drained nested (passes (fun _ t => (drainComponentRetrying .postgres true nested topoOrder t).state) childFirst n)) ∧
    (AtomicPath .mysql nested ∧
      ∀ n, ¬Drained nested (passes (fun _ t => (drainComponentRetrying .mysql true nested topoOrder t).state) childFirst n)) :=
  ⟨by decide,by decide,by decide,coveredOfListed (by decide),childFirstUndrained .postgres,childFirstUndrained .mysql⟩

end Replicare.FkAtomic
