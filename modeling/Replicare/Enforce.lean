import Replicare.Purge

/-! The retention pass over the tables of one component: purge every table, then mark the
sacrificed targets in the state store. -/
namespace Replicare.Enforce
open Engine Consume Purge List Function

variable {K : Type*}

structure Component where
  tables : List TableRef
  distinct : tables.Nodup

structure Control (K : Type*) where
  queue : TableRef → Queue K
  cursor : TargetID → TableRef → Cursor
  events : List TargetID

structure Sweep (K : Type*) where
  control : Control K
  purged : List (TableRef × Nat)
  reseedSet : List TargetID

inductive Write where
  | mark (target : TargetID) (table : TableRef)
  | record (target : TargetID)
  deriving DecidableEq, Repr

def Control.put (s : Control K) (table : TableRef) (q : Queue K) : Control K :=
  { s with queue := update s.queue table q }

def write (s : Control K) : Write → Control K
  | .mark target table =>
      let marked := { s.cursor target table with needsReseed := true, phase := .initialCopy }
      { s with cursor := update s.cursor target (update (s.cursor target) table marked) }
  | .record target => { s with events := s.events++[target] }

def writes (reseeded : List TargetID) (tables : List TableRef) : List Write :=
  reseeded.flatMap fun tg => tables.map (.mark tg ·)++[.record tg]

section Pass
variable (dialect : Dialect) (targets : List TargetID) (ret : RetentionPolicy)

def purgeTable (obs : TableRef → Probe) (w : Sweep K) (table : TableRef) : Sweep K :=
  let done := purge dialect (w.control.queue table) targets ret (obs table)
  { control := w.control.put table done.1
    purged := if 0 < done.2.deltasPurged then w.purged++[(table,done.2.deltasPurged)] else w.purged
    reseedSet := w.reseedSet++done.2.targetsReseeded }

def sweep (obs : TableRef → Probe) (s : Control K) (tables : List TableRef) : Sweep K :=
  tables.foldl (purgeTable dialect targets ret obs) ⟨s,[],[]⟩

def reseeded (w : Sweep K) : List TargetID := w.reseedSet.dedup.insertionSort (· ≤ ·)

structure EnforceResult where
  reseeded : List TargetID
  purged : List (TableRef × Nat)

def enforce (c : Component) (obs : TableRef → Probe) (s : Control K) : Control K × EnforceResult :=
  let swept := sweep dialect targets ret obs s c.tables
  ((writes (reseeded swept) c.tables).foldl write swept.control,⟨reseeded swept,swept.purged⟩)

inductive Stop where
  | purging (done : Nat) (reset : Bool) (batches : Nat)
  | marking (writes : Nat)
  deriving DecidableEq, Repr

def partialPurge (q : Queue K) (p : Probe) (reset : Bool) (batches : Nat) : Queue K :=
  let reseed := overCapTargets dialect q targets ret p
  if reseed.isEmpty then (deleteBatch targets defaultPurgeBatch)^[batches] q
  else if reset then
    (deleteBatch (subtractTargets targets reseed) defaultPurgeBatch)^[batches] (resetTrack q reseed)
  else q

def enforceUntil (c : Component) (obs : TableRef → Probe) (s : Control K) : Stop → Control K
  | .purging done reset batches =>
      let swept := (sweep dialect targets ret obs s (c.tables.take done)).control
      match c.tables[done]? with
      | none => swept
      | some table => swept.put table
          (partialPurge dialect targets ret (swept.queue table) (obs table) reset batches)
  | .marking n =>
      let swept := sweep dialect targets ret obs s c.tables
      ((writes (reseeded swept) c.tables).take n).foldl write swept.control

end Pass

inductive Activity (K : Type*) where
  | capture (table : TableRef) (delta : Delta K)
  | confirm (table : TableRef) (target : TargetID) (ids : List DeltaID)

def act (s : Control K) : Activity K → Control K
  | .capture table d =>
      if fresh : Fresh (s.queue table) d.id then s.put table (Consume.capture (s.queue table) d fresh) else s
  | .confirm table target ids => s.put table (confirmConsumed (s.queue table) target ids)

def Lost (tables : List TableRef) (before after : Control K) (target : TargetID) : Prop :=
  ∃ t ∈ tables, ∃ d ∈ (before.queue t).deltas, d ∉ (after.queue t).deltas ∧ ¬Consumed (before.queue t) target d.id

def Marked (tables : List TableRef) (s : Control K) (target : TargetID) : Prop :=
  ∀ t ∈ tables, (s.cursor target t).needsReseed = true

def Detected (dialect : Dialect) (targets : List TargetID) (ret : RetentionPolicy) (tables : List TableRef)
    (obs : TableRef → Probe) (s : Control K) (target : TargetID) : Prop :=
  ∃ t ∈ tables, target ∈ overCapTargets dialect (s.queue t) targets ret (obs t)

section Spec
variable {dialect : Dialect} {targets : List TargetID} {ret : RetentionPolicy} {obs : TableRef → Probe}

theorem sweepSpec (dialect targets ret obs) {tables : List TableRef} (distinct : tables.Nodup) (w : Sweep K) :
    let done := tables.foldl (purgeTable dialect targets ret obs) w
    done.control.cursor = w.control.cursor ∧
    (∀ t ∈ tables, done.control.queue t = (purge dialect (w.control.queue t) targets ret (obs t)).1) ∧
    (∀ t ∉ tables, done.control.queue t = w.control.queue t) ∧
    done.reseedSet = w.reseedSet++tables.flatMap fun t => overCapTargets dialect (w.control.queue t) targets ret (obs t) := by
  induction tables generalizing w with
  | nil => simp
  | cons table rest ih =>
    obtain ⟨apart,distinct⟩ := nodup_cons.mp distinct
    have first : ∀ t, t ≠ table → (purgeTable dialect targets ret obs w table).control.queue t = w.control.queue t := by
      intro t other
      simp [purgeTable,Control.put,other]
    have own : (purgeTable dialect targets ret obs w table).control.queue table =
        (purge dialect (w.control.queue table) targets ret (obs table)).1 := by
      simp [purgeTable,Control.put]
    have others : ∀ t ∈ rest, t ≠ table := fun t mem same => apart (same ▸ mem)
    obtain ⟨cursor,queue,frame,reseed⟩ := ih distinct (purgeTable dialect targets ret obs w table)
    simp only [foldl_cons]
    refine ⟨cursor,?_,?_,?_⟩
    · intro t mem
      rcases mem_cons.mp mem with rfl | later
      · rw [frame _ apart,own]
      · rw [queue t later,first t (others t later)]
    · intro t out
      rw [mem_cons,not_or] at out
      rw [frame t out.2,first t out.1]
    · rw [reseed,flatMap_cons,← append_assoc]
      refine congrArg₂ (·++·) (by simp only [purgeTable,purgeReseeds]) (flatMap_congr fun t mem => ?_)
      rw [first t (others t mem)]

theorem writeFold (ws : List Write) (s : Control K) :
    (ws.foldl write s).queue = s.queue ∧ ∀ tg t, ((ws.foldl write s).cursor tg t).needsReseed = true ↔
      (s.cursor tg t).needsReseed = true ∨ .mark tg t ∈ ws := by
  induction ws generalizing s with
  | nil => simp
  | cons w rest ih =>
    obtain ⟨queue,cursor⟩ := ih (write s w)
    simp only [foldl_cons]
    refine ⟨?_,?_⟩
    · rw [queue]
      cases w <;> rfl
    · intro tg t
      rw [cursor tg t]
      cases w with
      | record target => simp [write]
      | mark target table =>
        by_cases here : tg = target ∧ t = table
        · obtain ⟨rfl,rfl⟩ := here
          simp [write]
        · have same : ((write s (.mark target table)).cursor tg t).needsReseed = (s.cursor tg t).needsReseed := by
            by_cases first : tg = target
            · subst first
              have second : t ≠ table := fun eq => here ⟨rfl,eq⟩
              simp [write,second]
            · simp [write,first]
          have fresh : ¬(Write.mark tg t = .mark target table) := by
            simp only [Write.mark.injEq]
            exact here
          simp [same,fresh]

theorem markedWrite {reseeded tables tg t} : .mark tg t ∈ writes reseeded tables ↔ tg ∈ reseeded ∧ t ∈ tables := by
  simp only [writes,mem_flatMap,mem_append,mem_map,mem_singleton,Write.mark.injEq,reduceCtorEq,
    or_false]
  refine ⟨fun found => ?_,fun both => ⟨tg,both.1,t,both.2,rfl,rfl⟩⟩
  obtain ⟨_,hu,_,hv,rfl,rfl⟩ := found
  exact ⟨hu,hv⟩

theorem enforceQueue (c : Component) (s : Control K) : (∀ t ∈ c.tables, (enforce dialect targets ret c obs s).1.queue t =
      (purge dialect (s.queue t) targets ret (obs t)).1) ∧
    ∀ t ∉ c.tables, (enforce dialect targets ret c obs s).1.queue t = s.queue t := by
  obtain ⟨_,queue,frame,_⟩ := sweepSpec dialect targets ret obs c.distinct (⟨s,[],[]⟩ : Sweep K)
  unfold enforce
  dsimp only
  rw [(writeFold _ _).1]
  exact ⟨queue,frame⟩

theorem enforceCursor (c : Component) (s : Control K) (tg t) :
    ((enforce dialect targets ret c obs s).1.cursor tg t).needsReseed = true ↔
      (s.cursor tg t).needsReseed = true ∨ Detected dialect targets ret c.tables obs s tg ∧ t ∈ c.tables := by
  obtain ⟨cursor,_,_,reseed⟩ := sweepSpec dialect targets ret obs c.distinct (⟨s,[],[]⟩ : Sweep K)
  unfold enforce
  dsimp only
  rw [(writeFold _ _).2,markedWrite,reseeded,mem_insertionSort,mem_dedup]
  unfold sweep
  rw [cursor,reseed]
  simp [Detected]

theorem enforceLost {c : Component} {s : Control K} {tg} (mem : tg ∈ targets)
    (lost : Lost c.tables s (enforce dialect targets ret c obs s).1 tg) :
    Detected dialect targets ret c.tables obs s tg := by
  obtain ⟨t,ht,d,before,after,open_⟩ := lost
  rw [(enforceQueue c s).1 t ht] at after
  rcases purgeDeletes before after mem with consumed | beyond
  · exact absurd consumed open_
  · exact ⟨t,ht,beyond⟩

theorem enforceMarked {c : Component} {s : Control K} {tg} : Marked c.tables (enforce dialect targets ret c obs s).1 tg ↔
      Marked c.tables s tg ∨ Detected dialect targets ret c.tables obs s tg := by
  refine ⟨fun marked => ?_,fun either t ht => ?_⟩
  · by_cases found : Detected dialect targets ret c.tables obs s tg
    · exact .inr found
    · refine .inl fun t ht => ?_
      rcases (enforceCursor c s tg t).mp (marked t ht) with before | now
      · exact before
      · exact absurd now.1 found
  · rcases either with before | found
    · exact (enforceCursor c s tg t).mpr (.inl (before t ht))
    · exact (enforceCursor c s tg t).mpr (.inr ⟨found,ht⟩)

theorem actCursor (between : List (Activity K)) (s : Control K) : (between.foldl act s).cursor = s.cursor := by
  induction between generalizing s with
  | nil => rfl
  | cons a rest ih =>
    rw [foldl_cons,ih]
    cases a with
    | capture table d =>
      simp only [act]
      split <;> rfl
    | confirm table target ids => rfl

theorem actQueue (between : List (Activity K)) {s s' : Control K} (same : s.queue = s'.queue) :
    (between.foldl act s).queue = (between.foldl act s').queue := by
  induction between generalizing s s' with
  | nil => exact same
  | cons a rest ih =>
    refine ih ?_
    cases a with
    | confirm table target ids => simp only [act,Control.put,same]
    | capture table d =>
      simp only [act,same]
      split
      · simp only [Control.put,same]
      · exact same

end Spec

/- What is gone at the stop of the `ids` that the purge of the `i`-th table deletes, if it has
committed anything by then. -/
def Stop.deletes (i : Nat) (spared : Bool) (ids : List DeltaID) : Stop → Option (List DeltaID)
  | .marking _ => some ids
  | .purging done reset batches =>
      if i < done then some ids
      else if i = done ∧ (spared || reset) then some (ids.take (batches*defaultPurgeBatch)) else none

section Stopped
variable (targets : List TargetID) (caps : TableRef → List TargetID) (tables : List TableRef) (s : Control K) (stop : Stop)

def gone (t : TableRef) : Option (List DeltaID) :=
  if t ∈ tables then stop.deletes (tables.idxOf t) (caps t).isEmpty (freed targets (caps t) (s.queue t)) else none

def left (t : TableRef) : Queue K := (gone targets caps tables s stop t).elim (s.queue t) (without (caps t) (s.queue t))

/- The purges up to the stop have deleted a delta that the target has not consumed. -/
def Sacrificed (tg : TargetID) : Prop :=
  ∃ t ∈ tables, ∃ d ∈ unconsumed (s.queue t) tg, ∃ ids ∈ gone targets caps tables s stop t, d.id ∈ ids

/- Every cursor of the target was marked before the pass or is by the stop. -/
def Saved (tg : TargetID) : Prop :=
  ∀ t ∈ tables, (s.cursor tg t).needsReseed = true ∨
    ∃ n, stop = .marking n ∧ .mark tg t ∈ (writes ((tables.flatMap caps).dedup.insertionSort (· ≤ ·)) tables).take n

end Stopped

section Cut
variable (dialect : Dialect) (targets : List TargetID) (ret : RetentionPolicy) (obs : TableRef → Probe) (s : Control K)

def caps (t : TableRef) : List TargetID := overCapTargets dialect (s.queue t) targets ret (obs t)

theorem partialWithout (q : Queue K) (p reset batches) : partialPurge dialect targets ret q p reset batches =
    if (overCapTargets dialect q targets ret p).isEmpty || reset then without (overCapTargets dialect q targets ret p) q
      ((freed targets (overCapTargets dialect q targets ret p) q).take (batches*defaultPurgeBatch)) else q := by
  unfold partialPurge without freed
  dsimp only
  split
  · rename_i none
    rw [isEmpty_iff.mp none,(resetNone targets q).1,(resetNone targets q).2,deleteBatches]
    rfl
  · rename_i some_
    rw [Bool.eq_false_iff.mpr some_,Bool.false_or,deleteBatches]

theorem sweptQueue {tables : List TableRef} (distinct : tables.Nodup) (t) :
    (sweep dialect targets ret obs s tables).control.queue t =
      if t ∈ tables then without (caps dialect targets ret obs s t) (s.queue t)
        (freed targets (caps dialect targets ret obs s t) (s.queue t)) else s.queue t := by
  obtain ⟨_,queue,frame,_⟩ := sweepSpec dialect targets ret obs distinct (⟨s,[],[]⟩ : Sweep K)
  split
  · exact (queue t ‹_›).trans (purgeWithout ..)
  · exact frame t ‹_›

theorem stoppedQueue (c : Component) (done reset batches t) :
    (enforceUntil dialect targets ret c obs s (.purging done reset batches)).queue t =
      if c.tables[done]? = some t then partialPurge dialect targets ret
        ((sweep dialect targets ret obs s (c.tables.take done)).control.queue t) (obs t) reset batches
      else (sweep dialect targets ret obs s (c.tables.take done)).control.queue t := by
  simp only [enforceUntil]
  cases c.tables[done]? with
  | none => simp
  | some table =>
    by_cases here : table = t
    · subst here
      simp [Control.put]
    · simp [Control.put,here,Ne.symm here]

theorem untilQueue (c : Component) (stop) :
    (enforceUntil dialect targets ret c obs s stop).queue = left targets (caps dialect targets ret obs s) c.tables s stop := by
  funext t
  unfold left gone
  cases stop with
  | marking n =>
    simp only [enforceUntil,Stop.deletes]
    rw [(writeFold _ _).1,sweptQueue _ _ _ _ _ c.distinct]
    split <;> rfl
  | purging done reset batches =>
    rw [stoppedQueue,sweptQueue _ _ _ _ _ (c.distinct.sublist (take_sublist done _))]
    by_cases own : t ∈ c.tables
    · have place : c.tables[done]? = some t ↔ c.tables.idxOf t = done := by
        refine ⟨fun at_ => ?_,fun at_ => at_ ▸ getElem?_idxOf own⟩
        obtain ⟨_,rfl⟩ := List.getElem?_eq_some_iff.mp at_
        exact c.distinct.idxOf_getElem _ _
      simp only [own,place,mem_take_iff_idxOf_lt own,Stop.deletes,if_true]
      by_cases here : c.tables.idxOf t = done
      · simp only [here,lt_irrefl,if_true,if_false,true_and,partialWithout,caps]
        split <;> rfl
      · simp only [here,if_false,false_and]
        split <;> rfl
    · have early : t ∉ c.tables.take done := fun mem => own (mem_of_mem_take mem)
      have apart : c.tables[done]? ≠ some t := fun at_ => own (mem_of_getElem? at_)
      simp [own,early,apart]

theorem untilLost (c : Component) (stop tg) : Lost c.tables s (enforceUntil dialect targets ret c obs s stop) tg ↔
    Sacrificed targets (caps dialect targets ret obs s) c.tables s stop tg := by
  refine exists_congr fun t => and_congr_right fun own => exists_congr fun d => ?_
  rw [untilQueue,left,memUnconsumed,and_assoc]
  refine and_congr_right fun mem => ?_
  rw [and_comm]
  refine and_congr_right fun _ => ?_
  cases gone targets (caps dialect targets ret obs s) c.tables s stop t with
  | none => simp [mem]
  | some ids => simp [without,keep,resetTrack,mem]

theorem untilMarked (c : Component) (stop tg) : Marked c.tables (enforceUntil dialect targets ret c obs s stop) tg ↔
    Saved (caps dialect targets ret obs s) c.tables s stop tg := by
  refine forall_congr' fun t => forall_congr' fun own => ?_
  cases stop with
  | marking n =>
    obtain ⟨cursor,_,_,reseed⟩ := sweepSpec dialect targets ret obs c.distinct (⟨s,[],[]⟩ : Sweep K)
    simp only [enforceUntil,Stop.marking.injEq,exists_eq_left']
    rw [(writeFold _ _).2,sweep,cursor,reseeded,reseed]
    rfl
  | purging done reset batches =>
    obtain ⟨cursor,_⟩ := sweepSpec dialect targets ret obs (c.distinct.sublist (take_sublist done _)) (⟨s,[],[]⟩ : Sweep K)
    have same : (enforceUntil dialect targets ret c obs s (.purging done reset batches)).cursor = s.cursor := by
      simp only [enforceUntil]
      split <;> exact cursor
    simp [same]

end Cut

/- A target that the stop has robbed must be marked by then, or be over a cap once more with
what is left and what happens in between. -/
theorem sacrificedMarkedIff (dialect : Dialect) (targets : List TargetID) (ret : RetentionPolicy) (c : Component)
    (s : Control K) (obs again : TableRef → Probe) (stop : Stop) (between : List (Activity K)) :
    let cut := enforceUntil dialect targets ret c obs s stop
    let resumed := between.foldl act cut
    let done := (enforce dialect targets ret c again resumed).1
    let beyond := caps dialect targets ret obs s
    let remains := between.foldl act { s with queue := left targets beyond c.tables s stop }
    (∀ tg ∈ targets, Lost c.tables s cut tg ∨ Lost c.tables resumed done tg → Marked c.tables done tg) ↔
      ∀ tg ∈ targets, Sacrificed targets beyond c.tables s stop tg →
        Saved beyond c.tables s stop tg ∨ ∃ t ∈ c.tables, OverCap dialect (remains.queue t) targets ret (again t) tg := by
  intro cut resumed done beyond remains
  have queue : resumed.queue = remains.queue := actQueue between (untilQueue dialect targets ret obs s c stop)
  have found : ∀ tg, Detected dialect targets ret c.tables again resumed tg ↔
      ∃ t ∈ c.tables, OverCap dialect (remains.queue t) targets ret (again t) tg := by
    intro tg
    unfold Detected
    simp only [queue,overCapIff]
  have same : ∀ tg, Marked c.tables resumed tg ↔ Saved beyond c.tables s stop tg := by
    intro tg
    rw [← untilMarked]
    unfold Marked
    rw [actCursor between cut]
  have lost := untilLost dialect targets ret obs s c stop
  simp only [← same,← found]
  refine ⟨fun flagged tg mem robbed => enforceMarked.mp (flagged tg mem (.inl ((lost tg).mpr robbed))),fun found tg mem either => ?_⟩
  apply enforceMarked.mpr
  rcases either with first | second
  · exact found tg mem ((lost tg).mp first)
  · exact .inr (enforceLost mem second)

def aged : Control Nat where
  queue := fun _ => Consume.capture .empty ⟨1,.insert,7,0⟩ (by decide)
  cursor := fun _ _ => ⟨.streaming,false⟩
  events := []

def onlyOrders : Component := ⟨[orders],by decide⟩

theorem crashBeforeMarkForgets :
    let probe : TableRef → Probe := fun _ => ⟨2*second,0⟩
    let cut := enforceUntil .postgres ["t"] ⟨1,0⟩ onlyOrders probe aged (.marking 0)
    let done := (enforce .postgres ["t"] ⟨1,0⟩ onlyOrders probe cut).1
    ¬∀ tg ∈ ["t"], Lost [orders] aged cut tg ∨ Lost [orders] cut done tg → Marked [orders] done tg := by
  intro probe cut done flagged
  have lost : Lost [orders] aged cut "t" :=
    ⟨orders,by decide,⟨1,.insert,7,0⟩,by decide,by decide,by decide⟩
  have marked := flagged "t" (by decide) (.inl lost) orders (by decide)
  revert marked
  decide

end Replicare.Enforce
