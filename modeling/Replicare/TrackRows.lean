import Mathlib.Data.List.MinMax
import Mathlib.Order.Nat
import Replicare.Enforce
import Replicare.Runs

/-! The lifetime of track rows. A purge deletes delta rows and, for a sacrificed target, all
its track rows; the track rows of the deltas it deletes for the others stay. -/
namespace Replicare.TrackRows
open Engine Consume Purge Enforce Runs List

section Footprint
variable {K : Type*} {dialect : Dialect} {q : Queue K} {targets : List TargetID} {ret : RetentionPolicy} {p : Probe}

theorem memPurgeTrack {r} : r ∈ (purge dialect q targets ret p).1.track ↔ r ∈ q.track ∧ ¬OverCap dialect q targets ret p r.1 := by
  have row := @purgeConsumedIff _ dialect q targets ret p r.1 r.2
  rw [purgeReseeds,overCapIff] at row
  exact row

def Referring (q : Queue K) : Prop := ∀ r ∈ q.track, ∃ d ∈ q.deltas, d.id = r.2
instance (q : Queue K) : Decidable (Referring q) :=
  inferInstanceAs (Decidable (∀ r ∈ q.track, ∃ d ∈ q.deltas, d.id = r.2))

theorem referringBound (own : ∀ r ∈ q.track, r.1 ∈ targets) (referring : Referring q) :
    q.track.card ≤ targets.length*q.deltas.length := by
  have inside : q.track ⊆ targets.toFinset ×ˢ (q.deltas.map Delta.id).toFinset := by
    intro r row
    obtain ⟨d,mem,same⟩ := referring r row
    refine Finset.mem_product.mpr ⟨mem_toFinset.mpr (own r row),mem_toFinset.mpr ?_⟩
    exact same ▸ mem_map_of_mem mem
  calc q.track.card
      ≤ targets.toFinset.card*(q.deltas.map Delta.id).toFinset.card := by
        rw [← Finset.card_product]
        exact Finset.card_le_card inside
    _ ≤ targets.length*(q.deltas.map Delta.id).length := Nat.mul_le_mul (toFinset_card_le _) (toFinset_card_le _)
    _ = targets.length*q.deltas.length := by rw [length_map]

theorem noBacklogSpared (drained : ∀ tg ∈ targets, unconsumed q tg = []) (tg) : ¬OverCap dialect q targets ret p tg := by
  intro beyond
  obtain ⟨mem,some_⟩ := overCapSource (overCapIff.mpr beyond)
  exact some_ (drained tg mem)

theorem purgeReferringIff (dialect : Dialect) (q : Queue K) (targets : List TargetID) (ret : RetentionPolicy) (p : Probe)
    (distinct : targets.Nodup) (own : ∀ r ∈ q.track, r.1 ∈ targets) :
    let after := (purge dialect q targets ret p).1
    (Referring after ↔ ∀ r ∈ q.track, OverCap dialect q targets ret p r.1 ∨
      ∃ d ∈ q.deltas, d.id = r.2 ∧ ∃ tg ∈ targets, ¬OverCap dialect q targets ret p tg ∧ ¬Consumed q tg d.id) ∧
    (Referring after → after.track.card ≤ targets.length*after.deltas.length) ∧
    ((∀ d ∈ q.deltas, ∀ tg ∈ targets, Consumed q tg d.id) → after.deltas = [] ∧ after.track = q.track) := by
  intro after
  refine ⟨?_,fun referring => referringBound (fun r row => own r (memPurgeTrack.mp row).1) referring,fun all => ?_⟩
  · unfold Referring
    refine forall_congr' fun r => ?_
    simp only [after,memPurgeTrack,memPurgeIff distinct,overCapIff]
    constructor
    · intro kept row
      by_cases beyond : OverCap dialect q targets ret p r.1
      · exact .inl beyond
      · obtain ⟨d,⟨mem,open_⟩,same⟩ := kept ⟨row,beyond⟩
        exact .inr ⟨d,mem,same,open_⟩
    · rintro before ⟨row,spared⟩
      obtain ⟨d,mem,same,open_⟩ := (before row).resolve_left spared
      exact ⟨d,⟨mem,open_⟩,same⟩
  · have drained : ∀ tg ∈ targets, unconsumed q tg = [] := by
      intro tg mem
      refine eq_nil_iff_forall_not_mem.mpr fun d left => ?_
      obtain ⟨inside,open_⟩ := memUnconsumed.mp left
      exact open_ (all d inside tg mem)
    refine ⟨eq_nil_iff_forall_not_mem.mpr fun d mem => ?_,Finset.ext fun r => ?_⟩
    · obtain ⟨inside,tg,listed,_,open_⟩ := (memPurgeIff distinct).mp mem
      exact open_ (all d inside tg listed)
    · rw [memPurgeTrack]
      exact and_iff_left (noBacklogSpared drained r.1)

theorem firstFresh : Fresh (Queue.empty : Queue Nat) 1 := by decide

def shared : Queue Nat := confirmConsumed (Consume.capture .empty ⟨1,.insert,7,0⟩ firstFresh) "a" [1]

theorem pinnedRefers : Referring (purge .mysql shared ["a","b"] ⟨0,0⟩ ⟨0,0⟩).1 := by
  refine (purgeReferringIff .mysql shared ["a","b"] ⟨0,0⟩ ⟨0,0⟩ (by decide) (by decide)).1.mpr fun r row => .inr ?_
  have known : r = ("a",1) := by simpa [shared,confirmConsumed,Consume.capture,Queue.empty] using row
  refine ⟨⟨1,.insert,7,0⟩,by decide,by rw [known],"b",by decide,?_,by decide⟩
  exact overCapIff.not.mp (by decide)

/- The delta every target has consumed is purged and its track row is not. -/
theorem consumedRowStays :
    let q := confirmConsumed (Consume.capture (Queue.empty : Queue Nat) ⟨1,.insert,7,0⟩ (by decide)) "a" [1]
    let pg := (purge .postgres q ["a"] ⟨0,0⟩ ⟨0,0⟩).1
    let my := (purge .mysql q ["a"] ⟨0,0⟩ ⟨0,0⟩).1
    (pg.deltas = [] ∧ ¬Referring pg ∧ ¬pg.track.card ≤ ["a"].length*pg.deltas.length) ∧
    my.deltas = [] ∧ ¬Referring my ∧ ¬my.track.card ≤ ["a"].length*my.deltas.length := by
  decide +kernel

end Footprint

/-! MySQL's numbering of one delta table: what is committed, what open transactions
have inserted, the counter, and the ids a consumer has read and not yet confirmed. -/

structure Source where
  queue : Queue KeyValues
  opened : List (Delta KeyValues)
  next : DeltaID
  held : Finset (TargetID × DeltaID)
  positive : 0 < next
  below : ∀ d, d ∈ queue.deltas ∨ d ∈ opened → 0 < d.id ∧ d.id < next
  apart : ∀ d ∈ queue.deltas, ∀ e ∈ opened, d.id ≠ e.id
  distinct : (opened.map Delta.id).Nodup

def Source.fresh : Source where
  queue := .empty
  opened := []
  next := 1
  held := ∅
  positive := Nat.one_pos
  below := by simp [Queue.empty]
  apart := by simp
  distinct := nodup_nil

/- The trigger's INSERT takes the counter's value, whether or not its transaction commits. -/
def Source.insert (s : Source) (op : Op) (key : KeyValues) (rcAt : Int) : Source where
  queue := s.queue
  opened := ⟨s.next,op,key,rcAt⟩::s.opened
  next := s.next+1
  held := s.held
  positive := Nat.succ_pos _
  below := by
    rintro d (committed | mem)
    · exact ⟨(s.below d (.inl committed)).1,Nat.lt_succ_of_lt (s.below d (.inl committed)).2⟩
    · rcases mem_cons.mp mem with rfl | old
      · exact ⟨s.positive,Nat.lt_succ_self _⟩
      · exact ⟨(s.below d (.inr old)).1,Nat.lt_succ_of_lt (s.below d (.inr old)).2⟩
  apart := by
    intro d committed e mem
    rcases mem_cons.mp mem with rfl | old
    · exact (s.below d (.inl committed)).2.ne
    · exact s.apart d committed e old
  distinct := by
    simp only [map_cons,nodup_cons,mem_map,not_exists,not_and]
    exact ⟨fun d mem => (s.below d (.inr mem)).2.ne,s.distinct⟩

def Source.commit (s : Source) (d : Delta KeyValues) (mem : d ∈ s.opened) : Source where
  queue :=
    { deltas := d::s.queue.deltas
      track := s.queue.track
      unique := by
        simp only [map_cons,nodup_cons,mem_map,not_exists,not_and]
        exact ⟨fun e committed => s.apart e committed d mem,s.queue.unique⟩ }
  opened := s.opened.filter (·.id ≠ d.id)
  next := s.next
  held := s.held
  positive := s.positive
  below := by
    rintro e (committed | left)
    · rcases mem_cons.mp committed with rfl | old
      · exact s.below e (.inr mem)
      · exact s.below e (.inl old)
    · exact s.below e (.inr (mem_filter.mp left).1)
  apart := by
    intro e committed f left
    obtain ⟨old,other⟩ := mem_filter.mp left
    rcases mem_cons.mp committed with rfl | before
    · exact (of_decide_eq_true other).symm
    · exact s.apart e before f old
  distinct := s.distinct.sublist (filter_sublist.map _)

def Source.rollback (s : Source) (gone : DeltaID) : Source :=
  { s with
    opened := s.opened.filter (·.id ≠ gone)
    below := fun d either => s.below d (either.imp id fun left => (mem_filter.mp left).1)
    apart := fun d committed e left => s.apart d committed e (mem_filter.mp left).1
    distinct := s.distinct.sublist (filter_sublist.map _) }

def purged (q : Queue KeyValues) (targets : List TargetID) (ret : RetentionPolicy) (p : Probe) : Option (Bool × Nat) → Queue KeyValues
  | none => (purge .mysql q targets ret p).1
  | some cut => partialPurge .mysql targets ret q p cut.1 cut.2

theorem deleteBatches {K : Type*} (targets batch) (n : Nat) (q : Queue K) :
    ((deleteBatch targets batch)^[n] q).track = q.track ∧ ∀ d ∈ ((deleteBatch targets batch)^[n] q).deltas, d ∈ q.deltas := by
  induction n generalizing q with
  | zero => exact ⟨rfl,fun _ mem => mem⟩
  | succ n ih =>
    obtain ⟨track,inside⟩ := ih (deleteBatch targets batch q)
    exact ⟨track,fun d mem => (memDeleteBatch.mp (inside d mem)).1⟩

theorem purgedShrinks (q targets ret p cut) :
    (purged q targets ret p cut).track ⊆ q.track ∧ ∀ d ∈ (purged q targets ret p cut).deltas, d ∈ q.deltas := by
  cases cut with
  | none => exact ⟨fun r row => (memPurgeTrack.mp row).1,fun d mem => (memPurge.mp mem).1⟩
  | some cut =>
    simp only [purged,partialPurge]
    split
    · obtain ⟨track,inside⟩ := deleteBatches targets defaultPurgeBatch cut.2 q
      exact ⟨track.subset,inside⟩
    · split
      · obtain ⟨track,inside⟩ := deleteBatches (subtractTargets targets (overCapTargets .mysql q targets ret p)) defaultPurgeBatch cut.2
          (resetTrack q (overCapTargets .mysql q targets ret p))
        exact ⟨track.subset.trans (Finset.filter_subset _ _),inside⟩
      · exact ⟨subset_rfl,fun _ mem => mem⟩

def Source.purge (s : Source) (targets : List TargetID) (ret : RetentionPolicy) (p : Probe) (cut : Option (Bool × Nat)) : Source :=
  { s with
    queue := purged s.queue targets ret p cut
    below := fun d either => s.below d (either.imp ((purgedShrinks _ _ _ _ _).2 d) id)
    apart := fun d left => s.apart d ((purgedShrinks _ _ _ _ _).2 d left) }

def lastID (q : Queue KeyValues) : DeltaID := (q.deltas.map Delta.id).foldr max 0

theorem leLastID {q d} (mem : d ∈ q.deltas) : d.id ≤ lastID q :=
  le_max_of_le' 0 (mem_map_of_mem mem) le_rfl

theorem lastIDLe {q bound} (all : ∀ d ∈ q.deltas, d.id ≤ bound) : lastID q ≤ bound :=
  max_le_of_forall_le (q.deltas.map Delta.id) bound (forall_mem_map.mpr all)

/- InnoDB of MySQL 5.7 keeps the counter in memory and sets it from the rows it finds. -/
def Source.restart (s : Source) : Source where
  queue := s.queue
  opened := []
  next := lastID s.queue+1
  held := s.held
  positive := Nat.succ_pos _
  below := by
    rintro d (committed | none)
    · exact ⟨(s.below d (.inl committed)).1,Nat.lt_succ_of_le (leLastID committed)⟩
    · cases none
  apart := by simp
  distinct := nodup_nil

/- `cut` is where an interrupted purge stops. -/
inductive Event where
  | insert (op : Op) (key : KeyValues) (rcAt : Int)
  | commit (id : DeltaID)
  | rollback (id : DeltaID)
  | read (target : TargetID) (max : Int)
  | confirm (target : TargetID) (ids : List DeltaID)
  | abandon (target : TargetID)
  | purge (targets : List TargetID) (ret : RetentionPolicy) (probe : Probe) (cut : Option (Bool × Nat))
  | restart

def step (s : Source) : Event → Option Source
  | .insert op key rcAt => some (s.insert op key rcAt)
  | .commit id => match found : s.opened.find? fun d => d.id == id with
    | none => none
    | some d => some (s.commit d (mem_of_find?_eq_some found))
  | .rollback id => some (s.rollback id)
  | .read target max => some { s with
      held := (s.held.filter (·.1 ≠ target)) ∪ ((readDirtyKeys s.queue target max).map fun x => (target,x.deltaID)).toFinset }
  | .confirm target ids => if ∀ id ∈ ids, (target,id) ∈ s.held then
      some { s with
        queue := confirmConsumed s.queue target ids
        held := s.held.filter fun r => ¬(r.1 = target ∧ r.2 ∈ ids) } else none
  | .abandon target => some { s with held := s.held.filter (·.1 ≠ target) }
  | .purge targets ret probe cut => some (s.purge targets ret probe cut)
  | .restart => some s.restart

def NewUnconsumed (s : Source) : Event → Prop
  | .insert _ _ _ => ∀ tg, ¬Consumed s.queue tg s.next
  | .commit id => ∀ t, step s (.commit id) = some t → ∃ d ∈ t.queue.deltas, d.id = id ∧ ∀ tg, d.dirty ∈ readDirtyKeys t.queue tg 0
  | _ => True

def Anchored (s : Source) : Prop := ∀ r ∈ s.queue.track ∪ s.held, ∃ d ∈ s.queue.deltas, r.2 ≤ d.id
instance (s : Source) : Decidable (Anchored s) :=
  inferInstanceAs (Decidable (∀ r ∈ s.queue.track ∪ s.held, ∃ d ∈ s.queue.deltas, r.2 ≤ d.id))

def RestartsAnchored (s : Source) : Event → Prop
  | .restart => Anchored s
  | _ => True
instance (s : Source) (a) : Decidable (RestartsAnchored s a) := by
  cases a <;> unfold RestartsAnchored <;> infer_instance

def Past (s : Source) (r : TargetID × DeltaID) : Prop := 0 < r.2 ∧ r.2 < s.next ∧ ∀ d ∈ s.opened, d.id ≠ r.2

def Settled (s : Source) : Prop := ∀ r ∈ s.queue.track ∪ s.held, Past s r

theorem committedPast (s) {d} (mem : d ∈ s.queue.deltas) (tg) : Past s (tg,d.id) :=
  ⟨(s.below d (.inl mem)).1,(s.below d (.inl mem)).2,fun e opened => (s.apart d mem e opened).symm⟩

theorem settledOfKnown {s t} (settled : Settled s) (past : ∀ r, Past s r → Past t r)
    (known : ∀ r ∈ t.queue.track ∪ t.held, r ∈ s.queue.track ∪ s.held ∨ ∃ d ∈ s.queue.deltas, d.id = r.2) : Settled t := by
  intro r mem
  rcases known r mem with old | ⟨d,hd,same⟩
  · exact past r (settled r old)
  · have here := committedPast s hd r.1
    rw [same] at here
    exact past r here

theorem restartSettled {s} (settled : Settled s) (anchored : Anchored s) : Settled s.restart := by
  intro r mem
  obtain ⟨d,hd,low⟩ := anchored r mem
  exact ⟨(settled r mem).1,Nat.lt_succ_of_le (low.trans (leLastID hd)),by simp [Source.restart]⟩

theorem stepSettled {s a t} (settled : Settled s) (allowed : RestartsAnchored s a) (ok : step s a = some t) : Settled t := by
  cases a with
  | insert op key rcAt =>
    cases ok
    refine settledOfKnown settled (fun r past => ⟨past.1,Nat.lt_succ_of_lt past.2.1,fun d mem => ?_⟩) fun r mem => .inl mem
    rcases mem_cons.mp mem with rfl | old
    · exact past.2.1.ne'
    · exact past.2.2 d old
  | commit id =>
    simp only [step] at ok
    split at ok
    · cases ok
    · cases ok
      exact settledOfKnown settled (fun r past => ⟨past.1,past.2.1,fun d mem => past.2.2 d (mem_filter.mp mem).1⟩)
        fun r mem => .inl mem
  | rollback id =>
    cases ok
    exact settledOfKnown settled (fun r past => ⟨past.1,past.2.1,fun d mem => past.2.2 d (mem_filter.mp mem).1⟩)
      fun r mem => .inl mem
  | read target max =>
    cases ok
    refine settledOfKnown settled (fun r past => past) fun r mem => ?_
    rcases Finset.mem_union.mp mem with row | held
    · exact .inl (Finset.mem_union_left _ row)
    · rcases Finset.mem_union.mp held with old | new
      · exact .inl (Finset.mem_union_right _ (Finset.mem_filter.mp old).1)
      · obtain ⟨x,hx,rfl⟩ := mem_map.mp (mem_toFinset.mp new)
        obtain ⟨d,hd,rfl⟩ := readDirtySource hx
        exact .inr ⟨d,(memUnconsumed.mp hd).1,rfl⟩
  | confirm target ids =>
    simp only [step] at ok
    split at ok
    · rename_i read
      cases ok
      refine settledOfKnown settled (fun r past => past) fun r mem => .inl ?_
      rcases Finset.mem_union.mp mem with row | held
      · rcases confirmedIff.mp row with old | ⟨same,listed⟩
        · exact Finset.mem_union_left _ old
        · have known := read r.2 listed
          rw [← same] at known
          exact Finset.mem_union_right _ known
      · exact Finset.mem_union_right _ (Finset.mem_filter.mp held).1
    · cases ok
  | abandon target =>
    cases ok
    refine settledOfKnown settled (fun r past => past) fun r mem => .inl ?_
    rcases Finset.mem_union.mp mem with row | held
    · exact Finset.mem_union_left _ row
    · exact Finset.mem_union_right _ (Finset.mem_filter.mp held).1
  | purge targets ret probe cut =>
    cases ok
    refine settledOfKnown settled (fun r past => past) fun r mem => .inl ?_
    rcases Finset.mem_union.mp mem with row | held
    · exact Finset.mem_union_left _ ((purgedShrinks _ _ _ _ _).1 row)
    · exact Finset.mem_union_right _ held
  | restart =>
    cases ok
    exact restartSettled settled allowed

theorem settledNew {s} (settled : Settled s) (a) : NewUnconsumed s a := by
  have openFresh : ∀ d ∈ s.opened, ∀ tg, ¬Consumed s.queue tg d.id := by
    intro d mem tg row
    exact (settled (tg,d.id) (Finset.mem_union_left _ row)).2.2 d mem rfl
  cases a with
  | insert op key rcAt =>
    intro tg row
    exact (settled (tg,s.next) (Finset.mem_union_left _ row)).2.1.ne rfl
  | commit id =>
    intro t ok
    simp only [step] at ok
    split at ok
    · cases ok
    · rename_i d found
      cases ok
      have mem := mem_of_find?_eq_some found
      refine ⟨d,mem_cons_self,by simpa using find?_some found,fun tg => readWhole (.inl le_rfl) ?_⟩
      exact memUnconsumed.mpr ⟨mem_cons_self,openFresh d mem tg⟩
  | _ => trivial

theorem insertsReach {s n} (held : Along step NewUnconsumed s (List.replicate (n+1) (.insert .insert [] 0))) (tg) :
    ¬Consumed s.queue tg (s.next+n) := by
  induction n generalizing s with
  | zero => exact held.1 tg
  | succ n ih =>
    have later : ¬Consumed s.queue tg (s.next+1+n) := ih (held.2 _ rfl)
    rwa [Nat.add_right_comm] at later

theorem freshSettled : Settled .fresh := by
  intro r mem
  simp [Source.fresh,Queue.empty] at mem

theorem anchoredOfNew {s} (settled : Settled s)
    (always : ∀ more, .restart ∉ more → Along step NewUnconsumed s (.restart::more)) : Anchored s := by
  intro r known
  by_contra beyond
  -- the restarted counter is at or below the id, so inserts alone arrive at it
  have low : lastID s.queue < r.2 := by
    have bound : lastID s.queue ≤ r.2-1 :=
      lastIDLe fun d hd => Nat.le_sub_one_of_lt (not_le.mp fun less => beyond ⟨d,hd,less⟩)
    exact lt_of_le_of_lt bound (Nat.sub_one_lt (settled r known).1.ne')
  obtain ⟨n,reach⟩ : ∃ n, s.restart.next+n = r.2 := Nat.exists_eq_add_of_le low |>.imp fun n same => same.symm
  have inserts : ∀ n : Nat, Event.restart ∉ List.replicate n (.insert .insert [] 0) := by
    intro n mem
    cases eq_of_mem_replicate mem
  rcases Finset.mem_union.mp known with row | held
  · have fresh := insertsReach ((always _ (inserts (n+1))).2 _ rfl) r.1
    rw [reach] at fresh
    exact fresh row
  · have listed : Event.restart ∉ .confirm r.1 [r.2]::List.replicate (n+1) (.insert .insert [] 0) := by
      intro mem
      rcases mem_cons.mp mem with same | later
      · cases same
      · exact inserts _ later
    have confirmed : step s.restart (.confirm r.1 [r.2]) = some { s.restart with
        queue := confirmConsumed s.queue r.1 [r.2]
        held := s.held.filter fun x => ¬(x.1 = r.1 ∧ x.2 ∈ [r.2]) } := by
      have read : ∀ id ∈ [r.2], (r.1,id) ∈ s.restart.held := by
        intro id mem
        rw [mem_singleton.mp mem]
        exact held
      simp only [step,if_pos read]
      rfl
    have fresh : ¬Consumed (confirmConsumed s.queue r.1 [r.2]) r.1 (s.restart.next+n) :=
      insertsReach (((always _ listed).2 _ rfl).2 _ confirmed) r.1
    rw [reach] at fresh
    exact fresh (confirmedIff.mpr (.inr ⟨rfl,mem_singleton_self _⟩))

theorem newUnconsumedIff {acts : List Event} {s : Source} (ran : run step .fresh acts = some s)
    (anchored : Along step RestartsAnchored .fresh acts) :
    Along step NewUnconsumed .fresh acts ∧
    ((∀ more, .restart ∉ more → Along step NewUnconsumed s (.restart::more)) ↔ Anchored s) := by
  have keep : ∀ s a t, Settled s → RestartsAnchored s a → step s a = some t → Settled t :=
    fun s a t settled allowed ok => stepSettled settled allowed ok
  have settled := runKeeps keep anchored ran freshSettled
  refine ⟨alongUnder keep (fun s a settled _ => settledNew settled a) anchored freshSettled,anchoredOfNew settled,fun here more none => ?_⟩
  have allowed : Along step RestartsAnchored s (.restart::more) := by
    refine ⟨here,fun t _ => alongOfAll fun a mem t => ?_⟩
    cases a with
    | restart => exact absurd mem none
    | _ => trivial
  exact alongUnder keep (fun s a settled _ => settledNew settled a) allowed settled

def keptHistory : List Event :=
  [.insert .insert [] 0,.commit 1,.read "t" 0,.confirm "t" [1],.restart,.insert .update [] 0,.commit 2]

theorem keptHistoryNew : Along step NewUnconsumed .fresh keptHistory ∧
    ∃ s ∈ run step .fresh keptHistory, ∀ more, .restart ∉ more → Along step NewUnconsumed s (.restart::more) := by
  have anchored : Along step RestartsAnchored .fresh keptHistory := by decide +kernel
  obtain ⟨s,ran,here⟩ : ∃ s ∈ run step .fresh keptHistory, Anchored s := by decide +kernel
  obtain ⟨new,iff⟩ := newUnconsumedIff ran anchored
  exact ⟨new,s,ran,iff.mpr here⟩

theorem bornConsumed :
    ∃ s ∈ run step .fresh [.insert .insert [] 0,.commit 1,.read "t" 0,.confirm "t" [1],.purge ["t"] ⟨0,0⟩ ⟨0,0⟩ none,.restart],
      Consumed s.queue "t" s.next ∧
      ∃ t ∈ run step s [.insert .update [] 0,.commit 1], t.queue.deltas ≠ [] ∧ readDirtyKeys t.queue "t" 0 = [] := by
  decide +kernel

end Replicare.TrackRows
