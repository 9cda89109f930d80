import Replicare.MeshOffer

/-! The steps of a mesh. -/
namespace Replicare.Mesh
open Engine Consume Coalesce Purge Hlc MeshApply LastWriter Runs List Function

variable {K V N S : Type*} [DecidableEq K] [LinearOrder N] [DecidableEq S]

def Shared (name : N ↪ TargetID) (s : World K V N) (i j : N) (sacrificed : Bool) : Prop :=
  ∀ d ∈ (s.member i).queue.deltas, sacrificed = true ∨ Consumed (s.member i).queue (name j) d.id →
    ∀ l, l ≠ i → l ≠ j → Consumed (s.member i).queue (name l) d.id ∨ ¬Open s i l d.key ∧ s.edge i l = none

def KeepsKeys (name : N ↪ TargetID) (sig : K → S) (s : World K V N) (i j : N) (batch : Int) : Prop :=
  ∀ x ∈ readDirtyKeys (s.member i).queue (name j) batch,
    x.key ∈ (coalesce sig (readDirtyKeys (s.member i).queue (name j) batch)).1

def CollectsOutlived (s : World K V N) (i : N) : Prop :=
  ∀ k e, (s.member i).replica.register k = some e → collectable (s.member i).queue k e = true → Outlived s k e.version

def Aware (name : N ↪ TargetID) (s : World K V N) (i : N) (op : RowOp K V) : Prop :=
  ∀ c ∈ op.stamps, ∀ a b r, Open s a b r.key → Missed name s a b r → r.key = c.key →
    r.version.stamp ≤ (s.member i).clock

def Careful (dialect : Dialect) (ret : RetentionPolicy) (name : N ↪ TargetID) (sig : K → S) (loads : Prop)
    (s : World K V N) : Action K V N → Prop
  | .client i _ _ op => loads → Aware name s i op
  | .gather i j batch => KeepsKeys name sig s i j batch
  | .enforce i j probe =>
      Shared name s i j (!(overCapTargets dialect (s.member i).queue [name j] ret probe).isEmpty)
  | .gc i => CollectsOutlived s i
  | .clear _ j now cleared _ => Along (clearRow j now) (fun s c => loads → Aware name s j (.delete c.1 c.2.2)) s cleared
  | .load i j c => loads ∧ ∀ x, s.copy i j = some x → Loadable name s i j x c
  | _ => True

variable {dialect : Dialect} {ret : RetentionPolicy} {name : N ↪ TargetID} {sig : K → S} {base : K → Option V}
  {loads : Prop}
  {s t : World K V N} {i j : N}

omit [DecidableEq K] in
theorem passUnstaged {p} (none : p.staged = none) (apart : i ≠ j)
    (unconsumed : ∀ id ∈ p.ids, ¬Consumed (s.member i).queue (name j) id)
    (queued : ∀ id ∈ p.ids, ∃ d ∈ (s.member i).queue.deltas, d.id = id)
    (keys : ∀ k ∈ p.keys, ∃ d ∈ (s.member i).queue.deltas, d.key = k ∧ d.id ∈ p.ids)
    (covered : ∀ d ∈ (s.member i).queue.deltas, d.id ∈ p.ids → d.key ∈ p.keys) (distinct : p.keys.Nodup)
    (shipped : p.shipped = true → ∀ r ∈ s.log, r.version.node = i → r.key ∈ p.keys →
      Seen s j r ∨ Pending name s i j p.ids r.key) : PassInv name s i j p := by
  have empty : ∀ recs, p.staged ≠ some recs := fun recs staged => nomatch none.symm.trans staged
  exact ⟨apart,unconsumed,queued,keys,covered,distinct,fun recs staged => absurd staged (empty recs),
    fun recs staged => absurd staged (empty recs),fun recs staged => absurd staged (empty recs),shipped⟩

theorem gatherKeeps {batch} (inv : Inv name base loads s) (apart : i ≠ j) (whole : KeepsKeys name sig s i j batch) :
    Inv name base loads (s.setEdge i j (some ⟨(coalesce sig (readDirtyKeys (s.member i).queue (name j) batch)).2,
      (coalesce sig (readDirtyKeys (s.member i).queue (name j) batch)).1,none,false⟩)) := by
  have read : ∀ x ∈ readDirtyKeys (s.member i).queue (name j) batch, ∃ d ∈ (s.member i).queue.deltas,
      ¬Consumed (s.member i).queue (name j) d.id ∧ d.dirty = x := by
    intro x mem
    obtain ⟨d,hd,same⟩ := readDirtySource mem
    exact ⟨d,(memUnconsumed.mp hd).1,(memUnconsumed.mp hd).2,same⟩
  have listed : ∀ id, id ∈ (coalesce sig (readDirtyKeys (s.member i).queue (name j) batch)).2 ↔
      ∃ x ∈ readDirtyKeys (s.member i).queue (name j) batch, x.deltaID = id := by
    intro id
    rw [coalesceIds,mem_map]
  refine edgeKeeps inv (fun p new => ?_) fun p recs new staged => ?_
  · cases new
    refine passUnstaged rfl apart (fun id mem => ?_) (fun id mem => ?_) (fun k mem => ?_) (fun d mem inside => ?_)
      (List.Nodup.of_map sig scanSeparates) nofun
    · obtain ⟨x,hx,rfl⟩ := (listed id).mp mem
      obtain ⟨d,_,left,rfl⟩ := read x hx
      exact left
    · obtain ⟨x,hx,rfl⟩ := (listed id).mp mem
      obtain ⟨d,hd,_,rfl⟩ := read x hx
      exact ⟨d,hd,rfl⟩
    · obtain ⟨x,hx,rfl⟩ := coalesceSource mem
      obtain ⟨d,hd,_,rfl⟩ := read x hx
      exact ⟨d,hd,rfl,(listed _).mpr ⟨_,hx,rfl⟩⟩
    · obtain ⟨x,hx,same⟩ := (listed d.id).mp inside
      obtain ⟨e,he,_,rfl⟩ := read x hx
      rw [← idDetermines he mem same]
      exact whole _ hx
  · cases new
    cases staged

variable [Inhabited V] in
theorem versionedNewest (inv : Inv name base loads s) {d} (mem : d ∈ (s.member i).queue.deltas) :
    ∃ m, winner (s.accepted i) d.key = some m ∧ (s.member i).replica.register d.key = some m.entry ∧
      versionedRow (s.member i).replica d.key = some m := by
  obtain ⟨m,top,entry⟩ := inv.current i d mem
  refine ⟨m,top,entry,?_⟩
  obtain ⟨_,key,_⟩ := winnerTop top
  have row : (if m.deleted then none else some (((s.member i).replica.rows d.key).getD default)) = m.row := by
    cases gone : m.deleted with
    | true => exact (Option.isNone_iff_eq_none.mp gone).symm
    | false =>
      have alive : ¬(m.entry.deleted = true) := by
        rw [show m.entry.deleted = m.deleted from rfl,gone]
        exact Bool.false_ne_true
      rcases inv.rows i d.key with same | ⟨deleted,_⟩
      · obtain ⟨x,value⟩ := Option.isSome_iff_exists.mp (Option.isNone_eq_false_iff.mp gone)
        rw [same,top]
        simp [shown,value]
      · exact absurd (deleted _ entry) alive
  simp only [versionedRow,entry,Option.map_some,Record.entry,row]
  rw [← key]

variable [Inhabited V] in
theorem rereadKeeps {p} (inv : Inv name base loads s) (busy : s.edge i j = some p) :
    Inv name base loads (s.setEdge i j (some { p with staged := some (rereadVersioned (s.member i).replica p.keys) })) := by
  have pass := inv.passes i j p busy
  have source : ∀ r ∈ rereadVersioned (s.member i).replica p.keys, ∃ k ∈ p.keys, r.key = k ∧
      winner (s.accepted i) k = some r ∧ (s.member i).replica.register k = some r.entry := by
    intro r mem
    obtain ⟨k,hk,found⟩ := mem_filterMap.mp mem
    obtain ⟨d,hd,rfl,_⟩ := pass.keys k hk
    obtain ⟨m,top,entry,same⟩ := versionedNewest inv hd
    rw [same] at found
    cases found
    exact ⟨d.key,hk,(winnerTop top).2.1,top,entry⟩
  have covers : ∀ k ∈ p.keys, ∃ m ∈ rereadVersioned (s.member i).replica p.keys, winner (s.accepted i) k = some m := by
    intro k mem
    obtain ⟨d,hd,rfl,_⟩ := pass.keys k mem
    obtain ⟨m,top,_,same⟩ := versionedNewest inv hd
    exact ⟨m,mem_filterMap.mpr ⟨d.key,mem,same⟩,top⟩
  have keys : ((rereadVersioned (s.member i).replica p.keys).map Record.key).Nodup := by
    have listed : (rereadVersioned (s.member i).replica p.keys).map Record.key =
        p.keys.filterMap fun k => (versionedRow (s.member i).replica k).map Record.key := map_filterMap ..
    rw [listed]
    refine pass.distinct.filterMap fun a b k left right => ?_
    simp only [versionedRow,Option.map_map,Option.mem_def,Option.map_eq_some_iff,Function.comp_apply] at left right
    obtain ⟨_,_,rfl⟩ := left
    obtain ⟨_,_,rfl⟩ := right
    rfl
  refine edgeKeeps inv (fun x new => ?_) fun x recs new staged r mem => ?_
  · cases new
    refine ⟨pass.apart,pass.unconsumed,pass.queued,pass.keys,pass.covered,pass.distinct,fun recs staged => ?_,
      fun recs staged r mem => ?_,fun recs staged r mem node key => ?_,pass.shipped⟩
    · cases staged
      exact keys
    · cases staged
      obtain ⟨k,hk,rfl,top,_⟩ := source r mem
      exact ⟨inv.logged i r (winnerTop top).1,hk⟩
    · cases staged
      obtain ⟨m,hm,top⟩ := covers r.key key
      have own := node ▸ inv.own r mem
      exact .inl ⟨m,hm,(winnerTop top).2.1,(winnerTop top).2.2 r own rfl⟩
  · cases new
    cases staged
    obtain ⟨k,_,rfl,_,entry⟩ := source r mem
    exact entry

omit [DecidableEq K] [LinearOrder N] in
theorem latestBound {stg : List (Record K V N)} {c} (top : latest stg = some c) : ∀ r ∈ stg, r.version.stamp ≤ c := by
  intro r mem
  exact (max?_eq_some_iff.mp top).2 _ (mem_map.mpr ⟨r,mem,rfl⟩)

omit [DecidableEq K] [LinearOrder N] in
theorem observeBound (c : Clock) (pt) (stg : List (Record K V N)) :
    c ≤ observeFromStaging c pt stg ∧ ∀ r ∈ stg, r.version.stamp ≤ observeFromStaging c pt stg := by
  unfold observeFromStaging
  split
  · rename_i none
    refine ⟨le_refl _,fun r mem => ?_⟩
    rw [latest,max?_eq_none_iff,map_eq_nil_iff] at none
    rw [none] at mem
    exact absurd mem not_mem_nil
  · rename_i m top
    have advances := observeAdvances c pt m.physical m.logical
    exact ⟨advances.1.le,fun r mem => (latestBound top r mem).trans advances.2.le⟩

theorem deliveredSeen {m phase recs x} (inv : Inv name base loads s) (mem : x ∈ recs) (deletes : (phase == .delete) = true) :
    Seen (s.offer j m (accepts phase (s.member j).replica recs) s.log) j x := by
  cases wins : meshVersionGreater (s.member j).replica.register x with
  | true =>
    have offered : x ∈ effective phase recs := memEffective.mpr ⟨mem,by rw [deletes,Bool.true_or]⟩
    refine ⟨x,?_,rfl,le_refl _⟩
    rw [(offerSelf s j _ _ _).2]
    exact mem_append_right _ (mem_filter.mpr ⟨offered,wins⟩)
  | false =>
    unfold meshVersionGreater at wins
    split at wins
    · cases wins
    · rename_i e held
      obtain ⟨w,top,below⟩ := entrySeen (inv.settled j x.key) held
      obtain ⟨inside,key,_⟩ := winnerTop top
      exact ⟨w,offerMore s j _ _ _ j w inside,key,(not_lt.mp (of_decide_eq_false wins)).trans below⟩

theorem arrivalKeeps {p recs clock} (phase) (inv : Inv name base loads s) (busy : s.edge i j = some p)
    (staged : p.staged = some recs) (advances : (s.member j).clock ≤ clock)
    (reaches : ∀ r ∈ recs, r.version.stamp ≤ clock) :
    Inv name base loads (((s.set j { s.member j with
      replica := applyBatch dialect phase (s.member j).replica recs, clock := clock }).accept j
        (accepts phase (s.member j).replica recs)).setEdge i j
          (some { p with staged := none, shipped := p.shipped || phase == .delete })) := by
  have pass := inv.passes i j p busy
  have flying : ∀ r ∈ recs, InFlight s i j r := fun r mem => ⟨p,recs,busy,staged,mem⟩
  have logged : ∀ r ∈ recs, r ∈ s.log := fun r mem => (pass.source recs staged r mem).1
  have applied := applyKeeps dialect phase inv flying (pass.separate recs staged) logged advances reaches
  refine edgeKeeps applied (fun x new => ?_) fun x other new none => ?_
  · cases new
    have now := applied.passes i j p busy
    refine passUnstaged rfl now.apart now.unconsumed now.queued now.keys now.covered now.distinct fun done r mem node key => ?_
    rcases Bool.or_eq_true_iff.mp done with before | deletes
    · exact now.shipped before r mem node key
    · rcases now.fresh recs staged r mem node key with ⟨x,hx,same,above⟩ | outside
      · exact .inl (seenOlder (deliveredSeen inv hx deletes) same.symm above)
      · exact .inr outside
  · cases new
    cases none

theorem shipKeeps {p recs} (phase pt later) (inv : Inv name base loads s) (busy : s.edge i j = some p)
    (staged : p.staged = some recs) : Inv name base loads (ship dialect s i j p recs phase pt later) := by
  obtain ⟨advances,reaches⟩ := observeBound (s.member j).clock pt recs
  cases phase with
  | upsert => exact arrivalKeeps .upsert inv busy staged advances reaches
  | delete =>
    -- the delete transaction observes the batch a second time
    obtain ⟨again,reached⟩ := observeBound (observeFromStaging (s.member j).clock pt recs) later recs
    exact arrivalKeeps .delete inv busy staged (advances.trans again) reached

omit [DecidableEq K] in
theorem edgeCleared (s : World K V N) (i j : N) : (s.setEdge i j none).edge i j = none := by
  simp [World.setEdge,put]

omit [DecidableEq K] in
theorem stampsDistinct {rows : K → Option V} {op : RowOp K V} (legal : op.legal rows = true) :
    (op.stamps.map Stamped.key).Nodup := by
  cases op with
  | rekey old new row oldId newId =>
    obtain ⟨there,free⟩ := Bool.and_eq_true_iff.mp legal
    refine nodup_cons.mpr ⟨fun same => ?_,nodup_singleton _⟩
    have equal : old = new := mem_singleton.mp same
    rw [equal,Option.isNone_iff_eq_none.mp free] at there
    cases there
  | _ => exact nodup_singleton _

section
variable (inv : Inv name base loads s)
include inv

theorem endKeeps : Inv name base loads (s.setEdge i j none) :=
  edgeKeeps inv (fun _ new => by cases new) fun _ _ new => by cases new

theorem copyKeeps {x} (none : ∀ y k, x = some y → y.loaded (y.chunk k) = true → Open s i j k) :
    Inv name base loads (s.setCopy i j x) := by
  refine bookKeeps inv inv.written fun a b r opened => inv.repaired a b r ?_
  rcases copyOpens opened with before | ⟨rfl,rfl,y,new,loaded⟩
  · exact before
  · exact none y _ new loaded

theorem confirmKeeps {p} (busy : s.edge i j = some p) (done : p.shipped = true) :
    Inv name base loads ((s.set i { s.member i with queue := confirmConsumed (s.member i).queue (name j) p.ids }).setEdge i j none) := by
  have pass := inv.passes i j p busy
  have other : ∀ l d, l ≠ j ∨ d ∉ p.ids → ¬Consumed (s.member i).queue (name l) d →
      ¬Consumed (confirmConsumed (s.member i).queue (name j) p.ids) (name l) d := by
    intro l d apart left now
    rcases confirmedIff.mp now with old | ⟨same,listed⟩
    · exact left old
    · rcases apart with apart | out
      · exact apart (name.injective same)
      · exact out listed
  refine queueKeeps (s := s.setEdge i j none) (endKeeps inv) (fun _ mem => mem) (fun d _ l left held => ?_)
    (fun l x still d mem left => ⟨mem,other l d.id (.inl ?_) left⟩) fun l r _ mem node unseen held => ?_
  · exact left (confirmedIff.mpr (.inl held))
  · rintro rfl
    rw [edgeCleared] at still
    cases still
  · obtain ⟨d,hd,key,left,_⟩ := held
    by_cases same : l = j
    · subst same
      by_cases listed : d.id ∈ p.ids
      · rcases pass.shipped done r mem node (key ▸ pass.covered d hd listed) with seen | ⟨e,he,ekey,open_,out⟩
        · exact absurd seen unseen
        · exact ⟨e,he,ekey,other l e.id (.inr out) open_⟩
      · exact ⟨d,hd,key,other l d.id (.inr listed) left⟩
    · exact ⟨d,hd,key,other l d.id (.inl same) left⟩

theorem enforceKeeps {probe} (idle : Idle s i j)
    (shared : Shared name s i j (!(overCapTargets dialect (s.member i).queue [name j] ret probe).isEmpty)) :
    Inv name base loads (enforce dialect ret name s i j probe) := by
  have reseeded := purgeReseeds dialect (s.member i).queue [name j] ret probe
  have left : ∀ l d, ¬Consumed (s.member i).queue (name l) d →
      ¬Consumed (purge dialect (s.member i).queue [name j] ret probe).1 (name l) d :=
    fun l d left now => left (purgeConsumedIff.mp now).1
  have raised : Inv name base loads (s.setFlag i j
      (s.needsReseed i j || !(purge dialect (s.member i).queue [name j] ret probe).2.targetsReseeded.isEmpty)) :=
    bookKeeps inv inv.written fun a b r opened =>
      inv.repaired a b r (flagOpens opened fun none => .inl (Bool.or_eq_false_iff.mp none).1)
  refine queueKeeps raised (fun d mem => (memPurge.mp mem).1) (fun d mem l open_ held => ?_)
    (fun l p busy d mem open_ => ?_) fun l r opened mem node unseen held => ?_
  · apply open_
    refine purgeConsumedIff.mpr ⟨held,fun listed => ?_⟩
    rw [reseeded] at listed
    rw [(soleCap listed).1] at listed
    exact soleTargetEmptied listed d mem
  · refine ⟨?_,left l d.id open_⟩
    by_contra out
    have apart : l ≠ j := by
      rintro rfl
      cases idle.2.1.symm.trans busy
    rcases shared d mem (soleGone mem out) l (inv.passes i l p busy).apart.symm apart with consumed | ⟨_,rest⟩
    · exact open_ consumed
    · cases rest.symm.trans busy
  · obtain ⟨d,hd,key,open_,_⟩ := held
    refine ⟨d,?_,key,left l d.id open_⟩
    by_contra out
    have foreign : l ≠ i := by
      rintro rfl
      exact unseen ⟨r,node ▸ inv.own r mem,rfl,le_refl _⟩
    by_cases same : l = j
    · subst same
      rcases opened with clear | ⟨x,copied,_⟩
      · have none := (update_self ..).symm.trans ((congrFun (update_self ..) l).symm.trans clear)
        rw [reseeded] at none
        rcases soleGone (q := (s.member i).queue) hd out with hit | consumed
        · rw [hit,Bool.or_true] at none
          cases none
        · exact open_ consumed
      · cases idle.2.2.symm.trans copied
    · rcases shared d hd (soleGone hd out) l foreign same with consumed | ⟨shut,_⟩
      · exact open_ consumed
      · refine shut (key.symm ▸ flagOpens opened fun none => .inl (Bool.or_eq_false_iff.mp none).1)

theorem flagKeeps : Inv name base loads (s.setFlag i j true) :=
  bookKeeps inv inv.written fun a b r opened => inv.repaired a b r (flagOpens opened fun none => by cases none)

theorem unflagKeeps {x} (busy : s.copy i j = some x) (all : ∀ c < x.count, x.loaded c = true) :
    Inv name base loads ((s.setFlag i j false).setCopy i j none) := by
  have loaded : ∀ k, Open s i j k := fun k => .inr ⟨x,busy,all _ (x.inside k)⟩
  refine bookKeeps (s := s) inv inv.written fun a b r opened => inv.repaired a b r ?_
  rcases copyOpens opened with before | ⟨_,_,y,new,_⟩
  · exact flagOpens before fun _ => loaded r.key
  · cases new

theorem capturedKeeps {pt now op} (aware : loads → Aware name s i op)
    (legal : op.legal (s.member i).replica.rows = true) (ok : captured s i pt now op.stamps = some t) : Inv name base loads t := by
  obtain ⟨q,queued,rfl⟩ := Option.map_eq_some_iff.mp ok
  exact captureKeeps (capturesOf (stampsDistinct legal) queued) inv fun c mem a b r opened missed =>
    aware (inv.repaired a b r opened missed).1 c mem a b r opened missed

theorem clientKeeps {pt now op} (aware : loads → Aware name s i op)
    (ok : client s i pt now op = some t) : Inv name base loads t := by
  unfold client at ok
  dsimp only at ok
  split at ok
  · rename_i legal
    obtain ⟨u,event,rfl⟩ := Option.map_eq_some_iff.mp ok
    have next := capturedKeeps inv aware legal event
    refine bookKeeps next (fun r mem => ?_) fun a b r opened => next.repaired a b r opened
    obtain ⟨q,_,rfl⟩ := Option.map_eq_some_iff.mp event
    rcases mem_append.mp mem with old | new
    · exact next.written r old
    · exact mem_append_right _ new
  · cases ok

theorem clearKeeps {now cleared}
    (aware : Along (clearRow j now) (fun s c => loads → Aware name s j (.delete c.1 c.2.2)) s cleared)
    (ok : run (clearRow j now) s cleared = some t) : Inv name base loads t := by
  refine runKeeps (P := Inv name base loads) (fun s c t inv aware took => ?_) aware ok inv
  unfold clearRow at took
  split at took
  · rename_i legal
    exact capturedKeeps inv aware legal took
  · cases took

end

variable [Inhabited V] in
theorem stepKeeps {a} (inv : Inv name base loads s) (careful : Careful dialect ret name sig loads s a)
    (ok : step dialect ret name sig s a = some t) : Inv name base loads t := by
  cases stepTaken dialect ret name sig ok with
  | client ok => exact clientKeeps inv careful ok
  | nothing => exact inv
  | gather apart => exact gatherKeeps inv apart careful
  | reread busy => exact rereadKeeps inv busy
  | ship busy staged => exact shipKeeps _ _ _ inv busy staged
  | confirm busy done => exact confirmKeeps inv busy done
  | stop => exact copyKeeps (endKeeps inv) fun _ _ none => by cases none
  | enforce idle => exact enforceKeeps inv idle careful
  | gc => exact gcKeeps inv careful
  | clear _ emptied =>
    refine copyKeeps (clearKeeps inv careful emptied) fun y k new loaded => ?_
    cases new
    cases loaded
  | read busy =>
    refine bookKeeps inv inv.written fun a b r opened => inv.repaired a b r ?_
    rcases chunkOpens busy opened with before | ⟨_,_,_,none⟩
    · exact before
    · cases none
  | load busy read => exact loadKeeps inv careful.1 busy read (careful.2 _ busy)
  | unflag busy all => exact unflagKeeps inv busy all
  | clock => exact clockKeeps inv (observeAdvances _ _ _ _).1.le
  | flag => exact flagKeeps inv

def Drained (name : N ↪ TargetID) (s : World K V N) : Prop :=
  ∀ i j, i ≠ j → ∀ d ∈ (s.member i).queue.deltas, Consumed (s.member i).queue (name j) d.id

theorem drainedRows (inv : Inv name base loads s) (drained : Drained name s)
    (clear : ∀ i j, s.needsReseed i j = false) (i k) :
    (s.member i).replica.rows k = shown base k (winner s.log k) := by
  by_cases all : ∀ r ∈ s.log, r.key = k → Seen s i r
  · exact seenAllRow inv all
  · push Not at all
    obtain ⟨r,mem,key,unseen⟩ := all
    cases top : winner s.log k with
    | none => exact absurd key (winnerNone.mp top r mem)
    | some m =>
      obtain ⟨hm,same,newest⟩ := winnerTop top
      have missing : ¬Seen s i m := fun seen => unseen (seenOlder seen (key.trans same.symm) (newest r mem key))
      have apart : m.version.node ≠ i := fun own => missing ⟨m,own ▸ inv.own m hm,rfl,le_refl _⟩
      have missed : Missed name s m.version.node i m := by
        refine ⟨hm,rfl,missing,fun ⟨d,hd,_,left,_⟩ => ?_⟩
        exact left (drained _ i apart d hd)
      have row := (inv.repaired _ i m (.inl (clear _ i)) missed).2.row
      subst same
      exact row newest

end Replicare.Mesh
