import Replicare.FkComponents
import Replicare.RowLoad

/-! The reseed of a component: its tables are cleared from the last of the order to the first,
each by one DELETE, and copied again from the first to the last. -/
namespace Replicare.ReseedOrder
open Engine Relations Chunks ChunkNulls ChunkBlocks FkComponents FkGraph Kahn Landing PgCycles RowLoad List

def leftovers (dialect : Dialect) (rows : List Row) : List (List Row) :=
  match dialect with
  | .postgres => [[]]
  | .mysql => rows.tails

def outside (cleared : List TableRef) (db : List Tagged) : List Tagged := db.filter fun e => !decide (e.1 ∈ cleared)

def deleteRange (site : Site) (db : List Tagged) (r : TableRef) : Option (List Tagged) :=
  (leftovers site.dialect (rowsOf db r)).foldlM
    (fun _ left => settle (Met site.members.fks) (outside [r] db++left.map fun x => (r,x))) db

def run (site : Site) (schedule : Schedule) (tablesTopo : List TableRef) (target : List Tagged) : Option (List Tagged) := do
  let db ← tablesTopo.reverse.foldlM (deleteRange site) target
  copyComponent site schedule tablesTopo db

/- The component as the source's engine builds it. -/
def component (site : Site) : Component :=
  match site.dialect with
  | .postgres => pgBuildComponent site.members
  | .mysql => buildComponent site.members

/- The foreign key of a child that is loaded before its parent. -/
def Late (site : Site) (fk : ForeignKey) : Prop :=
  match site.dialect with
  | .postgres => OnCycle site.members fk ∧ Before (nonCyclicTopoOrder site.members) fk.child fk.parent
  | .mysql => Inverted site.members fk

section Leftovers
variable {dialect : Dialect} {rows : List Row}

theorem leftoversEnd (dialect) (rows) : ∃ front, leftovers dialect rows = front++[[]] := by
  cases dialect with
  | postgres => exact ⟨[],rfl⟩
  | mysql =>
    simp only [leftovers]
    induction rows with
    | nil => exact ⟨[],rfl⟩
    | cons x rows ih =>
      obtain ⟨front,split⟩ := ih
      exact ⟨(x::rows)::front,by rw [tails_cons,split]; rfl⟩

theorem leftoversNone : [] ∈ leftovers dialect rows := by
  obtain ⟨front,split⟩ := leftoversEnd dialect rows
  rw [split]
  exact mem_append_right _ mem_cons_self

theorem leftoversSub {left} (mem : left ∈ leftovers dialect rows) : ∀ x ∈ left, x ∈ rows := by
  cases dialect with
  | postgres =>
    cases mem_singleton.mp mem
    exact fun x none => absurd none not_mem_nil
  | mysql =>
    have tail : left <:+ rows := (mem_tails _ _).mp mem
    exact fun x here => tail.subset here

def Dropped (dialect : Dialect) (fk : ForeignKey) (rows : List Row) : Prop :=
  ∀ left ∈ leftovers dialect rows, ∀ x ∈ left, Complete fk x → ∃ y ∈ left, references fk x y

theorem droppedIff {fk} : Dropped dialect fk rows ↔
    (dialect = .mysql → ∀ front x back, rows = front++x::back → Complete fk x → ∃ y ∈ x::back, references fk x y) := by
  cases dialect with
  | postgres => simp [Dropped,leftovers]
  | mysql =>
    simp only [Dropped,leftovers,forall_const,mem_tails]
    constructor
    · rintro dropped front x back rfl complete
      exact dropped (x::back) (suffix_append _ _) x mem_cons_self complete
    · rintro later left ⟨front,rfl⟩ x mem complete
      obtain ⟨early,back,rfl⟩ := append_of_mem mem
      obtain ⟨y,here,found⟩ := later (front++early) x back (by simp) complete
      exact ⟨y,mem_append_right _ here,found⟩

end Leftovers

section Clear
variable {site : Site} {target : List Tagged} {cleared : List TableRef} {r : TableRef}

theorem memOutside {e} : e ∈ outside cleared target ↔ e ∈ target ∧ e.1 ∉ cleared := by simp [outside]

theorem memRowsOf {x} : x ∈ rowsOf target r ↔ (r,x) ∈ target := by
  simp only [rowsOf,mem_map,mem_filter,decide_eq_true_eq]
  constructor
  · rintro ⟨⟨_,x⟩,⟨mem,rfl⟩,rfl⟩
    exact mem
  · intro mem
    exact ⟨(r,x),⟨mem,rfl⟩,rfl⟩

theorem outsideCons : outside [r] (outside cleared target) = outside (r::cleared) target := by
  simp [outside,filter_filter]

theorem rowsOutside (fresh : r ∉ cleared) : rowsOf (outside cleared target) r = rowsOf target r := by
  unfold rowsOf outside
  rw [filter_filter]
  refine congrArg (List.map Prod.snd) (filter_congr fun e _ => ?_)
  by_cases same : e.1 = r <;> simp [same,fresh]

theorem deleteIff {out} : deleteRange site target r = some out ↔
    (∀ left ∈ leftovers site.dialect (rowsOf target r), ∀ e ∈ outside [r] target++left.map (fun x => (r,x)),
      Met site.members.fks (outside [r] target++left.map fun x => (r,x)) e) ∧ out = outside [r] target := by
  obtain ⟨front,split⟩ := leftoversEnd site.dialect (rowsOf target r)
  rw [deleteRange,split,settlesIff]
  simp

def Free (site : Site) (target : List Tagged) (cleared : List TableRef) : Prop :=
  ∀ fk ∈ site.members.fks, fk.parent ∈ cleared → fk.child ∉ cleared → ∀ x ∈ rowsOf target fk.child, ¬Complete fk x

variable (consistent : ∀ e ∈ target, Met site.members.fks target e)
include consistent

theorem keptMet {fk} (known : fk ∈ site.members.fks) {x} (here : (fk.child,x) ∈ target) (complete : Complete fk x)
    (stays : fk.parent ∉ cleared) : ∃ p ∈ outside cleared target, p.1 = fk.parent ∧ references fk x p.2 := by
  obtain ⟨p,mem,parent,found⟩ := consistent _ here fk known rfl complete
  exact ⟨p,memOutside.mpr ⟨mem,parent ▸ stays⟩,parent,found⟩

theorem nextFree (free : Free site target cleared) (fresh : r ∉ cleared) :
    (∀ left ∈ leftovers site.dialect (rowsOf target r), ∀ e ∈ outside (r::cleared) target++left.map (fun x => (r,x)),
      Met site.members.fks (outside (r::cleared) target++left.map fun x => (r,x)) e) ↔
    Free site target (r::cleared) ∧ ∀ fk ∈ site.members.fks, fk.child = r → fk.parent = r → Dropped site.dialect fk (rowsOf target r) := by
  constructor
  · intro passes
    constructor
    · intro fk known parent child x mem complete
      have here : (fk.child,x) ∈ outside (r::cleared) target := memOutside.mpr ⟨memRowsOf.mp mem,child⟩
      obtain ⟨p,found,same,_⟩ := passes [] leftoversNone (fk.child,x) (mem_append_left _ here) fk known rfl complete
      rw [map_nil,append_nil] at found
      exact (memOutside.mp found).2 (same ▸ parent)
    · intro fk known child parent left mem x here complete
      obtain ⟨p,found,same,refers⟩ := passes left mem (r,x) (mem_append_right _ (mem_map_of_mem here)) fk known child complete
      rcases mem_append.mp found with other | own
      · exact absurd (by rw [same,parent]; exact mem_cons_self) (memOutside.mp other).2
      · obtain ⟨y,close,rfl⟩ := mem_map.mp own
        exact ⟨y,close,refers⟩
  · rintro ⟨next,dropped⟩ left mem e here fk known child complete
    rcases mem_append.mp here with other | own
    · obtain ⟨there,stays⟩ := memOutside.mp other
      obtain ⟨_,x⟩ := e
      cases child
      have parent : fk.parent ∉ r::cleared := fun gone => next fk known gone stays x (memRowsOf.mpr there) complete
      obtain ⟨p,found,refers⟩ := keptMet consistent known there complete parent
      exact ⟨p,mem_append_left _ found,refers⟩
    · obtain ⟨x,close,rfl⟩ := mem_map.mp own
      obtain rfl : fk.child = r := child
      have listed := leftoversSub mem x close
      by_cases same : fk.parent = fk.child
      · obtain ⟨y,near,refers⟩ := dropped fk known rfl same left mem x close complete
        exact ⟨(fk.child,y),mem_append_right _ (mem_map_of_mem near),same.symm,refers⟩
      · have parent : fk.parent ∉ fk.child::cleared := by
          intro gone
          rcases mem_cons.mp gone with here | before
          · exact same here
          · exact free fk known before fresh x listed complete
        obtain ⟨p,found,refers⟩ := keptMet consistent known (memRowsOf.mp listed) complete parent
        exact ⟨p,mem_append_left _ found,refers⟩

theorem clearIff {tables} (distinct : (tables++cleared).Nodup) (free : Free site target cleared) {out} :
    tables.foldlM (deleteRange site) (outside cleared target) = some out ↔
      (∀ front r back, tables = front++r::back → Free site target (r::(front.reverse++cleared))) ∧
      (∀ r ∈ tables, ∀ fk ∈ site.members.fks, fk.child = r → fk.parent = r → Dropped site.dialect fk (rowsOf target r)) ∧
      out = outside (tables.reverse++cleared) target := by
  induction tables generalizing cleared with
  | nil => simp [eq_comm]
  | cons r tables ih =>
    rw [cons_append,nodup_cons] at distinct
    have fresh : r ∉ cleared := fun here => distinct.1 (mem_append_right _ here)
    have middle : (tables++r::cleared).Nodup := nodup_middle.mpr (nodup_cons.mpr distinct)
    have first : ∀ db, deleteRange site (outside cleared target) r = some db ↔
        (Free site target (r::cleared) ∧ ∀ fk ∈ site.members.fks, fk.child = r → fk.parent = r → Dropped site.dialect fk (rowsOf target r)) ∧
          db = outside (r::cleared) target := by
      intro db
      rw [deleteIff,rowsOutside fresh,outsideCons,nextFree consistent free fresh]
    rw [foldlM_cons]
    constructor
    · intro ok
      obtain ⟨db,deleted,rest⟩ := Option.bind_eq_some_iff.mp ok
      obtain ⟨⟨next,dropped⟩,rfl⟩ := (first db).mp deleted
      obtain ⟨frees,drops,rfl⟩ := (ih middle next).mp rest
      refine ⟨fun front r' back split => ?_,forall_mem_cons.mpr ⟨dropped,drops⟩,by simp⟩
      rcases cons_eq_append_iff.mp split with ⟨rfl,head⟩ | ⟨front',rfl,tail⟩
      · cases head
        exact next
      · have later := frees front' r' back tail
        rwa [reverse_cons,append_assoc,singleton_append]
    · rintro ⟨frees,drops,rfl⟩
      obtain ⟨dropped,rest⟩ := forall_mem_cons.mp drops
      have next : Free site target (r::cleared) := frees [] r tables rfl
      refine Option.bind_eq_some_iff.mpr ⟨_,(first _).mpr ⟨⟨next,dropped⟩,rfl⟩,(ih middle next).mpr ⟨fun front r' back split => ?_,rest,by simp⟩⟩
      have later := frees (r::front) r' back (by rw [split]; rfl)
      rwa [reverse_cons,append_assoc,singleton_append] at later

theorem clearedIff {order} (distinct : order.Nodup) (inside : ∀ fk ∈ site.members.fks, fk.child ∈ order) {out} :
    order.reverse.foldlM (deleteRange site) target = some out ↔
      (∀ fk ∈ site.members.fks, Before order fk.child fk.parent → ∀ x ∈ rowsOf target fk.child, ¬Complete fk x) ∧
      (∀ fk ∈ site.members.fks, fk.child = fk.parent → Dropped site.dialect fk (rowsOf target fk.child)) ∧ out = outside order target := by
  have whole_ : outside [] target = target := by simp [outside]
  have start : Free site target [] := fun fk _ gone => absurd gone not_mem_nil
  have cleared_ : order.reverse.foldlM (deleteRange site) (outside [] target) = some out ↔ _ :=
    clearIff consistent (by simpa using distinct) start
  rw [whole_,append_nil,reverse_reverse] at cleared_
  rw [cleared_]
  refine and_congr ⟨fun frees fk known before => ?_,fun placed front r back split fk known parent child => ?_⟩
    (and_congr_left fun _ => ⟨fun drops fk known same => ?_,fun drops r _ fk known child parent => ?_⟩)
  · obtain ⟨front,back,split,early⟩ := before
    have turned : order.reverse = back.reverse++fk.parent::front.reverse := by simp [split]
    refine frees _ _ _ turned fk known mem_cons_self fun late => ?_
    rw [append_nil,reverse_reverse] at late
    exact (nodup_append.mp (split ▸ distinct)).2.2 _ early _ late rfl
  · have turned : order = back.reverse++r::front.reverse := by
      rw [← reverse_reverse order,split]
      simp
    have early : fk.child ∈ back.reverse := by
      have listed := inside fk known
      rw [turned] at listed
      exact (mem_append.mp listed).resolve_right (by simpa using child)
    rw [append_nil] at parent
    obtain ⟨mid,rest,later⟩ := append_of_mem parent
    exact placed fk known ⟨back.reverse++mid,rest,by rw [turned,later,append_assoc],mem_append_left _ early⟩
  · exact drops fk.child (mem_reverse.mpr (inside fk known)) fk known rfl same.symm
  · cases child
    exact drops fk known parent.symm

end Clear

section Order
variable {site : Site}

theorem componentPerm (site) : (component site).order.Perm site.members.refs := by
  unfold component
  cases site.dialect with
  | postgres => exact loadOrderPerm site.identified
  | mysql => exact orderPerm site.members

theorem componentDistinct (site) : (component site).order.Nodup :=
  (componentPerm site).nodup_iff.mpr (refsDistinct site.members)

theorem lateIff {fk} (known : fk ∈ site.members.fks) : Late site fk ↔ Before (component site).order fk.child fk.parent := by
  have distinct := componentDistinct site
  unfold Late component at *
  cases dialect : site.dialect with
  | postgres =>
    simp only [dialect] at distinct ⊢
    refine ⟨And.right,fun before => ⟨?_,before⟩⟩
    by_contra acyclic
    exact (before.trans distinct (nonCyclicBefore site.identified known acyclic)).irrefl distinct
  | mysql => exact (beforeIff site.named known).symm

theorem timelyBefore {fk} (known : fk ∈ site.members.fks) (apart : fk.child ≠ fk.parent) :
    Before (component site).order fk.parent fk.child ↔ ¬Late site fk := by
  have distinct := componentDistinct site
  have inside : ∀ r ∈ site.members.refs, r ∈ (component site).order := fun r mem => (componentPerm site).mem_iff.mpr mem
  rw [lateIff known]
  refine ⟨fun first second => (first.trans distinct second).irrefl distinct,fun none => ?_⟩
  have either := beforeTotal distinct (inside _ (fkInside known).2) (inside _ (fkInside known).1)
  exact (either.resolve_left apart.symm).resolve_right none

end Order

section Run
variable {site : Site} {target : List Tagged} (inside : ∀ e ∈ target, e.1 ∈ site.members.refs)
  (consistent : ∀ e ∈ target, Met site.members.fks target e)
include inside consistent

theorem emptiedIff {out} : (component site).order.reverse.foldlM (deleteRange site) target = some out ↔
    ((∀ fk ∈ site.members.fks, Late site fk → ∀ x ∈ rowsOf target fk.child, ¬Complete fk x) ∧
      ∀ fk ∈ site.members.fks, fk.child = fk.parent → Dropped site.dialect fk (rowsOf target fk.child)) ∧ out = [] := by
  have perm := componentPerm site
  have none : outside (component site).order target = [] := by
    refine filter_eq_nil_iff.mpr fun e mem => ?_
    simpa using perm.mem_iff.mpr (inside e mem)
  rw [clearedIff consistent (componentDistinct site) fun fk known => perm.mem_iff.mpr (fkInside known).1,none,and_assoc]
  refine and_congr_left fun _ => forall₂_congr fun fk known => ?_
  rw [lateIff known]

theorem runIff : Reaches site (fun schedule => run site schedule (component site).order target) ↔
    ((∀ fk ∈ site.members.fks, Late site fk → ∀ x ∈ rowsOf target fk.child, ¬Complete fk x) ∧
      ∀ fk ∈ site.members.fks, fk.child = fk.parent → Dropped site.dialect fk (rowsOf target fk.child)) ∧
    Reaches site (fun schedule => copyComponent site schedule (component site).order []) := by
  constructor
  · intro reaches
    refine ⟨?_,fun schedule shuffled => ?_⟩
    · obtain ⟨out,ok,_⟩ := reaches (fun _ l => l) fun _ l => List.Perm.refl l
      obtain ⟨db,cleared,_⟩ := Option.bind_eq_some_iff.mp ok
      exact ((emptiedIff inside consistent).mp cleared).1
    · obtain ⟨out,ok,equal⟩ := reaches schedule shuffled
      obtain ⟨db,cleared,copied⟩ := Option.bind_eq_some_iff.mp ok
      cases ((emptiedIff inside consistent).mp cleared).2
      exact ⟨out,copied,equal⟩
  · rintro ⟨clears,reaches⟩ schedule shuffled
    obtain ⟨out,copied,equal⟩ := reaches schedule shuffled
    exact ⟨out,Option.bind_eq_some_iff.mpr ⟨[],(emptiedIff inside consistent).mpr ⟨clears,rfl⟩,copied⟩,equal⟩

end Run

end Replicare.ReseedOrder
