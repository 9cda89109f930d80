import Replicare.UnionFind
import Replicare.PgCycles

/-! The FK components of a selection, as the shared analysis and the one of the Postgres
engine compute them: both group the tables with a union-find over the foreign keys within the
selection, and differ in how they order a group and in which of its tables they call cyclic. -/
namespace Replicare.FkComponents
open Engine Relation Kahn FkGraph PgPreflight PgCycles UnionFind List

instance : Inhabited TableRef := ⟨⟨"",""⟩⟩

section Definitions
variable (s : Members)

def links : List (TableRef × TableRef) := s.fks.map fun fk => (fk.child,fk.parent)

def tableRoots : List TableRef :=
  let fuel := (links s).length+1
  roots fuel ((links s).foldl (fun u e => union fuel u e.1 e.2) (s.refs.foldl add Forest.empty)) s.refs

def grouped (root : TableRef) : List Table := ((s.tables.zip (tableRoots s)).filter fun p => decide (p.2 = root)).map Prod.fst

theorem groupedSublist (root) : (grouped s root).Sublist s.tables := by
  have long : s.tables.length ≤ (tableRoots s).length := by
    rw [tableRoots,rootsLength,Members.refs,length_map]
  have kept := (filter_sublist (l := s.tables.zip (tableRoots s)) (p := fun p => decide (p.2 = root))).map Prod.fst
  rwa [map_fst_zip long] at kept

def group (root : TableRef) : Members where
  tables := grouped s root
  distinct := s.distinct.sublist ((groupedSublist s root).map _)
  own := fun t mem => s.own t ((groupedSublist s root).subset mem)

def groups : List Members := (tableRoots s).dedup.map (group s)

/- The name of `Tables[0]`. -/
def firstName (c : Component) : String := (c.tables.headD default).string

def componentsBy (build : Members → Component) : List Component :=
  ((groups s).map build).insertionSort fun a b => firstName a ≤ firstName b

def components : List Component := componentsBy s buildComponent

def cyclicMember : List TableRef := sortRefs ((cyclicFKs s).flatMap fun c => [c.fk.child,c.fk.parent]).dedup

def pgTopoOrder : List TableRef × List TableRef := (nonCyclicTopoOrder s,cyclicMember s)

def pgBuildComponent : Component := ⟨sortRefs s.refs,(pgTopoOrder s).1,(pgTopoOrder s).2⟩

/- The analysis of the Postgres engine. -/
def computeComponents : List Component := componentsBy s pgBuildComponent

def Connected : TableRef → TableRef → Prop := EqvGen (Refers s)

end Definitions

variable {s g : Members}

theorem labelled (s) : ∃ label : TableRef → TableRef, tableRoots s = s.refs.map label ∧
    (∀ r r', label r = label r' ↔ Connected s r r') ∧ ∀ root, (group s root).refs = s.refs.filter fun r => decide (label r = root) := by
  obtain ⟨label,marked,classes⟩ := partitioned s.refs (links s) ((links s).length+1) (Nat.lt_succ_self _)
  have marked : tableRoots s = s.refs.map label := marked
  have edge : (fun r r' => (r,r') ∈ links s) = Refers s := by
    funext r r'
    simp [links,Refers]
  refine ⟨label,marked,fun r r' => ?_,fun root => ?_⟩
  · rw [classes r r',edge,Connected]
  · have pairs : s.tables.zip (tableRoots s) = s.tables.map fun t => (t,label t.ref) := by
      rw [marked,Members.refs,List.map_map]
      have both := zip_map' (f := id) (g := label ∘ Table.ref) (l := s.tables)
      rwa [map_id] at both
    have listed : grouped s root = s.tables.filter fun t => decide (label t.ref = root) := by
      rw [grouped,pairs,filter_map,List.map_map]
      exact map_id _
    rw [Members.refs,Members.refs,filter_map]
    exact congrArg _ listed

/- One of the groups of a selection. -/
structure Part (s g : Members) : Prop where
  inside : ∀ t ∈ g.tables, t ∈ s.tables
  kept : ∃ p : TableRef → Bool, g.refs = s.refs.filter p
  some : ∃ r, r ∈ g.refs
  whole : ∀ r ∈ g.refs, ∀ r', r' ∈ g.refs ↔ r' ∈ s.refs ∧ Connected s r r'

theorem groupPart (mem : g ∈ groups s) : Part s g := by
  obtain ⟨label,marked,classes,listed⟩ := labelled s
  obtain ⟨root,known,rfl⟩ := mem_map.mp mem
  rw [mem_dedup,marked] at known
  obtain ⟨first,there,rfl⟩ := mem_map.mp known
  have memRefs : ∀ r, r ∈ (group s (label first)).refs ↔ r ∈ s.refs ∧ label r = label first := by
    intro r
    rw [listed,mem_filter,decide_eq_true_eq]
  refine ⟨fun t mem => (groupedSublist s _).subset mem,⟨_,listed _⟩,⟨first,(memRefs first).mpr ⟨there,rfl⟩⟩,fun r mem r' => ?_⟩
  have same := ((memRefs r).mp mem).2
  rw [memRefs,← classes,same]
  exact and_congr_right fun _ => eq_comm

theorem groupsCover (s) : ((groups s).flatMap Members.refs).Perm s.refs := by
  obtain ⟨label,marked,classes,listed⟩ := labelled s
  have memRefs : ∀ root r, r ∈ (group s root).refs ↔ r ∈ s.refs ∧ label r = root := by
    intro root r
    rw [listed,mem_filter,decide_eq_true_eq]
  rw [groups,flatMap_map]
  refine (perm_ext_iff_of_nodup ?_ (refsDistinct s)).mpr fun r => ?_
  · refine nodup_flatMap.mpr ⟨fun root _ => refsDistinct _,(nodup_dedup _).imp fun {a b} apart r one two => apart ?_⟩
    rw [← ((memRefs a r).mp one).2,((memRefs b r).mp two).2]
  · simp only [mem_flatMap,mem_dedup,memRefs,marked,mem_map]
    constructor
    · rintro ⟨_,_,known,_⟩
      exact known
    · intro known
      exact ⟨label r,⟨r,known,rfl⟩,known,rfl⟩

section Part
variable (part : Part s g) {fk : ForeignKey} {r r' : TableRef}
include part

theorem Part.known (mem : r ∈ g.refs) : r ∈ s.refs := ((part.whole r mem r).mp mem).1

theorem Part.fks : fk ∈ g.fks ↔ fk ∈ s.fks ∧ fk.child ∈ g.refs := by
  constructor
  · exact fun mem => ⟨fksInside part.inside mem,(fkInside mem).1⟩
  · rintro ⟨mem,child⟩
    have linked : Connected s fk.child fk.parent := .rel _ _ ⟨fk,mem,rfl,rfl⟩
    have parent := (part.whole _ child _).mpr ⟨(fkInside mem).2,linked⟩
    obtain ⟨t,listed,held⟩ := mem_flatMap.mp (mem_filter.mp mem).1
    obtain ⟨t',here,name⟩ := mem_map.mp child
    have same : t' = t := inj_on_of_nodup_map s.distinct (part.inside t' here) listed (name.trans (s.own t listed fk held))
    subst same
    exact mem_filter.mpr ⟨mem_flatMap.mpr ⟨t',here,held⟩,decide_eq_true parent⟩

section
variable (mem : r ∈ g.refs)
include mem

theorem Part.refers : Refers g r r' ↔ Refers s r r' := by
  constructor
  · rintro ⟨fk,known,child,parent⟩
    exact ⟨fk,(part.fks.mp known).1,child,parent⟩
  · rintro ⟨fk,known,child,parent⟩
    exact ⟨fk,part.fks.mpr ⟨known,child ▸ mem⟩,child,parent⟩

theorem Part.stays (step : Refers s r r') : r' ∈ g.refs := by
  obtain ⟨fk,known,_,parent⟩ := (part.refers mem).mpr step
  exact parent ▸ (fkInside known).2

theorem Part.reaches (path : ReflTransGen (Refers s) r r') : r' ∈ g.refs := by
  induction path with
  | refl => exact mem
  | tail _ step ih => exact part.stays ih step

theorem Part.path : ReflTransGen (Refers g) r r' ↔ ReflTransGen (Refers s) r r' := by
  refine ⟨fun path => ReflTransGen.mono ?_ _ _ path,fun path => ?_⟩
  · rintro a b ⟨fk,known,child,parent⟩
    exact ⟨fk,(part.fks.mp known).1,child,parent⟩
  · induction path with
    | refl => exact .refl
    | tail before step ih => exact .tail ih ((part.refers (part.reaches mem before)).mpr step)

theorem Part.loop : TransGen (Refers g) r r ↔ TransGen (Refers s) r r := by
  rw [TransGen.head'_iff,TransGen.head'_iff]
  refine exists_congr fun next => ?_
  rw [part.refers mem]
  exact and_congr_right fun step => part.path (part.stays mem step)

end

theorem Part.onCycle (mem : fk ∈ g.fks) : OnCycle g fk ↔ OnCycle s fk := part.path (fkInside mem).2

theorem Part.below (mem : r ∈ g.refs) : BelowCycle g r ↔ BelowCycle s r := by
  refine exists_congr fun u => ?_
  rw [part.path mem]
  exact and_congr_right fun path => part.loop (part.reaches mem path)

theorem Part.misplaced (mem : fk ∈ g.fks) : Misplaced g fk ↔ Misplaced s fk := by
  obtain ⟨child,parent⟩ := fkInside mem
  obtain ⟨p,kept⟩ := part.kept
  rw [Misplaced,Misplaced,part.below parent]
  refine and_congr_right fun _ => or_congr_right (and_congr_right fun _ => ?_)
  rw [kept] at child parent ⊢
  exact beforeFilter (refsDistinct s) child parent

end Part

theorem builtSorted (build) (tables : ∀ m, (build m).tables = sortRefs m.refs) :
    componentsBy s build = ((groups s).insertionSort fun a b => ((sortRefs a.refs).headD default).string ≤
      ((sortRefs b.refs).headD default).string).map build := by
  refine (map_insertionSort _ _ build (groups s) fun a _ b _ => ?_).symm
  rw [firstName,firstName,tables,tables]

theorem memBuilt {build c} : c ∈ componentsBy s build ↔ ∃ g ∈ groups s, build g = c := by
  rw [componentsBy,mem_insertionSort,mem_map]

theorem memCyclicMember {r} : r ∈ cyclicMember g ↔ TransGen (Refers g) r r := by
  simp only [cyclicMember,(sortPerm _).mem_iff,mem_dedup,mem_flatMap,mem_cons,not_mem_nil,or_false]
  constructor
  · rintro ⟨c,mem,ends⟩
    obtain ⟨fk,known,cycle,rfl⟩ := memCyclic.mp mem
    have step : Refers g fk.child fk.parent := ⟨fk,known,rfl,rfl⟩
    rw [classifyOneFk] at ends
    rcases ends with rfl | rfl
    · exact .head' step cycle
    · exact .tail' cycle step
  · intro loop
    obtain ⟨next,⟨fk,known,rfl,rfl⟩,back⟩ := TransGen.head'_iff.mp loop
    exact ⟨classifyOne fk g.tables,memCyclic.mpr ⟨fk,known,back,rfl⟩,.inl (by rw [classifyOneFk])⟩

structure Analysis (s : Members) (comps : List Component) : Prop where
  cover : (comps.flatMap Component.tables).Perm s.refs
  some : ∀ c ∈ comps, c.tables ≠ []
  connected : ∀ c ∈ comps, ∀ r ∈ c.tables, ∀ r', r' ∈ c.tables ↔ r' ∈ s.refs ∧ Connected s r r'
  perm : ∀ c ∈ comps, c.order.Perm c.tables
  parents : ∀ c ∈ comps, ∀ fk ∈ s.fks, fk.child ∈ c.tables → ¬OnCycle s fk → Before c.order fk.parent fk.child
  cyclic : ∀ c ∈ comps, c.cyclic.Nodup ∧ ∀ r, r ∈ c.cyclic ↔ r ∈ c.tables ∧ TransGen (Refers s) r r

theorem memSorted {refs r} : r ∈ sortRefs refs ↔ r ∈ refs := (sortPerm refs).mem_iff

theorem builtCover (build) (tables : ∀ m, (build m).tables = sortRefs m.refs) :
    ((componentsBy s build).flatMap Component.tables).Perm s.refs := by
  have sorted : (componentsBy s build).Perm ((groups s).map build) := perm_insertionSort _ _
  refine (sorted.flatMap_right _).trans (.trans ?_ (groupsCover s))
  rw [flatMap_map]
  exact List.Perm.flatMap_left _ fun g _ => (tables g ▸ sortPerm g.refs)

theorem Part.identified (part : Part s g) (identified : ∀ fk ∈ s.fks, ∀ other ∈ s.fks, fkKey fk = fkKey other → fk = other) :
    ∀ fk ∈ g.fks, ∀ other ∈ g.fks, fkKey fk = fkKey other → fk = other := fun fk one other two =>
  identified fk (part.fks.mp one).1 other (part.fks.mp two).1

theorem computeComponentsAnalysis (identified : ∀ fk ∈ s.fks, ∀ other ∈ s.fks, fkKey fk = fkKey other → fk = other) :
    Analysis s (computeComponents s) where
  cover := builtCover _ fun _ => rfl
  some := by
    intro c mem
    obtain ⟨g,listed,rfl⟩ := memBuilt.mp mem
    obtain ⟨r,known⟩ := (groupPart listed).some
    exact ne_nil_of_mem (memSorted.mpr known)
  connected := by
    intro c mem r here r'
    obtain ⟨g,listed,rfl⟩ := memBuilt.mp mem
    exact memSorted.trans ((groupPart listed).whole r (memSorted.mp here) r')
  perm := by
    intro c mem
    obtain ⟨g,listed,rfl⟩ := memBuilt.mp mem
    exact (loadOrderPerm ((groupPart listed).identified identified)).trans (sortPerm g.refs).symm
  parents := by
    intro c mem fk known child acyclic
    obtain ⟨g,listed,rfl⟩ := memBuilt.mp mem
    have part := groupPart listed
    have inside := part.fks.mpr ⟨known,memSorted.mp child⟩
    exact nonCyclicBefore (part.identified identified) inside (mt (part.onCycle inside).mp acyclic)
  cyclic := by
    intro c mem
    obtain ⟨g,listed,rfl⟩ := memBuilt.mp mem
    refine ⟨(sortPerm _).nodup_iff.mpr (nodup_dedup _),fun r => ?_⟩
    refine memCyclicMember.trans (.trans ⟨fun loop => ?_,fun here => ?_⟩ (and_congr_left' memSorted).symm)
    · obtain ⟨_,⟨fk,known,rfl,_⟩,_⟩ := TransGen.head'_iff.mp loop
      have here := (fkInside known).1
      exact ⟨here,((groupPart listed).loop here).mp loop⟩
    · exact ((groupPart listed).loop here.1).mpr here.2

def rates : TableRef := ⟨"public","rates"⟩

/- `users` refers to itself and `orders` to `users`. -/
def managed : Members where
  tables :=
    [⟨users,[],none,[],[⟨"manager",users,["manager_id"],users,["id"],false⟩],""⟩,
     ⟨orders,[],none,[],[⟨"buyer",orders,["user_id"],users,["id"],false⟩],""⟩,
     ⟨rates,[],none,[],[],""⟩]
  distinct := by decide
  own := by decide

theorem managedAnalysis : Analysis managed (computeComponents managed) := computeComponentsAnalysis (by decide)

section Agree
variable (s)

structure Agree : Prop where
  same : List.Forall₂ (fun a b => a.tables = b.tables ∧ ∀ r, r ∈ a.cyclic ↔ r ∈ b.cyclic) (components s) (computeComponents s)
  parents : ∀ c ∈ components s, ∀ fk ∈ s.fks, fk.child ∈ c.tables → ¬OnCycle s fk → Before c.order fk.parent fk.child

end Agree

theorem inGroup {r} (known : r ∈ s.refs) : ∃ g ∈ groups s, r ∈ g.refs :=
  mem_flatMap.mp ((groupsCover s).mem_iff.mpr known)

theorem sameIff : List.Forall₂ (fun a b => a.tables = b.tables ∧ ∀ r, r ∈ a.cyclic ↔ r ∈ b.cyclic) (components s) (computeComponents s) ↔
    ∀ r ∈ s.refs, BelowCycle s r → TransGen (Refers s) r r := by
  rw [components,computeComponents,builtSorted buildComponent fun _ => rfl,builtSorted pgBuildComponent fun _ => rfl,
    forall₂_map_left_iff,forall₂_map_right_iff,forall₂_same]
  simp only [mem_insertionSort]
  constructor
  · intro same r known below
    obtain ⟨g,listed,here⟩ := inGroup known
    have part := groupPart listed
    have cyclic := ((same g listed).2 r).mp (memRest.mpr ⟨here,(part.below here).mpr below⟩)
    exact (part.loop here).mp (memCyclicMember.mp cyclic)
  · intro none g listed
    have part := groupPart listed
    refine ⟨rfl,fun r => memRest.trans (.trans ⟨?_,fun loop => ?_⟩ memCyclicMember.symm)⟩
    · rintro ⟨here,below⟩
      exact (part.loop here).mpr (none r (part.known here) ((part.below here).mp below))
    · obtain ⟨_,⟨fk,known,rfl,_⟩,_⟩ := TransGen.head'_iff.mp loop
      exact ⟨(fkInside known).1,_,.refl,loop⟩

theorem agreeIff : Agree s ↔ (∀ r ∈ s.refs, BelowCycle s r → TransGen (Refers s) r r) ∧ ∀ fk ∈ s.fks, ¬OnCycle s fk → ¬Misplaced s fk := by
  have places : (∀ c ∈ components s, ∀ fk ∈ s.fks, fk.child ∈ c.tables → ¬OnCycle s fk → Before c.order fk.parent fk.child) ↔
      ∀ fk ∈ s.fks, ¬OnCycle s fk → ¬Misplaced s fk := by
    have one : ∀ {g}, g ∈ groups s → ∀ fk ∈ s.fks, fk.child ∈ g.refs → ¬OnCycle s fk →
        (Before (buildComponent g).order fk.parent fk.child ↔ ¬Misplaced s fk) := by
      intro g listed fk known child acyclic
      have part := groupPart listed
      have inside := part.fks.mpr ⟨known,child⟩
      have apart : fk.child ≠ fk.parent := fun same => acyclic (onCycleSelf same)
      exact (parentIff inside apart).trans (not_congr (part.misplaced inside))
    constructor
    · intro placed fk known acyclic
      obtain ⟨g,listed,child⟩ := inGroup (fkInside known).1
      exact (one listed fk known child acyclic).mp (placed _ (memBuilt.mpr ⟨g,listed,rfl⟩) fk known (memSorted.mpr child) acyclic)
    · intro upright c mem fk known child acyclic
      obtain ⟨g,listed,rfl⟩ := memBuilt.mp mem
      exact (one listed fk known (memSorted.mp child) acyclic).mpr (upright fk known acyclic)
  rw [← sameIff,← places]
  exact ⟨fun agree => ⟨agree.same,agree.parents⟩,fun both => ⟨both.1,both.2⟩⟩

/- The shared analysis calls `orders` cyclic and puts it before `users`. -/
theorem managedDisagrees : components managed = [⟨[orders,users],[orders,users],[orders,users]⟩, ⟨[rates],[rates],[]⟩] ∧
    computeComponents managed = [⟨[orders,users],[users,orders],[users]⟩,
      ⟨[rates],[rates],[]⟩] ∧ ¬Agree managed := by
  have shared : components managed = [⟨[orders,users],[orders,users],[orders,users]⟩,
      ⟨[rates],[rates],[]⟩] := by decide +kernel
  have own : computeComponents managed = [⟨[orders,users],[users,orders],[users]⟩,
      ⟨[rates],[rates],[]⟩] := by decide +kernel
  refine ⟨shared,own,fun agree => ?_⟩
  have same := agree.same
  rw [shared,own] at same
  have first := ((forall₂_cons.mp same).1.2 orders).mp (by decide)
  exact absurd first (by decide)

end Replicare.FkComponents
