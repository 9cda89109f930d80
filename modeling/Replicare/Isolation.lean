import Replicare.JobNames

/-! The databases of a configuration by their identity, across syncs and clusters: which capture
each use of a database asks for, and what installing them one after the other leaves there. -/
namespace Replicare.Isolation
open Config JobNames List Function

def uses (c : Config) : List (Text×Option Text) :=
  (identities c).map (fun id => (id,none))++c.clusters.flatMap fun cl => cl.members.map fun m => (connIdentity (c.nodes m),nodeID c m)

structure Isolated (c : Config) : Prop where
  members : ∀ cl ∈ c.clusters, ∀ m ∈ cl.members, ∀ m' ∈ cl.members, m ≠ m' → connIdentity (c.nodes m) ≠ connIdentity (c.nodes m')
  syncs : ∀ cl ∈ c.clusters, ∀ m ∈ cl.members, ∀ s ∈ c.syncs, connIdentity (c.nodes m) ≠ connIdentity (c.sources s.source) ∧
    ∀ ref ∈ s.targets, connIdentity (c.nodes m) ≠ connIdentity (c.targets ref)
  clusters : ∀ cl ∈ c.clusters, ∀ cl' ∈ c.clusters, ∀ m ∈ cl.members, ∀ m' ∈ cl'.members,
    connIdentity (c.nodes m) = connIdentity (c.nodes m') → nodeID c m = nodeID c m'

/- One table captured, for a sync or with the node id of a member. -/
structure Install where
  database : Text
  table : Text
  origin : Option Text

structure Captured where
  guarded : Text×Text → Option Bool
  clock : Text → Option Text

def installOne (s : Captured) (i : Install) : Captured where
  guarded := update s.guarded (i.database,i.table) (some i.origin.isSome)
  clock := update s.clock i.database ((s.clock i.database).or i.origin)

def bare : Captured := ⟨fun _ => none,fun _ => none⟩

def Asked (c : Config) (i : Install) : Prop :=
  (∃ s ∈ c.syncs, i.database = connIdentity (c.sources s.source) ∧ i.origin = none) ∨
  ∃ cl ∈ c.clusters, ∃ m ∈ cl.members, i.database = connIdentity (c.nodes m) ∧ i.origin = nodeID c m

/- In whatever order tables are captured, again and again: each keeps the kind of trigger that was
asked for, and each database the clock's node id. -/
def OneCapture (c : Config) : Prop :=
  ∀ run : List Install, (∀ i ∈ run, Asked c i) → ∀ i ∈ run,
    (run.foldl installOne bare).guarded (i.database,i.table) = some i.origin.isSome ∧
    (run.foldl installOne bare).clock i.database = i.origin

def OneOrigin (c : Config) : Prop := ∀ u ∈ uses c, ∀ v ∈ uses c, u.1 = v.1 → u.2 = v.2

section Uses
variable {c : Config}

theorem usesSync {id} (mem : id ∈ identities c) : (id,none) ∈ uses c :=
  mem_append_left _ (mem_map.mpr ⟨id,mem,rfl⟩)

theorem usesMember {cl m} (mem : cl ∈ c.clusters) (inside : m ∈ cl.members) : (connIdentity (c.nodes m),nodeID c m) ∈ uses c :=
  mem_append_right _ (mem_flatMap.mpr ⟨cl,mem,mem_map.mpr ⟨m,inside,rfl⟩⟩)

theorem usesCases {u} (mem : u ∈ uses c) : (u.1 ∈ identities c ∧ u.2 = none) ∨
    ∃ cl ∈ c.clusters, ∃ m ∈ cl.members, u = (connIdentity (c.nodes m),nodeID c m) := by
  rcases mem_append.mp mem with mem | mem
  · obtain ⟨id,inside,rfl⟩ := mem_map.mp mem
    exact .inl ⟨inside,rfl⟩
  · obtain ⟨cl,listed,mem⟩ := mem_flatMap.mp mem
    obtain ⟨m,inside,rfl⟩ := mem_map.mp mem
    exact .inr ⟨cl,listed,m,inside,rfl⟩

theorem identitiesCases {id} : id ∈ identities c ↔
    ∃ s ∈ c.syncs, id = connIdentity (c.sources s.source) ∨ ∃ ref ∈ s.targets, id = connIdentity (c.targets ref) := by
  simp only [identities,mem_flatMap,mem_cons,mem_map,eq_comm]

theorem askedUses {i} (asked : Asked c i) : (i.database,i.origin) ∈ uses c := by
  obtain ⟨s,mem,database,origin⟩ | ⟨cl,mem,m,inside,database,origin⟩ := asked
  · rw [database,origin]
    exact usesSync (identitiesCases.mpr ⟨s,mem,.inl rfl⟩)
  · rw [database,origin]
    exact usesMember mem inside

theorem knownID (ok : Accepted c) {cl m} (mem : cl ∈ c.clusters) (inside : m ∈ cl.members) : ∃ id, nodeID c m = some id := by
  obtain ⟨node,known,_⟩ := (ok.members cl mem).known m inside
  exact ⟨node.nodeID,by rw [nodeID,known,Option.map_some]⟩

theorem oneOrigin (isolated : Isolated c) : OneOrigin c := by
  have apart : ∀ cl ∈ c.clusters, ∀ m ∈ cl.members, connIdentity (c.nodes m) ∉ identities c := by
    intro cl mem m inside known
    obtain ⟨s,listed,source | ⟨ref,target,equal⟩⟩ := identitiesCases.mp known
    · exact (isolated.syncs cl mem m inside s listed).1 source
    · exact (isolated.syncs cl mem m inside s listed).2 ref target equal
  intro u one v two same
  rcases usesCases one with ⟨left,origin⟩ | ⟨cl,mem,m,inside,rfl⟩
  · rcases usesCases two with ⟨_,other⟩ | ⟨cl,mem,m,inside,rfl⟩
    · rw [origin,other]
    · exact absurd (Eq.mp (congrArg (· ∈ identities c) same) left) (apart cl mem m inside)
  · rcases usesCases two with ⟨right,_⟩ | ⟨cl',mem',m',inside',rfl⟩
    · exact absurd (Eq.mp (congrArg (· ∈ identities c) same.symm) right) (apart cl mem m inside)
    · exact isolated.clusters cl mem cl' mem' m inside m' inside' same

theorem isolated (ok : Accepted c) (one : OneOrigin c) : Isolated c := by
  have apart : ∀ cl ∈ c.clusters, ∀ m ∈ cl.members, connIdentity (c.nodes m) ∉ identities c := by
    intro cl mem m inside known
    obtain ⟨id,given⟩ := knownID ok mem inside
    have clash := one _ (usesMember mem inside) _ (usesSync known) rfl
    rw [given] at clash
    cases clash
  refine ⟨?_,?_,?_⟩
  · intro cl mem m inside m' inside' other same
    exact other ((ok.members cl mem).ids m inside m' inside' (one _ (usesMember mem inside) _ (usesMember mem inside') same))
  · intro cl mem m inside s listed
    constructor
    · intro same
      exact apart cl mem m inside (identitiesCases.mpr ⟨s,listed,.inl same⟩)
    · intro ref target same
      exact apart cl mem m inside (identitiesCases.mpr ⟨s,listed,.inr ⟨ref,target,same⟩⟩)
  · intro cl mem cl' mem' m inside m' inside' same
    exact one _ (usesMember mem inside) _ (usesMember mem' inside') same

/- What holds of the tables captured so far, and that a clock was set by one of them. -/
structure Kept (run : List Install) (s : Captured) : Prop where
  trigger : ∀ i ∈ run, s.guarded (i.database,i.table) = some i.origin.isSome
  clock : ∀ i ∈ run, s.clock i.database = i.origin
  fresh : ∀ database, (∀ i ∈ run, i.database ≠ database) → s.clock database = none

theorem keptInstall {run s i} (kept : Kept run s) (same : ∀ j ∈ run, j.database = i.database → j.origin = i.origin) :
    Kept (run++[i]) (installOne s i) := by
  have clock : (s.clock i.database).or i.origin = i.origin := by
    by_cases seen : ∃ j ∈ run, j.database = i.database
    · obtain ⟨j,mem,equal⟩ := seen
      rw [←equal,kept.clock j mem,same j mem equal,Option.or_self]
    · rw [kept.fresh i.database fun j mem equal => seen ⟨j,mem,equal⟩,Option.none_or]
  refine ⟨fun j mem => ?_,fun j mem => ?_,fun database other => ?_⟩
  · simp only [installOne,update_apply,Prod.mk.injEq]
    split
    · rename_i equal
      rcases mem_append.mp mem with mem | mem
      · rw [same j mem equal.1]
      · rw [mem_singleton.mp mem]
    · rename_i other
      rcases mem_append.mp mem with mem | mem
      · exact kept.trigger j mem
      · rw [mem_singleton.mp mem] at other
        exact absurd ⟨rfl,rfl⟩ other
  · simp only [installOne,update_apply]
    rw [clock]
    split
    · rename_i equal
      rcases mem_append.mp mem with mem | mem
      · rw [same j mem equal]
      · rw [mem_singleton.mp mem]
    · rename_i other
      rcases mem_append.mp mem with mem | mem
      · exact kept.clock j mem
      · exact absurd (congrArg Install.database (mem_singleton.mp mem)) other
  · simp only [installOne,update_apply]
    rw [if_neg fun equal => other i (by simp) equal.symm]
    exact kept.fresh database fun j mem => other j (mem_append_left _ mem)

theorem oneCapture (one : OneOrigin c) : OneCapture c := by
  intro run asked
  have kept : Kept run (run.foldl installOne bare) := by
    induction run using List.reverseRecOn with
    | nil => exact ⟨by simp,by simp,fun _ _ => rfl⟩
    | append_singleton run i ih =>
      have before := fun j mem => asked j (mem_append_left _ mem)
      rw [foldl_append]
      refine keptInstall (ih before) fun j mem equal => ?_
      exact one _ (askedUses (before j mem)) _ (askedUses (asked i (by simp))) equal
  exact fun i mem => ⟨kept.trigger i mem,kept.clock i mem⟩

end Uses

theorem installsIsolatedIff {c order} (accepted : validate c order = .ok ()) : Isolated c ∧ OneCapture c ↔ OneOrigin c := by
  have ok := validateOk accepted
  constructor
  · rintro ⟨apart,_⟩
    exact oneOrigin apart
  · intro one
    exact ⟨isolated ok one,oneCapture one⟩

theorem isolatedPlain : validate plain (.listed plain) = .ok () ∧ Isolated plain ∧ OneCapture plain := by
  have ok : validate plain (.listed plain) = .ok () := rfl
  exact ⟨ok,(installsIsolatedIff ok).mpr (by unfold OneOrigin; decide)⟩

def sharing : Config := sample [['t']] [['s','s'],['b']]

theorem sharedSource : validate sharing (.listed sharing) = .ok () ∧ ¬Isolated sharing ∧ ¬OneCapture sharing := by
  have ok : validate sharing (.listed sharing) = .ok () := rfl
  have first : Asked sharing ⟨connIdentity (sharing.nodes ['s','s']),['t'],some ['s','s']⟩ :=
    .inr ⟨_,mem_cons_self,['s','s'],by decide,rfl,rfl⟩
  have second : Asked sharing ⟨connIdentity (sharing.nodes ['s','s']),['t'],none⟩ :=
    .inl ⟨_,mem_cons_self,rfl,rfl⟩
  refine ⟨ok,fun apart => ?_,fun one => ?_⟩
  · exact (apart.syncs _ mem_cons_self ['s','s'] (by decide) _ mem_cons_self).1 rfl
  · have lost := (one [_,_] (forall_mem_cons.mpr ⟨first,forall_mem_singleton.mpr second⟩) _ mem_cons_self).1
    simp [installOne] at lost

end Replicare.Isolation
