import Replicare.Config

/-! The jobs the daemon starts for a configuration: one for each target of a sync and one for each
ordered pair of members of a cluster, under names put together from the configured ones. -/
namespace Replicare.JobNames
open Config List

structure ClusterEdge where
  cluster : Cluster
  srcNode : Text
  dstNode : Text

def colons : Text := [':',':']
def arrow : Text := ['-','>']

def ClusterEdge.name (e : ClusterEdge) : Text := e.cluster.name++(colons++(e.srcNode++(arrow++e.dstNode)))

def meshEdges (cl : Cluster) : List ClusterEdge :=
  cl.members.zipIdx.flatMap fun src =>
    (cl.members.zipIdx.filter fun dst => src.2 ≠ dst.2).map fun dst => ⟨cl,src.1,dst.1⟩

def clusterEdges (clusters : List Cluster) : List ClusterEdge := clusters.flatMap meshEdges

def names (c : Config) : List Text := c.syncs.map Sync.name++(clusterEdges c.clusters).map ClusterEdge.name

def syncJobs (s : Sync) : List (Text×Text) := s.targets.map fun target => (s.name,target)

def jobs (c : Config) : List (Text×Text) :=
  (c.syncs.filter Sync.isEnabled).flatMap syncJobs++
    ((clusterEdges c.clusters).filter fun e => e.cluster.isEnabled).map fun e => (e.name,e.dstNode)

def Straddles (sep a b a' b' : Text) : Prop := ∃ u, u ≠ [] ∧ a' = a++u ∧ sep++b = u++(sep++b')

theorem joinedIff {sep a b a' b'} : a++(sep++b) = a'++(sep++b') ↔
    (a = a' ∧ b = b') ∨ Straddles sep a b a' b' ∨ Straddles sep a' b' a b := by
  constructor
  · intro same
    rcases append_eq_append_iff.mp same with ⟨u,longer,rest⟩ | ⟨u,longer,rest⟩
    · by_cases none : u = []
      · subst none
        exact .inl ⟨by simpa using longer.symm,append_cancel_left rest⟩
      · exact .inr (.inl ⟨u,none,longer,rest⟩)
    · by_cases none : u = []
      · subst none
        exact .inl ⟨by simpa using longer,(append_cancel_left rest).symm⟩
      · exact .inr (.inr ⟨u,none,longer,rest⟩)
  · rintro (⟨rfl,rfl⟩ | ⟨u,_,rfl,rest⟩ | ⟨u,_,rfl,rest⟩)
    · rfl
    · rw [rest,append_assoc]
    · rw [rest,append_assoc]

structure Pair (c : Config) (cl : Cluster) (src dst : Text) : Prop where
  cluster : cl ∈ c.clusters
  sender : src ∈ cl.members
  receiver : dst ∈ cl.members
  apart : src ≠ dst

structure NamesApart (c : Config) : Prop where
  targets : ∀ s ∈ c.syncs, s.isEnabled → s.targets.Nodup
  syncs : ∀ s ∈ c.syncs, ∀ cl src dst, Pair c cl src dst → s.name ≠ cl.name++(colons++(src++(arrow++dst)))
  clusters : ∀ cl src dst cl' src' dst', Pair c cl src dst → Pair c cl' src' dst' →
    ¬Straddles colons cl.name (src++(arrow++dst)) cl'.name (src'++(arrow++dst'))
  members : ∀ cl src dst src' dst', Pair c cl src dst → Pair c cl src' dst' → ¬Straddles arrow src dst src' dst'

section Edges
variable {c : Config} {cl : Cluster}

theorem listedMember {p} (mem : p ∈ cl.members.zipIdx) : p.1 ∈ cl.members := by
  rw [←zipIdx_map_fst 0 cl.members]
  exact mem_map_of_mem mem

theorem memberIndexed {m} (mem : m ∈ cl.members) : ∃ p ∈ cl.members.zipIdx, p.1 = m := by
  rw [←zipIdx_map_fst 0 cl.members] at mem
  exact mem_map.mp mem

theorem memberPosition (nodup : cl.members.Nodup) {p q} (one : p ∈ cl.members.zipIdx) (two : q ∈ cl.members.zipIdx)
    (same : p.1 = q.1) : p = q :=
  inj_on_of_nodup_map (by rwa [zipIdx_map_fst]) one two same

theorem meshMem (nodup : cl.members.Nodup) {e} :
    e ∈ meshEdges cl ↔ e.cluster = cl ∧ e.srcNode ∈ cl.members ∧ e.dstNode ∈ cl.members ∧ e.srcNode ≠ e.dstNode := by
  simp only [meshEdges,mem_flatMap,mem_map,mem_filter,decide_eq_true_eq]
  constructor
  · rintro ⟨p,one,q,⟨two,apart⟩,rfl⟩
    refine ⟨rfl,listedMember one,listedMember two,fun same => apart ?_⟩
    rw [memberPosition nodup one two same]
  · rintro ⟨rfl,src,dst,apart⟩
    obtain ⟨p,one,left⟩ := memberIndexed src
    obtain ⟨q,two,right⟩ := memberIndexed dst
    refine ⟨p,one,q,⟨two,fun same => ?_⟩,by rw [left,right]⟩
    have here := mem_zipIdx_iff_getElem?.mp one
    rw [same,mem_zipIdx_iff_getElem?.mp two] at here
    exact apart (left.symm.trans ((Option.some.inj here).symm.trans right))

theorem meshNodup (nodup : cl.members.Nodup) : (meshEdges cl).Nodup := by
  have apart : (cl.members.zipIdx.map Prod.fst).Nodup := by rwa [zipIdx_map_fst]
  refine nodup_flatMap.mpr ⟨fun p _ => ?_,(pairwise_map.mp apart).imp fun other e one two => ?_⟩
  · refine ((List.Nodup.of_map _ apart).filter _).map_on fun q one r two same => ?_
    exact memberPosition nodup (mem_of_mem_filter one) (mem_of_mem_filter two) (ClusterEdge.mk.inj same).2.2
  · obtain ⟨q,_,rfl⟩ := mem_map.mp one
    obtain ⟨r,_,same⟩ := mem_map.mp two
    exact other (ClusterEdge.mk.inj same).2.1.symm

theorem edgeMem (ok : Accepted c) {e} : e ∈ clusterEdges c.clusters ↔ Pair c e.cluster e.srcNode e.dstNode := by
  rw [clusterEdges,mem_flatMap]
  constructor
  · rintro ⟨cl,mem,inside⟩
    obtain ⟨rfl,src,dst,apart⟩ := (meshMem (ok.members cl mem).nodup).mp inside
    exact ⟨mem,src,dst,apart⟩
  · intro pair
    exact ⟨e.cluster,pair.cluster,(meshMem (ok.members _ pair.cluster).nodup).mpr ⟨rfl,pair.sender,pair.receiver,pair.apart⟩⟩

theorem edgesNodup (ok : Accepted c) : (clusterEdges c.clusters).Nodup := by
  refine nodup_flatMap.mpr ⟨fun cl mem => meshNodup (ok.members cl mem).nodup,?_⟩
  refine (pairwise_map.mp ok.names.1).imp_of_mem fun {cl other} mem peer apart e one two => apart ?_
  rw [←((meshMem (ok.members cl mem).nodup).mp one).1,←((meshMem (ok.members other peer).nodup).mp two).1]

theorem edgeNamesIff (ok : Accepted c) : ((clusterEdges c.clusters).map ClusterEdge.name).Nodup ↔
    (∀ cl src dst cl' src' dst', Pair c cl src dst → Pair c cl' src' dst' →
      ¬Straddles colons cl.name (src++(arrow++dst)) cl'.name (src'++(arrow++dst'))) ∧
    ∀ cl src dst src' dst', Pair c cl src dst → Pair c cl src' dst' → ¬Straddles arrow src dst src' dst' := by
  rw [nodup_map_iff_inj_on (edgesNodup ok)]
  constructor
  · intro unique
    have one : ∀ {cl src dst cl' src' dst'}, Pair c cl src dst → Pair c cl' src' dst' →
        (⟨cl,src,dst⟩ : ClusterEdge).name = (⟨cl',src',dst'⟩ : ClusterEdge).name → cl = cl' ∧ src = src' := by
      intro cl src dst cl' src' dst' here there same
      have equal := unique ⟨cl,src,dst⟩ ((edgeMem ok).mpr here) ⟨cl',src',dst'⟩ ((edgeMem ok).mpr there) same
      cases equal
      exact ⟨rfl,rfl⟩
    constructor
    · intro cl src dst cl' src' dst' here there straddles
      obtain ⟨u,some,longer,_⟩ := id straddles
      rw [(one here there (joinedIff.mpr (.inr (.inl straddles)))).1] at longer
      exact some (self_eq_append_right.mp longer)
    · intro cl src dst src' dst' here there straddles
      obtain ⟨u,some,longer,_⟩ := id straddles
      have same := joinedIff.mpr (.inr (.inl straddles))
      rw [(one here there (by rw [ClusterEdge.name,ClusterEdge.name,same])).2] at longer
      exact some (self_eq_append_right.mp longer)
  · rintro ⟨clusters,members⟩ ⟨cl,src,dst⟩ here ⟨cl',src',dst'⟩ there same
    have one := (edgeMem ok).mp here
    have two := (edgeMem ok).mp there
    rcases joinedIff.mp same with ⟨named,rest⟩ | straddles | straddles
    · obtain rfl := inj_on_of_nodup_map ok.names.1 one.cluster two.cluster named
      rcases joinedIff.mp rest with ⟨rfl,rfl⟩ | straddles | straddles
      · rfl
      · exact absurd straddles (members _ _ _ _ _ one two)
      · exact absurd straddles (members _ _ _ _ _ two one)
    · exact absurd straddles (clusters _ _ _ _ _ _ one two)
    · exact absurd straddles (clusters _ _ _ _ _ _ two one)

theorem jobsNodupIff (unique : (names c).Nodup) : (jobs c).Nodup ↔ ∀ s ∈ c.syncs, s.isEnabled → s.targets.Nodup := by
  obtain ⟨syncs,edges,across⟩ := nodup_append.mp unique
  rw [jobs,nodup_append,nodup_flatMap]
  constructor
  · intro apart s mem runs
    exact List.Nodup.of_map _ (apart.1.1 s (mem_filter.mpr ⟨mem,runs⟩))
  · intro targets
    refine ⟨⟨fun s mem => ?_,?_⟩,?_,?_⟩
    · obtain ⟨inside,runs⟩ := mem_filter.mp mem
      exact (targets s inside runs).map fun _ _ same => (Prod.mk.inj same).2
    · refine ((pairwise_map.mp syncs).filter _).imp fun apart job one two => ?_
      obtain ⟨t,_,rfl⟩ := mem_map.mp one
      obtain ⟨u,_,same⟩ := mem_map.mp two
      exact apart (Prod.mk.inj same).1.symm
    · refine List.Nodup.of_map Prod.fst ?_
      rw [List.map_map]
      exact edges.sublist (filter_sublist.map _)
    · intro job one other two same
      subst same
      obtain ⟨s,mem,inside⟩ := mem_flatMap.mp one
      obtain ⟨t,_,rfl⟩ := mem_map.mp inside
      obtain ⟨e,edge,equal⟩ := mem_map.mp two
      refine across s.name (mem_map_of_mem (mem_of_mem_filter mem)) e.name ?_ (Prod.mk.inj equal).1.symm
      exact mem_map_of_mem (mem_of_mem_filter edge)

end Edges

theorem jobsApartIff {c order} (accepted : validate c order = .ok ()) :
    (names c).Nodup ∧ (jobs c).Nodup ↔ NamesApart c := by
  have ok := validateOk accepted
  have split := edgeNamesIff ok
  constructor
  · rintro ⟨unique,apart⟩
    obtain ⟨_,edges,across⟩ := nodup_append.mp unique
    refine ⟨(jobsNodupIff unique).mp apart,?_,(split.mp edges).1,(split.mp edges).2⟩
    intro s mem cl src dst pair
    exact across s.name (mem_map_of_mem mem) _ (mem_map_of_mem ((edgeMem ok (e := ⟨cl,src,dst⟩)).mpr pair))
  · intro apart
    have unique : (names c).Nodup := by
      refine nodup_append.mpr ⟨ok.names.2,split.mpr ⟨apart.clusters,apart.members⟩,?_⟩
      intro name one other two
      obtain ⟨s,mem,rfl⟩ := mem_map.mp one
      obtain ⟨e,edge,rfl⟩ := mem_map.mp two
      exact apart.syncs s mem _ _ _ ((edgeMem ok).mp edge)
    exact ⟨unique,(jobsNodupIff unique).mpr apart.targets⟩

theorem meshComplete {c order} (accepted : validate c order = .ok ()) :
    (clusterEdges c.clusters).Nodup ∧ (∀ e, e ∈ clusterEdges c.clusters ↔ Pair c e.cluster e.srcNode e.dstNode) ∧
    ∀ e ∈ clusterEdges c.clusters, ∃ src dst, c.nodes e.srcNode = some src ∧ c.nodes e.dstNode = some dst ∧
      src.engine = e.cluster.engine ∧ dst.engine = e.cluster.engine ∧ src.nodeID ≠ dst.nodeID := by
  have ok := validateOk accepted
  refine ⟨edgesNodup ok,fun e => edgeMem ok,fun e edge => ?_⟩
  have pair := (edgeMem ok).mp edge
  have members := ok.members _ pair.cluster
  obtain ⟨src,one,left,_⟩ := members.known _ pair.sender
  obtain ⟨dst,two,right,_⟩ := members.known _ pair.receiver
  refine ⟨src,dst,one,two,left,right,fun same => pair.apart (members.ids _ pair.sender _ pair.receiver ?_)⟩
  rw [nodeID,nodeID,one,two,Option.map_some,Option.map_some,same]

def tuning : Tuning := ⟨1,1,1,1,1⟩

def endpoint (name : Text) : Endpoint := ⟨postgres,name,some ⟨name,5432,name⟩⟩

def sample (targets members : List Text) : Config where
  stateStore := none
  sources name := some (endpoint ('s'::name))
  targets name := some (endpoint name)
  nodes name := some (endpoint name)
  syncs := [⟨['s'],['s'],targets,tuning,none,none⟩]
  clusters := [⟨['m'],postgres,members,topologyMesh,tuning,none⟩]

def plain : Config := sample [['t'],['u']] [['a'],['b']]

theorem jobsApartPlain : validate plain (.listed plain) = .ok () ∧ NamesApart plain := by
  have ok : validate plain (.listed plain) = .ok () := rfl
  exact ⟨ok,(jobsApartIff ok).mp (by decide)⟩

theorem meshCompletePlain : validate plain (.listed plain) = .ok () ∧ (clusterEdges plain.clusters).Nodup := by
  have ok : validate plain (.listed plain) = .ok () := rfl
  exact ⟨ok,(meshComplete ok).1⟩

def clashing : Config := sample [['t'],['t']] [['a'],['a','-','>','b'],['b'],['b','-','>','b']]

theorem jobsShared : validate clashing (.listed clashing) = .ok () ∧ ¬(names clashing).Nodup ∧ ¬(jobs clashing).Nodup :=
  ⟨rfl,by decide,by decide⟩

end Replicare.JobNames
