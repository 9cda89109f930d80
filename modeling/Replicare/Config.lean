import Replicare.DepthFirst

/-! The configuration and its validation: names, references, engines and tuning, then the search
for a replication cycle among the one-way syncs by the identity of their databases. -/
namespace Replicare
open DepthFirst Relation List

namespace Config

abbrev Text := List Char

structure ConnConfig where
  host : Text
  port : Int
  database : Text

structure Endpoint where
  engine : Text
  nodeID : Text
  conn : Option ConnConfig

structure Tuning where
  drainInterval : Int
  drainBatch : Int
  applyConcurrency : Int
  maxSourceConns : Int
  maxTargetConns : Int

structure Sync where
  name : Text
  source : Text
  targets : List Text
  tuning : Tuning
  enabled : Option Bool
  syncSequences : Option Bool

structure Cluster where
  name : Text
  engine : Text
  members : List Text
  topology : Text
  tuning : Tuning
  enabled : Option Bool

end Config

open Config in
structure Config where
  stateStore : Option Endpoint
  sources : Text → Option Endpoint
  targets : Text → Option Endpoint
  nodes : Text → Option Endpoint
  syncs : List Sync
  clusters : List Cluster

namespace Config

inductive Kind where
  | sync
  | cluster
  deriving DecidableEq, Repr

inductive Refusal where
  | empty
  | stateStore (engine : Text)
  | unnamed (kind : Kind) (i : Nat)
  | duplicate (kind : Kind) (name : Text)
  | noSource (name : Text)
  | unknownSource (name source : Text)
  | noTargets (name : Text)
  | unknownTarget (name ref : Text)
  | crossEngine (name source sourceEngine ref engine : Text)
  | pool (kind : Kind) (name : Text)
  | drainInterval (kind : Kind) (name : Text)
  | drainBatch (kind : Kind) (name : Text)
  | applyConcurrency (kind : Kind) (name : Text)
  | sequences (name ref identity : Text)
  | noEngine (name : Text)
  | unsupported (name engine why : Text)
  | topology (name topology : Text)
  | fewMembers (name : Text)
  | listedTwice (name ref : Text)
  | unknownMember (name ref : Text)
  | crossEngineMember (name engine ref other : Text)
  | duplicateNodeID (name nodeID : Text)
  | cycle (path : List Text)
  deriving DecidableEq, Repr

def Sync.isEnabled (s : Sync) : Bool := s.enabled.getD true

def Sync.syncsSequences (s : Sync) : Bool := s.syncSequences.getD false

def Cluster.isEnabled (cl : Cluster) : Bool := cl.enabled.getD true

def decimal : Int → Text
  | .ofNat n => Nat.toDigits 10 n
  | .negSucc n => '-'::Nat.toDigits 10 (n+1)

def connIdentity : Option Endpoint → Text
  | none => []
  | some ep =>
    match ep.conn with
    | none => []
    | some cc => ep.engine++[':','/','/']++cc.host++[':']++decimal cc.port++['/']++cc.database

def clusterMemberIdentities (c : Config) : List Text :=
  (c.clusters.flatMap fun cl => cl.members.map fun m => connIdentity (c.nodes m)).filter fun id => id ≠ []

def nodeID (c : Config) (m : Text) : Option Text := (c.nodes m).map Endpoint.nodeID

def require (p : Prop) [Decidable p] (why : Refusal) : Except Refusal Unit :=
  if p then .ok () else .error why

def postgres : Text := ['p','o','s','t','g','r','e','s']
def topologyMesh : Text := ['m','e','s','h']

def clusterEngineUnsupported (_ : Text) : Option Text := none

def validateTuning (kind : Kind) (name : Text) (t : Tuning) : Except Refusal Unit := do
  require (0 < t.maxSourceConns ∧ 0 < t.maxTargetConns) (.pool kind name)
  require (0 < t.drainInterval) (.drainInterval kind name)
  require (0 < t.drainBatch) (.drainBatch kind name)
  require (1 ≤ t.applyConcurrency) (.applyConcurrency kind name)

def validateName (kind : Kind) (i : Nat) (name : Text) (seen : List Text) : Except Refusal Unit := do
  require (name ≠ []) (.unnamed kind i)
  require (name ∉ seen) (.duplicate kind name)

def validateTarget (c : Config) (s : Sync) (src : Endpoint) (ref : Text) : Except Refusal Unit :=
  match c.targets ref with
  | none => .error (.unknownTarget s.name ref)
  | some tgt => require (tgt.engine = src.engine) (.crossEngine s.name s.source src.engine ref tgt.engine)

def validateSequences (c : Config) (s : Sync) (ref : Text) : Except Refusal Unit :=
  let id := connIdentity (c.targets ref)
  require (¬(id ≠ [] ∧ id ∈ clusterMemberIdentities c)) (.sequences s.name ref id)

def validateSync (c : Config) (i : Nat) (s : Sync) (seen : List Text) : Except Refusal Unit := do
  validateName .sync i s.name seen
  require (s.source ≠ []) (.noSource s.name)
  match c.sources s.source with
  | none => .error (.unknownSource s.name s.source)
  | some src =>
    require (s.targets ≠ []) (.noTargets s.name)
    s.targets.forM (validateTarget c s src)
    validateTuning .sync s.name s.tuning
    if s.syncsSequences then s.targets.forM (validateSequences c s) else .ok ()

def validateMembers (c : Config) (cl : Cluster) : List Text → List Text → List Text → Except Refusal Unit
  | [], _, _ => .ok ()
  | ref::refs, memberNames, nodeIDs => do
    require (ref ∉ memberNames) (.listedTwice cl.name ref)
    match c.nodes ref with
    | none => .error (.unknownMember cl.name ref)
    | some node =>
      require (node.engine = cl.engine) (.crossEngineMember cl.name cl.engine ref node.engine)
      require (node.nodeID ∉ nodeIDs) (.duplicateNodeID cl.name node.nodeID)
      validateMembers c cl refs (ref::memberNames) (node.nodeID::nodeIDs)

def validateCluster (c : Config) (i : Nat) (cl : Cluster) (seen : List Text) : Except Refusal Unit := do
  validateName .cluster i cl.name seen
  require (cl.engine ≠ []) (.noEngine cl.name)
  match clusterEngineUnsupported cl.engine with
  | some why => .error (.unsupported cl.name cl.engine why)
  | none =>
    require (cl.topology = topologyMesh) (.topology cl.name cl.topology)
    require (2 ≤ cl.members.length) (.fewMembers cl.name)
    validateMembers c cl cl.members [] []
    validateTuning .cluster cl.name cl.tuning

def validateAll {α : Type} (name : α → Text) (check : Nat → α → List Text → Except Refusal Unit) :
    List α → Nat → List Text → Except Refusal (List Text)
  | [], _, seen => .ok seen
  | a::as, i, seen => do
    check i a seen
    validateAll name check as (i+1) (name a::seen)

def identities (c : Config) : List Text :=
  c.syncs.flatMap fun s => connIdentity (c.sources s.source)::s.targets.map fun ref => connIdentity (c.targets ref)

def adjacent (c : Config) : List (Text×Text) :=
  c.syncs.flatMap fun s => s.targets.map fun ref => (connIdentity (c.sources s.source),connIdentity (c.targets ref))

structure Ranges (c : Config) where
  nodes : List Text
  kids : Text → List Text
  nodesAll : ∀ id, id ∈ nodes ↔ id ∈ identities c
  kidsAll : ∀ source target, target ∈ kids source ↔ (source,target) ∈ adjacent c

def Ranges.listed (c : Config) : Ranges c where
  nodes := identities c
  kids source := ((adjacent c).filter fun edge => edge.1 = source).map Prod.snd
  nodesAll _ := Iff.rfl
  kidsAll source target := by simp

def detectSyncCycles (c : Config) (order : Ranges c) : Except Refusal Unit :=
  match detect order.kids order.nodes with
  | .error path => .error (.cycle path)
  | .ok _ => .ok ()

def validateStateStore (c : Config) : Except Refusal Unit :=
  match c.stateStore with
  | none => .ok ()
  | some ep => require (ep.engine = postgres) (.stateStore ep.engine)

def validate (c : Config) (order : Ranges c) : Except Refusal Unit := do
  require (c.syncs ≠ [] ∨ c.clusters ≠ []) .empty
  validateStateStore c
  let seen ← validateAll Sync.name (validateSync c) c.syncs 0 []
  let _ ← validateAll Cluster.name (validateCluster c) c.clusters 0 seen
  detectSyncCycles c order

def Replicates (c : Config) (source target : Text) : Prop :=
  ∃ s ∈ c.syncs, source = connIdentity (c.sources s.source) ∧ ∃ ref ∈ s.targets, target = connIdentity (c.targets ref)

theorem adjacentIff {c source target} : (source,target) ∈ adjacent c ↔ Replicates c source target := by
  simp only [adjacent,Replicates,mem_flatMap,mem_map,Prod.mk.injEq]
  constructor
  · rintro ⟨s,mem,ref,inside,rfl,rfl⟩
    exact ⟨s,mem,rfl,ref,inside,rfl⟩
  · rintro ⟨s,mem,rfl,ref,inside,rfl⟩
    exact ⟨s,mem,ref,inside,rfl,rfl⟩

theorem adjacentKnown {c source target} (edge : (source,target) ∈ adjacent c) : source ∈ identities c ∧ target ∈ identities c := by
  obtain ⟨s,mem,rfl,ref,inside,rfl⟩ := adjacentIff.mp edge
  constructor
  · exact mem_flatMap.mpr ⟨s,mem,mem_cons_self⟩
  · exact mem_flatMap.mpr ⟨s,mem,mem_cons_of_mem _ (mem_map_of_mem inside)⟩

theorem edgeReplicates {c} (order : Ranges c) : Edge order.kids = Replicates c := by
  funext source target
  exact propext ((order.kidsAll source target).trans adjacentIff)

theorem syncCyclesExact (c : Config) (order : Ranges c) :
    ((∃ why, detectSyncCycles c order = .error why) ↔ ∃ id, TransGen (Replicates c) id id) ∧
    ∀ why, detectSyncCycles c order = .error why →
      ∃ id mid, why = .cycle (id::mid++[id]) ∧ (id::mid++[id]).IsChain (Replicates c) := by
  have total : ∀ n m, m ∈ order.kids n → n ∈ order.nodes ∧ m ∈ order.nodes := by
    intro n m edge
    have known := adjacentKnown ((order.kidsAll n m).mp edge)
    exact ⟨(order.nodesAll n).mpr known.1,(order.nodesAll m).mpr known.2⟩
  have found := detectFinds total
  rw [edgeReplicates order] at found
  rw [detectSyncCycles]
  cases ran : detect order.kids order.nodes with
  | ok w =>
    rw [ran] at found
    refine ⟨⟨?_,fun round => ?_⟩,?_⟩
    · rintro ⟨why,failed⟩
      cases failed
    · obtain ⟨path,failed⟩ := found.2.mpr round
      cases failed
    · intro why failed
      cases failed
  | error path =>
    refine ⟨⟨fun _ => found.2.mp ⟨path,ran⟩,fun _ => ⟨_,rfl⟩⟩,?_⟩
    intro why failed
    cases failed
    obtain ⟨id,mid,rfl,chain⟩ := found.1 path ran
    rw [edgeReplicates order] at chain
    exact ⟨id,mid,rfl,chain⟩

section Accepted
variable {α β : Type} {why : Refusal}

theorem bindOk {x} {f : α → Except Refusal β} {b} : x >>= f = .ok b ↔ ∃ a, x = .ok a ∧ f a = .ok b := by
  cases x with
  | error why => simp [bind,Except.bind]
  | ok a => simp [bind,Except.bind]

theorem requireOk {p : Prop} [Decidable p] {u} : require p why = .ok u ↔ p := by
  rw [require]
  split <;> simp [*]

theorem validateNameOk {kind i name seen u} (ok : validateName kind i name seen = .ok u) : name ≠ [] ∧ name ∉ seen := by
  simp only [validateName,bindOk,requireOk] at ok
  obtain ⟨_,named,fresh⟩ := ok
  exact ⟨named,fresh⟩

theorem validateAllOk {name : α → Text} {check as i seen after} (ok : validateAll name check as i seen = .ok after)
    (fresh : ∀ i a seen u, check i a seen = .ok u → name a ∉ seen) (nodup : seen.Nodup) :
    after = (as.map name).reverse++seen ∧ after.Nodup ∧ ∀ a ∈ as, ∃ i seen u, check i a seen = .ok u := by
  induction as generalizing i seen with
  | nil =>
    cases ok
    exact ⟨rfl,nodup,by simp⟩
  | cons a as ih =>
    obtain ⟨u,first,rest⟩ := bindOk.mp ok
    obtain ⟨shape,apart,each⟩ := ih rest (nodup_cons.mpr ⟨fresh i a seen u first,nodup⟩)
    refine ⟨by simp [shape],apart,fun b mem => ?_⟩
    rcases mem_cons.mp mem with rfl | mem
    · exact ⟨i,seen,u,first⟩
    · exact each b mem

structure Members (c : Config) (cl : Cluster) (refs memberNames nodeIDs : List Text) : Prop where
  nodup : refs.Nodup
  fresh : ∀ ref ∈ refs, ref ∉ memberNames
  known : ∀ ref ∈ refs, ∃ node, c.nodes ref = some node ∧ node.engine = cl.engine ∧ node.nodeID ∉ nodeIDs
  ids : ∀ ref ∈ refs, ∀ other ∈ refs, nodeID c ref = nodeID c other → ref = other

theorem validateMembersOk {c cl refs memberNames nodeIDs u} (ok : validateMembers c cl refs memberNames nodeIDs = .ok u) :
    Members c cl refs memberNames nodeIDs := by
  induction refs generalizing memberNames nodeIDs with
  | nil => exact ⟨.nil,by simp,by simp,by simp⟩
  | cons ref refs ih =>
    rw [validateMembers,bindOk] at ok
    obtain ⟨_,new,ok⟩ := ok
    cases found : c.nodes ref with
    | none =>
      rw [found] at ok
      cases ok
    | some node =>
      rw [found] at ok
      simp only [bindOk,requireOk] at ok
      obtain ⟨_,engine,_,id,rest⟩ := ok
      have later := ih rest
      have away := fun other mem => not_or.mp (mt mem_cons.mpr (later.fresh other mem))
      refine ⟨nodup_cons.mpr ⟨fun mem => (away ref mem).1 rfl,later.nodup⟩,?_,?_,?_⟩
      · intro other mem
        rcases mem_cons.mp mem with rfl | mem
        · exact requireOk.mp new
        · exact (away other mem).2
      · intro other mem
        rcases mem_cons.mp mem with rfl | mem
        · exact ⟨node,found,engine,id⟩
        · obtain ⟨peer,known,same,unused⟩ := later.known other mem
          exact ⟨peer,known,same,fun used => unused (mem_cons_of_mem _ used)⟩
      · have used : ∀ other ∈ refs, nodeID c other ≠ nodeID c ref := by
          intro other inside same
          obtain ⟨peer,known,_,unused⟩ := later.known other inside
          rw [nodeID,nodeID,known,found,Option.map_some,Option.map_some,Option.some_inj] at same
          exact unused (same ▸ mem_cons_self)
        intro one left two right same
        rcases mem_cons.mp left with rfl | before
        · rcases mem_cons.mp right with rfl | after
          · rfl
          · exact absurd same.symm (used two after)
        · rcases mem_cons.mp right with rfl | after
          · exact absurd same (used one before)
          · exact later.ids one before two after same

theorem validateClusterOk {c i cl seen u} (ok : validateCluster c i cl seen = .ok u) :
    cl.name ∉ seen ∧ Members c cl cl.members [] [] := by
  simp only [validateCluster,clusterEngineUnsupported,bindOk] at ok
  obtain ⟨_,named,_,_,_,_,_,_,_,members,_⟩ := ok
  exact ⟨(validateNameOk named).2,validateMembersOk members⟩

theorem validateSyncOk {c i s seen u} (ok : validateSync c i s seen = .ok u) : s.name ∉ seen := by
  rw [validateSync,bindOk] at ok
  obtain ⟨_,named,_⟩ := ok
  exact (validateNameOk named).2

structure Accepted (c : Config) : Prop where
  names : (c.clusters.map Cluster.name).Nodup ∧ (c.syncs.map Sync.name).Nodup
  members : ∀ cl ∈ c.clusters, Members c cl cl.members [] []

theorem validateOk {c order u} (ok : validate c order = .ok u) : Accepted c := by
  simp only [validate,bindOk] at ok
  obtain ⟨_,_,_,_,seen,syncs,after,clusters,_⟩ := ok
  have first := validateAllOk syncs (fun _ _ _ _ => validateSyncOk) .nil
  have second := validateAllOk clusters (fun _ _ _ _ ok => (validateClusterOk ok).1) first.2.1
  have apart := second.2.1
  rw [second.1,first.1,append_nil,nodup_append,nodup_reverse,nodup_reverse] at apart
  refine ⟨⟨apart.1,apart.2.1⟩,fun cl mem => ?_⟩
  obtain ⟨i,seen,u,ok⟩ := second.2.2 cl mem
  exact (validateClusterOk ok).2

end Accepted
end Config
end Replicare
