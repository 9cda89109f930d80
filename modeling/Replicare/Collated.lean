import Replicare.Consume
import Replicare.Hlc
import Replicare.JobNames

/-! Names that a database compares under a collation: the node id that breaks ties between the
versions of a mesh, and the target of a row of the track table. -/
namespace Replicare.Collated
open Config Consume Engine Hlc JobNames List

structure Collation where
  weight : Text → List Nat

def Collation.binary : Collation := ⟨fun t => t.map Char.toNat⟩
def Collation.caseless : Collation := ⟨fun t => t.map fun c => c.toLower.toNat⟩

def Collation.dictionary : Collation := ⟨fun t => caseless.weight t++0::binary.weight t⟩

section Versions

/- The row comparison of SQL, over a staged version and one of the register. -/
def Greater (coll : Collation) (s r : Version Text) : Prop :=
  r.phys < s.phys ∨ r.phys = s.phys ∧ (r.log < s.log ∨ r.log = s.log ∧ coll.weight r.node < coll.weight s.node)
instance (coll s r) : Decidable (Greater coll s r) := by unfold Greater; infer_instance

def meshVersionGreater (coll : Collation) (s : Version Text) : Option (Version Text) → Bool
  | none => true
  | some r => decide (Greater coll s r)

def apply (coll : Collation) (held : Option (Version Text)) (s : Version Text) : Option (Version Text) :=
  if meshVersionGreater coll s held then some s else held

variable {coll : Text → Collation} {v w : Version Text}

structure Ordered (members : List Text) (coll : Text → Collation) (v w : Version Text) : Prop where
  one : ∀ m ∈ members, Xor (Greater (coll m) v w) (Greater (coll m) w v)
  agreed : ∀ m ∈ members, ∀ m' ∈ members, Greater (coll m) v w ↔ Greater (coll m') v w
  kept : ∀ m ∈ members, ∀ m' ∈ members, [v,w].foldl (apply (coll m)) none = [w,v].foldl (apply (coll m')) none

def Decided (members : List Text) (coll : Text → Collation) (v w : Version Text) : Prop :=
  (∀ m ∈ members, Greater (coll m) v w ∧ ¬Greater (coll m) w v) ∨ ∀ m ∈ members, Greater (coll m) w v ∧ ¬Greater (coll m) v w

theorem appliedBoth (coll) (v w) : [v,w].foldl (apply coll) none = if Greater coll w v then some w else some v := by
  simp [apply,meshVersionGreater]

theorem orderedIff {members} (some_ : members ≠ []) : Ordered members coll v w ↔ Decided members coll v w := by
  constructor
  · intro ordered
    obtain ⟨m,mem⟩ := exists_mem_of_ne_nil members some_
    rcases ordered.one m mem with first | second
    · refine .inl fun m' mem' => ?_
      have wins := (ordered.agreed m mem m' mem').mp first.1
      rcases ordered.one m' mem' with here | here
      · exact here
      · exact absurd wins here.2
    · refine .inr fun m' mem' => ?_
      have loses := mt (ordered.agreed m mem m' mem').mpr second.2
      rcases ordered.one m' mem' with here | here
      · exact absurd here.1 loses
      · exact here
  · rintro (first | second)
    · refine ⟨fun m mem => .inl (first m mem),fun m mem m' mem' => iff_of_true (first m mem).1 (first m' mem').1,fun m mem m' mem' => ?_⟩
      rw [appliedBoth,appliedBoth,if_neg (first m mem).2,if_pos (first m' mem').1]
    · refine ⟨fun m mem => .inr (second m mem),fun m mem m' mem' => iff_of_false (second m mem).2 (second m' mem').2,fun m mem m' mem' => ?_⟩
      rw [appliedBoth,appliedBoth,if_pos (second m mem).1,if_neg (second m' mem').2]

theorem clockDecided (members) (apart : v.stamp ≠ w.stamp) : Decided members coll v w := by
  have differ : v.phys ≠ w.phys ∨ v.phys = w.phys ∧ v.log ≠ w.log := by
    by_contra same
    push Not at same
    exact apart (Clock.ext same.1 (same.2 same.1))
  unfold Decided Greater
  rcases differ with phys | ⟨phys,log⟩
  · rcases lt_or_gt_of_ne phys with below | above
    · exact .inr fun m _ => by omega
    · exact .inl fun m _ => by omega
  · rcases lt_or_gt_of_ne log with below | above
    · exact .inr fun m _ => by omega
    · exact .inl fun m _ => by omega

theorem nodeDecided {members} (same : v.stamp = w.stamp) : Decided members coll v w ↔
    (∀ m ∈ members, (coll m).weight w.node < (coll m).weight v.node) ∨ ∀ m ∈ members, (coll m).weight v.node < (coll m).weight w.node := by
  have phys : v.phys = w.phys := congrArg Clock.physical same
  have log : v.log = w.log := congrArg Clock.logical same
  unfold Decided Greater
  simp only [phys,log,lt_self_iff_false,true_and,false_or,not_lt]
  refine or_congr (forall₂_congr fun m _ => ?_) (forall₂_congr fun m _ => ?_)
  · exact and_iff_left_of_imp le_of_lt
  · exact and_iff_left_of_imp le_of_lt

theorem versionsTotalIff {c order cl} (coll : Text → Collation) (accepted : validate c order = .ok ()) (listed : cl ∈ c.clusters) :
    (∀ v w : Version Text, v ≠ w → (∃ a ∈ cl.members, nodeID c a = some v.node) → (∃ b ∈ cl.members, nodeID c b = some w.node) →
      Ordered cl.members coll v w) ↔
    ∀ a ∈ cl.members, ∀ b ∈ cl.members, a ≠ b → ∀ x y, nodeID c a = some x → nodeID c b = some y →
      (∀ m ∈ cl.members, (coll m).weight y < (coll m).weight x) ∨ ∀ m ∈ cl.members, (coll m).weight x < (coll m).weight y := by
  have unique := ((validateOk accepted).members cl listed).ids
  constructor
  · intro total a one b two apart x y left right
    have ids : x ≠ y := fun same => apart (unique a one b two (left.trans (same ▸ right.symm)))
    have ordered := total ⟨0,0,x⟩ ⟨0,0,y⟩ (fun same => ids (congrArg Version.node same)) ⟨a,one,left⟩ ⟨b,two,right⟩
    exact (nodeDecided (v := ⟨0,0,x⟩) (w := ⟨0,0,y⟩) rfl).mp ((orderedIff (ne_nil_of_mem one)).mp ordered)
  · rintro alike v w apart ⟨a,one,left⟩ ⟨b,two,right⟩
    refine (orderedIff (ne_nil_of_mem one)).mpr ?_
    by_cases same : v.stamp = w.stamp
    · refine (nodeDecided same).mpr (alike a one b two (fun peer => apart ?_) _ _ left right)
      have node : v.node = w.node := Option.some.inj (left.symm.trans (peer ▸ right))
      exact Version.ext (congrArg Clock.physical same) (congrArg Clock.logical same) node
    · exact clockDecided _ same

def mysql : Text := ['m','y','s','q','l']

def pair (engine : Text) (a b : Text) : Config where
  stateStore := none
  sources _ := none
  targets _ := none
  nodes name := some ⟨engine,name,some ⟨name,3306,name⟩⟩
  syncs := []
  clusters := [⟨['m'],engine,[a,b],topologyMesh,tuning,none⟩]

theorem versionsTotalPlain : validate (pair mysql ['a'] ['b']) (.listed _) = .ok () ∧
    Ordered [['a'],['b']] (fun _ => .caseless) ⟨1,0,['a']⟩ ⟨1,0,['b']⟩ := by
  have ok : validate (pair mysql ['a'] ['b']) (.listed _) = .ok () := rfl
  refine ⟨ok,(versionsTotalIff (fun _ => .caseless) ok mem_cons_self).mpr ?_ _ _ (by decide) ⟨['a'],by decide,rfl⟩ ⟨['b'],by decide,rfl⟩⟩
  intro a one b two apart x y left right
  cases left
  cases right
  revert a b
  decide

theorem versionsTied : validate (pair mysql ['a'] ['A']) (.listed _) = .ok () ∧
    ¬Ordered [['a'],['A']] (fun _ => .caseless) ⟨1,0,['a']⟩ ⟨1,0,['A']⟩ ∧
    validate (pair postgres ['a'] ['B']) (.listed _) = .ok () ∧
    ¬Ordered [['a'],['B']] (fun m => if m = ['a'] then .binary else .dictionary) ⟨1,0,['a']⟩ ⟨1,0,['B']⟩ := by
  refine ⟨rfl,fun ordered => ?_,rfl,fun ordered => ?_⟩
  · exact absurd (ordered.kept ['a'] (by decide) ['a'] (by decide)) (by decide)
  · exact absurd (ordered.agreed ['a'] (by decide) ['B'] (by decide)) (by decide)

end Versions

section Targets
variable (coll : Collation)

structure Queue where
  deltas : List (Delta KeyValues)
  track : List (Text×DeltaID)

def Tracked (track : List (Text×DeltaID)) (target : Text) (id : DeltaID) : Prop :=
  ∃ r ∈ track, coll.weight r.1 = coll.weight target ∧ r.2 = id
instance (track target id) : Decidable (Tracked coll track target id) := by unfold Tracked; infer_instance

def readDirtyKeys (q : Queue) (target : Text) (max : Int) : List (DirtyKey KeyValues) :=
  let rows := ((q.deltas.filter fun d => ¬Tracked coll q.track target d.id).insertionSort fun a b => a.id ≤ b.id).map Delta.dirty
  if 0 < max then rows.take max.toNat else rows

def insertRow (target : Text) (track : List (Text×DeltaID)) (id : DeltaID) : List (Text×DeltaID) :=
  if Tracked coll track target id then track else (target,id)::track

def confirmConsumed (q : Queue) (target : Text) (ids : List DeltaID) : Queue :=
  { q with track := ids.foldl (insertRow coll target) q.track }

def Listed (targets : List Text) (r : Text×DeltaID) : Prop := ∃ target ∈ targets, coll.weight r.1 = coll.weight target
instance (targets r) : Decidable (Listed coll targets r) := by unfold Listed; infer_instance

def purgeConsumedBy (q : Queue) (targets : List Text) : Queue :=
  { q with deltas := q.deltas.filter fun d =>
      targets ≠ [] ∧ (q.track.filter fun r => r.2 = d.id ∧ Listed coll targets r).length ≠ targets.length }

def purge (q : Queue) (targets reseed : List Text) : Queue :=
  if reseed = [] then purgeConsumedBy coll q targets
  else purgeConsumedBy coll { q with track := q.track.filter fun r => ¬Listed coll reseed r } (targets.filter fun t => !reseed.contains t)

inductive Call where
  | capture (d : Delta KeyValues)
  | confirm (target : Text) (ids : List DeltaID)
  | purge (targets reseed : List Text)

def step (q : Queue) : Call → Queue
  | .capture d => { q with deltas := q.deltas++[d] }
  | .confirm target ids => confirmConsumed coll q target ids
  | .purge targets reseed => purge coll q targets reseed

def reached (calls : List Call) : Queue := calls.foldl (step coll) ⟨[],[]⟩

structure Apart (q : Queue) (a b : Text) : Prop where
  left : ∀ ids max, readDirtyKeys coll (confirmConsumed coll q a ids) b max = readDirtyKeys coll q b max
  right : ∀ ids max, readDirtyKeys coll (confirmConsumed coll q b ids) a max = readDirtyKeys coll q a max
  purged : ∀ d ∈ q.deltas, d ∉ (purge coll q [a,b] []).deltas ↔
    d.dirty ∉ readDirtyKeys coll q a 0 ∧ d.dirty ∉ readDirtyKeys coll q b 0

def Keyed (track : List (Text×DeltaID)) : Prop := (track.map fun r => (coll.weight r.1,r.2)).Nodup

variable {coll} {q : Queue} {track : List (Text×DeltaID)} {target : Text}

theorem trackedKey {id} : Tracked coll track target id ↔ (coll.weight target,id) ∈ track.map fun r => (coll.weight r.1,r.2) := by
  simp [Tracked]

theorem insertsTracked {ids : List DeltaID} {other id} : Tracked coll (ids.foldl (insertRow coll target) track) other id ↔
    Tracked coll track other id ∨ coll.weight target = coll.weight other ∧ id ∈ ids := by
  induction ids generalizing track with
  | nil => simp
  | cons first ids ih =>
    have single : Tracked coll (insertRow coll target track first) other id ↔
        Tracked coll track other id ∨ coll.weight target = coll.weight other ∧ id = first := by
      rw [insertRow]
      split
      · rename_i here
        refine (or_iff_left_of_imp ?_).symm
        rintro ⟨same,rfl⟩
        rwa [trackedKey,←same,←trackedKey]
      · simp [Tracked,or_comm,eq_comm]
    rw [foldl_cons,ih,single,mem_cons,or_assoc,and_or_left]

theorem insertsKeyed {ids : List DeltaID} (keyed : Keyed coll track) : Keyed coll (ids.foldl (insertRow coll target) track) := by
  induction ids generalizing track with
  | nil => exact keyed
  | cons first ids ih =>
    refine ih ?_
    rw [insertRow]
    split
    · exact keyed
    · rename_i absent
      exact nodup_cons.mpr ⟨mt trackedKey.mpr absent,keyed⟩

theorem reachedKeyed (calls : List Call) : Keyed coll (reached coll calls).track := by
  induction calls using List.reverseRecOn with
  | nil => exact .nil
  | append_singleton calls call ih =>
    rw [reached,foldl_append]
    cases call with
    | capture d => exact ih
    | confirm target ids => exact insertsKeyed ih
    | purge targets reseed =>
      change Keyed coll (purge coll (reached coll calls) targets reseed).track
      rw [purge]
      split
      · exact ih
      · exact ih.sublist (filter_sublist.map _)

theorem readMem {d} (mem : d ∈ q.deltas) : d.dirty ∉ readDirtyKeys coll q target 0 ↔ Tracked coll q.track target d.id := by
  have listed : d.dirty ∈ readDirtyKeys coll q target 0 ↔ ∃ e ∈ q.deltas, ¬Tracked coll q.track target e.id ∧ e.dirty = d.dirty := by
    simp [readDirtyKeys,mem_insertionSort,and_assoc]
  rw [listed]
  constructor
  · intro none
    by_contra absent
    exact none ⟨d,mem,absent,rfl⟩
  · rintro here ⟨e,_,absent,same⟩
    have id : e.id = d.id := congrArg DirtyKey.deltaID same
    exact absent (id ▸ here)

theorem countTwo {a b id} (keyed : Keyed coll track) (apart : coll.weight a ≠ coll.weight b) :
    (track.filter fun r => r.2 = id ∧ Listed coll [a,b] r).length = 2 ↔ Tracked coll track a id ∧ Tracked coll track b id := by
  have keys := keyed.sublist ((filter_sublist (p := fun r => r.2 = id ∧ Listed coll [a,b] r)).map _)
  set found := (track.filter fun r => r.2 = id ∧ Listed coll [a,b] r).map fun r => (coll.weight r.1,r.2) with shape
  have two : ({(coll.weight a,id),(coll.weight b,id)} : Finset (List Nat×DeltaID)).card = 2 :=
    Finset.card_pair fun same => apart (congrArg Prod.fst same)
  have inside : found.toFinset ⊆ {(coll.weight a,id),(coll.weight b,id)} := by
    intro key mem
    rw [mem_toFinset,shape] at mem
    obtain ⟨r,row,rfl⟩ := mem_map.mp mem
    have matches_ := (mem_filter.mp row).2
    simp only [Listed,mem_cons,not_mem_nil,or_false,exists_eq_or_imp,exists_eq_left,decide_eq_true_eq] at matches_
    obtain ⟨rfl,left | right⟩ := matches_
    · simp [left]
    · simp [right]
  have member : ∀ t ∈ [a,b], ((coll.weight t,id) ∈ found ↔ Tracked coll track t id) := by
    intro t mem
    rw [shape,trackedKey]
    simp only [mem_map,mem_filter,decide_eq_true_eq,Prod.mk.injEq]
    constructor
    · rintro ⟨r,⟨row,_⟩,same⟩
      exact ⟨r,row,same⟩
    · rintro ⟨r,row,same⟩
      exact ⟨r,⟨row,same.2,t,mem,same.1⟩,same⟩
  have size : (track.filter fun r => r.2 = id ∧ Listed coll [a,b] r).length = found.toFinset.card := by
    rw [toFinset_card_of_nodup keys,shape,length_map]
  rw [size,←member a (by simp),←member b (by simp),←mem_toFinset,←mem_toFinset]
  constructor
  · intro full
    rw [Finset.eq_of_subset_of_card_le inside (by omega)]
    simp
  · rintro ⟨left,right⟩
    rw [←two]
    refine congrArg Finset.card (inside.antisymm ?_)
    simp [Finset.insert_subset_iff,left,right]

theorem confirmReads {a b : Text} (apart : coll.weight a ≠ coll.weight b) (q : Queue) (ids max) :
    readDirtyKeys coll (confirmConsumed coll q a ids) b max = readDirtyKeys coll q b max := by
  have same : ∀ id, Tracked coll (ids.foldl (insertRow coll a) q.track) b id ↔ Tracked coll q.track b id :=
    fun id => insertsTracked.trans (or_iff_left fun other => apart other.1)
  simp only [readDirtyKeys,confirmConsumed,same]

theorem consumersApartIff (coll : Collation) (a b : Text) :
    (∀ calls : List Call, Apart coll (reached coll calls) a b) ↔ coll.weight a ≠ coll.weight b := by
  constructor
  · intro all same
    have hidden := (all [.capture ⟨1,.insert,[],0⟩]).left [1] 0
    simp [reached,step,readDirtyKeys,confirmConsumed,insertRow,Tracked,same] at hidden
  · intro apart calls
    refine ⟨confirmReads apart _,confirmReads apart.symm _,fun d mem => ?_⟩
    rw [readMem mem,readMem mem,←countTwo (reachedKeyed calls) apart]
    simp [purge,purgeConsumedBy,mem]

theorem targetsHidden : validate (sample [['t'],['T']] [['a'],['b']]) (.listed _) = .ok () ∧
    readDirtyKeys .caseless (reached .caseless [.capture ⟨1,.insert,[],0⟩]) ['T'] 0 ≠ [] ∧
    readDirtyKeys .caseless (reached .caseless [.capture ⟨1,.insert,[],0⟩,.confirm ['t'] [1]]) ['T'] 0 = [] ∧
    (purge .caseless (reached .caseless [.capture ⟨1,.insert,[],0⟩,.confirm ['t'] [1],.confirm ['T'] [1]]) [['t'],['T']] []).deltas ≠ [] := by
  exact ⟨rfl,by decide,by decide,by decide⟩

end Targets
end Replicare.Collated
