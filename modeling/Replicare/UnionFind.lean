import Mathlib.Data.Nat.Basic
import Mathlib.Logic.Function.Basic
import Mathlib.Logic.Relation

/-! Union-find over any nodes, kept in two maps, with union by rank and path halving. -/
namespace Replicare.UnionFind
open Relation List Function

structure Forest (ν : Type*) where
  parent : ν → Option ν
  rank : ν → Nat

variable {ν : Type*} [DecidableEq ν] [Inhabited ν]

def Forest.empty : Forest ν := ⟨fun _ => none,fun _ => 0⟩

omit [DecidableEq ν] [Inhabited ν] in
def Forest.Known (u : Forest ν) (x : ν) : Prop := (u.parent x).isSome = true

def Forest.up (u : Forest ν) (x : ν) : ν := (u.parent x).getD default

def Forest.point (u : Forest ν) (x y : ν) : Forest ν := { u with parent := update u.parent x (some y) }

def add (u : Forest ν) (x : ν) : Forest ν :=
  if (u.parent x).isSome then u else ⟨update u.parent x (some x),update u.rank x 0⟩

def find : Nat → Forest ν → ν → Forest ν × ν
  | 0, u, x => (u,x)
  | fuel+1, u, x =>
      if u.up x = x then (u,x)
      else
        let halved := u.point x (u.up (u.up x))
        find fuel halved (halved.up x)

def link (u : Forest ν) (ra rb : ν) : Forest ν :=
  let linked := u.point rb ra
  if linked.rank ra = linked.rank rb then { linked with rank := update linked.rank ra (linked.rank ra+1) } else linked

def union (fuel : Nat) (u : Forest ν) (a b : ν) : Forest ν :=
  let one := find fuel (add (add u a) b) a
  let two := find fuel one.1 b
  if one.2 = two.2 then two.1
  else if two.1.rank one.2 < two.1.rank two.2 then link two.1 two.2 one.2
  else link two.1 one.2 two.2

def roots (fuel : Nat) : Forest ν → List ν → List ν
  | _, [] => []
  | u, x::rest => (find fuel u x).2::roots fuel (find fuel u x).1 rest

structure Labels (u : Forest ν) (label : ν → ν) (bound : Nat) : Prop where
  closed : ∀ x, u.Known x → u.Known (u.up x)
  rises : ∀ x, u.Known x → u.up x ≠ x → u.rank x < u.rank (u.up x)
  low : ∀ x, u.Known x → u.rank x ≤ bound
  same : ∀ x, u.Known x → label (u.up x) = label x
  root : ∀ x, u.Known x → u.up x = x → label x = x
  fresh : ∀ x, ¬u.Known x → label x = x
  once : ∀ x, label (label x) = label x

section Point
variable {u : Forest ν} {x y z : ν}

omit [Inhabited ν] in
theorem pointKnown : (u.point x y).Known z ↔ z = x ∨ u.Known z := by
  by_cases here : z = x <;> simp [Forest.Known,Forest.point,here]

theorem pointUp : (u.point x y).up z = if z = x then y else u.up z := by
  by_cases here : z = x <;> simp [Forest.up,Forest.point,here]

end Point

section Labels
variable {u : Forest ν} {label : ν → ν} {bound : Nat}

omit [DecidableEq ν] in
theorem emptyLabels : Labels (Forest.empty : Forest ν) id 0 := by
  have none : ∀ x, ¬(Forest.empty : Forest ν).Known x := by simp [Forest.Known,Forest.empty]
  exact ⟨fun x known => absurd known (none x),fun x known => absurd known (none x),fun x known => absurd known (none x),
    fun x known => absurd known (none x),fun _ _ _ => rfl,fun _ _ => rfl,fun _ => rfl⟩

section
variable (labels : Labels u label bound)
include labels

theorem Labels.point {x y : ν} {f : ν → ν} (known : y = x ∨ u.Known y) (low : u.rank x ≤ bound)
    (rises : y ≠ x → u.rank x < u.rank y) (same : f (label y) = f (label x)) (root : y = x → f (label x) = x)
    (others : ∀ z, z ≠ x → f z = z) (once : ∀ z, f (label (f (label z))) = f (label z)) :
    Labels (u.point x y) (fun z => f (label z)) bound where
  closed := by
    intro z here
    rw [pointKnown,pointUp] at *
    split
    · exact known
    · rename_i other
      exact .inr (labels.closed z (here.resolve_left other))
  rises := by
    intro z here moves
    rw [pointKnown] at here
    rw [pointUp] at moves ⊢
    show u.rank z < u.rank (if z = x then y else u.up z)
    split at moves
    · rename_i is
      subst is
      rw [if_pos rfl]
      exact rises moves
    · rename_i other
      rw [if_neg other]
      exact labels.rises z (here.resolve_left other) moves
  low := by
    intro z here
    rcases pointKnown.mp here with rfl | old
    · exact low
    · exact labels.low z old
  same := by
    intro z here
    rw [pointKnown] at here
    rw [pointUp]
    split
    · rename_i is
      subst is
      exact same
    · rename_i other
      rw [labels.same z (here.resolve_left other)]
  root := by
    intro z here stays
    rw [pointKnown] at here
    rw [pointUp] at stays
    split at stays
    · rename_i is
      subst is
      exact root stays
    · rename_i other
      rw [labels.root z (here.resolve_left other) stays,others z other]
  fresh := by
    intro z unknown
    rw [pointKnown,not_or] at unknown
    rw [labels.fresh z unknown.2,others z unknown.1]
  once := once

theorem Labels.raise {r} (root : u.up r = r) : Labels { u with rank := update u.rank r (u.rank r+1) } label (bound+1) := by
  have low : ∀ z, u.Known z → update u.rank r (u.rank r+1) z ≤ bound+1 := by
    intro z known
    have old := labels.low z known
    by_cases here : z = r
    · subst here
      rw [update_self]
      omega
    · rw [update_of_ne here]
      omega
  refine ⟨labels.closed,fun z known moves => ?_,low,labels.same,labels.root,labels.fresh,labels.once⟩
  have old : u.rank z < u.rank (u.up z) := labels.rises z known moves
  have other : z ≠ r := fun here => moves (by rw [here]; exact root)
  show update u.rank r (u.rank r+1) z < update u.rank r (u.rank r+1) (u.up z)
  rw [update_of_ne other]
  by_cases top : u.up z = r
  · rw [top,update_self]
    rw [top] at old
    omega
  · rwa [update_of_ne top]

theorem Labels.rerank {x} (unknown : ¬u.Known x) (n) : Labels { u with rank := update u.rank x n } label bound := by
  have other : ∀ {z}, u.Known z → update u.rank x n z = u.rank z := fun {z} known =>
    update_of_ne (fun here : z = x => unknown (here ▸ known)) _ _
  refine ⟨labels.closed,fun z known moves => ?_,fun z known => ?_,labels.same,labels.root,labels.fresh,labels.once⟩
  · have old : u.rank z < u.rank (u.up z) := labels.rises z known moves
    show update u.rank x n z < update u.rank x n (u.up z)
    rwa [other known,other (labels.closed z known)]
  · show update u.rank x n z ≤ bound
    rw [other known]
    exact labels.low z known

omit [DecidableEq ν] in
theorem Labels.mono {more} (le : bound ≤ more) : Labels u label more :=
  { labels with low := fun x known => Nat.le_trans (labels.low x known) le }

omit labels in
omit [Inhabited ν] in
theorem addKnown {x y} : (add u x).Known y ↔ y = x ∨ u.Known y := by
  unfold add
  split
  · rename_i known
    refine (or_iff_right_of_imp ?_).symm
    rintro rfl
    exact known
  · exact pointKnown (u := u) (y := x)

theorem addLabels (x : ν) : Labels (add u x) label bound := by
  by_cases known : (u.parent x).isSome = true
  · rwa [add,if_pos known]
  · rw [add,if_neg known]
    have ranked := labels.rerank known 0
    exact ranked.point (.inl rfl) (by simp) (fun moves => absurd rfl moves) rfl (fun _ => labels.fresh x known) (fun _ _ => rfl) labels.once

omit labels in
structure Found (u : Forest ν) (label : ν → ν) (bound : Nat) (x : ν) (out : Forest ν × ν) : Prop where
  labels : Labels out.1 label bound
  is : out.2 = label x
  known : ∀ z, out.1.Known z ↔ u.Known z
  rank : out.1.rank = u.rank
  top : out.1.Known out.2
  root : out.1.up out.2 = out.2
  stays : ∀ z, u.up z = z → out.1.up z = z

theorem findFound {x : ν} (known : u.Known x) (fuel) (enough : bound < fuel+u.rank x) :
    Found u label bound x (find fuel u x) := by
  induction fuel generalizing u x with
  | zero =>
    have low := labels.low x known
    omega
  | succ fuel ih =>
    unfold find
    split
    · rename_i here
      exact ⟨labels,(labels.root x known here).symm,fun z => Iff.rfl,rfl,known,here,fun _ stays => stays⟩
    · rename_i moves
      have first := labels.rises x known moves
      have above := labels.closed x known
      -- the grandparent is no lower than the parent
      have second : u.rank (u.up x) ≤ u.rank (u.up (u.up x)) := by
        by_cases top : u.up (u.up x) = u.up x
        · rw [top]
        · exact Nat.le_of_lt (labels.rises _ above top)
      have climbs : u.rank x < u.rank (u.up (u.up x)) := Nat.lt_of_lt_of_le first second
      have other : u.up (u.up x) ≠ x := fun loop => Nat.ne_of_lt climbs (by rw [loop])
      have halved : Labels (u.point x (u.up (u.up x))) label bound :=
        labels.point (f := id) (.inr (labels.closed _ above)) (labels.low x known) (fun _ => climbs)
          ((labels.same _ above).trans (labels.same x known)) (fun loop => absurd loop other) (fun _ _ => rfl) labels.once
      have next : (u.point x (u.up (u.up x))).up x = u.up (u.up x) := by rw [pointUp,if_pos rfl]
      have there : (u.point x (u.up (u.up x))).Known (u.up (u.up x)) := pointKnown.mpr (.inr (labels.closed _ above))
      dsimp only
      rw [next]
      have rest : Found (u.point x (u.up (u.up x))) label bound (u.up (u.up x)) (find fuel (u.point x (u.up (u.up x))) (u.up (u.up x))) := by
        refine ih halved there ?_
        show bound < fuel+u.rank (u.up (u.up x))
        omega
      refine ⟨rest.labels,rest.is.trans ((labels.same _ above).trans (labels.same x known)),fun z =>
        ?_,rest.rank,rest.top,rest.root,fun z stays => ?_⟩
      · rw [rest.known,pointKnown]
        exact or_iff_right_of_imp fun is => is ▸ known
      · refine rest.stays z ?_
        rw [pointUp,if_neg fun here : z = x => moves (here ▸ stays)]
        exact stays

omit labels in
omit [Inhabited ν] in
theorem linkKnown {ra rb z} : (link u ra rb).Known z ↔ z = rb ∨ u.Known z := by
  unfold link
  dsimp only
  split <;> exact pointKnown (u := u) (y := ra)

theorem linkLabels {ra rb : ν} (known : u.Known ra) (too : u.Known rb) (top : u.up ra = ra)
    (other : u.up rb = rb) (apart : ra ≠ rb) (low : u.rank rb ≤ u.rank ra) :
    Labels (link u ra rb) (fun z => if label z = rb then ra else label z) (bound+1) := by
  have one := labels.root ra known top
  have two := labels.root rb too other
  have same : (if label ra = rb then ra else label ra) = if label rb = rb then ra else label rb := by
    rw [one,two,if_neg apart,if_pos rfl]
  have once : ∀ z, (if label (if label z = rb then ra else label z) = rb then ra else label (if label z = rb then ra else label z)) =
      if label z = rb then ra else label z := by
    intro z
    by_cases here : label z = rb
    · rw [if_pos here,one,if_neg apart]
    · rw [if_neg here,labels.once,if_neg here]
  have others : ∀ z, z ≠ rb → (if z = rb then ra else z) = z := fun z away => if_neg away
  unfold link
  dsimp only
  split
  · have raised := labels.raise top
    refine raised.point (f := fun z => if z = rb then ra else z) (.inr known) (raised.low rb too) (fun _ => ?_) same
      (fun loop => absurd loop apart) others once
    show update u.rank ra (u.rank ra+1) rb < update u.rank ra (u.rank ra+1) ra
    rw [update_self,update_of_ne apart.symm]
    omega
  · rename_i differ
    have wide := labels.mono (Nat.le_succ bound)
    refine wide.point (f := fun z => if z = rb then ra else z) (.inr known) (wide.low rb too) (fun _ => ?_) same
      (fun loop => absurd loop apart) others once
    exact Nat.lt_of_le_of_ne low fun equal => differ equal.symm

end

end Labels

def Classes (label : ν → ν) (R : ν → ν → Prop) : Prop := ∀ x y, label x = label y ↔ EqvGen R x y

section Classes
variable {label : ν → ν} {R : ν → ν → Prop} {a b : ν}

omit [Inhabited ν] in
theorem Classes.merge (classes : Classes label R) {ra rb} (ends : ra = label a ∧ rb = label b ∨ ra = label b ∧ rb = label a) :
    Classes (fun z => if label z = rb then ra else label z) fun x y => R x y ∨ x = a ∧ y = b := by
  have old : ∀ {x y}, label x = label y → EqvGen (fun x y => R x y ∨ x = a ∧ y = b) x y := fun {x y} same =>
    EqvGen.mono (fun _ _ edge => Or.inl edge) x y ((classes x y).mp same)
  have link : EqvGen (fun x y => R x y ∨ x = a ∧ y = b) a b := .rel _ _ (.inr ⟨rfl,rfl⟩)
  have across : ∀ {x y}, label x = ra → label y = rb → EqvGen (fun x y => R x y ∨ x = a ∧ y = b) x y := by
    intro x y one two
    rcases ends with ⟨rfl,rfl⟩ | ⟨rfl,rfl⟩
    · exact .trans _ _ _ (old one) (.trans _ _ _ link (old two.symm))
    · exact .trans _ _ _ (old one) (.trans _ _ _ (.symm _ _ link) (old two.symm))
  intro x y
  constructor
  · intro same
    dsimp only at same
    split at same <;> rename_i one <;> split at same <;> rename_i two
    · exact old (one.trans two.symm)
    · exact .symm _ _ (across same.symm one)
    · exact across same two
    · exact old same
  · intro linked
    induction linked with
    | rel x y edge =>
      rcases edge with edge | ⟨rfl,rfl⟩
      · dsimp only
        rw [(classes x y).mpr (.rel _ _ edge)]
      · rcases ends with ⟨rfl,rfl⟩ | ⟨rfl,rfl⟩ <;> simp
    | refl => rfl
    | symm _ _ _ ih => exact ih.symm
    | trans _ _ _ _ _ one two => exact one.trans two

variable {u : Forest ν} {bound fuel : Nat}

theorem unionLabels (labels : Labels u label bound) (classes : Classes label R) (fuel) (enough : bound < fuel) (a b : ν) :
    ∃ next, Labels (union fuel u a b) next (bound+1) ∧ Classes next (fun x y => R x y ∨ x = a ∧ y = b) ∧
      ∀ z, u.Known z → (union fuel u a b).Known z := by
  have added := addLabels (addLabels labels a) b
  have here : (add (add u a) b).Known a := addKnown.mpr (.inr (addKnown.mpr (.inl rfl)))
  have one := findFound added here fuel (Nat.lt_of_lt_of_le enough (Nat.le_add_right _ _))
  have there := (one.known b).mpr (addKnown.mpr (.inl rfl))
  have two := findFound one.labels there fuel (Nat.lt_of_lt_of_le enough (Nat.le_add_right _ _))
  have keeps : ∀ z, u.Known z → (find fuel (find fuel (add (add u a) b) a).1 b).1.Known z := fun z known =>
    (two.known z).mpr ((one.known z).mpr (addKnown.mpr (.inr (addKnown.mpr (.inr known)))))
  have first := two.stays _ one.root
  have known := (two.known _).mpr one.top
  unfold union
  dsimp only
  split
  · rename_i same
    have equal : label a = label b := by rw [← one.is,← two.is,same]
    refine ⟨label,two.labels.mono (Nat.le_succ bound),?_,keeps⟩
    have merged := classes.merge (a := a) (b := b) (.inl ⟨rfl,rfl⟩)
    have unchanged : (fun z => if label z = label b then label a else label z) = label := by
      funext z
      split
      · rename_i here
        rw [here,equal]
      · rfl
    rwa [unchanged] at merged
  · rename_i apart
    split
    · rename_i lower
      refine ⟨_,linkLabels two.labels two.top known two.root first (Ne.symm apart)
        (Nat.le_of_lt lower),?_,fun z old => linkKnown.mpr (.inr (keeps z old))⟩
      exact classes.merge (.inr ⟨two.is,one.is⟩)
    · rename_i lower
      refine ⟨_,linkLabels two.labels known two.top first two.root apart (Nat.le_of_not_lt lower),?_,fun z old => linkKnown.mpr (.inr (keeps z old))⟩
      exact classes.merge (.inl ⟨one.is,two.is⟩)

theorem unionsLabels (links : List (ν × ν)) (labels : Labels u label bound) (classes : Classes label R) (fuel : Nat)
    (enough : bound+links.length ≤ fuel) :
    ∃ next, Labels (links.foldl (fun u e => union fuel u e.1 e.2) u) next (bound+links.length) ∧
      Classes next (fun x y => R x y ∨ (x,y) ∈ links) ∧ ∀ z, u.Known z → (links.foldl (fun u e => union fuel u e.1 e.2) u).Known z := by
  induction links generalizing u label bound R with
  | nil => exact ⟨label,labels,by simpa using classes,fun _ known => known⟩
  | cons e links ih =>
    rw [length_cons] at enough ⊢
    obtain ⟨next,marked,merged,keeps⟩ := unionLabels labels classes fuel (by omega) e.1 e.2
    obtain ⟨last,there,classes,rest⟩ := ih marked merged (by omega)
    refine ⟨last,?_,?_,fun z known => rest z (keeps z known)⟩
    · rwa [Nat.add_comm links.length 1,← Nat.add_assoc]
    · have same : (fun x y => (R x y ∨ x = e.1 ∧ y = e.2) ∨ (x,y) ∈ links) = fun x y => R x y ∨ (x,y) ∈ e::links := by
        funext x y
        rw [mem_cons,or_assoc,Prod.ext_iff]
      rwa [same] at classes

theorem rootsLength (xs : List ν) (fuel : Nat) (u : Forest ν) : (roots fuel u xs).length = xs.length := by
  induction xs generalizing u with
  | nil => rfl
  | cons x xs ih => rw [roots,length_cons,ih,length_cons]

theorem rootsLabels {xs} (labels : Labels u label bound) (known : ∀ x ∈ xs, u.Known x) (enough : bound < fuel) : roots fuel u xs = xs.map label := by
  induction xs generalizing u with
  | nil => rfl
  | cons x xs ih =>
    have found := findFound labels (known x mem_cons_self) fuel (Nat.lt_of_lt_of_le enough (Nat.le_add_right _ _))
    rw [roots,found.is,map_cons,ih found.labels fun y mem => (found.known y).mpr (known y (mem_cons_of_mem _ mem))]

theorem addsLabels (xs : List ν) (labels : Labels u label bound) : Labels (xs.foldl add u) label bound ∧
    ∀ z, z ∈ xs ∨ u.Known z → (xs.foldl add u).Known z := by
  induction xs generalizing u with
  | nil => exact ⟨labels,fun z known => known.resolve_left not_mem_nil⟩
  | cons x xs ih =>
    obtain ⟨rest,known⟩ := ih (addLabels labels x)
    refine ⟨rest,fun z mem => known z ?_⟩
    rw [mem_cons,or_assoc,or_left_comm] at mem
    rwa [addKnown]

theorem partitioned (xs : List ν) (links : List (ν × ν)) (fuel : Nat) (enough : links.length < fuel) : ∃ label,
    roots fuel (links.foldl (fun u e => union fuel u e.1 e.2) (xs.foldl add Forest.empty)) xs = xs.map label ∧
      Classes label fun x y => (x,y) ∈ links := by
  obtain ⟨added,known⟩ := addsLabels xs (emptyLabels (ν := ν))
  have apart : Classes (id : ν → ν) fun _ _ => False := by
    intro x y
    refine ⟨fun same => ?_,fun linked => ?_⟩
    · cases same
      exact .refl _
    · induction linked with
      | rel _ _ edge => exact edge.elim
      | refl => rfl
      | symm _ _ _ ih => exact ih.symm
      | trans _ _ _ _ _ one two => exact one.trans two
  obtain ⟨label,marked,classes,keeps⟩ := unionsLabels links added apart fuel (by omega)
  refine ⟨label,rootsLabels marked (fun x mem => keeps x (known x (.inl mem))) (by omega),?_⟩
  simpa using classes

end Classes

end Replicare.UnionFind
