import Mathlib.Data.Nat.Find
import Mathlib.Data.Finset.Basic
import Replicare.Relations

/-! A database on its way to another one, row by row. -/
namespace Replicare.Staged
open Engine Relations

structure Course where
  last : Nat
  stage : Nat → Tables
  gradual : ∀ {r k s t u x z} {cols : List String}, s ≤ t → t ≤ u → u ≤ last → stage s r k = some x →
    stage u r k = some z → cols.map x = cols.map z → ∃ y, stage t r k = some y ∧ cols.map y = cols.map x

/- A key of a table reaches a stage. -/
structure Move where
  table : TableRef
  key : KeyValues
  stage : Nat
  deriving DecidableEq

namespace Course
variable (c : Course)

def reached (level : TableRef → KeyValues → Nat) : Tables := fun r k => c.stage (level r k) r k

def Provides (fk : ForeignKey) (x : Row) (s : Nat) (p : KeyValues) : Prop :=
  ∃ y, c.stage s fk.parent p = some y ∧ references fk x y

def Keeps (fk : ForeignKey) (x : Row) (s : Nat) (k : KeyValues) : Prop :=
  ∃ z, c.stage s fk.child k = some z ∧ fk.childCols.map z = fk.childCols.map x

inductive Requires (fks : List ForeignKey) : Move → Move → Prop where
  | parent {fk k x p s t} (known : fk ∈ fks) (row : c.stage s fk.child k = some x) (low : 0 < s) (high : s ≤ c.last)
      (stays : c.Keeps fk x c.last k) (home : c.Provides fk x c.last p) (below : t < c.last)
      (missing : ¬c.Provides fk x t p) : Requires fks ⟨fk.child,k,s⟩ ⟨fk.parent,p,t+1⟩
  | child {fk k x p s t} (known : fk ∈ fks) (row : c.stage s fk.child k = some x) (below : s < c.last)
      (stayed : c.Keeps fk x 0 k) (home : c.Provides fk x 0 p) (low : 0 < t) (high : t ≤ c.last)
      (lost : ¬c.Provides fk x t p) : Requires fks ⟨fk.parent,p,t⟩ ⟨fk.child,k,s+1⟩
  | earlier {r k s} (low : 0 < s) (below : s < c.last) : Requires fks ⟨r,k,s+1⟩ ⟨r,k,s⟩

structure Steady (fks : List ForeignKey) : Prop where
  home : ∀ fk ∈ fks, ∀ k x s t u p q, s ≤ c.last → t ≤ c.last → u ≤ c.last → c.stage s fk.child k = some x →
    c.Provides fk x t p → c.Provides fk x u q → p = q
  whole : ∀ fk ∈ fks, ∀ k x s, s ≤ c.last → c.stage s fk.child k = some x → (∀ col ∈ fk.childCols, x col ≠ none) →
    c.Keeps fk x 0 k ∨ c.Keeps fk x c.last k

variable {c} {fks : List ForeignKey}

theorem referencesKept {fk x z y} (same : fk.childCols.map z = fk.childCols.map x) (held : references fk x y) :
    references fk z y := by
  refine ⟨fun col mem => ?_,same.trans held.2⟩
  rw [List.map_inj_left.mp same col mem]
  exact held.1 col mem

theorem providesBetween {fk x p s t u} (low : s ≤ t) (mid : t ≤ u) (high : u ≤ c.last)
    (first : c.Provides fk x s p) (second : c.Provides fk x u p) : c.Provides fk x t p := by
  obtain ⟨y,yRow,yHeld⟩ := first
  obtain ⟨z,zRow,zHeld⟩ := second
  obtain ⟨w,wRow,same⟩ := c.gradual low mid high yRow zRow (yHeld.2.symm.trans zHeld.2)
  exact ⟨w,wRow,yHeld.1,yHeld.2.trans same.symm⟩

theorem keepsBetween {fk x k s t u} (low : s ≤ t) (mid : t ≤ u) (high : u ≤ c.last)
    (first : c.Keeps fk x s k) (second : c.Keeps fk x u k) : c.Keeps fk x t k := by
  obtain ⟨y,yRow,yHeld⟩ := first
  obtain ⟨z,zRow,zHeld⟩ := second
  obtain ⟨w,wRow,same⟩ := c.gradual low mid high yRow zRow (yHeld.trans zHeld.symm)
  exact ⟨w,wRow,same.trans yHeld⟩

section Closure
variable (first : Consistent fks (c.stage 0)) (final : Consistent fks (c.stage c.last)) (steady : c.Steady fks)
  {level : TableRef → KeyValues → Nat} (bounded : ∀ r k, level r k ≤ c.last)

include steady bounded in
theorem reachedProvides (held : Consistent fks (c.reached level)) {fk k x s p t} (known : fk ∈ fks) (high : s ≤ c.last)
    (row : c.stage s fk.child k = some x) (kept : c.Keeps fk x (level fk.child k) k) (bound : t ≤ c.last)
    (home : c.Provides fk x t p) : c.Provides fk x (level fk.parent p) p := by
  obtain ⟨z,zRow,same⟩ := kept
  have needs : ∀ col ∈ fk.childCols, z col ≠ none := fun col mem => by
    obtain ⟨y,_,asked⟩ := home
    rw [List.map_inj_left.mp same col mem]
    exact asked.1 col mem
  obtain ⟨q,w,wRow,found⟩ := held fk known k z zRow needs
  have provides : c.Provides fk x (level fk.parent q) q := ⟨w,wRow,referencesKept same.symm found⟩
  have one : q = p := steady.home fk known k x s _ t q p high (bounded _ _) bound row provides home
  exact one ▸ provides

include first final steady bounded in
theorem consistentIff : Consistent fks (c.reached level) ↔
    ∀ m n, c.Requires fks m n → m.stage ≤ level m.table m.key → n.stage ≤ level n.table n.key := by
  constructor
  · intro held m n needed there
    cases needed with
    | parent known row low high stays home below missing =>
      rename_i fk k x p s t
      have kept := keepsBetween there (bounded _ _) (le_refl _) ⟨x,row,rfl⟩ stays
      have provides := reachedProvides steady bounded held known high row kept (le_refl _) home
      by_contra early
      exact missing (providesBetween (Nat.lt_succ_iff.mp (not_le.mp early)) (le_of_lt below) (le_refl _) provides home)
    | child known row below stayed home low high lost =>
      rename_i fk k x p s t
      by_contra early
      have kept := keepsBetween (Nat.zero_le _) (Nat.lt_succ_iff.mp (not_le.mp early)) (le_of_lt below) stayed ⟨x,row,rfl⟩
      have provides := reachedProvides steady bounded held known (le_of_lt below) row kept (Nat.zero_le _) home
      exact lost (providesBetween (Nat.zero_le _) there (bounded _ _) home provides)
    | earlier low below => exact (Nat.le_succ _).trans there
  · intro closed fk known k x row needs
    have here : c.stage (level fk.child k) fk.child k = some x := row
    have found : ∃ p, c.Provides fk x (level fk.parent p) p := by
      rcases steady.whole fk known k x _ (bounded _ _) here needs with ⟨z,zRow,same⟩ | ⟨z,zRow,same⟩
      · obtain ⟨p,y,yRow,found⟩ := first fk known k z zRow (fun col mem => by
          rw [List.map_inj_left.mp same col mem]; exact needs col mem)
        have home : c.Provides fk x 0 p := ⟨y,yRow,referencesKept same.symm found⟩
        refine ⟨p,?_⟩
        by_contra lost
        rcases Nat.eq_or_lt_of_le (bounded fk.child k) with ended | below
        · -- the row never changes its reference, so neither does its parent
          obtain ⟨q,w,wRow,last⟩ := final fk known k x (ended ▸ here) needs
          have one : q = p := steady.home fk known k x _ c.last 0 q p (bounded _ _) (le_refl _) (Nat.zero_le _) here
            ⟨w,wRow,last⟩ home
          subst one
          exact lost (providesBetween (Nat.zero_le _) (bounded _ _) (le_refl _) home ⟨w,wRow,last⟩)
        · have started : 0 < level fk.parent p := Nat.pos_of_ne_zero fun zero => lost (zero.symm ▸ home)
          have early := closed _ _ (.child known here below ⟨z,zRow,same⟩ home started (bounded _ _) lost) (le_refl _)
          exact absurd early (Nat.not_succ_le_self _)
      · obtain ⟨p,y,yRow,found⟩ := final fk known k z zRow (fun col mem => by
          rw [List.map_inj_left.mp same col mem]; exact needs col mem)
        have home : c.Provides fk x c.last p := ⟨y,yRow,referencesKept same.symm found⟩
        refine ⟨p,?_⟩
        by_contra missing
        rcases Nat.eq_zero_or_pos (level fk.child k) with zero | started
        · obtain ⟨q,w,wRow,before⟩ := first fk known k x (zero ▸ here) needs
          have one : q = p := steady.home fk known k x _ 0 c.last q p (bounded _ _) (Nat.zero_le _) (le_refl _) here
            ⟨w,wRow,before⟩ home
          subst one
          exact missing (providesBetween (Nat.zero_le _) (bounded _ _) (le_refl _) ⟨w,wRow,before⟩ home)
        · have below : level fk.parent p < c.last :=
            lt_of_le_of_ne (bounded _ _) fun ended => missing (ended.symm ▸ home)
          have early := closed _ _ (.parent known here started (bounded _ _) ⟨z,zRow,same⟩ home below missing) (le_refl _)
          exact absurd early (Nat.not_succ_le_self _)
    obtain ⟨p,y,yRow,held⟩ := found
    exact ⟨p,y,yRow,held⟩

end Closure

def level (c : Course) (landed : Finset Move) (r : TableRef) (k : KeyValues) : Nat :=
  Nat.findGreatest (fun s => ⟨r,k,s⟩ ∈ landed) c.last

theorem levelBound (landed) (r k) : c.level landed r k ≤ c.last := Nat.findGreatest_le _

/- The moves made are real ones, and none was left out on the way. -/
structure Orderly (c : Course) (landed : Finset Move) : Prop where
  low : ∀ m ∈ landed, 0 < m.stage
  high : ∀ m ∈ landed, m.stage ≤ c.last
  earlier : ∀ r k s, 0 < s → ⟨r,k,s+1⟩ ∈ landed → ⟨r,k,s⟩ ∈ landed

theorem orderlyDown {landed} (orderly : c.Orderly landed) {r k s t} (low : 0 < s) (below : s ≤ t)
    (there : ⟨r,k,t⟩ ∈ landed) : ⟨r,k,s⟩ ∈ landed := by
  induction t, below using Nat.le_induction with
  | base => exact there
  | succ t bound ih => exact ih (orderly.earlier r k t (by omega) there)

theorem levelIff {landed} (orderly : c.Orderly landed) {r k s} (low : 0 < s) (high : s ≤ c.last) :
    ⟨r,k,s⟩ ∈ landed ↔ s ≤ c.level landed r k := by
  constructor
  · intro there
    exact Nat.le_findGreatest high there
  · intro below
    have some : c.level landed r k ≠ 0 := by omega
    exact orderlyDown orderly low below (Nat.findGreatest_of_ne_zero rfl some)

theorem closedIff (first : Consistent fks (c.stage 0)) (final : Consistent fks (c.stage c.last)) (steady : c.Steady fks)
    {landed} (orderly : c.Orderly landed) :
    Consistent fks (c.reached (c.level landed)) ↔ ∀ m ∈ landed, ∀ n, c.Requires fks m n → n ∈ landed := by
  rw [consistentIff first final steady (levelBound landed)]
  have inner : ∀ m n, c.Requires fks m n → (0 < m.stage ∧ m.stage ≤ c.last) ∧ 0 < n.stage ∧ n.stage ≤ c.last := by
    intro m n needed
    cases needed with
    | parent _ _ low high _ _ below _ | child _ _ below _ _ low high _ => exact ⟨⟨low,high⟩,Nat.succ_pos _,below⟩
    | earlier low below => exact ⟨⟨Nat.succ_pos _,below⟩,low,le_of_lt below⟩
  refine ⟨fun closed m mem n needed => ?_,fun closed m n needed there => ?_⟩
  · obtain ⟨⟨low,high⟩,low',high'⟩ := inner m n needed
    exact (levelIff orderly low' high').mpr (closed m n needed ((levelIff orderly low high).mp mem))
  · obtain ⟨⟨low,high⟩,low',high'⟩ := inner m n needed
    exact (levelIff orderly low' high').mp (closed m ((levelIff orderly low high).mpr there) n needed)

end Course
end Replicare.Staged
