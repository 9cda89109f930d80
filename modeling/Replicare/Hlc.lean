import Mathlib.Data.Prod.Lex
import Mathlib.Algebra.Order.Ring.Int

/-! The hybrid logical clock of a cluster member and the versions it stamps.
Wall-clock readings are arguments; they may repeat and go backwards. -/
namespace Replicare.Hlc

@[ext] structure Clock where
  physical : Int
  logical : Int
  deriving DecidableEq, Repr

@[ext] structure Version (N : Type*) where
  phys : Int
  log : Int
  node : N
  deriving DecidableEq, Repr

def Clock.lex (c : Clock) : ℤ ×ₗ ℤ := toLex (c.physical,c.logical)

instance : LinearOrder Clock := LinearOrder.lift' Clock.lex (by
  intro a b same
  have pair : (a.physical,a.logical) = (b.physical,b.logical) := same
  exact Clock.ext (congrArg Prod.fst pair) (congrArg Prod.snd pair))

variable {N : Type*} [LinearOrder N]

/- The row comparison `(phys, log, node)` of the version guard. -/
def Version.lex (v : Version N) : ℤ ×ₗ (ℤ ×ₗ N) := toLex (v.phys,toLex (v.log,v.node))

instance : LinearOrder (Version N) := LinearOrder.lift' Version.lex (by
  intro a b same
  have outer : (a.phys,toLex (a.log,a.node)) = (b.phys,toLex (b.log,b.node)) := same
  have inner : (a.log,a.node) = (b.log,b.node) := congrArg Prod.snd outer
  exact Version.ext (congrArg Prod.fst outer) (congrArg Prod.fst inner) (congrArg Prod.snd inner))

def Version.stamp (v : Version N) : Clock := ⟨v.phys,v.log⟩

theorem clockLt {a b : Clock} : a < b ↔ a.physical < b.physical ∨ a.physical = b.physical ∧ a.logical < b.logical :=
  Prod.Lex.toLex_lt_toLex

theorem versionLt {a b : Version N} : a < b ↔
    a.phys < b.phys ∨ a.phys = b.phys ∧ (a.log < b.log ∨ a.log = b.log ∧ a.node < b.node) := by
  have outer : a < b ↔ a.phys < b.phys ∨ a.phys = b.phys ∧ toLex (a.log,a.node) < toLex (b.log,b.node) :=
    Prod.Lex.toLex_lt_toLex
  rw [outer,Prod.Lex.toLex_lt_toLex]

theorem stampLt {a b : Version N} (below : a.stamp < b.stamp) : a < b := by
  rw [versionLt]
  rcases clockLt.mp below with phys | ⟨same,log⟩
  · exact .inl phys
  · exact .inr ⟨same,.inl log⟩

def tick (c : Clock) (pt : Int) : Clock :=
  if c.physical < pt then ⟨pt,0⟩ else ⟨c.physical,c.logical+1⟩

def observe (c : Clock) (pt inPhys inLog : Int) : Clock :=
  let phys := max pt (max inPhys c.physical)
  ⟨phys,
    if phys = c.physical ∧ phys = inPhys then max c.logical inLog+1
    else if phys = c.physical then c.logical+1
    else if phys = inPhys then inLog+1
    else 0⟩

theorem tickAdvances (c : Clock) (pt) : c < tick c pt := by
  rw [clockLt]
  unfold tick
  split
  · rename_i later
    exact .inl later
  · exact .inr ⟨rfl,by dsimp only; omega⟩

theorem observeAdvances (c : Clock) (pt inPhys inLog) :
    c < observe c pt inPhys inLog ∧ ⟨inPhys,inLog⟩ < observe c pt inPhys inLog := by
  rw [clockLt,clockLt]
  unfold observe
  dsimp only
  refine ⟨?_,?_⟩
  · rcases lt_or_eq_of_le (show c.physical ≤ max pt (max inPhys c.physical) by omega) with later | same
    · exact .inl later
    · refine .inr ⟨same,?_⟩
      split
      · omega
      · rw [if_pos same.symm]
        omega
  · rcases lt_or_eq_of_le (show inPhys ≤ max pt (max inPhys c.physical) by omega) with later | same
    · exact .inl later
    · refine .inr ⟨same,?_⟩
      split
      · omega
      · rename_i apart
        rw [if_neg (fun own => apart ⟨own,same.symm⟩),if_pos same.symm]
        omega

end Replicare.Hlc
