import Mathlib.Order.WithBot
import Replicare.RedisMesh

/-! The newest entry of a key, and how records carry it. -/
namespace Replicare.RedisRanks
open Hlc RedisMesh Function

variable {E N C : Type*} [DecidableEq E] [LinearOrder N]

def rank (s : State E N C) (n : N) : WithBot (Version N) := (s.register n).elim ⊥ fun v => (v.version : WithBot (Version N))

structure Capped (holder : N) (top : WithBot (Version N)) (s : State E N C) : Prop where
  below : ∀ n, rank s n ≤ top
  held : rank s holder = top
  flying : ∀ e, ∀ r ∈ s.flight e, (r.version : WithBot (Version N)) ≤ top

structure Writes (top : WithBot (Version N)) (s t : State E N C) : Prop where
  entry : ∀ n, t.register n = s.register n ∨
    ∃ v, t.register n = some v ∧ (v.version : WithBot (Version N)) ≤ top ∧ wins (s.register n) v.version = true
  flying : ∀ e, ∀ r ∈ t.flight e, (r.version : WithBot (Version N)) ≤ top

variable {m : Mesh E N C} {s t : State E N C} {e : E} {n holder : N} {top : WithBot (Version N)} {r : Record N C}

omit [DecidableEq E] [LinearOrder N] in
theorem rankSome {v} (entry : s.register n = some v) : rank s n = v.version := by
  unfold rank
  rw [entry]
  rfl

omit [DecidableEq E] [LinearOrder N] in
theorem rankNone (entry : s.register n = none) : rank s n = ⊥ := by
  unfold rank
  rw [entry]
  rfl

omit [DecidableEq E] in
theorem cappedStep (capped : Capped holder top s) (writes : Writes top s t) : Capped holder top t := by
  have same : ∀ n, t.register n = s.register n → rank t n = rank s n := by
    intro n kept
    unfold rank
    rw [kept]
  refine ⟨fun n => ?_,?_,writes.flying⟩
  · rcases writes.entry n with kept | ⟨v,entry,high,_⟩
    · rw [same n kept]
      exact capped.below n
    · rw [rankSome entry]
      exact high
  · rcases writes.entry holder with kept | ⟨v,entry,high,won⟩
    · rw [same holder kept]
      exact capped.held
    · -- nothing wins over the top
      exfalso
      have held := capped.held
      cases before : s.register holder with
      | none =>
        rw [← held,rankNone before] at high
        exact absurd high (by simp)
      | some w =>
        rw [before] at won
        rw [← held,rankSome before,WithBot.coe_le_coe] at high
        exact absurd (of_decide_eq_true won) (not_lt.mpr high)

omit [DecidableEq E] in
theorem writesGrow (writes : Writes top s t) (n) : rank s n ≤ rank t n := by
  rcases writes.entry n with kept | ⟨v,entry,_,won⟩
  · unfold rank
    rw [kept]
  · cases before : s.register n with
    | none =>
      rw [rankNone before]
      exact bot_le
    | some w =>
      rw [before] at won
      rw [rankSome before,rankSome entry]
      exact WithBot.coe_le_coe.mpr (le_of_lt (of_decide_eq_true won))

omit [DecidableEq E] in
theorem sameWrites (capped : Capped holder top s) (entry : t.register = s.register) (flight : t.flight = s.flight) :
    Writes top s t :=
  ⟨fun n => .inl (congrFun entry n),flight ▸ capped.flying⟩

theorem frameWrites (capped : Capped holder top s) (entry : t.register = s.register)
    (flight : t.flight = update s.flight e (s.flight e++[r])) (low : (r.version : WithBot (Version N)) ≤ top) :
    Writes top s t := by
  refine ⟨fun n => .inl (congrFun entry n),fun q x mem => ?_⟩
  rw [flight] at mem
  rcases pushMem mem with old | rfl
  · exact capped.flying q x old
  · exact low

theorem deliverWrites (capped : Capped holder top s) {rest} (waiting : s.flight e = r::rest) :
    Writes top s (meshApply { s with flight := update s.flight e rest } n r) := by
  refine ⟨fun k => ?_,fun q x mem => ?_⟩
  · unfold meshApply
    split
    · rename_i won
      by_cases same : k = n
      · subst same
        exact .inr ⟨r.entry,update_self ..,capped.flying e r (waiting ▸ List.mem_cons_self),won⟩
      · exact .inl (update_of_ne same ..)
    · exact .inl rfl
  · rw [applyFlight] at mem
    exact capped.flying q x (popMem waiting mem)

omit [DecidableEq E] in
theorem applyRank (s : State E N C) (n) (r : Record N C) : (r.version : WithBot (Version N)) ≤ rank (meshApply s n r) n := by
  unfold meshApply
  split
  · rw [rankSome (v := r.entry) (update_self ..)]
    exact le_refl _
  · rename_i lost
    cases entry : s.register n with
    | none =>
      rw [entry] at lost
      exact absurd rfl lost
    | some v =>
      rw [entry] at lost
      rw [rankSome entry]
      exact WithBot.coe_le_coe.mpr (not_lt.mp fun below => lost (decide_eq_true below))

theorem deliverFlight {q x rest} (waiting : s.flight q = x::rest) (mem : r ∈ s.flight e) :
    r ∈ (meshApply { s with flight := update s.flight q rest } (m.target q) x).flight e ∨
    (r.version : WithBot (Version N)) ≤
      rank (meshApply { s with flight := update s.flight q rest } (m.target q) x) (m.target e) := by
  by_cases same : e = q
  · subst same
    rw [waiting] at mem
    rcases List.mem_cons.mp mem with rfl | later
    · exact .inr (applyRank ..)
    · rw [applyFlight]
      exact .inl (by simpa only [update_self] using later)
  · rw [applyFlight]
    exact .inl (by simpa only [update_of_ne same] using mem)

omit [LinearOrder N] in
theorem frameFlight {q x} (flight : t.flight = update s.flight q (s.flight q++[x]))
    (mem : r ∈ s.flight e) : r ∈ t.flight e := by
  rw [flight]
  by_cases same : e = q
  · subst same
    rw [update_self]
    exact List.mem_append_left _ mem
  · rw [update_of_ne same]
    exact mem

end Replicare.RedisRanks
