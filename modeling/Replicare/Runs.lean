import Mathlib.Order.WellFounded

/-! Runs of a labelled step function over an arbitrary state. A refused action has no
successor. -/
namespace Replicare.Runs
open List

variable {σ α : Type*}

def run (step : σ → α → Option σ) : σ → List α → Option σ
  | s, [] => some s
  | s, a::as => (step s a).bind fun t => run step t as

/- Every action of the list meets `cond` in the state it is taken in. -/
def Along (step : σ → α → Option σ) (cond : σ → α → Prop) : σ → List α → Prop
  | _, [] => True
  | s, a::as => cond s a ∧ ∀ t, step s a = some t → Along step cond t as

instance decidableAlong (step : σ → α → Option σ) (cond : σ → α → Prop) [∀ s a, Decidable (cond s a)] :
    ∀ s as, Decidable (Along step cond s as)
  | _, [] => isTrue trivial
  | s, a::as =>
      match taken : step s a with
      | none => decidable_of_iff (cond s a)
          ⟨fun met => ⟨met,fun _ ok => nomatch taken.symm.trans ok⟩,And.left⟩
      | some t =>
          have := decidableAlong step cond t as
          decidable_of_iff (cond s a ∧ Along step cond t as)
            ⟨fun both => ⟨both.1,fun _ ok => Option.some.inj (taken.symm.trans ok) ▸ both.2⟩,
              fun both => ⟨both.1,both.2 t taken⟩⟩

variable {step : σ → α → Option σ} {cond : σ → α → Prop} {P : σ → Prop}

theorem runCons {s a as t} (ok : run step s (a::as) = some t) : ∃ m, step s a = some m ∧ run step m as = some t := by
  simpa only [run,Option.bind_eq_some_iff] using ok

theorem runSplit {s as bs t} (ok : run step s (as++bs) = some t) :
    ∃ m, run step s as = some m ∧ run step m bs = some t := by
  induction as generalizing s with
  | nil => exact ⟨s,rfl,ok⟩
  | cons a as ih =>
    obtain ⟨m,first,rest⟩ := runCons ok
    obtain ⟨n,left,right⟩ := ih rest
    exact ⟨n,by simp only [run,first,Option.bind_some,left],right⟩

theorem runAppend {s as m} (bs) (ran : run step s as = some m) : run step s (as++bs) = run step m bs := by
  induction as generalizing s with
  | nil =>
    cases ran
    rfl
  | cons a as ih =>
    obtain ⟨n,first,rest⟩ := runCons ran
    simp only [cons_append,run,first,Option.bind_some,ih rest]

theorem alongOfAll {s as} (all : ∀ a ∈ as, ∀ s, cond s a) : Along step cond s as := by
  induction as generalizing s with
  | nil => trivial
  | cons a as ih =>
    exact ⟨all a mem_cons_self s,fun t _ => ih fun b mem => all b (mem_cons_of_mem _ mem)⟩

theorem runSnoc {s as a m t} (ran : run step s as = some m) (last : step m a = some t) : run step s (as++[a]) = some t := by
  induction as generalizing s with
  | nil =>
    cases ran
    simp only [nil_append,run,last,Option.bind_some]
  | cons b as ih =>
    obtain ⟨n,first,rest⟩ := runCons ran
    simp only [cons_append,run,first,Option.bind_some,ih rest]

theorem alongSnoc {s as a} (held : Along step cond s as) (last : ∀ m, run step s as = some m → cond m a) :
    Along step cond s (as++[a]) := by
  induction as generalizing s with
  | nil => exact ⟨last s rfl,fun _ _ => trivial⟩
  | cons b as ih =>
    refine ⟨held.1,fun t first => ih (held.2 t first) fun m ran => last m ?_⟩
    simp only [run,first,Option.bind_some,ran]

theorem alongBoth {other s as} (one : Along step cond s as) (two : Along step other s as) :
    Along step (fun s a => cond s a ∧ other s a) s as := by
  induction as generalizing s with
  | nil => trivial
  | cons a as ih => exact ⟨⟨one.1,two.1⟩,fun t ok => ih (one.2 t ok) (two.2 t ok)⟩

theorem alongJoin {s as bs} (one : Along step cond s as) (two : ∀ m, run step s as = some m → Along step cond m bs) :
    Along step cond s (as++bs) := by
  induction as generalizing s with
  | nil => exact two s rfl
  | cons a as ih =>
    refine ⟨one.1,fun t ok => ih (one.2 t ok) fun m ran => two m ?_⟩
    simp only [run,ok,Option.bind_some,ran]

theorem alongSplit {s as bs m} (held : Along step cond s (as++bs)) (ran : run step s as = some m) :
    Along step cond s as ∧ Along step cond m bs := by
  induction as generalizing s with
  | nil =>
    cases ran
    exact ⟨trivial,held⟩
  | cons a as ih =>
    obtain ⟨n,first,rest⟩ := runCons ran
    refine ⟨⟨held.1,fun t ok => ?_⟩,(ih (held.2 n first) rest).2⟩
    cases first.symm.trans ok
    exact (ih (held.2 n first) rest).1

section
variable (keep : ∀ s a t, P s → cond s a → step s a = some t → P t)
include keep

theorem runKeeps {s as t} (held : Along step cond s as) (ok : run step s as = some t) (start : P s) : P t := by
  induction as generalizing s with
  | nil => cases ok; exact start
  | cons a as ih =>
    obtain ⟨m,first,rest⟩ := runCons ok
    exact ih (held.2 m first) rest (keep s a m start held.1 first)

theorem alongUnder {other}
    (gives : ∀ s a, P s → cond s a → other s a) {s as} (held : Along step cond s as) (start : P s) : Along step other s as := by
  induction as generalizing s with
  | nil => trivial
  | cons a as ih =>
    exact ⟨gives s a start held.1,fun t ok => ih (held.2 t ok) (keep s a t start held.1 ok)⟩

theorem runOnward {Q : σ → Prop} {T : α → Prop} (fire : ∀ s a t, P s → cond s a → T a → step s a = some t → Q t)
    (stay : ∀ s a t, P s → cond s a → Q s → step s a = some t → Q t)
    {s as t} (held : Along step cond s as) (ok : run step s as = some t) (start : P s) (some_ : ∃ a ∈ as, T a) : Q t := by
  have onward : ∀ {as s}, Along step cond s as → run step s as = some t → P s → Q s → Q t := by
    intro as
    induction as with
    | nil =>
      intro s _ ok _ here
      cases ok
      exact here
    | cons a as ih =>
      intro s held ok inv here
      obtain ⟨m,first,rest⟩ := runCons ok
      exact ih (held.2 m first) rest (keep s a m inv held.1 first) (stay s a m inv held.1 here first)
  induction as generalizing s with
  | nil =>
    obtain ⟨_,mem,_⟩ := some_
    cases mem
  | cons a as ih =>
    obtain ⟨m,first,rest⟩ := runCons ok
    have next := keep s a m start held.1 first
    by_cases now : T a
    · exact onward (held.2 m first) rest next (fire s a m start held.1 now first)
    · obtain ⟨b,mem,later⟩ := some_
      refine ih (held.2 m first) rest next ⟨b,(mem_cons.mp mem).resolve_left fun same => now (same ▸ later),later⟩

end

theorem runInvariant (keep : ∀ s a t, P s → step s a = some t → P t)
    {s as t} (ok : run step s as = some t) (start : P s) : P t := by
  induction as generalizing s with
  | nil => cases ok; exact start
  | cons a as ih =>
    obtain ⟨m,first,rest⟩ := runCons ok
    exact ih rest (keep s a m start first)

section Passes
variable {begins completes : σ → α → Prop} {Q : σ → Prop}

def PassIn (step : σ → α → Option σ) (begins completes : σ → α → Prop) : Prop → σ → List α → Prop
  | _, _, [] => False
  | begun, s, a::as => (begun ∨ begins s a) ∧ completes s a ∨
      ∃ t, step s a = some t ∧ PassIn step begins completes (begun ∨ begins s a) t as

theorem passReaches {begun} (keep : ∀ s a t, P s ∨ begins s a → cond s a → step s a = some t → P t)
    (fire : ∀ s a t, P s ∨ begins s a → cond s a → completes s a → step s a = some t → Q t)
    (stay : ∀ s a t, Q s → cond s a → step s a = some t → Q t)
    {s as t} (held : Along step cond s as) (ok : run step s as = some t) (start : begun → P s)
    (pass : PassIn step begins completes begun s as) : Q t := by
  induction as generalizing s begun with
  | nil => exact pass.elim
  | cons a as ih =>
    obtain ⟨m,first,rest⟩ := runCons ok
    rcases pass with ⟨under,completed⟩ | ⟨u,taken,later⟩
    · have reached := fire s a m (under.imp_left start) held.1 completed first
      exact runKeeps (fun s a t now met took => stay s a t now met took) (held.2 m first) rest reached
    · cases first.symm.trans taken
      exact ih (held.2 m first) rest (fun under => keep s a m (under.imp_left start) held.1 first) later

end Passes

section Inevitable
variable {R : σ → σ → Prop} {goal : σ → Prop}

inductive Inevitably (R : σ → σ → Prop) (goal : σ → Prop) : σ → Prop where
  | now {s} (reached : goal s) : Inevitably R goal s
  | later {s} (more : ∃ t, R s t) (all : ∀ t, R s t → Inevitably R goal t) : Inevitably R goal s

theorem notInevitable (keep : ∀ s t, P s → R s t → P t) (never : ∀ s, P s → ¬goal s) {s} (start : P s) :
    ¬Inevitably R goal s := by
  intro inevitable
  induction inevitable with
  | now reached => exact never _ start reached
  | later more _ ih =>
    obtain ⟨t,taken⟩ := more
    exact ih t taken (keep _ t start taken)

theorem inevitableRank {β} [LT β] [WellFoundedLT β] (rank : σ → β) (keep : ∀ s t, P s → ¬goal s → R s t → P t)
    (goes : ∀ s, P s → ¬goal s → ∃ t, R s t) (falls : ∀ s t, P s → ¬goal s → R s t → rank t < rank s) {s} (start : P s) :
    Inevitably R goal s := by
  have onward : ∀ b s, rank s = b → P s → Inevitably R goal s := by
    intro b
    induction b using WellFoundedLT.induction with
    | ind b ih =>
      intro s same held
      by_cases reached : goal s
      · exact .now reached
      · refine .later (goes s held reached) fun t taken => ?_
        exact ih (rank t) (same ▸ falls s t held reached taken) t rfl (keep s t held reached taken)
  exact onward (rank s) s rfl start

end Inevitable

end Replicare.Runs
