import Mathlib.Data.List.Nodup
import Replicare.Runs
import Replicare.Hlc

/-! The `hlc_state` row of a Postgres member under READ COMMITTED. -/
namespace Replicare.HlcRow
open Hlc Runs List

variable {X : Type*} [DecidableEq X]

/- An observe between its SELECT and its UPDATE. -/
structure Observing where
  newPhys : Int
  inPhys : Int
  inLog : Int
  deriving DecidableEq, Repr

/- The transaction that holds the lock, its version of the row and what its ticks returned. -/
structure Holder (X : Type*) where
  tx : X
  row : Clock
  ticks : List Clock
  deriving DecidableEq, Repr

/- `returned` collects what the ticks of committed transactions returned; no step reads it. -/
structure State (X : Type*) where
  row : Clock
  holder : Option (Holder X)
  observing : X → Option Observing
  returned : List Clock

inductive Action (X : Type*) where
  | tick (tx : X) (pt : Int)
  | select (tx : X) (pt inPhys inLog : Int)
  | observe (tx : X)
  | commit (tx : X)
  | rollback (tx : X)
  deriving DecidableEq, Repr

def State.note (s : State X) (tx : X) (o : Option Observing) : State X :=
  { s with observing := Function.update s.observing tx o }

/- The version of the row an UPDATE of `tx` reads once it has the lock; another holder makes it wait. -/
def lock (s : State X) (tx : X) : Option (Holder X) :=
  match s.holder with
  | none => some ⟨tx,s.row,[]⟩
  | some h => if h.tx = tx then some h else none

/- What a SELECT of `tx` sees. -/
def visible (s : State X) (tx : X) : Clock :=
  match s.holder with
  | none => s.row
  | some h => if h.tx = tx then h.row else s.row

/- The UPDATE of `hlc_observe`: `newPhys` is a variable by now, the columns are the row's. -/
def observed (row : Clock) (o : Observing) : Clock :=
  ⟨o.newPhys,
    if o.newPhys = row.physical ∧ o.newPhys = o.inPhys then max row.logical o.inLog+1
    else if o.newPhys = row.physical then row.logical+1
    else if o.newPhys = o.inPhys then o.inLog+1
    else 0⟩

def step (s : State X) : Action X → Option (State X)
  | .tick tx pt =>
      if (s.observing tx).isSome then none else
        (lock s tx).map fun h =>
          { s with holder := some ⟨tx,tick h.row pt,h.ticks++[tick h.row pt]⟩ }
  | .select tx pt inPhys inLog =>
      if (s.observing tx).isSome then none else
        some (s.note tx (some ⟨max (max pt inPhys) (visible s tx).physical,inPhys,inLog⟩))
  | .observe tx =>
      (s.observing tx).bind fun o => (lock s tx).map fun h =>
        ({ s with holder := some { h with row := observed h.row o } } : State X).note tx none
  | .commit tx =>
      if (s.observing tx).isSome then none else
        match s.holder with
        | none => some s
        | some h =>
            if h.tx = tx then some { s with row := h.row, holder := none, returned := s.returned++h.ticks }
            else some s
  | .rollback tx =>
      some (({ s with holder := s.holder.filter fun h => !decide (h.tx = tx) } : State X).note tx none)

/- What a step does, case by case. -/
inductive Taken (s : State X) : Action X → State X → Prop where
  | tick {tx pt h} (locked : lock s tx = some h) :
      Taken s (.tick tx pt) { s with holder := some ⟨tx,tick h.row pt,h.ticks++[tick h.row pt]⟩ }
  | select {tx pt inPhys inLog} : Taken s (.select tx pt inPhys inLog)
      (s.note tx (some ⟨max (max pt inPhys) (visible s tx).physical,inPhys,inLog⟩))
  | observe {tx o h} (pending : s.observing tx = some o) (locked : lock s tx = some h) :
      Taken s (.observe tx) (({ s with holder := some { h with row := observed h.row o } } : State X).note tx none)
  | commit {tx h} (held : s.holder = some h) (own : h.tx = tx) :
      Taken s (.commit tx) { s with row := h.row, holder := none, returned := s.returned++h.ticks }
  | idle {tx} : Taken s (.commit tx) s
  | rollback {tx} : Taken s (.rollback tx)
      (({ s with holder := s.holder.filter fun h => !decide (h.tx = tx) } : State X).note tx none)

theorem stepTaken {s t : State X} {a} (ok : step s a = some t) : Taken s a t := by
  cases a with
  | tick tx pt =>
    simp only [step] at ok
    split at ok <;> try contradiction
    obtain ⟨h,locked,rfl⟩ := Option.map_eq_some_iff.mp ok
    exact .tick locked
  | select tx pt inPhys inLog =>
    simp only [step] at ok
    split at ok <;> try contradiction
    cases ok
    exact .select
  | observe tx =>
    obtain ⟨o,pending,last⟩ := Option.bind_eq_some_iff.mp ok
    obtain ⟨h,locked,rfl⟩ := Option.map_eq_some_iff.mp last
    exact .observe pending locked
  | commit tx =>
    simp only [step] at ok
    split at ok <;> try contradiction
    split at ok
    · cases ok
      exact .idle
    · rename_i h held
      split at ok <;> cases ok
      · exact .commit held (by assumption)
      · exact .idle
  | rollback tx =>
    cases ok
    exact .rollback

def Undisturbed (s : State X) : Action X → Prop
  | .observe tx => ∀ o ∈ s.observing tx, ∀ h ∈ lock s tx, h.row.physical ≤ o.newPhys
  | _ => True

instance (s : State X) (a) : Decidable (Undisturbed s a) := by
  cases a <;> unfold Undisturbed <;> infer_instance

theorem observedAdvances (row : Clock) (o) : row < observed row o ↔ row.physical ≤ o.newPhys := by
  rw [clockLt]
  unfold observed
  dsimp only
  constructor
  · rintro (later | ⟨same,_⟩)
    · exact le_of_lt later
    · exact le_of_eq same
  · intro behind
    rcases lt_or_eq_of_le behind with later | same
    · exact .inl later
    · refine .inr ⟨same,?_⟩
      split
      · omega
      · rw [if_pos same.symm]
        omega

/- What the row and its lock holder keep while no observe is disturbed. -/
structure Sound (s : State X) : Prop where
  covered : ∀ p ∈ s.returned, p ≤ s.row
  distinct : s.returned.Nodup
  ahead : ∀ h ∈ s.holder, s.row ≤ h.row
  ticked : ∀ h ∈ s.holder, ∀ p ∈ h.ticks, s.row < p ∧ p ≤ h.row
  fresh : ∀ h ∈ s.holder, h.ticks.Nodup

theorem Sound.locked {s : State X} {tx h} (sound : Sound s) (locked : lock s tx = some h) :
    s.row ≤ h.row ∧ (∀ p ∈ h.ticks, s.row < p ∧ p ≤ h.row) ∧ h.ticks.Nodup := by
  unfold lock at locked
  split at locked
  · cases locked
    exact ⟨le_refl _,by simp,nodup_nil⟩
  · rename_i held
    split at locked <;> try contradiction
    cases locked
    exact ⟨sound.ahead h held,sound.ticked h held,sound.fresh h held⟩

theorem Sound.note {s : State X} (sound : Sound s) (tx o) : Sound (s.note tx o) :=
  ⟨sound.covered,sound.distinct,sound.ahead,sound.ticked,sound.fresh⟩

omit [DecidableEq X] in
theorem Sound.held {s : State X} {h : Holder X} (sound : Sound s) (ahead : s.row ≤ h.row)
    (ticked : ∀ p ∈ h.ticks, s.row < p ∧ p ≤ h.row) (fresh : h.ticks.Nodup) : Sound { s with holder := some h } where
  covered := sound.covered
  distinct := sound.distinct
  ahead := by rintro _ ⟨⟩; exact ahead
  ticked := by rintro _ ⟨⟩; exact ticked
  fresh := by rintro _ ⟨⟩; exact fresh

theorem soundStep {s t : State X} {a} (sound : Sound s) (calm : Undisturbed s a) (ok : step s a = some t) :
    Sound t ∧ s.row ≤ t.row := by
  cases stepTaken ok with
  | @tick tx pt h locked =>
    obtain ⟨ahead,ticked,fresh⟩ := sound.locked locked
    have later := tickAdvances h.row pt
    refine ⟨sound.held (le_trans ahead (le_of_lt later)) ?_ ?_,le_refl _⟩
    · intro p mem
      rcases mem_append.mp mem with old | new
      · exact ⟨(ticked p old).1,le_trans (ticked p old).2 (le_of_lt later)⟩
      · rw [mem_singleton.mp new]
        exact ⟨lt_of_le_of_lt ahead later,le_refl _⟩
    · -- a tick is above everything the transaction got before
      refine nodup_append'.mpr ⟨fresh,nodup_singleton _,?_⟩
      intro p old new
      exact absurd (mem_singleton.mp new ▸ (ticked p old).2) (not_le_of_gt later)
  | select => exact ⟨sound.note _ _,le_refl _⟩
  | @observe tx o h pending locked =>
    obtain ⟨ahead,ticked,fresh⟩ := sound.locked locked
    have later := (observedAdvances h.row o).mpr (calm o pending h locked)
    have held : Sound { s with holder := some { h with row := observed h.row o } } :=
      sound.held (le_trans ahead (le_of_lt later))
        (fun p mem => ⟨(ticked p mem).1,le_trans (ticked p mem).2 (le_of_lt later)⟩) fresh
    exact ⟨held.note tx none,le_refl _⟩
  | @commit tx h held own =>
    have ahead := sound.ahead h held
    have ticked := sound.ticked h held
    refine ⟨⟨?_,?_,by simp,by simp,by simp⟩,ahead⟩
    · intro p mem
      rcases mem_append.mp mem with old | new
      · exact le_trans (sound.covered p old) ahead
      · exact (ticked p new).2
    · refine nodup_append'.mpr ⟨sound.distinct,sound.fresh h held,?_⟩
      intro p old new
      exact absurd (sound.covered p old) (not_le_of_gt (ticked p new).1)
  | idle => exact ⟨sound,le_refl _⟩
  | rollback =>
    have kept : ∀ (left : Holder X → Bool) (h : Holder X), h ∈ s.holder.filter left → h ∈ s.holder :=
      fun left h mem => (Option.mem_filter_iff.mp mem).1
    exact ⟨⟨sound.covered,sound.distinct,fun h mem => sound.ahead h (kept _ h mem),
      fun h mem => sound.ticked h (kept _ h mem),fun h mem => sound.fresh h (kept _ h mem)⟩,le_refl _⟩

theorem soundRun {s t : State X} {as} (sound : Sound s) (calm : Along step Undisturbed s as)
    (ok : run step s as = some t) : Sound t ∧ s.row ≤ t.row := by
  induction as generalizing s with
  | nil => cases ok; exact ⟨sound,le_refl _⟩
  | cons a as ih =>
    obtain ⟨m,first,rest⟩ := runCons ok
    have here := soundStep sound calm.1 first
    have later := ih here.1 (calm.2 m first) rest
    exact ⟨later.1,le_trans here.2 later.2⟩

/- A committed clock, no transaction under way. -/
def start (row : Clock) : State X := ⟨row,none,fun _ => none,[]⟩

omit [DecidableEq X] in
theorem startSound (row : Clock) : Sound (start row : State X) :=
  ⟨by simp [start],nodup_nil,by simp [start],by simp [start],by simp [start]⟩

theorem observeKeepsIff {s : State X} {tx o h} (pending : s.observing tx = some o) (locked : lock s tx = some h) :
    h.row ≤ observed h.row o ↔ Undisturbed s (.observe tx) := by
  have behind : Undisturbed s (.observe tx) ↔ h.row.physical ≤ o.newPhys := by
    simp [Undisturbed,pending,locked]
  rw [behind,← observedAdvances]
  refine ⟨fun weak => lt_of_le_of_ne weak fun same => ?_,le_of_lt⟩
  -- a clock that stays the same would have had the new physical part and a greater logical part
  have reached : h.row.physical ≤ o.newPhys := le_of_eq (congrArg Clock.physical same)
  exact absurd same (ne_of_lt ((observedAdvances h.row o).mpr reached))

/- In every run in which no observe is disturbed the committed clock never decreases and
the ticks of committed transactions returned different pairs; at an UPDATE of an observe
the clock falls exactly if it is disturbed. -/
theorem clockMonotone (row : Clock) (before after : List (Action X)) (m t : State X)
    (first : run step (start row) before = some m) (rest : run step m after = some t) :
    (Along step Undisturbed (start row) (before++after) → m.row ≤ t.row ∧ t.returned.Nodup) ∧
    ∀ tx o h, m.observing tx = some o → lock m tx = some h →
      (h.row ≤ observed h.row o ↔ Undisturbed m (.observe tx)) := by
  refine ⟨fun calm => ?_,fun tx o h pending locked => observeKeepsIff pending locked⟩
  obtain ⟨left,right⟩ := alongSplit calm first
  have here := soundRun (startSound row) left first
  have last := soundRun here.1 right rest
  exact ⟨last.2,last.1.distinct⟩

/- A local transaction that ticks and commits before the observe it makes wait has read. -/
theorem clockMonotoneWaited : ∃ m t : State Bool, run step (start ⟨0,0⟩) [.tick false 100,.commit false] = some m ∧
    run step m [.select true 99 50 0,.observe true,.commit true] = some t ∧ m.row ≤ t.row ∧ t.returned.Nodup := by
  refine ⟨_,_,rfl,rfl,?_⟩
  refine (clockMonotone ⟨0,0⟩ [.tick false 100,.commit false] [.select true 99 50 0,.observe true,.commit true] _ _
    rfl rfl).1 ?_
  decide

/- A local transaction ticks at 100 while an observe that read its wall clock at 99 is
between SELECT and UPDATE: the clock goes back, and the next tick returns the same pair. -/
theorem disturbedObserveFalls : ∃ m t u : State Bool,
    run step (start ⟨0,0⟩) [.select true 99 50 0,.tick false 100,.commit false] = some m ∧
    run step m [.observe true,.commit true] = some t ∧ t.row < m.row ∧
    run step t [.tick false 100,.commit false] = some u ∧ ¬u.returned.Nodup := by
  refine ⟨_,_,_,rfl,rfl,?_,rfl,?_⟩ <;> decide

end Replicare.HlcRow
