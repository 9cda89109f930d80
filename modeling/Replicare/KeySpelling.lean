import Mathlib.Algebra.Order.Ring.Nat
import Replicare.Engine
import Replicare.Runs

/-! Tables whose key equality is coarser than identity: the trigger's change test, the re-read, the
conflict of the upsert and the delete all go by the class of a key, while the upsert writes the
columns outside the key. -/
namespace Replicare.KeySpelling
open Engine Runs List Function

structure Row (σ β : Type*) where
  key : List σ
  rest : List β
  deriving DecidableEq

structure Shape (σ κ : Type*) where
  dialect : Dialect
  class_ : σ → κ
  rest : Nat

variable {σ κ β : Type*} [DecidableEq κ]

abbrev Rows (σ κ β : Type*) := List κ → Option (Row σ β)

structure State (σ κ β : Type*) where
  source : Rows σ κ β
  target : Rows σ κ β
  pending : List (List σ)
  flight : Option (List (List σ)×Rows σ κ β)

inductive Act (σ κ β : Type*) where
  | insert (r : Row σ β)
  | update (k : List κ) (r : Row σ β)
  | delete (k : List κ)
  | reread (n : Nat)
  | apply
  | abort

variable (t : Shape σ κ)

def classes (keys : List (List σ)) : List (List κ) := keys.map (List.map t.class_)

/- On conflict the SET list has the columns outside the key; MySQL needs one and takes the first
of the key if there are no others. -/
def upsert : Option (Row σ β) → Row σ β → Row σ β
  | none, r => r
  | some old, r =>
    if t.rest = 0 then
      match t.dialect with
      | .mysql => { old with key := r.key.take 1++old.key.drop 1 }
      | .postgres => old
    else { old with rest := r.rest }

def applied (target : Rows σ κ β) (dirty : List (List σ)) (staged : Rows σ κ β) : Rows σ κ β := fun k =>
  if k ∈ classes t dirty then (staged k).map (upsert t (target k)) else target k

def recorded (k : List κ) (old r : Row σ β) : List (List σ) :=
  if r.key.map t.class_ = k then [r.key] else [old.key,r.key]

def step (s : State σ κ β) : Act σ κ β → Option (State σ κ β)
  | .insert r =>
    let k := r.key.map t.class_
    if (s.source k).isNone ∧ r.rest.length = t.rest then
      some { s with source := update s.source k (some r), pending := s.pending++[r.key] }
    else none
  | .update k r =>
    match s.source k with
    | none => none
    | some old =>
      let k' := r.key.map t.class_
      if (k' = k ∨ (s.source k').isNone) ∧ r.rest.length = t.rest then
        some { s with source := update (update s.source k none) k' (some r)
                      pending := s.pending++recorded t k old r }
      else none
  | .delete k =>
    match s.source k with
    | none => none
    | some old => some { s with source := update s.source k none, pending := s.pending++[old.key] }
  | .reread n => if s.flight.isNone then some { s with pending := s.pending.drop n, flight := some (s.pending.take n,s.source) } else none
  | .apply => s.flight.map fun f => { s with target := applied t s.target f.1 f.2, flight := none }
  | .abort => s.flight.map fun f => { s with pending := f.1++s.pending, flight := none }

def Exact (s : State σ κ β) : Prop :=
  ∀ k, k ∉ classes t s.pending → (∀ f, s.flight = some f → k ∉ classes t f.1) → s.target k = s.source k

def Alike (old r : Row σ β) : Prop :=
  if t.rest = 0 ∧ t.dialect = .mysql then old.key.drop 1 = r.key.drop 1 else old.key = r.key

def Keeps (s : State σ κ β) : Act σ κ β → Prop
  | .apply => ∀ f, s.flight = some f → ∀ k ∈ classes t f.1, k ∉ classes t s.pending →
      ∀ r old, f.2 k = some r → s.target k = some old → Alike t old r
  | _ => True

structure Base (s : State σ κ β) : Prop where
  classed : ∀ k r, s.source k = some r → r.key.map t.class_ = k
  source : ∀ k r, s.source k = some r → r.rest.length = t.rest
  target : ∀ k r, s.target k = some r → r.rest.length = t.rest
  shaped : ∀ f, s.flight = some f → ∀ k r, f.2 k = some r → r.rest.length = t.rest
  staged : ∀ f, s.flight = some f → ∀ k ∈ classes t f.1, k ∉ classes t s.pending → f.2 k = s.source k

variable {t} {s u : State σ κ β}

omit [DecidableEq κ] in
theorem upsertIff {old r : Row σ β} (one : old.rest.length = t.rest) (two : r.rest.length = t.rest) :
    upsert t (some old) r = r ↔ Alike t old r := by
  obtain ⟨key,rest⟩ := old
  obtain ⟨key',rest'⟩ := r
  dsimp only at one two
  simp only [upsert,Alike]
  by_cases none : t.rest = 0
  · have same : rest = rest' := by rw [length_eq_zero_iff.mp (one.trans none),length_eq_zero_iff.mp (two.trans none)]
    cases dialect : t.dialect with
    | mysql =>
      simp only [none,if_true,and_self,Row.mk.injEq,same,and_true]
      constructor
      · intro joined
        have parts := joined.trans (take_append_drop 1 key').symm
        exact append_cancel_left parts
      · intro tails
        rw [tails,take_append_drop]
    | postgres => simp [none,same]
  · simp [none]

omit [DecidableEq κ] in
theorem sourceStep (source : Rows σ κ β) (keys : List (List σ)) (base : Base t s)
    (classed : ∀ k r, source k = some r → r.key.map t.class_ = k) (shaped : ∀ k r, source k = some r → r.rest.length = t.rest)
    (frame : ∀ k, k ∉ classes t keys → source k = s.source k) :
    Base t { s with source := source, pending := s.pending++keys } ∧
    (Exact t s → Exact t { s with source := source, pending := s.pending++keys }) := by
  have split : ∀ k, k ∉ classes t (s.pending++keys) ↔ k ∉ classes t s.pending ∧ k ∉ classes t keys := by
    intro k
    simp [classes,not_or]
  refine ⟨⟨classed,shaped,base.target,base.shaped,fun f flying k mem out => ?_⟩,fun exact k out idle => ?_⟩
  · obtain ⟨old,new⟩ := (split k).mp out
    exact (base.staged f flying k mem old).trans (frame k new).symm
  · obtain ⟨old,new⟩ := (split k).mp out
    exact (exact k old idle).trans (frame k new).symm

theorem writtenRow {source : Rows σ κ β} {r : Row σ β} {P : List κ → Row σ β → Prop} (before : ∀ k r, source k = some r → P k r)
    (here : P (r.key.map t.class_) r) : ∀ k q, update source (r.key.map t.class_) (some r) k = some q → P k q := by
  intro k q found
  rw [update_apply] at found
  split at found
  · rename_i same
    cases found
    exact same ▸ here
  · exact before k q found

theorem removedRow {source : Rows σ κ β} {gone : List κ} {P : List κ → Row σ β → Prop} (before : ∀ k r, source k = some r → P k r) :
    ∀ k q, update source gone none k = some q → P k q := by
  intro k q found
  rw [update_apply] at found
  split at found
  · cases found
  · exact before k q found

theorem appliedShaped {f : List (List σ)×Rows σ κ β} (base : Base t s) (flying : s.flight = some f) :
    ∀ k r, applied t s.target f.1 f.2 k = some r → r.rest.length = t.rest := by
  intro k r found
  rw [applied] at found
  split at found
  · obtain ⟨q,staged,rfl⟩ := Option.map_eq_some_iff.mp found
    have new := base.shaped f flying k q staged
    cases here : s.target k with
    | none => exact new
    | some old =>
      have length := base.target k old here
      rw [upsert]
      split
      · cases t.dialect <;> exact length
      · exact new
  · exact base.target k r found

theorem applyExact {f : List (List σ)×Rows σ κ β} (base : Base t s) (exact : Exact t s) (flying : s.flight = some f) :
    Exact t { s with target := applied t s.target f.1 f.2, flight := none } ↔ Keeps t s .apply := by
  have landed : ∀ k ∈ classes t f.1, k ∉ classes t s.pending → (applied t s.target f.1 f.2 k = s.source k ↔
      ∀ r old, f.2 k = some r → s.target k = some old → Alike t old r) := by
    intro k mem out
    rw [applied,if_pos mem,←base.staged f flying k mem out]
    cases staged : f.2 k with
    | none => simp
    | some r =>
      cases here : s.target k with
      | none => simp [upsert]
      | some old =>
        rw [Option.map_some,Option.some_inj,upsertIff (base.target k old here) (base.shaped f flying k r staged)]
        simp
  constructor
  · intro after g same k mem out
    cases flying.symm.trans same
    exact (landed k mem out).mp (after k out (by simp))
  · intro keeps k out _
    by_cases mem : k ∈ classes t f.1
    · exact (landed k mem out).mpr (keeps f flying k mem out)
    · have same : applied t s.target f.1 f.2 k = s.target k := if_neg mem
      refine same.trans (exact k out fun g other => ?_)
      cases flying.symm.trans other
      exact mem

theorem stepExact {a} (base : Base t s) (exact : Exact t s) (ok : step t s a = some u) : Base t u ∧ (Exact t u ↔ Keeps t s a) := by
  cases a with
  | insert r =>
    obtain ⟨⟨_,shape⟩,made⟩ := Option.ite_none_right_eq_some.mp ok
    cases made
    have next := sourceStep _ [r.key] base (writtenRow base.classed rfl) (writtenRow base.source shape) fun k out =>
      update_of_ne (fun same => out (mem_singleton.mpr same)) _ _
    exact ⟨next.1,iff_of_true (next.2 exact) trivial⟩
  | update k r =>
    simp only [step] at ok
    cases found : s.source k with
    | none =>
      rw [found] at ok
      cases ok
    | some old =>
      rw [found] at ok
      obtain ⟨⟨_,shape⟩,made⟩ := Option.ite_none_right_eq_some.mp ok
      cases made
      have frame : ∀ k', k' ∉ classes t (recorded t k old r) → update (update s.source k none) (r.key.map t.class_) (some r) k' = s.source k' := by
        intro k' out
        have apart : k' ≠ r.key.map t.class_ ∧ k' ≠ k := by
          rw [recorded] at out
          split at out
          · rename_i same
            have other : k' ≠ r.key.map t.class_ := fun same => out (mem_singleton.mpr same)
            exact ⟨other,same ▸ other⟩
          · simpa [classes,base.classed k old found,not_or,and_comm] using out
        rw [update_of_ne apart.1,update_of_ne apart.2]
      have next := sourceStep _ (recorded t k old r) base (writtenRow (removedRow base.classed) rfl)
        (writtenRow (removedRow base.source) shape) frame
      exact ⟨next.1,iff_of_true (next.2 exact) trivial⟩
  | delete k =>
    simp only [step] at ok
    cases found : s.source k with
    | none =>
      rw [found] at ok
      cases ok
    | some old =>
      rw [found] at ok
      cases ok
      have next := sourceStep (update s.source k none) [old.key] base (removedRow base.classed) (removedRow base.source) fun k' out =>
        update_of_ne (fun same => out (mem_singleton.mpr (by rw [same,base.classed k old found]))) _ _
      exact ⟨next.1,iff_of_true (next.2 exact) trivial⟩
  | reread n =>
    obtain ⟨idle,made⟩ := Option.ite_none_right_eq_some.mp ok
    cases made
    have none_ := Option.isNone_iff_eq_none.mp idle
    refine ⟨⟨base.classed,base.source,base.target,fun f flying => ?_,fun f flying k mem out => ?_⟩,iff_of_true (fun k out idle => ?_) trivial⟩
    · cases flying
      exact base.source
    · cases flying
      rfl
    · refine exact k (fun mem => ?_) (by simp [none_])
      have taken := idle _ rfl
      rw [←take_append_drop n s.pending,classes,map_append,mem_append] at mem
      exact mem.elim taken out
  | apply =>
    obtain ⟨f,flying,rfl⟩ := Option.map_eq_some_iff.mp ok
    exact ⟨⟨base.classed,base.source,appliedShaped base flying,by simp,by simp⟩,applyExact base exact flying⟩
  | abort =>
    obtain ⟨f,flying,rfl⟩ := Option.map_eq_some_iff.mp ok
    refine ⟨⟨base.classed,base.source,base.target,by simp,by simp⟩,iff_of_true (fun k out _ => ?_) trivial⟩
    have apart : k ∉ classes t f.1 ∧ k ∉ classes t s.pending := by simpa [classes,not_or] using out
    refine exact k apart.2 fun g other => ?_
    cases flying.symm.trans other
    exact apart.1

variable (t) in
structure Copied (s : State σ κ β) : Prop where
  base : Base t s
  same : s.target = s.source

theorem keysExactIff {start : State σ κ β} {acts} (copied : Copied t start) :
    (Along (step t) (fun s a => ∀ u, step t s a = some u → Exact t u) start acts ↔ Along (step t) (Keeps t) start acts) ∧
    (Along (step t) (Keeps t) start acts → ∀ s, run (step t) start acts = some s → s.pending = [] → s.flight = none → s.target = s.source) := by
  have begins : Base t start ∧ Exact t start := ⟨copied.base,fun k _ _ => congrFun copied.same k⟩
  refine ⟨⟨fun held => ?_,fun held => ?_⟩,fun held s ran drained idle => ?_⟩
  · refine alongUnder (P := fun s => Base t s ∧ Exact t s) (fun s a u inv after ok => ⟨(stepExact inv.1 inv.2 ok).1,after u ok⟩) ?_ held begins
    intro s a inv after
    cases ok : step t s a with
    | some u => exact (stepExact inv.1 inv.2 ok).2.mp (after u ok)
    | none =>
      cases a with
      | apply =>
        intro f flying
        simp [step,flying] at ok
      | _ => trivial
  · refine alongUnder (P := fun s => Base t s ∧ Exact t s) (fun s a u inv keeps ok => ?_) ?_ held begins
    · have next := stepExact inv.1 inv.2 ok
      exact ⟨next.1,next.2.mpr keeps⟩
    · intro s a inv keeps u ok
      exact (stepExact inv.1 inv.2 ok).2.mpr keeps
  · have inv := runKeeps (P := fun s => Base t s ∧ Exact t s)
      (fun s a u inv keeps ok => ⟨(stepExact inv.1 inv.2 ok).1,(stepExact inv.1 inv.2 ok).2.mpr keeps⟩) held ran begins
    funext k
    exact inv.2 k (by simp [drained,classes]) (by simp [idle])

def caseless : Shape Char Char := ⟨.mysql,Char.toLower,1⟩
def numeric : Shape (Int×Nat) Rat := ⟨.postgres,fun d => mkRat d.1 (10^d.2),1⟩

def blank {σ κ : Type} : State σ κ Nat := ⟨fun _ => none,fun _ => none,[],none⟩

theorem blankCopied {σ κ : Type} [DecidableEq κ] (t : Shape σ κ) : Copied t blank :=
  ⟨⟨by simp [blank],by simp [blank],by simp [blank],by simp [blank],by simp [blank]⟩,rfl⟩

def respelling {σ κ : Type} (a b : σ) (k : κ) : List (Act σ κ Nat) :=
  [.insert ⟨[a],[1]⟩,.reread 1,.apply,.update [k] ⟨[b],[1]⟩,.reread 1,.apply]

theorem keysExactSame : ∃ s, run (step caseless) blank (respelling 'a' 'a' 'a') = some s ∧ s.target = s.source := by
  have runs : ∃ s, run (step caseless) blank (respelling 'a' 'a' 'a') = some s := ⟨_,rfl⟩
  obtain ⟨s,ran⟩ := runs
  have ends : s.pending = [] ∧ s.flight = none := by
    cases ran
    exact ⟨rfl,rfl⟩
  refine ⟨s,ran,(keysExactIff (blankCopied caseless)).2 ?_ s ran ends.1 ends.2⟩
  refine ⟨trivial,fun _ ok => ?_⟩
  cases ok
  refine ⟨trivial,fun _ ok => ?_⟩
  cases ok
  refine ⟨fun f flying k mem out r old staged here => (by cases here),fun _ ok => ?_⟩
  cases ok
  refine ⟨trivial,fun _ ok => ?_⟩
  cases ok
  refine ⟨trivial,fun _ ok => ?_⟩
  cases ok
  refine ⟨fun f flying k mem out r old staged here => ?_,fun _ _ => trivial⟩
  cases flying
  cases mem_singleton.mp mem
  cases staged
  cases here
  rfl

theorem keyRespelled : (∃ s, run (step caseless) blank (respelling 'a' 'A' 'a') = some s ∧ s.pending = [] ∧ s.flight = none ∧
      s.source ['a'] = some ⟨['A'],[1]⟩ ∧ s.target ['a'] = some ⟨['a'],[1]⟩) ∧
    ∃ s, run (step numeric) blank (respelling (10,1) (100,2) 1) = some s ∧ s.pending = [] ∧ s.flight = none ∧
      s.source [1] = some ⟨[(100,2)],[1]⟩ ∧ s.target [1] = some ⟨[(10,1)],[1]⟩ := by
  refine ⟨⟨_,rfl,rfl,rfl,by decide,by decide⟩,⟨_,rfl,rfl,rfl,by decide,by decide⟩⟩

end Replicare.KeySpelling
