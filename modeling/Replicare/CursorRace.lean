import Replicare.Enforce
import Replicare.Runs

/-! The cursors of one target, which the operator's reseed command and the daemon both load and
save as whole rows. -/
namespace Replicare.CursorRace
open Engine hiding Component
open Enforce Runs List Function

inductive Job where
  | touch
  | cutover
  | enforce
  | clear
  deriving DecidableEq, Repr

def Job.modify (cur : Cursor) : Job → Cursor
  | .touch => cur
  | .cutover => { cur with phase := .streaming }
  | .enforce => ⟨.initialCopy,true⟩
  | .clear => ⟨.streaming,false⟩

/- `stale` if the operator has saved the cursor since. -/
structure Loaded where
  table : TableRef
  job : Job
  copy : Cursor
  stale : Bool

structure State where
  cursor : TableRef → Option Cursor
  listed : List (TableRef × Cursor)
  loaded : Option Loaded
  reseed : Option (List TableRef)
  owed : TableRef → Bool
  since : TableRef → Bool
  last : TableRef → Option Phase

def initial (cursor : TableRef → Option Cursor) : State := ⟨cursor,[],none,none,fun _ => false,fun _ => false,fun _ => none⟩

inductive Event where
  | list
  | flag
  | quit
  | load (job : Job) (t : TableRef)
  | save
  | start (order : List TableRef)
  | drop

def loadCursor (s : State) (t : TableRef) : Cursor := (s.cursor t).getD ⟨.initialCopy,false⟩

def saveCursor (s : State) (t : TableRef) (cur : Cursor) : State := { s with cursor := update s.cursor t (some cur) }

def Loaded.after (l : Loaded) (t : TableRef) : Loaded := if l.table = t then { l with stale := true } else l

def State.due (s : State) (t : TableRef) : Job → Bool
  | .clear => (s.reseed.bind List.head?) = some t
  | _ => s.reseed.isNone

section Step
variable (c : Component)

def step (s : State) : Event → Option State
  -- the rows of the target, as one query reads them
  | .list =>
      match s.listed with
      | [] => some { s with listed := c.tables.filterMap fun t => (s.cursor t).map fun cur => (t,cur), last := fun _ => none }
      | _ => none
  | .flag =>
      match s.listed with
      | (t,cur)::rest => some { saveCursor s t { cur with needsReseed := true } with
          listed := rest
          loaded := s.loaded.map fun l => l.after t
          owed := update s.owed t true
          since := update s.since t true }
      | [] => none
  | .quit => some { s with listed := [] }
  | .load job t => if s.loaded.isNone ∧ s.due t job then some { s with loaded := some ⟨t,job,loadCursor s t,false⟩ } else none
  | .save =>
      match s.loaded with
      | some l => some { saveCursor s l.table (l.job.modify l.copy) with
          loaded := none
          reseed := if l.job = .clear then (s.reseed.map List.tail).filter fun rest => rest ≠ [] else s.reseed
          owed := if l.job = .clear ∧ s.since l.table = false then update s.owed l.table false else s.owed
          last := update s.last l.table (some (l.job.modify l.copy).phase) }
      | none => none
  | .start order =>
      if s.loaded.isNone ∧ s.reseed = none ∧ order ≠ [] then some { s with reseed := some order, since := fun _ => false } else none
  -- the daemon stops, or gives up after an error
  | .drop => some { s with loaded := none, reseed := none }

end Step

def Stands (s : State) : Prop := ∀ t, s.owed t = true → ∃ cur, s.cursor t = some cur ∧ cur.needsReseed = true

def State.phase (s : State) (t : TableRef) : Option Phase := (s.cursor t).map Cursor.phase

def Heeded (c : Component) (s : State) (e : Event) : Prop :=
  ∀ s', step c s e = some s' → Stands s' ∧ (e = .flag → ∀ t, s'.phase t = s.phase t)

def Loaded.Timely (s : State) (l : Loaded) : Prop :=
  (l.job = .clear → s.since l.table = false) ∧
    (l.job = .touch ∨ l.job = .cutover → l.stale = true → l.copy.needsReseed = true)
def Timely (s : State) : Event → Prop
  | .save => ∀ l ∈ s.loaded, l.Timely s
  | .flag => ∀ e ∈ s.listed.head?, ∀ p ∈ s.last e.1, p = e.2.phase
  | _ => True

variable {c : Component} {s s' : State} {e : Event}

/- All that a step can do. -/
inductive Moves (c : Component) (s : State) : Event → State → Prop where
  | list (idle : s.listed = []) : Moves c s .list
      { s with listed := c.tables.filterMap fun t => (s.cursor t).map fun cur => (t,cur), last := fun _ => none }
  | flag {t cur rest} (at_ : s.listed = (t,cur)::rest) : Moves c s .flag { saveCursor s t { cur with needsReseed := true } with
      listed := rest
      loaded := s.loaded.map fun l => l.after t
      owed := update s.owed t true
      since := update s.since t true }
  | quit : Moves c s .quit { s with listed := [] }
  | load {job t} (idle : s.loaded = none) : Moves c s (.load job t) { s with loaded := some ⟨t,job,loadCursor s t,false⟩ }
  | save {l} (at_ : s.loaded = some l) (reseed : Option (List TableRef)) :
      Moves c s .save { saveCursor s l.table (l.job.modify l.copy) with
        loaded := none
        reseed := reseed
        owed := if l.job = .clear ∧ s.since l.table = false then update s.owed l.table false else s.owed
        last := update s.last l.table (some (l.job.modify l.copy).phase) }
  | start {order} (idle : s.loaded = none) : Moves c s (.start order) { s with reseed := some order, since := fun _ => false }
  | drop : Moves c s .drop { s with loaded := none, reseed := none }

theorem stepMoves (ok : step c s e = some s') : Moves c s e s' := by
  cases e with
  | list =>
    simp only [step] at ok
    split at ok <;> cases ok
    exact .list ‹_›
  | flag =>
    simp only [step] at ok
    split at ok <;> cases ok
    exact .flag ‹_›
  | quit =>
    cases ok
    exact .quit
  | load job t =>
    simp only [step] at ok
    split at ok <;> cases ok
    rename_i free
    exact .load (Option.isNone_iff_eq_none.mp free.1)
  | save =>
    simp only [step] at ok
    split at ok <;> cases ok
    exact .save ‹_› _
  | start order =>
    simp only [step] at ok
    split at ok <;> cases ok
    rename_i free
    exact .start (Option.isNone_iff_eq_none.mp free.1)
  | drop =>
    cases ok
    exact .drop

structure Remembers (s : State) : Prop where
  untouched : ∀ l, s.loaded = some l → l.stale = false → l.copy = loadCursor s l.table
  stale : ∀ l, s.loaded = some l → l.stale = true → s.owed l.table = true
  since : ∀ t, s.since t = true → s.owed t = true
  listed : ∀ e ∈ s.listed, s.phase e.1 = some ((s.last e.1).getD e.2.phase)
  distinct : (s.listed.map Prod.fst).Nodup

theorem initialRemembers (cursor) : Remembers (initial cursor) where
  untouched := by simp [initial]
  stale := by simp [initial]
  since := by simp [initial]
  listed := by simp [initial]
  distinct := nodup_nil

theorem listedDistinct (cursor : TableRef → Option Cursor) {tables : List TableRef} (distinct : tables.Nodup) :
    ((tables.filterMap fun t => (cursor t).map fun cur => (t,cur)).map Prod.fst).Nodup := by
  have own : ∀ {t r : TableRef}, r ∈ ((cursor t).map fun cur => (t,cur)).map Prod.fst → r = t := by
    intro t r mem
    simp only [Option.map_map,Option.mem_def,Option.map_eq_some_iff] at mem
    obtain ⟨_,_,same⟩ := mem
    exact same.symm
  rw [map_filterMap]
  exact distinct.filterMap fun _ _ _ one two => (own one).symm.trans (own two)

section Save
variable (s) (t : TableRef) (cur : Cursor)

theorem loadSaved (t') : loadCursor (saveCursor s t cur) t' = if t' = t then cur else loadCursor s t' := by
  by_cases here : t' = t
  · subst here
    simp [loadCursor,saveCursor]
  · simp [loadCursor,saveCursor,here]

theorem phaseSaved (t') : (saveCursor s t cur).phase t' = if t' = t then some cur.phase else s.phase t' := by
  by_cases here : t' = t
  · subst here
    simp [State.phase,saveCursor]
  · simp [State.phase,saveCursor,here]

end Save

theorem remembersMoves (moves : Moves c s e s') (held : Remembers s) : Remembers s' := by
  cases moves with
  | list idle =>
    refine ⟨held.untouched,held.stale,held.since,fun e mem => ?_,listedDistinct s.cursor c.distinct⟩
    obtain ⟨t,_,row⟩ := mem_filterMap.mp mem
    obtain ⟨cur,there,rfl⟩ := Option.map_eq_some_iff.mp row
    simp [State.phase,there]
  | flag at_ =>
    rename_i t cur rest
    have distinct := held.distinct
    rw [at_,map_cons,nodup_cons] at distinct
    refine ⟨fun l now fresh => ?_,fun l now stale => ?_,fun r flagged => ?_,fun e mem => ?_,distinct.2⟩
    · obtain ⟨l,was,rfl⟩ := Option.map_eq_some_iff.mp now
      unfold Loaded.after at fresh ⊢
      split at fresh
      · cases fresh
      · rename_i other
        rw [if_neg other]
        have same := loadSaved s t { cur with needsReseed := true } l.table
        rw [if_neg other] at same
        exact (held.untouched l was fresh).trans same.symm
    · obtain ⟨l,was,rfl⟩ := Option.map_eq_some_iff.mp now
      unfold Loaded.after at stale ⊢
      by_cases here : l.table = t
      · simp [here]
      · rw [if_neg here] at stale ⊢
        simpa [here] using held.stale l was stale
    · by_cases here : r = t
      · simp [here]
      · simpa [here] using held.since r (by simpa [here] using flagged)
    · have there : e.1 ∈ rest.map Prod.fst := mem_map_of_mem mem
      have other : e.1 ≠ t := fun same => distinct.1 (same ▸ there)
      have same := phaseSaved s t { cur with needsReseed := true } e.1
      rw [if_neg other] at same
      exact same.trans (held.listed e (at_ ▸ mem_cons_of_mem _ mem))
  | quit => exact ⟨held.untouched,held.stale,held.since,by simp,nodup_nil⟩
  | load idle =>
    refine ⟨fun l now _ => ?_,fun l now stale => ?_,held.since,held.listed,held.distinct⟩
    · cases now
      rfl
    · cases now
      cases stale
  | save at_ reseed =>
    rename_i l
    refine ⟨by simp,by simp,fun r flagged => ?_,fun e mem => ?_,held.distinct⟩
    · have owed := held.since r flagged
      dsimp only at flagged ⊢
      split
      · rename_i cleared
        have other : r ≠ l.table := by
          rintro rfl
          cases cleared.2.symm.trans flagged
        simpa [other] using owed
      · exact owed
    · have same := phaseSaved s l.table (l.job.modify l.copy) e.1
      refine same.trans ?_
      by_cases here : e.1 = l.table
      · simp [here]
      · simpa [here] using held.listed e mem
  | start idle => exact ⟨held.untouched,held.stale,by simp,held.listed,held.distinct⟩
  | drop => exact ⟨by simp,by simp,held.since,held.listed,held.distinct⟩

theorem savedStands (held : Remembers s) (stands : Stands s) {l} (at_ : s.loaded = some l) {reseed last} :
    Stands { saveCursor s l.table (l.job.modify l.copy) with
      loaded := none
      reseed := reseed
      owed := if l.job = .clear ∧ s.since l.table = false then update s.owed l.table false else s.owed
      last := last } ↔ l.Timely s := by
  constructor
  · intro after
    -- a request that is owed after the save is in the row it wrote
    have written : (l.job = .clear → s.since l.table = true) → s.owed l.table = true → (l.job.modify l.copy).needsReseed = true := by
      intro stays owed
      have still : ¬(l.job = .clear ∧ s.since l.table = false) := fun cleared => by
        cases cleared.2.symm.trans (stays cleared.1)
      obtain ⟨cur,row,flagged⟩ := after l.table (by simp only [if_neg still,owed])
      have same : l.job.modify l.copy = cur := by simpa [saveCursor] using row
      rw [same]
      exact flagged
    refine ⟨fun clears => ?_,fun keeps stale => ?_⟩
    · cases flagged : s.since l.table with
      | false => rfl
      | true =>
        have flag := written (fun _ => flagged) (held.since _ flagged)
        rw [clears] at flag
        cases flag
    · have flag := written (fun clears => by rcases keeps with is | is <;> cases is.symm.trans clears) (held.stale l at_ stale)
      rcases keeps with is | is <;> rwa [is] at flag
  · rintro ⟨clears,keeps⟩ r owed
    by_cases here : r = l.table
    · subst here
      refine ⟨l.job.modify l.copy,by simp [saveCursor],?_⟩
      have open_ : l.job ≠ .clear := by
        intro is
        simp [is,clears is] at owed
      rw [if_neg fun cleared => open_ cleared.1] at owed
      -- a copy that the operator has not overtaken has the flag of the row
      have flagged : l.job = .touch ∨ l.job = .cutover → l.copy.needsReseed = true := by
        intro is
        cases stale : l.stale with
        | true => exact keeps is stale
        | false =>
          obtain ⟨cur,row,flag⟩ := stands _ owed
          rw [held.untouched l at_ stale,loadCursor,row]
          exact flag
      cases is : l.job with
      | touch => exact flagged (.inl is)
      | cutover => exact flagged (.inr is)
      | enforce => rfl
      | clear => exact absurd is open_
    · have before : s.owed r = true := by
        split at owed
        · simpa [here] using owed
        · exact owed
      obtain ⟨cur,row,flag⟩ := stands r before
      exact ⟨cur,by simpa [saveCursor,here] using row,flag⟩

theorem flaggedStands (stands : Stands s) {t : TableRef} {cur : Cursor} {listed loaded since} :
    Stands { saveCursor s t { cur with needsReseed := true } with
      listed := listed
      loaded := loaded
      owed := update s.owed t true
      since := since } := by
  intro r owed
  by_cases here : r = t
  · exact ⟨{ cur with needsReseed := true },by simp [saveCursor,here],rfl⟩
  · obtain ⟨cur,row,flag⟩ := stands r (by simpa [here] using owed)
    exact ⟨cur,by simpa [saveCursor,here] using row,flag⟩

theorem heededOfTimely (held : Remembers s) (stands : Stands s) (timely : Timely s e) : Heeded c s e := by
  intro s' ok
  cases stepMoves ok with
  | flag at_ =>
    rename_i t cur rest
    refine ⟨flaggedStands stands,fun _ r => ?_⟩
    have same := phaseSaved s t { cur with needsReseed := true } r
    refine same.trans ?_
    by_cases here : r = t
    · subst here
      have listed := held.listed (r,cur) (at_ ▸ mem_cons_self)
      rw [if_pos rfl,listed]
      cases last : s.last r with
      | none => rfl
      | some p =>
        have kept : p = cur.phase := timely (r,cur) (by simp [at_]) p last
        rw [kept]
        rfl
    · rw [if_neg here]
  | save at_ reseed => exact ⟨(savedStands held stands at_).mpr (timely _ at_),fun none => (by cases none)⟩
  | _ => exact ⟨stands,fun none => (by cases none)⟩

theorem timelyOfHeeded (held : Remembers s) (stands : Stands s) (heeded : Heeded c s e) : Timely s e := by
  cases e with
  | save =>
    intro l at_
    have taken : ∃ s', step c s .save = some s' := by simp [step,Option.mem_def.mp at_]
    obtain ⟨s',ok⟩ := taken
    have after := (heeded s' ok).1
    cases stepMoves ok with
    | save at' reseed =>
      cases at'.symm.trans at_
      exact (savedStands held stands at').mp after
  | flag =>
    rintro ⟨t,cur⟩ head p last
    obtain ⟨rest,at_⟩ : ∃ rest, s.listed = (t,cur)::rest := head?_eq_some_iff.mp head
    have taken : ∃ s', step c s .flag = some s' := by simp [step,at_]
    obtain ⟨s',ok⟩ := taken
    have same := (heeded s' ok).2 rfl t
    have listed := held.listed (t,cur) (at_ ▸ mem_cons_self)
    cases stepMoves ok with
    | flag at' =>
      cases at'.symm.trans at_
      have saved := phaseSaved s t { cur with needsReseed := true } t
      rw [if_pos rfl] at saved
      have written := saved.symm.trans (same.trans listed)
      rw [Option.mem_def.mp last] at written
      exact (Option.some.inj written).symm
  | _ => trivial

theorem heededKeeps {s'} (held : Remembers s ∧ Stands s) (heeded : Heeded c s e) (ok : step c s e = some s') : Remembers s' ∧ Stands s' :=
  ⟨remembersMoves (stepMoves ok) held.1,(heeded s' ok).1⟩

theorem requestHeededIff (c : Component) (cursor : TableRef → Option Cursor) (events : List Event) :
    Along (step c) (Heeded c) (initial cursor) events ↔ Along (step c) Timely (initial cursor) events := by
  have start : Remembers (initial cursor) ∧ Stands (initial cursor) :=
    ⟨initialRemembers cursor,fun _ owed => Bool.noConfusion owed⟩
  constructor
  · intro heeded
    exact alongUnder (fun _ _ _ held good ok => heededKeeps held good ok)
      (fun _ _ held good => timelyOfHeeded held.1 held.2 good) heeded start
  · intro timely
    exact alongUnder (fun _ _ _ held good ok => heededKeeps held (heededOfTimely held.1 held.2 good) ok)
      (fun _ _ held good => heededOfTimely held.1 held.2 good) timely start

def alone : Component := ⟨[users],nodup_singleton users⟩

theorem requestLost :
    (∃ s ∈ run (step alone) (initial fun _ => some ⟨.streaming,false⟩) [.load .touch users,.list,.flag,.save],
      s.owed users = true ∧ s.cursor users = some ⟨.streaming,false⟩) ∧
    (∃ s ∈ run (step alone) (initial fun _ => some ⟨.streaming,true⟩) [.start [users],.list,.flag,.load .clear users,.save],
      s.owed users = true ∧ s.cursor users = some ⟨.streaming,false⟩) ∧
    (∃ s ∈ run (step alone) (initial fun _ => some ⟨.initialCopy,false⟩) [.list,.load .cutover users,.save],
      ∃ s' ∈ step alone s .flag, s.phase users = some .streaming ∧ s'.phase users = some .initialCopy) := by
  decide +kernel

end Replicare.CursorRace
