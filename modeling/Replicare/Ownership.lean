import Replicare.Engine
import Replicare.Runs

/-! Single-active ownership of the jobs: advisory locks of the state store, each held on the
session of one pooled connection while its job runs. -/
namespace Replicare.Ownership
open Engine Runs Function

/- FNV-1a of 64 bits. -/
def advisoryKey (job : Bytes) : Int64 :=
  (job.foldl (fun h b => (h ^^^ b.toUInt64)*1099511628211) (14695981039346656037 : UInt64)).toInt64

/- A session may take a lock that it holds once more, and has to give it back as often. -/
structure State where
  locks : Int64 → Option (Nat × Nat)
  jobs : Nat → Option Bytes

inductive Event where
  | acquire (session : Nat) (job : Bytes)
  | release (session : Nat)
  | unlockFails (session : Nat)
  | close (session : Nat)
  deriving DecidableEq, Repr

def unlock (session : Nat) : Option (Nat × Nat) → Option (Nat × Nat)
  | some (x,n) => if x = session then if n ≤ 1 then none else some (x,n-1) else some (x,n)
  | none => none

/- The job goes on when the session of its lock is gone: nothing watches the connection. -/
def step (s : State) : Event → Option State
  | .acquire x job =>
      if s.jobs x ≠ none then none else
        match s.locks (advisoryKey job) with
        | none => some ⟨update s.locks (advisoryKey job) (some (x,1)),update s.jobs x (some job)⟩
        | some (y,n) =>
            if y = x then some ⟨update s.locks (advisoryKey job) (some (x,n+1)),update s.jobs x (some job)⟩
            else some s
  | .release x => (s.jobs x).map fun job =>
      ⟨update s.locks (advisoryKey job) (unlock x (s.locks (advisoryKey job))),update s.jobs x none⟩
  | .unlockFails x => some { s with jobs := update s.jobs x none }
  | .close x => some { s with locks := fun k => (s.locks k).filter fun h => h.1 ≠ x }

/- A session is lost only once its job has returned. -/
def Watched (s : State) : Event → Prop
  | .close x => s.jobs x = none
  | _ => True

instance (s : State) : (a : Event) → Decidable (Watched s a)
  | .close x => inferInstanceAs (Decidable (s.jobs x = none))
  | .acquire _ _ | .release _ | .unlockFails _ => isTrue trivial

def Guarded (s : State) : Prop := ∀ x job, s.jobs x = some job → ∃ n, s.locks (advisoryKey job) = some (x,n)

theorem guardedTake {s} {x n job} (guarded : Guarded s) (free : ∀ y n, s.locks (advisoryKey job) = some (y,n) → y = x) :
    Guarded ⟨update s.locks (advisoryKey job) (some (x,n)),update s.jobs x (some job)⟩ := by
  intro y other runs
  by_cases same : y = x
  · subst same
    cases (update_self ..).symm.trans runs
    exact ⟨n,update_self ..⟩
  · obtain ⟨c,lock⟩ := guarded y other ((update_of_ne same ..).symm.trans runs)
    refine ⟨c,(update_of_ne (fun key => same ?_) ..).trans lock⟩
    exact free y c (key ▸ lock)

theorem guardedEnd {s} {x locks} (guarded : Guarded s)
    (kept : ∀ y job, y ≠ x → ∀ n, s.locks (advisoryKey job) = some (y,n) → locks (advisoryKey job) = some (y,n)) :
    Guarded ⟨locks,update s.jobs x none⟩ := by
  intro y job still
  by_cases same : y = x
  · subst same
    cases (update_self ..).symm.trans still
  · obtain ⟨n,held⟩ := guarded y job ((update_of_ne same ..).symm.trans still)
    exact ⟨n,kept y job same n held⟩

theorem guardedStep {s t : State} {a} (guarded : Guarded s) (watched : Watched s a) (ok : step s a = some t) : Guarded t := by
  cases a with
  | acquire x job =>
    simp only [step] at ok
    split at ok
    · cases ok
    · split at ok
      · rename_i free
        cases ok
        exact guardedTake guarded fun y n held => by cases free.symm.trans held
      · rename_i y n held
        split at ok <;> cases ok
        · rename_i own
          exact guardedTake guarded fun z c other => by cases held.symm.trans other; exact own
        · exact guarded
  | release x =>
    obtain ⟨job,runs,rfl⟩ := Option.map_eq_some_iff.mp ok
    obtain ⟨n,lock⟩ := guarded x job runs
    refine guardedEnd guarded fun y other same c held => (update_of_ne (fun key => same ?_) ..).trans held
    rw [key] at held
    cases held.symm.trans lock
    rfl
  | unlockFails x =>
    cases ok
    exact guardedEnd guarded fun _ _ _ _ held => held
  | close x =>
    cases ok
    intro y job runs
    obtain ⟨n,lock⟩ := guarded y job runs
    have apart : y ≠ x := fun same => by cases (same ▸ runs).symm.trans watched
    exact ⟨n,by simp [lock,apart]⟩

/- Whatever the daemons do, while no lock session is lost under a running job. -/
theorem singleActive {events : List Event} (watched : Along step Watched ⟨fun _ => none,fun _ => none⟩ events) {t : State}
    (ran : run step ⟨fun _ => none,fun _ => none⟩ events = some t) {x y job other} (one : t.jobs x = some job)
    (two : t.jobs y = some other) (same : advisoryKey job = advisoryKey other) : x = y := by
  have guarded : Guarded t := runKeeps (P := Guarded) (fun s a t held watched ok => guardedStep held watched ok) watched ran
    fun x job runs => by cases runs
  obtain ⟨n,first⟩ := guarded x job one
  obtain ⟨c,second⟩ := guarded y other two
  rw [same] at first
  cases first.symm.trans second
  rfl

theorem singleActiveHandover : ∃ t : State,
    run step ⟨fun _ => none,fun _ => none⟩ [.acquire 1 [97],.acquire 2 [97],.release 1,.close 1,.acquire 2 [97]] = some t ∧
    t.jobs 2 = some [97] ∧ ∀ x, t.jobs x = some [97] → x = 2 := by
  have ran := (rfl : run step ⟨fun _ => none,fun _ => none⟩
    [.acquire 1 [97],.acquire 2 [97],.release 1,.close 1,.acquire 2 [97]] = _)
  exact ⟨_,ran,by decide,fun x runs => singleActive (by decide) ran runs (by decide) rfl⟩

end Replicare.Ownership
