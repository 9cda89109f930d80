import Replicare.RedisMesh

/-! Fresh tombstones of a re-read. -/
namespace Replicare.RedisTombstone
open Hlc Runs RedisMesh Function

variable {E N C : Type*} [DecidableEq E] [LinearOrder N]

/- `buried` has the versions stamped as tombstones by re-reads that met an absent key. -/
structure Watched (E N C : Type*) where
  state : State E N C
  gone : E → Bool
  buried : List (Version N)

def Burying (s : State E N C) (e : E) (b : Base) (v : Meta N) : Prop :=
  v.deleted = false ∧ ∃ missing, s.pc e = .absent b (some v) missing

section Watch
variable (m : Mesh E N C)

def burial (w : Watched E N C) : Action E N C → List (Version N)
  | .next e =>
      match w.state.pc e with
      | .absent b (some v) _ => if !v.deleted && w.gone e then [tickVersion b.now (some v) (m.source e)] else []
      | _ => []
  | _ => []

def begins (w : Watched E N C) (e : E) : Action E N C → Bool
  | .next q => decide (q = e) && (w.state.pc e matches .begun _)
  | _ => false

def watch (w : Watched E N C) (a : Action E N C) : Option (Watched E N C) :=
  (step m w.state a).map fun t =>
    ⟨t,fun e => (t.data (m.source e)).isNone || (!begins w e a && w.gone e),w.buried++burial m w a⟩

end Watch

def Mourned (w : Watched E N C) : Action E N C → Prop
  | .next e => ∀ b v, Burying w.state e b v → w.gone e = true
  | _ => True

def Legible (w : Watched E N C) : Action E N C → Prop
  | .next e => ∀ b v, v.deleted = false → w.state.pc e = .absent b (some v) false → w.gone e = true
  | _ => True

def unwatched (s : State E N C) : Watched E N C := ⟨s,fun _ => false,[]⟩

variable {m : Mesh E N C} {w u : Watched E N C} {a : Action E N C} {e : E}

def Missed (w : Watched E N C) : Prop := ∀ e b stored, w.state.pc e = .absent b stored true → w.gone e = true

theorem watched (ok : watch m w a = some u) : step m w.state a = some u.state ∧
    (∀ e, u.gone e = ((u.state.data (m.source e)).isNone || (!begins w e a && w.gone e))) ∧
    u.buried = w.buried++burial m w a := by
  obtain ⟨t,moved,rfl⟩ := Option.map_eq_some_iff.mp ok
  exact ⟨moved,fun _ => rfl,rfl⟩

theorem missedStep (missed : Missed w) (ok : watch m w a = some u) : Missed u := by
  obtain ⟨t,seen,_⟩ := u
  obtain ⟨moved,gone,_⟩ := watched ok
  intro q b stored absent
  by_cases mover : a.mover = some q
  · -- the re-read got here by a command that found no key
    have here : t.data (m.source q) = none := by
      cases taken moved with
      | start _ | abort _ =>
        cases mover
        cases (update_self q _ w.state.pc).symm.trans absent
      | next command =>
        cases mover
        rw [(rereadData command).1]
        cases command with
        | dumpNone _ none_ | pttlNone _ none_ | typeNone _ none_ => exact none_
        | valueNone _ _ =>
          injection (update_self q _ w.state.pc).symm.trans absent with _ _ missing
          exact Option.isNone_iff_eq_none.mp missing
        | _ => cases (update_self q _ w.state.pc).symm.trans absent
      | _ => cases mover
    rw [gone,here]
    rfl
  · rw [pcFrame moved mover] at absent
    have quiet : begins w q a = false := by
      cases a with
      | next e =>
        have apart : e ≠ q := fun same => mover (congrArg some same)
        simp [begins,apart]
      | _ => rfl
    rw [gone,quiet,missed q b stored absent]
    simp

omit [DecidableEq E] [LinearOrder N] in
theorem mournedIff (missed : Missed w) : Mourned w a ↔ Legible w a := by
  cases a with
  | next e =>
    constructor
    · exact fun mourned b v live here => mourned b v ⟨live,false,here⟩
    · rintro legible b v ⟨live,missing,here⟩
      cases missing with
      | true => exact missed e b _ here
      | false => exact legible b v live here
  | _ => exact Iff.rfl

theorem mournedAlong {acts} : ∀ {w : Watched E N C}, Missed w →
    (Along (watch m) Mourned w acts ↔ Along (watch m) Legible w acts) := by
  induction acts with
  | nil => exact fun _ => Iff.rfl
  | cons a acts ih =>
    intro w missed
    exact and_congr (mournedIff missed) (forall₂_congr fun u ok => ih (missedStep missed ok))

def Buried (w : Watched E N C) : Prop :=
  Known (fun v => v.deleted = true → v.version ∈ w.buried) (fun r => r.body = none → r.version ∈ w.buried) w.state

theorem buriedStep (buried : Buried w) (mourned : Mourned w a) (ok : watch m w a = some u) : Buried u := by
  obtain ⟨moved,_,more⟩ := watched ok
  have grown : ∀ v ∈ w.buried, v ∈ u.buried := fun v mem => more ▸ List.mem_append_left _ mem
  have before : Known (fun v => v.deleted = true → v.version ∈ u.buried) (fun r => r.body = none → r.version ∈ u.buried)
      w.state :=
    ⟨fun n v entry dead => grown _ (buried.register n v entry dead),fun e v stored dead => grown _ (buried.stored e v stored dead),
      fun r mem none_ => grown _ (buried.framed r mem none_),buried.flight⟩
  refine knownStep (fun r held dead => held (Option.isNone_iff_eq_none.mp dead)) before moved fun r frames none_ => ?_
  cases frames with
  | alive _ _ | same _ _ => cases none_
  | reframe here dead => exact before.stored _ _ (by rw [here]; rfl) dead
  | @tombstone e b v missing here live =>
    have gone := mourned b v ⟨live,missing,here⟩
    rw [more]
    refine List.mem_append_right _ ?_
    simp only [burial,here,live,gone]
    exact List.mem_singleton_self _

omit [DecidableEq E] [LinearOrder N] in
theorem freshMissed (time) (data) : Missed (unwatched (fresh time data) : Watched E N C) := by
  intro e b stored here
  cases here

def retyped : List (Action Bool Bool Nat) :=
  reading false 5++[.next false,.deliver false,.client false (some ⟨⟨.moduleType,1⟩,none⟩),.start false 9]++
    List.replicate 5 (.next false)++[.deliver false]

end Replicare.RedisTombstone
