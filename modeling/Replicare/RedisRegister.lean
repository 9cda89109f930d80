import Replicare.RedisMesh

/-! The metadata entry of a key over a run. -/
namespace Replicare.RedisRegister
open Hlc HlcEngines Runs RedisMesh Function

variable {E N C : Type*} [DecidableEq E] [LinearOrder N]

def readClock (stored : Option (Meta N)) : Clock := stored.elim ⟨0,0⟩ fun v => v.version.stamp

def Unpassed (now : Int) (stored : Option (Meta N)) (n : N) (f : Meta N) : Prop :=
  if (readClock stored).physical < now then f.version ≤ ⟨now,0,n⟩
  else f.version ≤ ⟨(readClock stored).physical,int32 ((readClock stored).logical+1),n⟩

def Collects (m : Mesh E N C) (s : State E N C) (a : Action E N C) (n : N) : Prop :=
  ∃ e cutoff v f, a = .collectNext e ∧ m.source e = n ∧ s.gc e = .read cutoff (some v) ∧
    s.register n = some f ∧ f.deleted = true ∧ f.version.phys < cutoff

def Grows (m : Mesh E N C) (s : State E N C) (acts : List (Action E N C)) : Prop :=
  ∀ before during after u t, acts = before++during++after → run (step m) s before = some u →
    run (step m) u during = some t → ∀ n e, u.register n = some e →
      (∃ f, t.register n = some f ∧ e.version ≤ f.version) ∨
      ∃ first a rest w, during = first++a::rest ∧ run (step m) u first = some w ∧ Collects m w a n

/- A stamp finds no entry beyond its tick, a DEL a tombstone from before its cutoff. -/
def Held (m : Mesh E N C) (s : State E N C) : Action E N C → Prop
  | .next e =>
      match s.pc e with
      | .valued b stored _ _ vh => unchanged stored vh = none →
          ∀ f, s.register (m.source e) = some f → Unpassed b.now stored (m.source e) f
      | .absent b (some v) _ => v.deleted = false →
          ∀ f, s.register (m.source e) = some f → Unpassed b.now (some v) (m.source e) f
      | _ => True
  | .collectNext e =>
      match s.gc e with
      | .read cutoff (some v) => v.deleted = true → v.version.phys < cutoff →
          ∀ f, s.register (m.source e) = some f → f.deleted = true ∧ f.version.phys < cutoff
      | _ => True
  | _ => True

def Undisturbed (m : Mesh E N C) (s : State E N C) : Action E N C → Prop
  | .next e =>
      match s.pc e with
      | .valued b stored _ _ _ => s.register (m.source e) = stored ∧
          ((readClock stored).physical < b.now ∨ InRange ((readClock stored).logical+1))
      | .absent b stored _ => s.register (m.source e) = stored ∧
          ((readClock stored).physical < b.now ∨ InRange ((readClock stored).logical+1))
      | _ => True
  | .collectNext e =>
      match s.gc e with
      | .read _ stored => s.register (m.source e) = stored
      | _ => True
  | _ => True

variable {m : Mesh E N C} {s t : State E N C} {a : Action E N C} {e : E} {n : N}

theorem unpassedIff {now stored f} : Unpassed now stored n f ↔ f.version ≤ tickVersion now stored n := by
  show (if (readClock stored).physical < now then _ else _) ↔
    f.version ≤ ⟨(if now > (readClock stored).physical then _ else _ : Clock).physical,
      (if now > (readClock stored).physical then _ else _ : Clock).logical,n⟩
  split <;> exact Iff.rfl

theorem tickAbove {now v} (room : v.version.phys < now ∨ InRange (v.version.log+1)) :
    v.version < tickVersion now (some v) n := by
  refine stampLt (clockLt.mpr ?_)
  unfold tickVersion Redis.hlcTick
  split
  · rename_i later
    exact .inl later
  · rename_i later
    have inside := room.resolve_left later
    refine .inr ⟨rfl,?_⟩
    show v.version.log < int32 (v.version.log+1)
    unfold InRange at inside
    unfold int32
    omega

theorem unpassedTick {now v} (room : v.version.phys < now ∨ InRange (v.version.log+1)) : Unpassed now (some v) n v :=
  unpassedIff.mpr (le_of_lt (tickAbove room))

omit [DecidableEq E] in
theorem undisturbedHeld (calm : Undisturbed m s a) : Held m s a := by
  cases a with
  | next e =>
    simp only [Undisturbed] at calm
    simp only [Held]
    split
    · rename_i b stored dump ttl vh here
      rw [here] at calm
      intro _ f entry
      rw [entry] at calm
      obtain ⟨same,room⟩ := calm
      subst same
      exact unpassedTick room
    · rename_i b v missing here
      rw [here] at calm
      intro _ f entry
      rw [entry] at calm
      obtain ⟨same,room⟩ := calm
      cases same
      exact unpassedTick room
    · trivial
  | collectNext e =>
    simp only [Undisturbed] at calm
    simp only [Held]
    split
    · rename_i cutoff v here
      rw [here] at calm
      intro dead old f entry
      cases entry.symm.trans calm
      exact ⟨dead,old⟩
    · trivial
  | _ => trivial

omit [DecidableEq E] in
theorem applyGrows {r k} (entry : s.register n = some k) (q) :
    ∃ f, (meshApply s q r).register n = some f ∧ k.version ≤ f.version := by
  unfold meshApply
  split
  · rename_i won
    by_cases at_ : n = q
    · subst at_
      rw [entry] at won
      exact ⟨r.entry,update_self ..,le_of_lt (of_decide_eq_true won)⟩
    · exact ⟨k,(update_of_ne at_ ..).trans entry,le_refl _⟩
  · exact ⟨k,entry,le_refl _⟩

theorem stampGrows {r k q} (entry : s.register n = some k) (above : ∀ f, s.register q = some f → f.version ≤ r.version) :
    ∃ f, (s.stamp q e r).register n = some f ∧ k.version ≤ f.version := by
  by_cases at_ : n = q
  · subst at_
    exact ⟨r.entry,update_self ..,above k entry⟩
  · exact ⟨k,(update_of_ne at_ ..).trans entry,le_refl _⟩

theorem stepGrows {k} (held : Held m s a) (ok : step m s a = some t) (entry : s.register n = some k) :
    (∃ f, t.register n = some f ∧ k.version ≤ f.version) ∨ Collects m s a n := by
  have kept : ∀ u : State E N C, u.register = s.register → (∃ f, u.register n = some f ∧ k.version ≤ f.version) :=
    fun u same => ⟨k,by rw [same,entry],le_refl _⟩
  cases taken ok with
  | deliver _ => exact .inl (applyGrows (by exact entry) _)
  | @gcDelete e cutoff v here dead old =>
    by_cases at_ : n = m.source e
    · simp only [Held,here] at held
      obtain ⟨deleted,before⟩ := held dead old k (at_ ▸ entry)
      exact .inr ⟨e,cutoff,v,k,rfl,at_.symm,here,entry,deleted,before⟩
    · exact .inl ⟨k,(update_of_ne at_ ..).trans entry,le_refl _⟩
  | @next e t command =>
    refine .inl ?_
    cases command with
    | alive here moved =>
      simp only [Held,here] at held
      exact stampGrows entry fun f stored => unpassedIff.mp (held moved f stored)
    | tombstone here live =>
      simp only [Held,here] at held
      exact stampGrows entry fun f stored => unpassedIff.mp (held live f stored)
    | _ => exact kept _ rfl
  | _ => exact .inl (kept _ rfl)

theorem heldOfGrows (grows : ∀ t, step m s a = some t → ∀ n k, s.register n = some k →
    (∃ f, t.register n = some f ∧ k.version ≤ f.version) ∨ Collects m s a n) : Held m s a := by
  cases a with
  | next e =>
    have stamps : ∀ r : Record N C, rereadNext m s e = some (s.stamp (m.source e) e r) →
        ∀ f, s.register (m.source e) = some f → f.version ≤ r.version := by
      intro r ok f entry
      rcases grows _ ok _ f entry with ⟨k,stored,above⟩ | ⟨_,_,_,_,other,_⟩
      · cases (s.stampAt (m.source e) e r).symm.trans stored
        exact above
      · cases other
    simp only [Held]
    split
    · rename_i b stored dump ttl vh here
      intro moved f entry
      refine unpassedIff.mpr (stamps ⟨tickVersion b.now stored (m.source e),vh,some dump,ttl.1,ttl.2⟩ ?_ f entry)
      simp only [rereadNext,here,moved]
    · rename_i b v missing here
      intro live f entry
      refine unpassedIff.mpr (stamps ⟨tickVersion b.now (some v) (m.source e),0,none,0,false⟩ ?_ f entry)
      simp only [rereadNext,here,live,Bool.false_eq_true,if_false]
    · trivial
  | collectNext e =>
    simp only [Held]
    split
    · rename_i cutoff v here
      intro dead old f entry
      have ok : step m s (.collectNext e) = some { s with gc := update s.gc e .idle, register := update s.register (m.source e) none } := by
        simp [step,collectNext,here,dead,old]
      rcases grows _ ok _ f entry with ⟨k,stored,_⟩ | ⟨_,_,_,g,same,_,at_,stored,deleted,before⟩
      · cases (update_self (m.source e) none s.register).symm.trans stored
      · cases same
        cases here.symm.trans at_
        cases entry.symm.trans stored
        exact ⟨deleted,before⟩
    · trivial
  | _ => trivial

theorem runGrows {during} : ∀ {s : State E N C}, Along (step m) (Held m) s during → run (step m) s during = some t →
    ∀ n k, s.register n = some k → (∃ f, t.register n = some f ∧ k.version ≤ f.version) ∨
      ∃ first a rest w, during = first++a::rest ∧ run (step m) s first = some w ∧ Collects m w a n := by
  induction during with
  | nil =>
    intro s _ ran n k entry
    cases ran
    exact .inl ⟨k,entry,le_refl _⟩
  | cons a during ih =>
    intro s along ran n k entry
    obtain ⟨u,ok,rest⟩ := runCons ran
    rcases stepGrows along.1 ok entry with ⟨f,stored,above⟩ | collects
    · rcases ih (along.2 u ok) rest n f stored with ⟨g,last,higher⟩ | ⟨first,b,others,w,split,reached,collects⟩
      · exact .inl ⟨g,last,above.trans higher⟩
      · refine .inr ⟨a::first,b,others,w,by rw [split]; rfl,?_,collects⟩
        simp only [run,ok,Option.bind_some,reached]
    · exact .inr ⟨[],a,during,s,rfl,rfl,collects⟩

theorem growsAlong {acts} : ∀ {s : State E N C}, Grows m s acts → Along (step m) (Held m) s acts := by
  induction acts with
  | nil => exact fun _ => trivial
  | cons a acts ih =>
    intro s grows
    refine ⟨heldOfGrows fun t ok n k entry => ?_,fun u ok => ih fun before during after v t split ran rest n k entry => ?_⟩
    · rcases grows [] [a] acts s t rfl rfl (by simp only [run,ok,Option.bind_some]) n k entry with
        kept | ⟨first,b,rest,w,split,reached,collects⟩
      · exact .inl kept
      · cases first with
        | nil =>
          cases split
          cases reached
          exact .inr collects
        | cons c first => simp at split
    · refine grows (a::before) during after v t ?_ ?_ rest n k entry
      · rw [split]
        rfl
      · simp only [run,ok,Option.bind_some,ran]

theorem registerGrowsIff (m : Mesh E N C) (s : State E N C) (acts : List (Action E N C)) :
    (Grows m s acts ↔ Along (step m) (Held m) s acts) ∧
    ∀ (u : State E N C) (a : Action E N C), Undisturbed m u a → Held m u a := by
  refine ⟨⟨growsAlong,fun along before during after u t split ran rest n k entry => ?_⟩,fun u a => undisturbedHeld⟩
  rw [split,List.append_assoc] at along
  exact runGrows (alongSplit (alongSplit along ran).2 rest).1 rest n k entry

section Example

/- The node `false` has been read at wall clock 5 when a record of wall clock 10 is applied to it. -/
def staleStamp : List (Action Bool Bool Nat) :=
  reading false 5++reading true 10++[.next true,.deliver true,.next false]

def staleDelete : List (Action Bool Bool Nat) :=
  reading false 5++[.next false,.client false none,.start false 10]++List.replicate 3 (.next false)++
    [.collect false 20,.collectNext false,.client false (text 2)]++reading false 30++[.next false,.collectNext false]

theorem staleWritesLoseEntries :
    ¬Grows pair (fresh 0 fun _ => text 1) staleStamp ∧ ¬Grows pair (fresh 0 fun _ => text 1) staleDelete := by
  constructor
  · intro grows
    rcases grows (reading false 5++reading true 10++[.next true,.deliver true]) [.next false] [] _ _ rfl rfl rfl false
      ⟨⟨10,0,true⟩,false,1⟩ (by decide +kernel) with ⟨f,stored,above⟩ | ⟨first,a,rest,w,split,_,e,_,_,_,same,_⟩
    · cases stored
      exact absurd above (by decide)
    · subst same
      cases first with
      | nil => cases split
      | cons b first => simp at split
  · intro grows
    rcases grows (reading false 5++[.next false,.client false none,.start false 10]++List.replicate 3 (.next false)++
      [.collect false 20,.collectNext false,.client false (text 2)]++reading false 30++[.next false]) [.collectNext false] []
      _ _ rfl rfl rfl false ⟨⟨30,0,false⟩,false,2⟩ (by decide +kernel) with ⟨f,stored,_⟩ | ⟨first,a,rest,w,split,ran,e,_,_,f,same,_,_,entry,dead,_⟩
    · cases stored
    · cases first with
      | nil =>
        cases ran
        cases entry
        cases dead
      | cons b first => simp at split

end Example

end Replicare.RedisRegister
