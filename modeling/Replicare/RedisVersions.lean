import Replicare.RedisRegister

/-! What a version stands for in a Redis mesh. -/
namespace Replicare.RedisVersions
open Hlc HlcEngines Runs RedisMesh RedisRegister List Function

variable {E N C : Type*} [DecidableEq E] [LinearOrder N]

def Owned (m : Mesh E N C) (s : State E N C) (e : E) (b : Base) (stored : Option (Meta N)) : Prop :=
  s.register (m.source e) = stored ∧
    ((readClock stored).physical < b.now ∨ InRange ((readClock stored).logical+1))

instance (m : Mesh E N C) (s : State E N C) (e b) (stored : Option (Meta N)) : Decidable (Owned m s e b stored) :=
  inferInstanceAs (Decidable (_ ∧ _))

def Coherent (m : Mesh E N C) (s : State E N C) : Action E N C → Prop
  | .next e =>
      match s.pc e with
      | .typed _ _ dump _ kind => ∀ v ∈ canonicalValue m.empty kind (s.data (m.source e)), v = dump
      | .valued b stored _ _ vh => unchanged stored vh = none → Owned m s e b stored
      | .absent b (some v) _ => v.deleted = false → Owned m s e b (some v)
      | _ => True
  | .collect _ _ | .collectNext _ => False
  | _ => True

instance [DecidableEq C] (m : Mesh E N C) (s : State E N C) : (a : Action E N C) → Decidable (Coherent m s a)
  | .next e =>
      match here : s.pc e with
      | .typed _ _ dump _ kind => decidable_of_iff (∀ v ∈ canonicalValue m.empty kind (s.data (m.source e)), v = dump)
          (by simp only [Coherent,here])
      | .valued b stored _ _ vh => decidable_of_iff (unchanged stored vh = none → Owned m s e b stored)
          (by simp only [Coherent,here])
      | .absent b (some v) _ => decidable_of_iff (v.deleted = false → Owned m s e b (some v)) (by simp only [Coherent,here])
      | .idle | .begun _ | .registered _ _ | .dumped _ _ _ | .timed _ _ _ _ | .absent _ none _ =>
          isTrue (by simp only [Coherent,here])
  | .collect _ _ | .collectNext _ => isFalse id
  | .client _ _ | .elapse _ | .start _ _ | .deliver _ | .abort _ => isTrue trivial

section Invariant
variable (m : Mesh E N C) (S : Set (Value C))

def Fits (r : Record N C) : Prop := ∀ x ∈ r.body, r.vhash = m.vhash x ∧ x ∈ S

def Reading (pc : Pc N C) : Prop :=
  match pc with
  | .dumped _ _ dump | .timed _ _ dump _ | .typed _ _ dump _ _ => dump ∈ S
  | .valued _ _ dump _ vh => dump ∈ S ∧ vh = m.vhash dump
  | _ => True

structure Sound (s : State E N C) : Prop where
  known : Known (fun v => ∃ r ∈ s.framed, v = r.entry) (fun r => r ∈ s.framed ∧ Fits m S r) s
  alike : ∀ r ∈ s.framed, ∀ q ∈ s.framed, r.version = q.version → r.body = q.body
  own : ∀ r ∈ s.framed, ∃ v, s.register r.version.node = some v ∧ r.version ≤ v.version
  read : ∀ e v, (s.pc e).stored = some v → ∃ f, s.register (m.source e) = some f ∧ v.version ≤ f.version
  values : ∀ n, ∀ d ∈ s.data n, d.value ∈ S
  reading : ∀ e, Reading m S (s.pc e)

end Invariant

variable {m : Mesh E N C} {S : Set (Value C)} {s t : State E N C} {a : Action E N C} {e : E}

omit [LinearOrder N] in
theorem unchangedSome {stored : Option (Meta N)} {vh : Nat} {v : Meta N} (kept : unchanged stored vh = some v) :
    stored = some v ∧ v.deleted = false ∧ v.vhash = vh := by
  obtain ⟨there,test⟩ := Option.filter_eq_some_iff.mp kept
  simp only [Bool.not_or,Bool.and_eq_true,Bool.not_eq_true',decide_eq_false_iff_not,not_not] at test
  exact ⟨there,test⟩

omit [DecidableEq E] in
theorem ownedUnpassed {b stored} (owned : Owned m s e b stored) :
    ∀ f, s.register (m.source e) = some f → Unpassed b.now stored (m.source e) f := by
  intro f entry
  obtain ⟨same,room⟩ := owned
  cases entry.symm.trans same
  exact unpassedTick room

omit [DecidableEq E] in
theorem coherentHeld (coherent : Coherent m s a) : Held m s a := by
  cases a with
  | next e =>
    simp only [Coherent] at coherent
    simp only [Held]
    split
    · rename_i b stored dump ttl vh here
      rw [here] at coherent
      exact fun moved => ownedUnpassed (coherent moved)
    · rename_i b v missing here
      rw [here] at coherent
      exact fun live => ownedUnpassed (coherent live)
    · trivial
  | collect _ _ | collectNext _ => exact coherent.elim
  | _ => trivial

theorem entryGrows {n k} (coherent : Coherent m s a) (ok : step m s a = some t)
    (entry : s.register n = some k) : ∃ f, t.register n = some f ∧ k.version ≤ f.version := by
  rcases stepGrows (coherentHeld coherent) ok entry with grown | ⟨_,_,_,_,rfl,_⟩
  · exact grown
  · exact coherent.elim

omit [DecidableEq E] in
theorem tickNew {b stored} (owned : Owned m s e b stored) {f}
    (entry : s.register (m.source e) = some f) : f.version < tickVersion b.now stored (m.source e) := by
  obtain ⟨same,room⟩ := owned
  cases entry.symm.trans same
  exact tickAbove room

omit [DecidableEq E] in
theorem stampUnknown (sound : Sound m S s) {b stored} (owned : Owned m s e b stored)
    {r} (mem : r ∈ s.framed) : r.version ≠ tickVersion b.now stored (m.source e) := by
  intro same
  obtain ⟨v,entry,below⟩ := sound.own r mem
  have node : r.version.node = m.source e := by rw [same]; rfl
  rw [node] at entry
  exact absurd (tickNew owned entry) (not_lt.mpr (same ▸ below))

theorem valuesStep (sound : Sound m S s) (written : ∀ n d, a = .client n (some d) → d.value ∈ S)
    (ok : step m s a = some t) : ∀ n, ∀ d ∈ t.data n, d.value ∈ S := by
  have put : ∀ (q : N) (x : Option (Data C)), (∀ d ∈ x, d.value ∈ S) → ∀ n, ∀ d ∈ update s.data q x n, d.value ∈ S := by
    intro q x inside n d mem
    by_cases same : n = q
    · subst same
      rw [update_self] at mem
      exact inside d mem
    · rw [update_of_ne same] at mem
      exact sound.values n d mem
  cases taken ok with
  | client q x => exact put q _ fun d mem => written q d (by rw [unexpiredSome mem])
  | elapse _ => exact fun n d mem => sound.values n d (unexpiredSome mem)
  | @deliver e r rest waiting =>
    unfold meshApply
    split
    · refine put _ _ fun d mem => ?_
      obtain ⟨x,body,restored⟩ := Option.bind_eq_some_iff.mp mem
      rw [restoreValue restored]
      exact ((sound.known.framed r (sound.known.flight e r (waiting ▸ mem_cons_self))).2 x body).2
    · exact sound.values
  | next command =>
    rw [(rereadData command).1]
    exact sound.values
  | _ => exact sound.values

theorem readingStep (sound : Sound m S s) (coherent : Coherent m s a) (ok : step m s a = some t) :
    ∀ q, Reading m S (t.pc q) := by
  intro q
  by_cases mover : a.mover = some q
  · have at_ : ∀ pc : Pc N C, Reading m S pc → Reading m S (update s.pc q pc q) := by
      intro pc held
      rwa [update_self]
    have before := sound.reading q
    cases taken ok with
    | start _ | abort _ =>
      cases mover
      exact at_ _ trivial
    | next command =>
      cases mover
      cases command with
      | dump _ found => exact at_ _ (sound.values _ _ found)
      | pttl here _ | type here _ _ =>
        rw [here] at before
        exact at_ _ before
      | value here answered =>
        rw [here] at before
        simp only [Coherent,here] at coherent
        refine at_ _ ⟨before,?_⟩
        rw [coherent _ answered]
      | _ => exact at_ _ trivial
    | _ => cases mover
  · rw [pcFrame ok mover]
    exact sound.reading q

theorem readStep (sound : Sound m S s) (coherent : Coherent m s a) (ok : step m s a = some t) :
    ∀ q v, (t.pc q).stored = some v → ∃ f, t.register (m.source q) = some f ∧ v.version ≤ f.version := by
  intro q v stored
  rcases storedSource ok stored with kept | now
  · obtain ⟨f,entry,below⟩ := sound.read q v kept
    obtain ⟨g,last,above⟩ := entryGrows coherent ok entry
    exact ⟨g,last,below.trans above⟩
  · exact entryGrows coherent ok now

theorem framesNext (separates : Set.InjOn m.vhash S) (sound : Sound m S s) (coherent : Coherent m s a)
    (ok : step m s a = some t) {r : Record N C} (frames : Frames m s a r) : Fits m S r ∧
    ((∃ q ∈ s.framed, q.version = r.version ∧ q.body = r.body) ∨
      (∀ q ∈ s.framed, q.version ≠ r.version) ∧ t.register r.version.node = some r.entry) := by
  cases frames with
  | @alive e b stored dump ttl vh here moved =>
    simp only [Coherent,here] at coherent
    have owned := coherent moved
    have reading := sound.reading e
    rw [here] at reading
    refine ⟨fun x body => ?_,.inr ⟨fun q mem => stampUnknown sound owned mem,?_⟩⟩
    · cases body
      exact ⟨reading.2,reading.1⟩
    · simp only [step,rereadNext,here,moved] at ok
      cases ok
      exact s.stampAt ..
  | @tombstone e b v missing here live =>
    simp only [Coherent,here] at coherent
    have owned := coherent live
    refine ⟨fun x body => absurd body (Option.not_mem_none x),.inr ⟨fun q mem => stampUnknown sound owned mem,?_⟩⟩
    simp only [step,rereadNext,here,live,Bool.false_eq_true,if_false] at ok
    cases ok
    exact s.stampAt ..
  | @same e b stored dump ttl vh v here kept =>
    obtain ⟨rfl,live,fingerprint⟩ := unchangedSome kept
    have reading := sound.reading e
    rw [here] at reading
    obtain ⟨q,mem,rfl⟩ := sound.known.stored e v (by rw [here]; rfl)
    have alive : q.body.isNone = false := live
    obtain ⟨x,body⟩ := Option.isSome_iff_exists.mp (by rw [← Option.not_isNone,alive]; rfl)
    obtain ⟨hash,inside⟩ := (sound.known.framed q mem).2 x body
    have print : q.entry.vhash = q.vhash := by simp only [Record.entry,alive,Bool.false_eq_true,if_false]
    have same : x = dump := separates inside reading.1 (by rw [← hash,← print,fingerprint,reading.2])
    refine ⟨fun y shown => ?_,.inl ⟨q,mem,rfl,by rw [body,same]⟩⟩
    cases shown
    exact ⟨fingerprint.trans reading.2,reading.1⟩
  | @reframe e b v missing here dead =>
    obtain ⟨q,mem,rfl⟩ := sound.known.stored e v (by rw [here]; rfl)
    exact ⟨fun x body => absurd body (Option.not_mem_none x),.inl ⟨q,mem,rfl,Option.isNone_iff_eq_none.mp dead⟩⟩

theorem soundStep (separates : Set.InjOn m.vhash S) (sound : Sound m S s) (coherent : Coherent m s a)
    (written : ∀ n d, a = .client n (some d) → d.value ∈ S) (ok : step m s a = some t) : Sound m S t := by
  have grown : ∀ r ∈ s.framed, r ∈ t.framed := fun r mem => framedGrows ok mem
  have before : Known (fun v => ∃ r ∈ t.framed, v = r.entry) (fun r => r ∈ t.framed ∧ Fits m S r) s := by
    refine ⟨fun n v entry => ?_,fun q v stored => ?_,fun r mem => ⟨grown r mem,(sound.known.framed r mem).2⟩,sound.known.flight⟩
    · obtain ⟨r,mem,same⟩ := sound.known.register n v entry
      exact ⟨r,grown r mem,same⟩
    · obtain ⟨r,mem,same⟩ := sound.known.stored q v stored
      exact ⟨r,grown r mem,same⟩
  have next : ∀ r, Frames m s a r → _ := fun r frames => framesNext separates sound coherent ok frames
  refine ⟨?_,?_,?_,readStep sound coherent ok,valuesStep sound written ok,readingStep sound coherent ok⟩
  · refine knownStep (fun r held => ⟨r,held.1,rfl⟩) before ok fun r frames => ⟨framesMem ok frames,(next r frames).1⟩
  · -- a record framed now agrees with the ones before, or carries a version none of them has
    have mixed : ∀ r q, r ∈ s.framed → Frames m s a q → r.version = q.version → r.body = q.body := by
      intro r q mem frames same
      rcases (next q frames).2 with ⟨p,old,version,body⟩ | ⟨new,_⟩
      · exact (sound.alike r mem p old (same.trans version.symm)).trans body
      · exact absurd same (new r mem)
    intro r hr q hq same
    rcases framedSource ok hr with oldR | newR <;> rcases framedSource ok hq with oldQ | newQ
    · exact sound.alike r oldR q oldQ same
    · exact mixed r q oldR newQ same
    · exact (mixed q r oldQ newR same.symm).symm
    · rw [framesOne newR newQ]
  · intro r mem
    have older : ∀ q ∈ s.framed, ∃ v, t.register q.version.node = some v ∧ q.version ≤ v.version := by
      intro q old
      obtain ⟨v,entry,below⟩ := sound.own q old
      obtain ⟨f,last,above⟩ := entryGrows coherent ok entry
      exact ⟨f,last,below.trans above⟩
    rcases framedSource ok mem with old | new
    · exact older r old
    · rcases (next r new).2 with ⟨p,old,version,_⟩ | ⟨_,entry⟩
      · exact version ▸ older p old
      · exact ⟨r.entry,entry,le_refl _⟩

omit [DecidableEq E] in
theorem freshSound (time) (data) (initial : ∀ n, ∀ d ∈ data n, d.value ∈ S) :
    Sound m S (fresh time data : State E N C) where
  known := freshKnown time data
  alike _ mem := absurd mem not_mem_nil
  own _ mem := absurd mem not_mem_nil
  read _ _ stored := by cases stored
  values := initial
  reading _ := trivial

theorem soundRun (separates : Set.InjOn m.vhash S) {acts} (written : ∀ n d, Action.client n (some d) ∈ acts → d.value ∈ S)
    (sound : Sound m S s) (coherent : Along (step m) (Coherent m) s acts) (ran : run (step m) s acts = some t) : Sound m S t := by
  induction acts generalizing s with
  | nil =>
    cases ran
    exact sound
  | cons a acts ih =>
    obtain ⟨u,ok,rest⟩ := runCons ran
    refine ih (fun n d mem => written n d (mem_cons_of_mem _ mem)) ?_ (coherent.2 u ok) rest
    exact soundStep separates sound coherent.1 (fun n d same => written n d (same ▸ mem_cons_self)) ok

omit [DecidableEq E] in
theorem entryBody (separates : Set.InjOn m.vhash S) (sound : Sound m S s) {r} (mem : r ∈ s.framed) {n}
    {v} (entry : s.register n = some v) (same : v.version = r.version) :
    if v.deleted then r.body = none
    else ∀ d ∈ s.data n, m.vhash d.value = v.vhash → r.body = some d.value := by
  obtain ⟨q,framed,rfl⟩ := sound.known.register n v entry
  have bodies : q.body = r.body := sound.alike q framed r mem same
  split
  · rename_i dead
    exact bodies ▸ Option.isNone_iff_eq_none.mp dead
  · rename_i live
    intro d held print
    have alive : q.body.isNone = false := Bool.eq_false_of_not_eq_true live
    obtain ⟨x,body⟩ := Option.isSome_iff_exists.mp (by rw [← Option.not_isNone,alive]; rfl)
    obtain ⟨hash,inside⟩ := (sound.known.framed q framed).2 x body
    have shown : q.entry.vhash = q.vhash := by simp only [Record.entry,alive,Bool.false_eq_true,if_false]
    have value : d.value = x := separates (sound.values n d held) inside (by rw [print,shown,hash])
    rw [← bodies,body,value]

end Replicare.RedisVersions
