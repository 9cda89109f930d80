import Mathlib.Data.Fintype.Basic
import Replicare.RedisMesh

/-! A copy of an edge into a member of a Redis mesh. -/
namespace Replicare.RedisLoad
open Hlc Runs RedisMesh List Function

variable {E N C : Type*} [DecidableEq E] [LinearOrder N] [DecidableEq C]

structure Row (C : Type*) where
  value : Value C
  ttl : Int
  absolute : Bool
  deriving DecidableEq, Repr

def Row.restore (time : Int) (row : Row C) : Option (Data C) :=
  unexpired time (some ⟨row.value,if row.ttl = 0 then none else if row.absolute then some row.ttl else some (time+row.ttl)⟩)

/- `written` is what a client has made of the key of a node since its last stamp or
guarded apply; no step reads it. -/
structure Loading (E N C : Type*) where
  mesh : State E N C
  chunk : E → List (Row C)
  written : N → Option (Option (Value C))

inductive Move (E N C : Type*) where
  | mesh (a : Action E N C)
  | dump (e : E) (nowMillis : Int)
  | load (e : E)
  | fail (e : E)

def stamps : Pc N C → Bool
  | .valued _ stored _ _ vh => (unchanged stored vh).isNone
  | .absent _ (some v) _ => !v.deleted
  | _ => false

section Step
variable (m : Mesh E N C)

def track (s : Loading E N C) (a : Action E N C) (t : State E N C) (n : N) : Option (Option (Value C)) :=
  match a with
  | .client q _ => if q = n ∧ t.data n ≠ s.mesh.data n then some ((t.data n).map Data.value) else s.written n
  | .next e => if m.source e = n ∧ stamps (s.mesh.pc e) = true then none else s.written n
  | .deliver e =>
      if m.target e = n ∧ (s.mesh.flight e).head?.any (fun r => wins (s.mesh.register n) r.version) = true then none
      else s.written n
  | _ => s.written n

/- `frameKeys` on the source, and on the target one RESTORE of `restoreStream`. -/
def step (s : Loading E N C) : Move E N C → Option (Loading E N C)
  | .mesh a => (RedisMesh.step m s.mesh a).map fun t => { s with mesh := t, written := track m s a t }
  | .dump e nowMillis =>
      match s.mesh.data (m.source e) with
      | none => some s
      | some d =>
          let ttl := restoreTTL (pttl s.mesh.time (some d)) (m.absTTL e) nowMillis
          some { s with chunk := update s.chunk e (s.chunk e++[⟨d.value,ttl.1,ttl.2⟩]) }
  | .load e =>
      match s.chunk e with
      | [] => none
      | row::rest =>
          some { s with mesh := { s.mesh with data := update s.mesh.data (m.target e) (row.restore s.mesh.time) },
                        chunk := update s.chunk e rest }
  | .fail e => some { s with chunk := update s.chunk e [] }

def Loading.shows (s : Loading E N C) (n : N) : Option (Value C) := (s.mesh.data n).map Data.value

def Justified (s : Loading E N C) : Move E N C → Prop
  | .mesh (.next e) => stamps (s.mesh.pc e) = true → s.mesh.register (m.source e) ≠ none →
      match s.mesh.pc e with
      | .valued _ _ _ _ vh => ∃ x, s.written (m.source e) = some (some x) ∧ m.vhash x = vh
      | _ => s.written (m.source e) = some none
  | _ => True

def Kept (s : Loading E N C) : Move E N C → Prop
  | .load e => ∀ row ∈ (s.chunk e).head?, s.mesh.register (m.target e) ≠ none →
      (row.restore s.mesh.time).map Data.value = s.shows (m.target e)
  | .mesh (.next e) =>
      match s.mesh.pc e with
      | .valued _ stored _ _ vh => unchanged stored vh = none →
          s.mesh.register (m.source e) = stored ∧ (s.shows (m.source e)).map m.vhash = some vh
      | .absent _ (some v) _ => v.deleted = false →
          s.mesh.register (m.source e) = some v ∧ s.shows (m.source e) = none
      | _ => True
  | .mesh (.deliver e) => ∀ r ∈ (s.mesh.flight e).head?, wins (s.mesh.register (m.target e)) r.version = true →
      ∀ x ∈ r.body, m.vhash x = r.vhash ∧ (restore s.mesh.time r x).isSome = true
  | .mesh (.elapse t) => ∀ n, s.mesh.register n ≠ none → unexpired t (s.mesh.data n) = s.mesh.data n
  | _ => True

instance [Fintype N] (s : Loading E N C) : (a : Move E N C) → Decidable (Kept m s a)
  | .load e => inferInstanceAs (Decidable (∀ row ∈ (s.chunk e).head?, _))
  | .mesh (.next e) =>
      match here : s.mesh.pc e with
      | .valued _ stored _ _ vh => decidable_of_iff (unchanged stored vh = none →
          s.mesh.register (m.source e) = stored ∧ (s.shows (m.source e)).map m.vhash = some vh) (by simp only [Kept,here])
      | .absent _ (some v) _ => decidable_of_iff (v.deleted = false →
          s.mesh.register (m.source e) = some v ∧ s.shows (m.source e) = none) (by simp only [Kept,here])
      | .idle | .begun _ | .registered _ _ | .dumped _ _ _ | .timed _ _ _ _ | .typed _ _ _ _ _ | .absent _ none _ =>
          isTrue (by simp only [Kept,here])
  | .mesh (.deliver e) => inferInstanceAs (Decidable (∀ r ∈ (s.mesh.flight e).head?, _))
  | .mesh (.elapse t) => inferInstanceAs (Decidable (∀ n, s.mesh.register n ≠ none → unexpired t (s.mesh.data n) = s.mesh.data n))
  | .dump _ _ | .fail _ | .mesh (.client _ _) | .mesh (.start _ _) | .mesh (.abort _) | .mesh (.collect _ _)
  | .mesh (.collectNext _) => isTrue trivial

end Step

def Fits (m : Mesh E N C) (v : Meta N) (x : Option (Value C)) : Prop :=
  x.map m.vhash = if v.deleted then none else some v.vhash

def Tracked (m : Mesh E N C) (s : Loading E N C) (n : N) : Prop :=
  ∀ v, s.mesh.register n = some v →
    match s.written n with
    | some x => s.shows n = x
    | none => Fits m v (s.shows n)

variable {m : Mesh E N C} {s t : Loading E N C} {a : Move E N C} {n : N}

section Tracked
omit [DecidableEq E] [LinearOrder N] [DecidableEq C]

theorem trackedSame (held : Tracked m s n) (register : t.mesh.register n = s.mesh.register n) (shows : t.shows n = s.shows n)
    (written : t.written n = s.written n) : Tracked m t n := by
  intro v entry
  rw [written,shows]
  exact held v (register ▸ entry)

theorem trackedWritten {x} (written : t.written n = some x) (shows : t.shows n = x) : Tracked m t n := by
  intro v _
  rw [written]
  exact shows

theorem trackedStamped {v} (entry : t.mesh.register n = some v) (written : t.written n = none) (fits : Fits m v (t.shows n)) :
    Tracked m t n := by
  intro w other
  cases entry.symm.trans other
  rw [written]
  exact fits

theorem trackedNone (gone : t.mesh.register n = none) : Tracked m t n := by
  intro v entry
  cases gone.symm.trans entry

end Tracked

omit [DecidableEq C] in
theorem stampCases {u v : State E N C} {e : E} (command : Reread m u e v) :
    stamps (u.pc e) = false ∧ v.register = u.register ∨
    (∃ b stored dump ttl vh, u.pc e = .valued b stored dump ttl vh ∧ unchanged stored vh = none ∧
      v.register = update u.register (m.source e) (some ⟨tickVersion b.now stored (m.source e),false,vh⟩)) ∨
    ∃ b w missing, u.pc e = .absent b (some w) missing ∧ w.deleted = false ∧
      v.register = update u.register (m.source e) (some ⟨tickVersion b.now (some w) (m.source e),true,0⟩) := by
  cases command with
  | alive here moved => exact .inr (.inl ⟨_,_,_,_,_,here,moved,rfl⟩)
  | tombstone here live => exact .inr (.inr ⟨_,_,_,here,live,rfl⟩)
  | same here kept =>
    rw [here]
    exact .inl ⟨by simp only [stamps,kept,Option.isNone_some],rfl⟩
  | reframe here dead =>
    rw [here]
    exact .inl ⟨by simp only [stamps,dead,Bool.not_true],rfl⟩
  | register here | dumpNone here _ | dump here _ | pttlNone here _ | pttl here _ | typeNone here _ | unreadable here _ _
  | type here _ _ | valueNone here _ | value here _ | nothing here =>
    rw [here]
    exact .inl ⟨rfl,rfl⟩

section
variable (held : ∀ n, Tracked m s n)
include held

theorem stampTracked {u : State E N C} {e : E} (kept : Kept m s (.mesh (.next e))) (command : Reread m s.mesh e u) (n : N) :
    Tracked m { s with mesh := u, written := track m s (.next e) u } n := by
  have data := (rereadData command).1
  by_cases source : m.source e = n
  · subst source
    rcases stampCases command with ⟨no,register⟩ | ⟨b,stored,dump,ttl,vh,here,moved,register⟩ | ⟨b,w,missing,here,live,register⟩
    · refine trackedSame (held _) (congrFun register _) (congrArg (Option.map Data.value) (congrFun data _)) ?_
      simp only [track,no,Bool.false_eq_true,and_false,if_false]
    · simp only [Kept,here] at kept
      refine trackedStamped ((congrFun register _).trans (update_self ..)) ?_ ?_
      · simp only [track,here,stamps,moved,Option.isNone_none,and_self,if_true]
      · simp only [Fits,Loading.shows,data,Bool.false_eq_true,if_false]
        exact (kept moved).2
    · simp only [Kept,here] at kept
      refine trackedStamped ((congrFun register _).trans (update_self ..)) ?_ ?_
      · simp only [track,here,stamps,live,Bool.not_false,and_self,if_true]
      · have gone := (kept live).2
        simp only [Loading.shows] at gone
        simp only [Fits,Loading.shows,data,gone,Option.map_none,if_true]
  · have register : u.register n = s.mesh.register n := by
      rcases stampCases command with ⟨_,register⟩ | ⟨_,_,_,_,_,_,_,register⟩ | ⟨_,_,_,_,_,register⟩
      · exact congrFun register n
      · exact (congrFun register n).trans (update_of_ne (Ne.symm source) ..)
      · exact (congrFun register n).trans (update_of_ne (Ne.symm source) ..)
    refine trackedSame (held n) register (congrArg (Option.map Data.value) (congrFun data n)) ?_
    simp only [track,source,false_and,if_false]

omit held in
omit [DecidableEq E] [DecidableEq C] [LinearOrder N] in
theorem entryFits {r} {time} (whole : ∀ x ∈ r.body, m.vhash x = r.vhash ∧ (restore time r x).isSome = true) :
    Fits m r.entry ((r.body.bind (restore time r)).map Data.value) := by
  obtain ⟨version,vhash,body,ttl,absolute⟩ := r
  cases body with
  | none => rfl
  | some x =>
    obtain ⟨print,fresh⟩ := whole x rfl
    obtain ⟨d,restored⟩ := Option.isSome_iff_exists.mp fresh
    simp only [Option.bind_some,restored,Option.map_some,restoreValue restored]
    exact congrArg some print

theorem applyTracked {e} {r} {rest} (kept : Kept m s (.mesh (.deliver e))) (waiting : s.mesh.flight e = r::rest) (n) :
    Tracked m { s with mesh := meshApply { s.mesh with flight := update s.mesh.flight e rest } (m.target e) r,
                       written := track m s (.deliver e) (meshApply { s.mesh with flight := update s.mesh.flight e rest } (m.target e) r) } n := by
  simp only [Kept,waiting,head?_cons,Option.mem_some_iff,forall_eq'] at kept
  unfold meshApply
  by_cases target : m.target e = n
  · subst target
    cases won : wins (s.mesh.register (m.target e)) r.version with
    | false =>
      refine trackedSame (held _) ?_ ?_ ?_ <;>
        simp only [Loading.shows,track,waiting,head?_cons,Option.any_some,won,Bool.false_eq_true,and_false,if_false]
    | true =>
      refine trackedStamped (v := r.entry) ?_ ?_ ?_
      · simp only [if_true,update_self]
      · simp only [track,waiting,head?_cons,Option.any_some,won,and_self,if_true]
      · simp only [Loading.shows,if_true,update_self]
        exact entryFits (kept won)
  · refine trackedSame (held n) ?_ ?_ ?_
    · split
      · exact update_of_ne (Ne.symm target) ..
      · rfl
    · split
      · exact congrArg (Option.map Data.value) (update_of_ne (Ne.symm target) ..)
      · rfl
    · simp only [track,target,false_and,if_false]

omit [DecidableEq E] in
theorem clientTracked (q) (d) (n) :
    Tracked m { s with mesh := { s.mesh with data := update s.mesh.data q (unexpired s.mesh.time d) },
                       written := track m s (.client q d) { s.mesh with data := update s.mesh.data q (unexpired s.mesh.time d) } } n := by
  by_cases change : q = n ∧ update s.mesh.data q (unexpired s.mesh.time d) n ≠ s.mesh.data n
  · exact trackedWritten (if_pos change) rfl
  · refine trackedSame (held n) rfl (congrArg (Option.map Data.value) ?_) (if_neg change)
    by_cases same : q = n
    · exact not_not.mp fun apart => change ⟨same,apart⟩
    · exact update_of_ne (Ne.symm same) ..

theorem trackedStep (kept : Kept m s a) (ok : step m s a = some t) : ∀ n, Tracked m t n := by
  intro n
  cases a with
  | mesh a =>
    obtain ⟨u,went,rfl⟩ := Option.map_eq_some_iff.mp ok
    cases taken went with
    | client q d => exact clientTracked held q d n
    | elapse later =>
      cases entry : s.mesh.register n with
      | none => exact trackedNone entry
      | some v =>
        have same := kept n fun none => by cases entry.symm.trans none
        exact trackedSame (held n) rfl (congrArg (Option.map Data.value) same) rfl
    | start _ | abort _ | collect _ _ | gcRead _ | gcKeep _ => exact trackedSame (held n) rfl rfl rfl
    | @gcDelete e _ _ _ _ _ =>
      by_cases source : n = m.source e
      · subst source
        exact trackedNone (update_self ..)
      · exact trackedSame (held n) (update_of_ne source ..) rfl rfl
    | deliver waiting => exact applyTracked held kept waiting n
    | next command => exact stampTracked held kept command n
  | dump e nowMillis =>
    simp only [step] at ok
    split at ok <;> cases ok <;> exact trackedSame (held n) rfl rfl rfl
  | fail e =>
    cases ok
    exact trackedSame (held n) rfl rfl rfl
  | load e =>
    simp only [step] at ok
    split at ok <;> cases ok
    rename_i row rest waiting
    simp only [Kept,waiting,head?_cons,Option.mem_some_iff,forall_eq'] at kept
    by_cases target : n = m.target e
    · subst target
      cases entry : s.mesh.register (m.target e) with
      | none => exact trackedNone entry
      | some v =>
        refine trackedSame (held _) rfl ?_ rfl
        have same := kept fun none => by cases entry.symm.trans none
        simp only [Loading.shows,update_self]
        exact same
    · exact trackedSame (held n) rfl (congrArg (Option.map Data.value) (update_of_ne target ..)) rfl

omit [DecidableEq E] [DecidableEq C] in
theorem trackedJustifies (kept : Kept m s a) : Justified m s a := by
  cases a with
  | mesh a =>
    cases a with
    | next e =>
      intro moved registered
      obtain ⟨v,entry⟩ := Option.ne_none_iff_exists'.mp registered
      have tracked := held (m.source e) v entry
      simp only [Kept] at kept
      cases here : s.mesh.pc e with
      | valued b stored dump ttl vh =>
        rw [here] at kept moved
        have moved : unchanged stored vh = none := Option.isNone_iff_eq_none.mp moved
        obtain ⟨same,print⟩ := kept moved
        cases entry.symm.trans same
        cases wrote : s.written (m.source e) with
        | some x =>
          rw [wrote] at tracked
          rw [← (tracked : s.shows (m.source e) = x)]
          obtain ⟨y,shown,vhash⟩ := Option.map_eq_some_iff.mp print
          exact ⟨y,congrArg some shown,vhash⟩
        | none =>
          rw [wrote] at tracked
          have fits : some vh = if v.deleted then none else some v.vhash := print.symm.trans tracked
          cases dead : v.deleted with
          | true => simp [dead] at fits
          | false => simp_all [unchanged]
      | absent b stored missing =>
        cases stored with
        | none =>
          rw [here] at moved
          cases moved
        | some w =>
          rw [here] at kept moved
          have live : w.deleted = false := by simpa [stamps] using moved
          obtain ⟨same,gone⟩ := kept live
          cases entry.symm.trans same
          cases wrote : s.written (m.source e) with
          | some x =>
            rw [wrote] at tracked
            exact congrArg some ((tracked : s.shows (m.source e) = x).symm.trans gone)
          | none =>
            rw [wrote] at tracked
            have fits : (s.shows (m.source e)).map m.vhash = if v.deleted then none else some v.vhash := tracked
            rw [gone,live] at fits
            cases fits
      | idle | begun _ | registered _ _ | dumped _ _ _ | timed _ _ _ _ | typed _ _ _ _ _ =>
        rw [here] at moved
        cases moved
    | _ => trivial
  | _ => trivial

end

def fresh (time : Int) (data : N → Option (Data C)) : Loading E N C := ⟨RedisMesh.fresh time data,fun _ => [],fun _ => none⟩

theorem stampsFollowClients (m : Mesh E N C) (time : Int) (data : N → Option (Data C)) {acts : List (Move E N C)}
    (kept : Along (step m) (Kept m) (fresh time data) acts) : Along (step m) (Justified m) (fresh time data) acts := by
  refine alongUnder (P := fun s => ∀ n, Tracked m s n) ?_ ?_ kept ?_
  · exact fun s a t held kept ok => trackedStep held kept ok
  · exact fun s a held kept => trackedJustifies held kept
  · exact fun n => trackedNone rfl

def passing (e : Bool) (now : Int) : List (Move Bool Bool Nat) := (reading e now).map .mesh

theorem stampsFollowClientsCopied : Along (step pair) (Justified pair) (fresh 0 fun _ => text 1)
    ([.mesh (.client true (text 2))]++passing true 5++[.mesh (.next true),.mesh (.deliver true),.dump false 0,.load false,
      .mesh (.client true (text 3))]++passing true 6++[.mesh (.next true)]) :=
  stampsFollowClients pair 0 (fun _ => text 1) (by decide +kernel)

theorem staleLoadStamped : ∃ t u : Loading Bool Bool Nat, run (step pair) (fresh 0 fun _ => text 1)
      ([.dump false 0,.mesh (.client true (text 2))]++passing true 5++[.mesh (.next true),.load false]++passing true 6) = some t ∧
    t.mesh.register true = some ⟨⟨5,0,true⟩,false,2⟩ ∧ t.written true = none ∧
    step pair t (.mesh (.next true)) = some u ∧
    u.mesh.register true = some ⟨⟨6,0,true⟩,false,1⟩ ∧ ¬Justified pair t (.mesh (.next true)) := by
  refine ⟨_,_,rfl,by decide +kernel,by decide +kernel,rfl,by decide +kernel,?_⟩
  intro justified
  obtain ⟨x,written,_⟩ := justified (by decide +kernel) (by decide +kernel)
  cases written

def dumped : Pc N C → Option (Value C)
  | .dumped _ _ d | .timed _ _ d _ | .typed _ _ d _ _ | .valued _ _ d _ _ => some d
  | _ => none

/- Every value anywhere is one of `S`. -/
structure Sourced (S : Set (Value C)) (s : Loading E N C) : Prop where
  known : Known (fun _ => True) (fun r => ∀ x ∈ r.body, x ∈ S) s.mesh
  data : ∀ n, ∀ d ∈ s.mesh.data n, d.value ∈ S
  read : ∀ e, ∀ x ∈ dumped (s.mesh.pc e), x ∈ S
  chunk : ∀ e, ∀ row ∈ s.chunk e, row.value ∈ S

/- What clients write is in `S`. -/
def Writes (S : Set (Value C)) (_ : Loading E N C) : Move E N C → Prop
  | .mesh (.client _ d) => ∀ x ∈ d, x.value ∈ S
  | _ => True

section Sourced
variable {S : Set (Value C)} {e : E}

omit [DecidableEq C] in
theorem putData {f : N → Option (Data C)} {q : N} {x : Option (Data C)} (data : ∀ n, ∀ d ∈ f n, d.value ∈ S)
    (put : ∀ d ∈ x, d.value ∈ S) : ∀ n, ∀ d ∈ update f q x n, d.value ∈ S := by
  intro n d mem
  rw [update_apply] at mem
  split at mem
  · exact put d mem
  · exact data n d mem

omit [DecidableEq C] in
theorem rereadDumped {u v : State E N C} (command : Reread m u e v) {q x} (mem : x ∈ dumped (v.pc q)) :
    x ∈ dumped (u.pc q) ∨ ∃ d, u.data (m.source e) = some d ∧ d.value = x := by
  by_cases other : q = e
  · subst other
    cases command with
    | dump here found =>
      simp only [State.goto,update_self,dumped,Option.mem_some_iff] at mem
      exact .inr ⟨_,found,mem⟩
    | pttl here _ | type here _ _ | value here _ =>
      simp only [State.goto,update_self,dumped,Option.mem_some_iff] at mem
      rw [here]
      exact .inl (congrArg some mem)
    | _ =>
      simp only [State.goto,State.stamp,State.frame,update_self,dumped,Option.not_mem_none] at mem
  · exact .inl (rereadPc command other ▸ mem)

omit [DecidableEq C] in
theorem meshSourced {u : State E N C} {a : Action E N C} (sourced : Sourced S s) (writes : Writes S s (.mesh a))
    (ok : RedisMesh.step m s.mesh a = some u) (written) : Sourced S { s with mesh := u, written := written } := by
  have known := knownStep (fun _ _ => trivial) sourced.known ok (fun r frames => by
    intro x body
    cases frames with
    | alive here _ | same here _ =>
      cases body
      exact sourced.read _ _ (by rw [here]; rfl)
    | reframe _ _ | tombstone _ _ => cases body)
  refine ⟨known,?_,?_,sourced.chunk⟩
  · cases taken ok with
    | client q d => exact putData sourced.data fun x mem => writes x (unexpiredSome mem)
    | elapse _ => exact fun n d mem => sourced.data n d (unexpiredSome mem)
    | @deliver e r rest waiting =>
      unfold meshApply
      split
      · refine putData sourced.data fun d mem => ?_
        obtain ⟨x,body,restored⟩ := Option.bind_eq_some_iff.mp mem
        rw [restoreValue restored]
        exact sourced.known.framed r (sourced.known.flight e r (waiting ▸ mem_cons_self)) x body
      · exact sourced.data
    | next command =>
      rw [(rereadData command).1]
      exact sourced.data
    | _ => exact sourced.data
  · intro q x mem
    by_cases mover : a.mover = some q
    · cases taken ok with
      | next command =>
        rcases rereadDumped command mem with before | ⟨d,found,rfl⟩
        · exact sourced.read q x before
        · exact sourced.data _ d found
      | start _ | abort _ =>
        cases mover
        simp only [State.goto,update_self,dumped,Option.not_mem_none] at mem
      | _ => cases mover
    · exact sourced.read q x (pcFrame ok mover ▸ mem)

theorem sourcedStep (sourced : Sourced S s) (writes : Writes S s a) (ok : step m s a = some t) : Sourced S t := by
  obtain ⟨known,data,read,chunk⟩ := sourced
  cases a with
  | mesh a =>
    obtain ⟨u,went,rfl⟩ := Option.map_eq_some_iff.mp ok
    exact meshSourced ⟨known,data,read,chunk⟩ writes went _
  | dump e nowMillis =>
    simp only [step] at ok
    split at ok <;> cases ok
    · exact ⟨known,data,read,chunk⟩
    · rename_i d found
      refine ⟨known,data,read,fun q row mem => ?_⟩
      rcases pushMem mem with old | rfl
      · exact chunk q row old
      · exact data _ d found
  | load e =>
    simp only [step] at ok
    split at ok <;> cases ok
    rename_i row rest waiting
    refine ⟨⟨known.register,known.stored,known.framed,known.flight⟩,putData data fun d mem => ?_,read,fun q row mem => ?_⟩
    · cases unexpiredSome mem
      exact chunk e row (waiting ▸ mem_cons_self)
    · exact chunk q row (popMem waiting mem)
  | fail e =>
    cases ok
    exact ⟨known,data,read,fun q row mem => chunk q row (shrinkMem (nil_subset _) mem)⟩

theorem valuesFromClients (m : Mesh E N C) {time : Int} {data : N → Option (Data C)} {acts : List (Move E N C)}
    (initial : ∀ n, ∀ d ∈ data n, d.value ∈ S) (writes : Along (step m) (Writes S) (fresh time data) acts)
    {t : Loading E N C} (ran : run (step m) (fresh time data) acts = some t) : Sourced S t := by
  refine runKeeps (fun s a t sourced writes ok => sourcedStep sourced writes ok) writes ran ?_
  exact ⟨freshKnown time data,initial,(fun _ _ mem => by cases mem),(fun _ _ mem => by cases mem)⟩

end Sourced

theorem valuesFromClientsStale : ∃ t : Loading Bool Bool Nat, run (step pair) (fresh 0 fun _ => text 1)
      ([.dump false 0,.mesh (.client true (text 2))]++passing true 5++[.mesh (.next true),.load false]) = some t ∧
    Sourced (fun v => v.content ≤ 2) t := by
  refine ⟨_,rfl,@valuesFromClients Bool Bool Nat _ _ _ (fun v => v.content ≤ 2) pair 0 (fun _ => text 1)
    ([.dump false 0,.mesh (.client true (text 2))]++passing true 5++[.mesh (.next true),.load false]) ?_ ?_ _ rfl⟩
  · intro n d mem
    cases mem
    exact Nat.le_succ 1
  · refine alongOfAll fun a mem s => ?_
    simp only [passing,reading,List.replicate,map_cons,map_nil,cons_append,nil_append,mem_cons,
      not_mem_nil,or_false] at mem
    rcases mem with rfl | rfl | rfl | rfl | rfl | rfl | rfl | rfl | rfl | rfl <;> first | trivial | skip
    intro x here
    cases here
    exact Nat.le_refl 2

end Replicare.RedisLoad
