import Replicare.HlcEngines

/-! One key in a Redis mesh: its value and its metadata entry on every node, and the commands
the edges run on it. -/
namespace Replicare.RedisMesh
open Hlc HlcEngines Runs List Function

/- The answers of TYPE for a key that is there. -/
inductive Kind where
  | string
  | list
  | set
  | zset
  | hash
  | stream
  | moduleType
  deriving DecidableEq, Repr

structure Value (C : Type*) where
  kind : Kind
  content : C
  deriving DecidableEq, Repr

structure Data (C : Type*) where
  value : Value C
  expiry : Option Int
  deriving DecidableEq, Repr

/- The hash of a metadata key; `vhash` is 0 for a tombstone. -/
structure Meta (N : Type*) where
  version : Version N
  deleted : Bool
  vhash : Nat
  deriving DecidableEq, Repr

structure Record (N C : Type*) where
  version : Version N
  vhash : Nat
  body : Option (Value C)
  ttl : Int
  absolute : Bool
  deriving DecidableEq, Repr

/- The clocks read before the first key: the daemon's, and the server's for ABSTTL. -/
structure Base where
  now : Int
  nowMillis : Int
  deriving DecidableEq, Repr

/- What a re-read has seen of the key. `missing` tells whether a command found no key;
the handling of an absent key does not look at it. -/
inductive Pc (N C : Type*) where
  | idle
  | begun (b : Base)
  | registered (b : Base) (stored : Option (Meta N))
  | dumped (b : Base) (stored : Option (Meta N)) (dump : Value C)
  | timed (b : Base) (stored : Option (Meta N)) (dump : Value C) (ttl : Int × Bool)
  | typed (b : Base) (stored : Option (Meta N)) (dump : Value C) (ttl : Int × Bool) (kind : Kind)
  | valued (b : Base) (stored : Option (Meta N)) (dump : Value C) (ttl : Int × Bool) (vh : Nat)
  | absent (b : Base) (stored : Option (Meta N)) (missing : Bool)
  deriving DecidableEq, Repr

inductive Gc (N : Type*) where
  | idle
  | begun (cutoff : Int)
  | read (cutoff : Int) (stored : Option (Meta N))
  deriving DecidableEq, Repr

/- `framed` collects every record written to a pipe; no step reads it. -/
structure State (E N C : Type*) where
  time : Int
  data : N → Option (Data C)
  register : N → Option (Meta N)
  pc : E → Pc N C
  gc : E → Gc N
  flight : E → List (Record N C)
  framed : List (Record N C)

structure Mesh (E N C : Type*) where
  source : E → N
  target : E → N
  absTTL : E → Bool
  empty : C
  vhash : Value C → Nat

inductive Action (E N C : Type*) where
  | client (n : N) (d : Option (Data C))
  | elapse (t : Int)
  | start (e : E) (now : Int)
  | next (e : E)
  | deliver (e : E)
  | abort (e : E)
  | collect (e : E) (cutoff : Int)
  | collectNext (e : E)

variable {E N C : Type*} [DecidableEq E] [LinearOrder N]

section Queues
variable {α : Type*} {f : E → List α} {e q : E} {x y : α}

theorem pushMem (mem : x ∈ update f e (f e++[y]) q) : x ∈ f q ∨ x = y := by
  by_cases same : q = e
  · subst same
    rw [update_self] at mem
    exact (mem_append.mp mem).imp_right mem_singleton.mp
  · rw [update_of_ne same] at mem
    exact .inl mem

theorem shrinkMem {rest} (inside : rest ⊆ f e) (mem : x ∈ update f e rest q) : x ∈ f q := by
  by_cases same : q = e
  · subst same
    rw [update_self] at mem
    exact inside mem
  · rwa [update_of_ne same] at mem

theorem popMem {rest} (waiting : f e = y::rest) (mem : x ∈ update f e rest q) : x ∈ f q :=
  shrinkMem (waiting ▸ subset_cons_self y rest) mem

end Queues

def unexpired (time : Int) (d : Option (Data C)) : Option (Data C) :=
  d.filter fun d => d.expiry.all fun at_ => decide (time < at_)

/- The answer of PTTL in milliseconds. -/
def pttl (time : Int) : Option (Data C) → Int
  | none => -2
  | some d => d.expiry.elim (-1) fun at_ => max 0 (at_-time)

def restoreTTL (pttl : Int) (absTTL : Bool) (nowMillis : Int) : Int × Bool :=
  if pttl = -1 ∨ pttl < 0 then (0,false)
  else
    let ms := if pttl ≤ 0 then 1 else pttl
    if absTTL then (nowMillis+ms,true) else (ms,false)

def canonicalValue (empty : C) (kind : Kind) : Option (Data C) → Option (Value C)
  | none => if kind = .string then none else some ⟨kind,empty⟩
  | some d => if d.value.kind = kind then some d.value else none

def unchanged (stored : Option (Meta N)) (vh : Nat) : Option (Meta N) :=
  stored.filter fun v => !(v.deleted || decide (v.vhash ≠ vh))

/- `hlcTick` off the stored version, which is zero without an entry. -/
def tickVersion (now : Int) (stored : Option (Meta N)) (node : N) : Version N :=
  let c := Redis.hlcTick (stored.elim ⟨0,0⟩ fun v => v.version.stamp) now
  ⟨c.physical,c.logical,node⟩

def wins (entry : Option (Meta N)) (v : Version N) : Bool :=
  entry.elim true fun e => decide (e.version < v)

/- RESTORE REPLACE; an absolute expiry that has passed leaves no key. -/
def restore (time : Int) (r : Record N C) (v : Value C) : Option (Data C) :=
  unexpired time (some ⟨v,if r.ttl = 0 then none else if r.absolute then some r.ttl else some (time+r.ttl)⟩)

theorem unexpiredSome {time : Int} {x : Option (Data C)} {d : Data C} (left : unexpired time x = some d) : x = some d :=
  (Option.filter_eq_some_iff.mp left).1

omit [LinearOrder N] in
theorem restoreValue {time : Int} {r : Record N C} {v : Value C} {d : Data C} (restored : restore time r v = some d) :
    d.value = v := by
  cases unexpiredSome restored
  rfl

def Record.entry (r : Record N C) : Meta N := ⟨r.version,r.body.isNone,if r.body.isNone then 0 else r.vhash⟩

namespace State

def goto (s : State E N C) (e : E) (pc : Pc N C) : State E N C := { s with pc := update s.pc e pc }

def frame (s : State E N C) (e : E) (r : Record N C) : State E N C :=
  { s with pc := update s.pc e .idle,
           flight := update s.flight e (s.flight e++[r]),
           framed := s.framed++[r] }

/- HSET of the whole entry, then the record. -/
def stamp (s : State E N C) (n : N) (e : E) (r : Record N C) : State E N C :=
  { s.frame e r with register := update s.register n (some r.entry) }

theorem stampAt (s : State E N C) (n : N) (e : E) (r : Record N C) : (s.stamp n e r).register n = some r.entry :=
  update_self ..

end State

section Step
variable (m : Mesh E N C)

def rereadNext (s : State E N C) (e : E) : Option (State E N C) :=
  let n := m.source e
  match s.pc e with
  | .idle => none
  | .begun b => some (s.goto e (.registered b (s.register n)))
  | .registered b stored =>
      match s.data n with
      | none => some (s.goto e (.absent b stored true))
      | some d => some (s.goto e (.dumped b stored d.value))
  | .dumped b stored dump =>
      if pttl s.time (s.data n) = -2 then some (s.goto e (.absent b stored true))
      else some (s.goto e (.timed b stored dump (restoreTTL (pttl s.time (s.data n)) (m.absTTL e) b.nowMillis)))
  | .timed b stored dump ttl =>
      match s.data n with
      | none => some (s.goto e (.absent b stored true))
      | some d =>
          if d.value.kind = .moduleType then some (s.goto e (.absent b stored false))
          else some (s.goto e (.typed b stored dump ttl d.value.kind))
  | .typed b stored dump ttl kind =>
      match canonicalValue m.empty kind (s.data n) with
      | none => some (s.goto e (.absent b stored (s.data n).isNone))
      | some v => some (s.goto e (.valued b stored dump ttl (m.vhash v)))
  | .valued b stored dump ttl vh =>
      match unchanged stored vh with
      | none => some (s.stamp n e ⟨tickVersion b.now stored n,vh,some dump,ttl.1,ttl.2⟩)
      | some v => some (s.frame e ⟨v.version,v.vhash,some dump,ttl.1,ttl.2⟩)
  | .absent b stored _ =>
      match stored with
      | none => some (s.goto e .idle)
      | some v =>
          if v.deleted then some (s.frame e ⟨v.version,v.vhash,none,0,false⟩)
          else some (s.stamp n e ⟨tickVersion b.now stored n,0,none,0,false⟩)

def meshApply (s : State E N C) (n : N) (r : Record N C) : State E N C :=
  if wins (s.register n) r.version then
    { s with data := update s.data n (r.body.bind (restore s.time r)),
             register := update s.register n (some r.entry) }
  else s

def collectNext (s : State E N C) (e : E) : Option (State E N C) :=
  match s.gc e with
  | .idle => none
  | .begun cutoff => some { s with gc := update s.gc e (.read cutoff (s.register (m.source e))) }
  | .read cutoff stored =>
      if stored.any fun v => v.deleted && decide (v.version.phys < cutoff) then
        some { s with gc := update s.gc e .idle,
                      register := update s.register (m.source e) none }
      else some { s with gc := update s.gc e .idle }

def step (s : State E N C) : Action E N C → Option (State E N C)
  | .client n d => some { s with data := update s.data n (unexpired s.time d) }
  | .elapse t => if s.time ≤ t then some { s with time := t, data := fun n => unexpired t (s.data n) } else none
  | .start e now => if s.pc e matches .idle then some (s.goto e (.begun ⟨now,s.time⟩)) else none
  | .next e => rereadNext m s e
  | .deliver e =>
      match s.flight e with
      | [] => none
      | r::rest => some (meshApply { s with flight := update s.flight e rest } (m.target e) r)
  | .abort e => some { s with pc := update s.pc e .idle, flight := update s.flight e [] }
  | .collect e cutoff => some { s with gc := update s.gc e (.begun cutoff) }
  | .collectNext e => collectNext m s e

end Step

section Inversion
variable {m : Mesh E N C} {s t : State E N C} {e : E}

/- The commands of a re-read, one by one. -/
inductive Reread (m : Mesh E N C) (s : State E N C) (e : E) : State E N C → Prop where
  | register {b} (here : s.pc e = .begun b) : Reread m s e (s.goto e (.registered b (s.register (m.source e))))
  | dumpNone {b stored} (here : s.pc e = .registered b stored) (gone : s.data (m.source e) = none) :
      Reread m s e (s.goto e (.absent b stored true))
  | dump {b stored d} (here : s.pc e = .registered b stored) (found : s.data (m.source e) = some d) :
      Reread m s e (s.goto e (.dumped b stored d.value))
  | pttlNone {b stored dump} (here : s.pc e = .dumped b stored dump) (gone : s.data (m.source e) = none) :
      Reread m s e (s.goto e (.absent b stored true))
  | pttl {b stored dump d} (here : s.pc e = .dumped b stored dump) (found : s.data (m.source e) = some d) :
      Reread m s e (s.goto e (.timed b stored dump (restoreTTL (RedisMesh.pttl s.time (some d)) (m.absTTL e) b.nowMillis)))
  | typeNone {b stored dump ttl} (here : s.pc e = .timed b stored dump ttl) (gone : s.data (m.source e) = none) :
      Reread m s e (s.goto e (.absent b stored true))
  | unreadable {b stored dump ttl d} (here : s.pc e = .timed b stored dump ttl) (found : s.data (m.source e) = some d)
      (kind : d.value.kind = .moduleType) : Reread m s e (s.goto e (.absent b stored false))
  | type {b stored dump ttl d} (here : s.pc e = .timed b stored dump ttl) (found : s.data (m.source e) = some d)
      (kind : d.value.kind ≠ .moduleType) : Reread m s e (s.goto e (.typed b stored dump ttl d.value.kind))
  | valueNone {b stored dump ttl kind} (here : s.pc e = .typed b stored dump ttl kind)
      (failed : canonicalValue m.empty kind (s.data (m.source e)) = none) :
      Reread m s e (s.goto e (.absent b stored (s.data (m.source e)).isNone))
  | value {b stored dump ttl kind v} (here : s.pc e = .typed b stored dump ttl kind)
      (answered : canonicalValue m.empty kind (s.data (m.source e)) = some v) :
      Reread m s e (s.goto e (.valued b stored dump ttl (m.vhash v)))
  | alive {b stored dump ttl vh} (here : s.pc e = .valued b stored dump ttl vh) (moved : unchanged stored vh = none) :
      Reread m s e (s.stamp (m.source e) e ⟨tickVersion b.now stored (m.source e),vh,some dump,ttl.1,ttl.2⟩)
  | same {b stored dump ttl vh v} (here : s.pc e = .valued b stored dump ttl vh) (kept : unchanged stored vh = some v) :
      Reread m s e (s.frame e ⟨v.version,v.vhash,some dump,ttl.1,ttl.2⟩)
  | nothing {b missing} (here : s.pc e = .absent b none missing) : Reread m s e (s.goto e .idle)
  | reframe {b v missing} (here : s.pc e = .absent b (some v) missing) (dead : v.deleted = true) :
      Reread m s e (s.frame e ⟨v.version,v.vhash,none,0,false⟩)
  | tombstone {b v missing} (here : s.pc e = .absent b (some v) missing) (live : v.deleted = false) :
      Reread m s e (s.stamp (m.source e) e ⟨tickVersion b.now (some v) (m.source e),0,none,0,false⟩)

theorem pttlAbsent {time : Int} {d : Option (Data C)} : pttl time d = -2 ↔ d = none := by
  cases d with
  | none => simp [pttl]
  | some d =>
    cases expiry : d.expiry with
    | none => simp [pttl,expiry]
    | some at_ =>
      have := Int.le_max_left 0 (at_-time)
      simp only [pttl,expiry,Option.elim_some,reduceCtorEq,iff_false]
      omega

theorem reread (ok : rereadNext m s e = some t) : Reread m s e t := by
  unfold rereadNext at ok
  dsimp only at ok
  split at ok
  · cases ok
  · cases ok
    exact .register (by assumption)
  · split at ok <;> cases ok
    · exact .dumpNone (by assumption) (by assumption)
    · exact .dump (by assumption) (by assumption)
  · split at ok <;> cases ok <;> rename_i here answer
    · exact .pttlNone here (pttlAbsent.mp answer)
    · obtain ⟨d,found⟩ := Option.ne_none_iff_exists'.mp fun gone => answer (pttlAbsent.mpr gone)
      rw [found]
      exact .pttl here found
  · split at ok
    · cases ok
      exact .typeNone (by assumption) (by assumption)
    · split at ok <;> cases ok
      · exact .unreadable (by assumption) (by assumption) (by assumption)
      · exact .type (by assumption) (by assumption) (by assumption)
  · split at ok <;> cases ok
    · exact .valueNone (by assumption) (by assumption)
    · exact .value (by assumption) (by assumption)
  · split at ok <;> cases ok
    · exact .alive (by assumption) (by assumption)
    · exact .same (by assumption) (by assumption)
  · split at ok
    · cases ok
      exact .nothing (by assumption)
    · split at ok <;> cases ok
      · exact .reframe (by assumption) (by assumption)
      · exact .tombstone (by assumption) (Bool.eq_false_of_not_eq_true (by assumption))

inductive Taken (m : Mesh E N C) (s : State E N C) : Action E N C → State E N C → Prop where
  | client (n : N) (d : Option (Data C)) : Taken m s (.client n d) { s with data := update s.data n (unexpired s.time d) }
  | elapse {until_ : Int} (later : s.time ≤ until_) :
      Taken m s (.elapse until_) { s with time := until_, data := fun n => unexpired until_ (s.data n) }
  | start {e : E} {now : Int} (here : s.pc e = .idle) : Taken m s (.start e now) (s.goto e (.begun ⟨now,s.time⟩))
  | next {e : E} {t : State E N C} (command : Reread m s e t) : Taken m s (.next e) t
  | deliver {e : E} {r : Record N C} {rest : List (Record N C)} (waiting : s.flight e = r::rest) :
      Taken m s (.deliver e) (meshApply { s with flight := update s.flight e rest } (m.target e) r)
  | abort (e : E) : Taken m s (.abort e)
      { s with pc := update s.pc e .idle, flight := update s.flight e [] }
  | collect (e : E) (cutoff : Int) : Taken m s (.collect e cutoff) { s with gc := update s.gc e (.begun cutoff) }
  | gcRead {e : E} {cutoff : Int} (here : s.gc e = .begun cutoff) : Taken m s (.collectNext e)
      { s with gc := update s.gc e (.read cutoff (s.register (m.source e))) }
  | gcDelete {e : E} {cutoff : Int} {v : Meta N} (here : s.gc e = .read cutoff (some v)) (dead : v.deleted = true)
      (old : v.version.phys < cutoff) : Taken m s (.collectNext e)
      { s with gc := update s.gc e .idle, register := update s.register (m.source e) none }
  | gcKeep {e : E} {cutoff : Int} {stored : Option (Meta N)} (here : s.gc e = .read cutoff stored) : Taken m s (.collectNext e)
      { s with gc := update s.gc e .idle }

theorem taken {a} (ok : step m s a = some t) : Taken m s a t := by
  cases a with
  | client n d =>
    cases ok
    exact .client n d
  | elapse t =>
    simp only [step] at ok
    split at ok <;> cases ok
    exact .elapse (by assumption)
  | start e now =>
    simp only [step] at ok
    split at ok <;> cases ok
    rename_i idle
    refine .start ?_
    cases here : s.pc e with
    | idle => rfl
    | _ =>
      rw [here] at idle
      cases idle
  | next e => exact .next (reread ok)
  | deliver e =>
    simp only [step] at ok
    split at ok <;> cases ok
    exact .deliver (by assumption)
  | abort e =>
    cases ok
    exact .abort e
  | collect e cutoff =>
    cases ok
    exact .collect e cutoff
  | collectNext e =>
    simp only [step,collectNext] at ok
    split at ok
    · cases ok
    · cases ok
      exact .gcRead (by assumption)
    · rename_i cutoff stored here
      split at ok <;> cases ok
      · rename_i test
        cases stored with
        | none => cases test
        | some v =>
          have both : v.deleted = true ∧ v.version.phys < cutoff := by simpa using test
          exact .gcDelete here both.1 both.2
      · exact .gcKeep here

end Inversion

section Provenance
variable {m : Mesh E N C} {s t : State E N C} {a : Action E N C} {r : Record N C}

def Pc.stored : Pc N C → Option (Meta N)
  | .idle | .begun _ => none
  | .registered _ stored | .dumped _ stored _ | .timed _ stored _ _ | .typed _ stored _ _ _
  | .valued _ stored _ _ _ | .absent _ stored _ => stored

def Action.mover : Action E N C → Option E
  | .start e _ | .next e | .abort e => some e
  | _ => none

/- The records an action writes to a pipe. -/
inductive Frames (m : Mesh E N C) (s : State E N C) : Action E N C → Record N C → Prop where
  | alive {e : E} {b stored dump ttl vh} (here : s.pc e = .valued b stored dump ttl vh)
      (moved : unchanged stored vh = none) :
      Frames m s (.next e) ⟨tickVersion b.now stored (m.source e),vh,some dump,ttl.1,ttl.2⟩
  | same {e : E} {b stored dump ttl vh v} (here : s.pc e = .valued b stored dump ttl vh)
      (kept : unchanged stored vh = some v) : Frames m s (.next e) ⟨v.version,v.vhash,some dump,ttl.1,ttl.2⟩
  | reframe {e : E} {b v missing} (here : s.pc e = .absent b (some v) missing) (dead : v.deleted = true) :
      Frames m s (.next e) ⟨v.version,v.vhash,none,0,false⟩
  | tombstone {e : E} {b v missing} (here : s.pc e = .absent b (some v) missing) (live : v.deleted = false) :
      Frames m s (.next e) ⟨tickVersion b.now (some v) (m.source e),0,none,0,false⟩

omit [DecidableEq E] in
theorem applyPc (s : State E N C) (n r) : (meshApply s n r).pc = s.pc := by
  unfold meshApply
  split <;> rfl

omit [DecidableEq E] in
theorem applyFlight (s : State E N C) (n r) : (meshApply s n r).flight = s.flight := by
  unfold meshApply
  split <;> rfl

omit [DecidableEq E] in
theorem applyFramed (s : State E N C) (n r) : (meshApply s n r).framed = s.framed := by
  unfold meshApply
  split <;> rfl

theorem rereadData {e : E} (command : Reread m s e t) : t.data = s.data ∧ t.time = s.time := by
  cases command <;> exact ⟨rfl,rfl⟩

theorem rereadPc {e q : E} (command : Reread m s e t) (other : q ≠ e) : t.pc q = s.pc q := by
  cases command <;> exact update_of_ne other ..

section
variable (ok : step m s a = some t)
include ok

theorem pcFrame {q : E} (other : a.mover ≠ some q) : t.pc q = s.pc q := by
  have apart : ∀ e : E, some e ≠ some q → q ≠ e := fun e moved same => moved (congrArg some same.symm)
  cases taken ok with
  | start _ | abort _ => exact update_of_ne (apart _ other) ..
  | deliver _ => exact congrFun (applyPc _ _ _) q
  | next command => exact rereadPc command (apart _ other)
  | _ => rfl

theorem framedSource (mem : r ∈ t.framed) : r ∈ s.framed ∨ Frames m s a r := by
  have joins : ∀ q : Record N C, r ∈ s.framed++[q] → Frames m s a q → r ∈ s.framed ∨ Frames m s a r := by
    intro q mem frames
    rcases mem_append.mp mem with old | new
    · exact .inl old
    · cases mem_singleton.mp new
      exact .inr frames
  cases taken ok with
  | deliver _ =>
    rw [applyFramed] at mem
    exact .inl mem
  | next command =>
    cases command with
    | alive here moved => exact joins _ mem (.alive here moved)
    | same here kept => exact joins _ mem (.same here kept)
    | reframe here dead => exact joins _ mem (.reframe here dead)
    | tombstone here live => exact joins _ mem (.tombstone here live)
    | _ => exact .inl mem
  | _ => exact .inl mem

theorem framedGrows (mem : r ∈ s.framed) : r ∈ t.framed := by
  cases taken ok with
  | deliver _ =>
    rw [applyFramed]
    exact mem
  | next command => cases command <;> first | exact mem | exact mem_append_left _ mem
  | _ => exact mem

theorem framesMem (frames : Frames m s a r) : r ∈ t.framed := by
  have last : ∀ q : Record N C, q ∈ s.framed++[q] := fun q => mem_append_right _ (mem_singleton_self q)
  cases frames with
  | alive here moved =>
    simp only [step,rereadNext,here,moved] at ok
    cases ok
    exact last _
  | same here kept =>
    simp only [step,rereadNext,here,kept] at ok
    cases ok
    exact last _
  | reframe here dead =>
    simp only [step,rereadNext,here,dead,if_true] at ok
    cases ok
    exact last _
  | tombstone here live =>
    simp only [step,rereadNext,here,live,Bool.false_eq_true,if_false] at ok
    cases ok
    exact last _

end

omit [DecidableEq E] [LinearOrder N] in
theorem framesOne {q : Record N C} (one : Frames m s a r) (two : Frames m s a q) : r = q := by
  cases one with
  | alive here moved =>
    cases two with
    | alive there _ =>
      cases here.symm.trans there
      rfl
    | same there kept =>
      cases here.symm.trans there
      cases moved.symm.trans kept
    | reframe there _ | tombstone there _ => cases here.symm.trans there
  | same here kept =>
    cases two with
    | alive there moved =>
      cases here.symm.trans there
      cases moved.symm.trans kept
    | same there also =>
      cases here.symm.trans there
      cases kept.symm.trans also
      rfl
    | reframe there _ | tombstone there _ => cases here.symm.trans there
  | reframe here dead =>
    cases two with
    | alive there _ | same there _ => cases here.symm.trans there
    | reframe there _ =>
      cases here.symm.trans there
      rfl
    | tombstone there live =>
      cases here.symm.trans there
      cases dead.symm.trans live
  | tombstone here live =>
    cases two with
    | alive there _ | same there _ => cases here.symm.trans there
    | reframe there dead =>
      cases here.symm.trans there
      cases dead.symm.trans live
    | tombstone there _ =>
      cases here.symm.trans there
      rfl

theorem storedSource {e v} (ok : step m s a = some t) (stored : (t.pc e).stored = some v) :
    (s.pc e).stored = some v ∨ s.register (m.source e) = some v := by
  by_cases moved : a.mover = some e
  · have reached : ∀ pc : Pc N C, (update s.pc e pc e).stored = some v → pc.stored = some v := by
      intro pc held
      rwa [update_self] at held
    cases taken ok with
    | start _ | abort _ =>
      cases moved
      cases reached _ stored
    | next command =>
      cases moved
      cases command with
      | register _ => exact .inr (reached _ stored)
      | dumpNone here _ | dump here _ | pttlNone here _ | pttl here _ | typeNone here _ | unreadable here _ _
      | type here _ _ | valueNone here _ | value here _ =>
        have held := reached _ stored
        rw [here]
        exact .inl held
      | _ => cases reached _ stored
    | _ => cases moved
  · rw [pcFrame ok moved] at stored
    exact .inl stored

/- Where an entry of the mesh comes from: `P` of every entry and `R` of every record. -/
structure Known (P : Meta N → Prop) (R : Record N C → Prop) (s : State E N C) : Prop where
  register : ∀ n v, s.register n = some v → P v
  stored : ∀ e v, (s.pc e).stored = some v → P v
  framed : ∀ r ∈ s.framed, R r
  flight : ∀ e, ∀ r ∈ s.flight e, r ∈ s.framed

theorem flightFramed (sent : ∀ e, ∀ r ∈ s.flight e, r ∈ s.framed) (ok : step m s a = some t) :
    ∀ e, ∀ r ∈ t.flight e, r ∈ t.framed := by
  have joins : ∀ (q : E) (x : Record N C) (e : E), ∀ r ∈ update s.flight q (s.flight q++[x]) e, r ∈ s.framed++[x] := by
    intro q x e r mem
    rcases pushMem mem with old | rfl
    · exact mem_append_left _ (sent e r old)
    · exact mem_append_right _ (mem_singleton_self r)
  have shrinks : ∀ (q : E) (rest : List (Record N C)), rest ⊆ s.flight q → ∀ e, ∀ r ∈ update s.flight q rest e, r ∈ s.framed :=
    fun q rest inside e r mem => sent e r (shrinkMem inside mem)
  cases taken ok with
  | abort q => exact shrinks q [] (nil_subset _)
  | @deliver q r rest waiting =>
    rw [applyFlight,applyFramed]
    exact shrinks q rest (waiting ▸ subset_cons_self ..)
  | next command =>
    cases command with
    | alive _ _ | same _ _ | reframe _ _ | tombstone _ _ => exact joins _ _
    | _ => exact sent
  | _ => exact sent

theorem registerSource {n : N} {v : Meta N} (sent : ∀ e, ∀ r ∈ s.flight e, r ∈ s.framed) (ok : step m s a = some t)
    (entry : t.register n = some v) : s.register n = some v ∨ ∃ r ∈ t.framed, v = r.entry := by
  have written : ∀ (q : N) (r : Record N C), r ∈ t.framed → update s.register q (some r.entry) n = some v →
      s.register n = some v ∨ ∃ r ∈ t.framed, v = r.entry := by
    intro q r mem entry
    by_cases same : n = q
    · rw [same,update_self] at entry
      exact .inr ⟨r,mem,(Option.some.inj entry).symm⟩
    · rw [update_of_ne same] at entry
      exact .inl entry
  cases taken ok with
  | @gcDelete e _ _ _ _ _ =>
    by_cases same : n = m.source e
    · rw [same] at entry
      cases (update_self (m.source e) none s.register).symm.trans entry
    · exact .inl ((update_of_ne same none s.register).symm.trans entry)
  | @deliver e r rest waiting =>
    rw [applyFramed] at written ⊢
    have mem : r ∈ s.framed := sent e r (waiting ▸ mem_cons_self)
    unfold meshApply at entry
    split at entry
    · exact written _ r mem entry
    · exact .inl entry
  | next command =>
    cases command with
    | alive _ _ | tombstone _ _ => exact written _ _ (mem_append_right _ (mem_singleton_self _)) entry
    | _ => exact .inl entry
  | _ => exact .inl entry

theorem knownStep {P R} (carry : ∀ r, R r → P r.entry) (known : Known P R s)
    (ok : step m s a = some t) (new : ∀ r, Frames m s a r → R r) : Known P R t := by
  have framed : ∀ r ∈ t.framed, R r := fun r mem => (framedSource ok mem).elim (known.framed r) (new r)
  refine ⟨fun n v entry => ?_,fun e v stored => ?_,framed,flightFramed known.flight ok⟩
  · rcases registerSource known.flight ok entry with kept | ⟨r,mem,rfl⟩
    · exact known.register n v kept
    · exact carry r (framed r mem)
  · rcases storedSource ok stored with kept | read
    · exact known.stored e v kept
    · exact known.register _ v read

end Provenance

def fresh (time : Int) (data : N → Option (Data C)) : State E N C :=
  ⟨time,data,fun _ => none,fun _ => .idle,fun _ => .idle,fun _ => [],[]⟩

omit [DecidableEq E] [LinearOrder N] in
theorem freshKnown {P R} (time) (data) : Known P R (fresh time data : State E N C) where
  register _ _ entry := by cases entry
  stored _ _ stored := by cases stored
  framed _ mem := absurd mem not_mem_nil
  flight _ _ mem := absurd mem not_mem_nil

def pair : Mesh Bool Bool Nat := ⟨fun e => e,fun e => !e,fun _ => false,0,fun v => v.content⟩

def text (x : Nat) : Option (Data Nat) := some ⟨⟨.string,x⟩,none⟩

def reading (e : Bool) (now : Int) : List (Action Bool Bool Nat) := .start e now::List.replicate 5 (.next e)

end Replicare.RedisMesh
