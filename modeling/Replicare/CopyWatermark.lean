import Replicare.ChunkNulls
import Replicare.CopyCovers

/-! The copy of one table and its watermark: chunks that finish in any order on any number of
workers, loads and checkpoints that fail, and restarts that plan again from the saved watermark
over the rows of their moment. -/
namespace Replicare.CopyWatermark
open Engine Stored Runs Chunks CopyRun CopyCovers List

/- What becomes of a write to the state store: an error may hide a write that took place. -/
inductive Saved where
  | ok
  | lost
  | hidden
  deriving DecidableEq, Repr

def Saved.write (old new : CopyProgress) : Saved → CopyProgress
  | .lost => old
  | _ => new

structure Task where
  parts : List (Chunk × Slot)
  failed : Bool

/- The bring-up installs capture before it copies, in every process. -/
inductive Proc where
  | down
  | booting
  | ready
  | copying (t : Task)

structure Copier where
  captured : Bool
  progress : CopyProgress
  proc : Proc
  reads : List (Chunk × Bool)
  loaded : List Chunk

def fresh : Copier := ⟨false,⟨none,false⟩,.down,[],[]⟩

inductive Event where
  | boot
  | install
  | start (rows : Rows)
  | read (i : Nat) (rows : Rows)
  | land (i : Nat)
  | error (i : Nat) (fatal : Bool)
  | mark (i : Nat) (saved : Saved)
  | finish (saved : Saved)
  | stop

def Copier.put (s : Copier) (t : Task) (i : Nat) (p : Chunk × Slot) (failed : Bool) : Copier :=
  { s with proc := .copying ⟨t.parts.set i p,t.failed || failed⟩ }

section Step
variable (le : KeyValues → KeyValues → Bool) (targetRows : Int)

def step (s : Copier) : Event → Option Copier
  | .boot =>
      match s.proc with
      | .down => some { s with proc := .booting }
      | _ => none
  | .install =>
      match s.proc with
      | .booting => some { s with captured := true, proc := .ready }
      | _ => none
  | .start rows =>
      match s.proc with
      | .ready =>
          if s.progress.done then none
          else
            let chunks := planChunks le rows targetRows s.progress.watermark
            some { s with proc := .copying ⟨chunks.map fun c => (c,.waiting false),false⟩ }
      | _ => none
  | .read i rows =>
      match s.proc with
      | .copying t =>
          match t.parts[i]? with
          | some (c,.waiting retried) =>
              some { s.put t i (c,.reading retried (copyChunk le rows c)) false with reads := (c,s.captured)::s.reads }
          | _ => none
      | _ => none
  | .land i =>
      match s.proc with
      | .copying t =>
          match t.parts[i]? with
          | some (c,.reading _ _) => some { s.put t i (c,.landed) false with loaded := c::s.loaded }
          | _ => none
      | _ => none
  -- the worker does not know whether the load landed
  | .error i fatal =>
      match s.proc with
      | .copying t =>
          match t.parts[i]? with
          | some (c,.reading _ _) | some (c,.landed) => some (s.put t i (c,.waiting true) fatal)
          | _ => none
      | _ => none
  | .mark i saved =>
      match s.proc with
      | .copying t =>
          match t.parts[i]? with
          | some (c,.landed) =>
              match checkpoint t.parts (t.parts.set i (c,.done)) with
              | some p => some { s.put t i (c,.done) (decide (saved ≠ .ok)) with progress := saved.write s.progress p }
              | none => some (s.put t i (c,.done) false)
          | _ => none
      | _ => none
  | .finish saved =>
      match s.proc with
      | .copying t =>
          if t.failed = false ∧ t.parts.all (fun p => p.2.isDone) = true then
            some { s with progress := saved.write s.progress ⟨none,true⟩, proc := if saved = .ok then .ready else .down }
          else none
      | _ => none
  | .stop => some { s with proc := .down }

end Step

/- All that a step can do. -/
inductive Moves (le : KeyValues → KeyValues → Bool) (targetRows : Int) (s : Copier) : Event → Copier → Prop where
  | boot (idle : s.proc = .down) : Moves le targetRows s .boot { s with proc := .booting }
  | install (booting : s.proc = .booting) : Moves le targetRows s .install { s with captured := true, proc := .ready }
  | start {rows} (ready : s.proc = .ready) (unfinished : s.progress.done = false) : Moves le targetRows s (.start rows)
      { s with proc := .copying ⟨(planChunks le rows targetRows s.progress.watermark).map fun c => (c,.waiting false),false⟩ }
  | read {i rows t c retried} (at_ : s.proc = .copying t) (part : t.parts[i]? = some (c,.waiting retried)) :
      Moves le targetRows s (.read i rows)
        { s.put t i (c,.reading retried (copyChunk le rows c)) false with reads := (c,s.captured)::s.reads }
  | land {i t c retried rows} (at_ : s.proc = .copying t) (part : t.parts[i]? = some (c,.reading retried rows)) :
      Moves le targetRows s (.land i) { s.put t i (c,.landed) false with loaded := c::s.loaded }
  | error {i fatal t c slot} (at_ : s.proc = .copying t) (part : t.parts[i]? = some (c,slot)) (uncounted : slot.isDone = false) :
      Moves le targetRows s (.error i fatal) (s.put t i (c,.waiting true) fatal)
  | checked {i saved t c p} (at_ : s.proc = .copying t) (part : t.parts[i]? = some (c,.landed))
      (moved : checkpoint t.parts (t.parts.set i (c,.done)) = some p) : Moves le targetRows s (.mark i saved)
        { s.put t i (c,.done) (decide (saved ≠ .ok)) with progress := saved.write s.progress p }
  | counted {i saved t c} (at_ : s.proc = .copying t) (part : t.parts[i]? = some (c,.landed)) :
      Moves le targetRows s (.mark i saved) (s.put t i (c,.done) false)
  | finish {saved t} (at_ : s.proc = .copying t) (all : ∀ p ∈ t.parts, p.2.isDone = true) : Moves le targetRows s (.finish saved)
      { s with progress := saved.write s.progress ⟨none,true⟩, proc := if saved = .ok then .ready else .down }
  | stop : Moves le targetRows s .stop { s with proc := .down }

variable {le : KeyValues → KeyValues → Bool} {targetRows : Int} {s s' : Copier} {e : Event}

theorem stepMoves (ok : step le targetRows s e = some s') : Moves le targetRows s e s' := by
  cases e with
  | boot =>
    simp only [step] at ok
    split at ok <;> cases ok
    exact .boot ‹_›
  | install =>
    simp only [step] at ok
    split at ok <;> cases ok
    exact .install ‹_›
  | start rows =>
    simp only [step] at ok
    split at ok <;> try contradiction
    rename_i ready
    split at ok <;> cases ok
    exact .start ready (Bool.eq_false_iff.mpr ‹_›)
  | read i rows =>
    simp only [step] at ok
    split at ok <;> try contradiction
    rename_i at_
    split at ok <;> cases ok
    exact .read at_ ‹_›
  | land i =>
    simp only [step] at ok
    split at ok <;> try contradiction
    rename_i at_
    split at ok <;> cases ok
    exact .land at_ ‹_›
  | error i fatal =>
    simp only [step] at ok
    split at ok <;> try contradiction
    rename_i at_
    split at ok <;> cases ok
    · exact .error at_ ‹_› rfl
    · exact .error at_ ‹_› rfl
  | mark i saved =>
    simp only [step] at ok
    split at ok <;> try contradiction
    rename_i at_
    split at ok <;> try contradiction
    rename_i part
    split at ok <;> cases ok
    · exact .checked at_ part ‹_›
    · exact .counted at_ part
  | finish saved =>
    simp only [step] at ok
    split at ok <;> try contradiction
    rename_i at_
    split at ok <;> cases ok
    rename_i ended
    exact .finish at_ (all_eq_true.mp ended.2)
  | stop =>
    cases ok
    exact .stop

section Front
variable {parts : List (Chunk × Slot)} {lo : Option KeyValues} {bs : List KeyValues}

theorem leadingAt {j} (front : j < leading parts) : ∃ p, parts[j]? = some p ∧ p.2.isDone = true := by
  induction parts generalizing j with
  | nil => simp [leading] at front
  | cons p parts ih =>
    cases counted : p.2.isDone with
    | false => simp [leading,counted] at front
    | true =>
      cases j with
      | zero => exact ⟨p,rfl,counted⟩
      | succ j => exact ih (by simpa [leading,counted] using front)

theorem leLeading {n} (all : ∀ j < n, ∃ p, parts[j]? = some p ∧ p.2.isDone = true) : n ≤ leading parts := by
  induction parts generalizing n with
  | nil =>
    cases n with
    | zero => exact Nat.zero_le _
    | succ n =>
      obtain ⟨p,place,_⟩ := all 0 (Nat.succ_pos n)
      cases place
  | cons p parts ih =>
    cases n with
    | zero => exact Nat.zero_le _
    | succ n =>
      obtain ⟨q,place,counted⟩ := all 0 (Nat.succ_pos n)
      cases place
      have rest := ih fun j short => all (j+1) (Nat.succ_lt_succ short)
      simpa [leading,counted] using rest

theorem leadingGrows {i c slot} (part : parts[i]? = some (c,slot)) (uncounted : slot.isDone = false)
    (q) : leading parts ≤ leading (parts.set i q) := by
  refine leLeading fun j front => ?_
  obtain ⟨p,place,counted⟩ := leadingAt front
  have other : i ≠ j := by
    rintro rfl
    cases part.symm.trans place
    rw [uncounted] at counted
    cases counted
  exact ⟨p,by rwa [getElem?_set_ne other],counted⟩

def Reached (lo : Option KeyValues) (bs : List KeyValues) (parts : List (Chunk × Slot)) (watermark : Option KeyValues) : Prop :=
  watermark = lo ∨ ∃ j b, j < leading parts ∧ bs[j]? = some b ∧ watermark = some b

theorem Reached.onward {parts' watermark} (reached : Reached lo bs parts watermark) (grows : leading parts ≤ leading parts') :
    Reached lo bs parts' watermark := by
  rcases reached with start | ⟨j,b,front,bound,is⟩
  · exact .inl start
  · exact .inr ⟨j,b,Nat.lt_of_lt_of_le front grows,bound,is⟩

theorem checkpointAt {before p} (ranges : parts.map Prod.fst = buildKeysetRangesFrom lo bs)
    (moved : checkpoint before parts = some p) : p.done = false ∧ leading before < leading parts ∧
      ∃ b, bs[leading parts-1]? = some b ∧ p.watermark = some b := by
  have known := (checkpointCovers (fun _ _ => true) ranges moved).2.1
  unfold checkpoint at moved
  split at moved <;> try contradiction
  rename_i more
  cases moved
  have short : leading parts-1 < parts.length := by omega
  have place : (buildKeysetRangesFrom lo bs)[leading parts-1]? = some parts[leading parts-1].1 := by
    rw [← ranges,getElem?_map,getElem?_eq_getElem short,Option.map_some]
  have hi := rangesHi place
  rw [getElem?_eq_getElem short] at known ⊢
  obtain ⟨b,_,is⟩ := known
  exact ⟨rfl,more.1,b,hi.symm.trans is,is⟩

theorem boundsOrdered (order : KeyOrder le) (cuts : Cuts le lo bs) {i j : Nat} {a b} (before : i ≤ j) (one : bs[i]? = some a)
    (two : bs[j]? = some b) : le a b = true := by
  rcases Nat.lt_or_eq_of_le before with less | rfl
  · obtain ⟨short,rfl⟩ := List.getElem?_eq_some_iff.mp one
    obtain ⟨short',rfl⟩ := List.getElem?_eq_some_iff.mp two
    exact pairwise_iff_getElem.mp cuts.sorted i j short short' less
  · cases one.symm.trans two
    exact (order.total a a).elim id id

end Front

section Invariant
variable (le)

def Copier.Covered (s : Copier) (k : KeyValues) : Prop := ∃ c ∈ s.loaded, c.has le k = true

structure Working (s : Copier) (parts : List (Chunk × Slot)) (lo : Option KeyValues) (bs : List KeyValues) : Prop where
  captured : s.captured = true
  unfinished : s.progress.done = false
  ranges : parts.map Prod.fst = buildKeysetRangesFrom lo bs
  cuts : Cuts le lo bs
  base : ∀ k, above le lo k = false → s.Covered le k
  taken : ∀ c retried rows, (c,Slot.reading retried rows) ∈ parts → (c,true) ∈ s.reads
  got : ∀ c slot, (c,slot) ∈ parts → slot = .landed ∨ slot = .done → c ∈ s.loaded
  reached : Reached lo bs parts s.progress.watermark

structure Sound (s : Copier) : Prop where
  after : ∀ r ∈ s.reads, r.2 = true
  known : ∀ c ∈ s.loaded, (c,true) ∈ s.reads
  below : ∀ k, above le s.progress.watermark k = false → s.Covered le k
  all : s.progress.done = true → ∀ k, s.Covered le k
  ready : s.proc = .ready → s.captured = true
  working : ∀ t, s.proc = .copying t → ∃ lo bs, Working le s t.parts lo bs

variable {le}

theorem freshSound : Sound le fresh where
  after := by simp [fresh]
  known := by simp [fresh]
  below := by simp [fresh,above]
  all := by simp [fresh]
  ready := by simp [fresh]
  working := by simp [fresh]

/- What was read and loaded stays so. -/
structure Grows (s s' : Copier) : Prop where
  captured : s'.captured = s.captured
  reads : s.reads ⊆ s'.reads
  loaded : s.loaded ⊆ s'.loaded

theorem Grows.covered (grows : Grows s s') {k} (held : s.Covered le k) : s'.Covered le k := by
  obtain ⟨c,mem,inside⟩ := held
  exact ⟨c,grows.loaded mem,inside⟩

variable {parts : List (Chunk × Slot)} {lo : Option KeyValues} {bs : List KeyValues} {i : Nat} {c : Chunk} {slot slot' : Slot}

theorem Working.put (working : Working le s parts lo bs) (part : parts[i]? = some (c,slot)) (grows : Grows s s')
    (unfinished : s'.progress.done = false) (taken : ∀ retried rows, slot' = .reading retried rows → (c,true) ∈ s'.reads)
    (got : slot' = .landed ∨ slot' = .done → c ∈ s'.loaded)
    (reached : Reached lo bs (parts.set i (c,slot')) s'.progress.watermark) : Working le s' (parts.set i (c,slot')) lo bs where
  captured := grows.captured.trans working.captured
  unfinished := unfinished
  ranges := (rangesSet part).trans working.ranges
  cuts := working.cuts
  base := fun k under => grows.covered (working.base k under)
  taken := by
    intro other retried rows mem
    rcases memSet mem with new | old
    · cases new
      exact taken retried rows rfl
    · exact grows.reads (working.taken other retried rows old)
  got := by
    intro other slot mem landed
    rcases memSet mem with new | old
    · cases new
      exact got landed
    · exact grows.loaded (working.got other slot old landed)
  reached := reached

theorem Working.planned (order : KeyOrder le) (sound : Sound le s) (ready : s.proc = .ready) (unfinished : s.progress.done = false)
    (rows) (proc) : Working le { s with proc := proc }
      ((planChunks le rows targetRows s.progress.watermark).map fun c => (c,.waiting false)) s.progress.watermark
        (keysetBoundaries le rows (chunkRows targetRows) s.progress.watermark) where
  captured := sound.ready ready
  unfinished := unfinished
  ranges := by
    rw [List.map_map]
    exact map_id _
  cuts := ⟨boundariesSorted order rows _ _,fun _ mem => boundariesAbove mem⟩
  base := sound.below
  taken := by simp
  got := by
    intro c slot mem landed
    obtain ⟨_,_,same⟩ := mem_map.mp mem
    cases same
    rcases landed with none | none <;> cases none
  reached := .inl rfl

theorem Working.finished (working : Working le s parts lo bs) (all : ∀ p ∈ parts, p.2.isDone = true) (k) : s.Covered le k := by
  by_cases floor : above le lo k = true
  · have covered : ∃ d ∈ buildKeysetRangesFrom lo bs, d.has le k = true := rangesCover floor
    obtain ⟨d,mem,inside⟩ := covered
    rw [← working.ranges] at mem
    obtain ⟨p,listed,rfl⟩ := mem_map.mp mem
    exact ⟨p.1,working.got p.1 p.2 listed (.inr (doneOf (all p listed))),inside⟩
  · exact working.base k (Bool.eq_false_iff.mpr floor)

theorem Working.passed (working : Working le s parts lo bs) {j b k} (front : j < leading parts) (bound : bs[j]? = some b)
    (floor : above le lo k = true) (under : le b k = false) : ∃ p ∈ parts, p.1.has le k = true ∧ p.1 ∈ s.loaded := by
  obtain ⟨q,place,_⟩ := leadingAt front
  have range : (buildKeysetRangesFrom lo bs)[j]? = some q.1 := by
    rw [← working.ranges,getElem?_map,place,Option.map_some]
  obtain ⟨d,mem,inside⟩ := prefixCovers range ((rangesHi range).trans bound) (Bool.eq_false_iff.mp under) floor
  rw [← working.ranges,← map_take] at mem
  obtain ⟨p,early,rfl⟩ := mem_map.mp mem
  have counted : p ∈ parts.take (leading parts) := take_subset_take_left parts front early
  obtain ⟨listed,done⟩ := leadingDone counted
  exact ⟨p,listed,inside,working.got p.1 p.2 listed (.inr (doneOf done))⟩

theorem Sound.turn (sound : Sound le s) {captured proc} (ready : proc = .ready → captured = true)
    (working : ∀ t, proc = .copying t → ∃ lo bs, Working le { s with captured := captured, proc := proc } t.parts lo bs) :
    Sound le { s with captured := captured, proc := proc } :=
  ⟨sound.after,sound.known,sound.below,sound.all,ready,working⟩

theorem Sound.put (sound : Sound le s) {t} (at_ : s.proc = .copying t) (part : t.parts[i]? = some (c,slot))
    (uncounted : slot.isDone = false) {reads loaded} (failed)
    (readsGrow : s.reads ⊆ reads) (loadedGrow : s.loaded ⊆ loaded)
    (after : ∀ r ∈ reads, r.2 = true) (known : ∀ d ∈ loaded, (d,true) ∈ reads)
    (taken : ∀ retried rows, slot' = .reading retried rows → (c,true) ∈ reads)
    (got : slot' = .landed ∨ slot' = .done → c ∈ loaded) :
    Sound le { s.put t i (c,slot') failed with reads := reads, loaded := loaded } := by
  obtain ⟨lo,bs,working⟩ := sound.working t at_
  have grows : Grows s { s.put t i (c,slot') failed with reads := reads, loaded := loaded } := ⟨rfl,readsGrow,loadedGrow⟩
  refine ⟨after,known,fun k under => grows.covered (sound.below k under),fun done k => grows.covered (sound.all done k),
    fun none => (by cases none),fun u now => ?_⟩
  cases now
  exact ⟨lo,bs,working.put part grows working.unfinished taken got (working.reached.onward (leadingGrows part uncounted _))⟩

theorem Working.count (working : Working le s parts lo bs) (part : parts[i]? = some (c,.landed)) {p proc}
    (unfinished : p.done = false) (reached : Reached lo bs (parts.set i (c,.done)) p.watermark) :
    Working le { s with progress := p, proc := proc } (parts.set i (c,.done)) lo bs :=
  working.put part ⟨rfl,fun _ mem => mem,fun _ mem => mem⟩ unfinished (fun _ _ same => (by cases same))
    (fun _ => working.got c .landed (mem_of_getElem? part) (.inl rfl)) reached

theorem Working.under (working : Working le s parts lo bs) {watermark} (reached : Reached lo bs parts watermark) {k}
    (under : above le watermark k = false) : s.Covered le k := by
  by_cases floor : above le lo k = true
  · rcases reached with rfl | ⟨j,b,front,bound,rfl⟩
    · rw [floor] at under
      cases under
    · obtain ⟨p,_,inside,loaded⟩ := working.passed front bound floor under
      exact ⟨p.1,loaded,inside⟩
  · exact working.base k (Bool.eq_false_iff.mpr floor)

theorem soundMoves (order : KeyOrder le) (moves : Moves le targetRows s e s') (sound : Sound le s) : Sound le s' := by
  cases moves with
  | install booting => exact sound.turn (fun _ => rfl) fun _ none => (by cases none)
  | start ready unfinished =>
    refine sound.turn (fun none => (by cases none)) fun t now => ?_
    cases now
    exact ⟨_,_,Working.planned order sound ready unfinished _ _⟩
  | read at_ part =>
    rename_i i rows t c retried
    obtain ⟨lo,bs,working⟩ := sound.working t at_
    have mine : (c,s.captured) = (c,true) := by rw [working.captured]
    refine sound.put at_ part rfl false (subset_cons_self _ _) (List.Subset.refl _) (fun r mem => ?_)
      (fun d mem => mem_cons_of_mem _ (sound.known d mem)) (fun _ _ _ => ?_) fun none => ?_
    · rcases mem_cons.mp mem with rfl | old
      · exact working.captured
      · exact sound.after r old
    · rw [mine]
      exact mem_cons_self
    · rcases none with none | none <;> cases none
  | land at_ part =>
    rename_i i t c retried rows
    obtain ⟨lo,bs,working⟩ := sound.working t at_
    refine sound.put at_ part rfl false (List.Subset.refl _) (subset_cons_self _ _) sound.after (fun d mem => ?_)
      (fun _ _ same => (by cases same)) fun _ => mem_cons_self
    rcases mem_cons.mp mem with rfl | old
    · exact working.taken d retried rows (mem_of_getElem? part)
    · exact sound.known d old
  | error at_ part uncounted =>
    refine sound.put at_ part uncounted _ (List.Subset.refl _) (List.Subset.refl _) sound.after sound.known
      (fun _ _ same => (by cases same)) fun none => ?_
    rcases none with none | none <;> cases none
  | checked at_ part moved =>
    rename_i i saved t c p
    obtain ⟨lo,bs,working⟩ := sound.working t at_
    obtain ⟨unfinished,more,b,bound,is⟩ := checkpointAt ((rangesSet part).trans working.ranges) moved
    have new : Reached lo bs (t.parts.set i (c,.done)) p.watermark := .inr ⟨_,b,by omega,bound,is⟩
    have old := working.reached.onward (Nat.le_of_lt more)
    have counted : ∀ q, q.done = false → Reached lo bs (t.parts.set i (c,.done)) q.watermark →
        Sound le { s.put t i (c,.done) (decide (saved ≠ .ok)) with progress := q } := by
      intro q open_ reached
      have next : Working le { s.put t i (c,.done) (decide (saved ≠ .ok)) with progress := q } (t.parts.set i (c,.done)) lo bs :=
        working.count part open_ reached
      refine ⟨sound.after,sound.known,fun k under => next.under reached under,fun done => ?_,fun none => (by cases none),
        fun u now => ?_⟩
      · cases open_.symm.trans done
      · cases now
        exact ⟨lo,bs,next⟩
    cases saved with
    | lost => exact counted s.progress working.unfinished old
    | _ => exact counted p unfinished new
  | counted at_ part =>
    rename_i i saved t c
    obtain ⟨lo,bs,working⟩ := sound.working t at_
    exact sound.put at_ part rfl false (List.Subset.refl _) (List.Subset.refl _) sound.after sound.known
      (fun _ _ same => (by cases same)) fun _ => working.got c .landed (mem_of_getElem? part) (.inl rfl)
  | finish at_ all =>
    rename_i saved t
    obtain ⟨lo,bs,working⟩ := sound.working t at_
    have idle : ∀ u, (if saved = .ok then Proc.ready else .down) ≠ .copying u := by
      intro u
      split <;> simp
    refine ⟨sound.after,sound.known,fun k _ => working.finished all k,fun _ k => working.finished all k,
      fun _ => working.captured,fun u now => absurd now (idle u)⟩
  | _ => exact sound.turn (fun none => (by cases none)) fun _ none => (by cases none)

end Invariant

section Order

def Follows (le : KeyValues → KeyValues → Bool) (p p' : CopyProgress) : Prop :=
  p'.done = true ∨ p.done = false ∧ ∀ w, p.watermark = some w → ∃ w', p'.watermark = some w' ∧ le w w' = true

theorem followsSelf (order : KeyOrder le) (p) : Follows le p p := by
  cases done : p.done with
  | true => exact .inl done
  | false => exact .inr ⟨done,fun w is => ⟨w,is,(order.total w w).elim id id⟩⟩

theorem Follows.trans (order : KeyOrder le) {p q r} (one : Follows le p q) (two : Follows le q r) : Follows le p r := by
  rcases two with done | ⟨open_,later⟩
  · exact .inl done
  · rcases one with done | ⟨start,first⟩
    · cases open_.symm.trans done
    · refine .inr ⟨start,fun w is => ?_⟩
      obtain ⟨v,isV,low⟩ := first w is
      obtain ⟨u,isU,high⟩ := later v isV
      exact ⟨u,isU,order.trans low high⟩

theorem followsMoves (order : KeyOrder le) (moves : Moves le targetRows s e s') (sound : Sound le s) :
    Follows le s.progress s'.progress := by
  cases moves with
  | checked at_ part moved =>
    rename_i i saved t c p
    obtain ⟨lo,bs,working⟩ := sound.working t at_
    obtain ⟨_,more,b,bound,is⟩ := checkpointAt ((rangesSet part).trans working.ranges) moved
    have forward : Follows le s.progress p := by
      refine .inr ⟨working.unfinished,fun w was => ⟨b,is,?_⟩⟩
      rcases working.reached with start | ⟨j,a,front,before,is'⟩
      · have floor := working.cuts.floor b (mem_of_getElem? bound)
        rwa [← start,was] at floor
      · cases was.symm.trans is'
        exact boundsOrdered order working.cuts (by omega) before bound
    cases saved with
    | lost => exact followsSelf order _
    | _ => exact forward
  | finish at_ all =>
    rename_i saved t
    cases saved with
    | lost => exact followsSelf order _
    | _ => exact .inl rfl
  | _ => exact followsSelf order _

end Order

theorem Sound.front (order : KeyOrder le) (sound : Sound le s) {w} (saved : s.progress.watermark = some w) {t}
    (at_ : s.proc = .copying t) {p} (mem : p ∈ t.parts) {k} (inside : p.1.has le k = true) (under : le w k = false) :
    p.1 ∈ s.loaded := by
  obtain ⟨lo,bs,working⟩ := sound.working t at_
  have planned : p.1 ∈ buildKeysetRangesFrom lo bs := working.ranges ▸ mem_map_of_mem mem
  have floor := rangesFloor order working.cuts planned inside
  rcases working.reached with start | ⟨j,b,front,bound,is⟩
  · rw [← start,saved] at floor
    cases under.symm.trans floor
  · cases saved.symm.trans is
    obtain ⟨q,listed,also,loaded⟩ := working.passed front bound floor under
    have other : q.1 ∈ buildKeysetRangesFrom lo bs := working.ranges ▸ mem_map_of_mem listed
    obtain ⟨m,place⟩ := mem_iff_getElem?.mp planned
    obtain ⟨n,place'⟩ := mem_iff_getElem?.mp other
    cases rangesApart order working.cuts place place' inside also
    have same : p.1 = q.1 := Option.some.inj (place.symm.trans place')
    rw [same]
    exact loaded

theorem finishMoves (order : KeyOrder le) (moves : Moves le targetRows s e s') (sound : Sound le s)
    (before : s.progress.done = false) (done : s'.progress.done = true) :
    ∃ t, s.proc = .copying t ∧ (∀ p ∈ t.parts, p.1 ∈ s.loaded) ∧
      ∀ k, above le s.progress.watermark k = true → ∃ p ∈ t.parts, p.1.has le k = true := by
  cases moves with
  | checked at_ part moved =>
    rename_i i saved t c p
    obtain ⟨lo,bs,working⟩ := sound.working t at_
    obtain ⟨unfinished,_⟩ := checkpointAt ((rangesSet part).trans working.ranges) moved
    cases saved with
    | lost => cases before.symm.trans done
    | _ => cases unfinished.symm.trans done
  | finish at_ all =>
    rename_i saved t
    obtain ⟨lo,bs,working⟩ := sound.working t at_
    refine ⟨t,at_,fun p mem => working.got p.1 p.2 mem (.inr (doneOf (all p mem))),fun k beyond => ?_⟩
    have floor : above le lo k = true := by
      rcases working.reached with start | ⟨j,b,_,bound,is⟩
      · rwa [← start]
      · rw [is] at beyond
        exact aboveTrans order (working.cuts.floor b (mem_of_getElem? bound)) beyond
    have covered : ∃ d ∈ buildKeysetRangesFrom lo bs, d.has le k = true := rangesCover floor
    obtain ⟨d,mem,inside⟩ := covered
    rw [← working.ranges] at mem
    obtain ⟨p,listed,rfl⟩ := mem_map.mp mem
    exact ⟨p,listed,inside⟩
  | _ => cases before.symm.trans done

theorem runSound (order : KeyOrder le) {events} (ran : run (step le targetRows) s events = some s') (sound : Sound le s) :
    Sound le s' ∧ Follows le s.progress s'.progress := by
  have keep : ∀ m e m', Sound le m ∧ Follows le s.progress m.progress → True → step le targetRows m e = some m' →
      Sound le m' ∧ Follows le s.progress m'.progress := by
    intro m e m' held _ ok
    exact ⟨soundMoves order (stepMoves ok) held.1,held.2.trans order (followsMoves order (stepMoves ok) held.1)⟩
  exact runKeeps keep (alongOfAll fun _ _ _ => trivial) ran ⟨sound,followsSelf order _⟩

theorem watermarkSafe (order : KeyOrder le) (targetRows : Int) {events} (ran : run (step le targetRows) fresh events = some s) :
    (∀ w, s.progress.watermark = some w →
      (∀ t, s.proc = .copying t → ∀ p ∈ t.parts, ∀ k, p.1.has le k = true → le w k = false → p.1 ∈ s.loaded) ∧
        ∀ k, le w k = false → ∃ c ∈ s.loaded, c.has le k = true) ∧
    (∀ more s', run (step le targetRows) s more = some s' → Follows le s.progress s'.progress) ∧
    (∀ e s', step le targetRows s e = some s' → s.progress.done = false → s'.progress.done = true →
      ∃ t, s.proc = .copying t ∧ (∀ p ∈ t.parts, p.1 ∈ s.loaded) ∧
        ∀ k, above le s.progress.watermark k = true → ∃ p ∈ t.parts, p.1.has le k = true) ∧
    (s.progress.done = true → ∀ k, ∃ c ∈ s.loaded, c.has le k = true ∧ (c,true) ∈ s.reads ∧ (c,false) ∉ s.reads) := by
  have sound := (runSound order ran freshSound).1
  refine ⟨fun w saved => ⟨fun t at_ p mem k inside under => sound.front order saved at_ mem inside under,fun k under => ?_⟩,
    fun more s' ran => (runSound order ran sound).2,fun e s' ok => finishMoves order (stepMoves ok) sound,fun done k => ?_⟩
  · exact sound.below k (by rw [saved]; exact under)
  · obtain ⟨c,mem,inside⟩ := sound.all done k
    exact ⟨c,mem,inside,sound.known c mem,fun early => Bool.noConfusion (sound.after _ early)⟩

def interrupted : List Event :=
  let rows : Rows := [[1],[2],[3]].map fun b => ([some b],ChunkNulls.account (some b))
  [.boot,.install,.start rows,.read 1 rows,.read 0 rows,.land 1,.mark 1 .ok,.land 0,.mark 0 .ok,.read 2 rows,.stop]

def resumed : List Event :=
  let rows : Rows := [[1],[2],[3],[4]].map fun b => ([some b],ChunkNulls.account (some b))
  [.boot,.install,.start rows,.read 1 rows,.land 1,.mark 1 .ok,.read 0 rows,.land 0,.error 0 false,.read 0 rows,.land 0,.mark 0 .ok,
    .finish .ok]

theorem resumedSafe : ∃ s ∈ run (step (ChunkNulls.byteOrder 0) 1) fresh interrupted, s.progress.watermark = some [some [3]] ∧
    (∀ k, ChunkNulls.byteOrder 0 [some [3]] k = false → ∃ c ∈ s.loaded, c.has (ChunkNulls.byteOrder 0) k = true) ∧
      ∃ s' ∈ run (step (ChunkNulls.byteOrder 0) 1) s resumed, s'.progress.done = true ∧
        Follows (ChunkNulls.byteOrder 0) s.progress s'.progress := by
  have both : ∃ s ∈ run (step (ChunkNulls.byteOrder 0) 1) fresh interrupted, s.progress.watermark = some [some [3]] ∧
      ∃ s' ∈ run (step (ChunkNulls.byteOrder 0) 1) s resumed, s'.progress.done = true := by decide +kernel
  obtain ⟨s,ran,saved,s',later,done⟩ := both
  have safe := watermarkSafe (ChunkNulls.byteOrdered 0) 1 ran
  exact ⟨s,ran,saved,(safe.1 _ saved).2,s',later,done,safe.2.1 resumed s' later⟩

end Replicare.CopyWatermark
