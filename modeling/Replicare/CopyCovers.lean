import Mathlib.Data.List.TakeWhile
import Replicare.CopyRun

/-! What a copy keeps while the source changes: a row on the target is the source's or has a
delta to consume, and so has every key without a row that the copy has passed. -/
namespace Replicare.CopyCovers
open Engine hiding Component
open Relations Consume Stored Chunks Enforce CopyRun List Function

def Awaited (id : TargetID) (queue : TableRef → Queue KeyValues) (r : TableRef) (k : KeyValues) : Prop :=
  ∃ d ∈ unconsumed (queue r) id, d.key = k

section Defs
variable (sync : Sync) (w : World)

def Pending (r : TableRef) (k : KeyValues) : Prop := Awaited sync.id w.control.queue r k

def Safe (r : TableRef) (k : KeyValues) : Prop := view w.target r k = view w.source r k ∨ Pending sync w r k

def Hole (r : TableRef) (k : KeyValues) : Prop := view w.target r k = none → Safe sync w r k

def Clean (r : TableRef) : Prop := ∀ k, view w.target r k ≠ none → Safe sync w r k

def Filled (r : TableRef) : Prop :=
  (∀ k, above sync.le (w.progress r).watermark k = false → Hole sync w r k) ∧
    ((w.progress r).done = true → ∀ k, Hole sync w r k)

structure CopySound (c : Copying) (start : Option KeyValues) (bs : List KeyValues) : Prop where
  ranges : c.parts.map Prod.fst = buildKeysetRangesFrom start bs
  base : ∀ k, above sync.le start k = false → Hole sync w c.ref k
  own : ∀ chunk retried rows, (chunk,Slot.reading retried rows) ∈ c.parts → ∀ e ∈ rows, chunk.has sync.le e.1 = true
  snapshot : ∀ chunk retried rows, (chunk,Slot.reading retried rows) ∈ c.parts → ∀ k, chunk.has sync.le k = true →
    List.lookup k rows = view w.source c.ref k ∨ Pending sync w c.ref k
  landed : ∀ chunk slot, (chunk,slot) ∈ c.parts → slot = .landed ∨ slot = .done → ∀ k, chunk.has sync.le k = true →
    Hole sync w c.ref k

structure Kept (r : TableRef) : Prop where
  clean : Clean sync w r
  filled : Filled sync w r
  running : ∀ kind c rest, w.mode = .busy kind (some c) rest → c.ref = r → ∃ start bs, CopySound sync w c start bs

end Defs

section Commit
variable (id : TargetID)

theorem awaitedGrows {queue queue' r k} (grows : unconsumed (queue r) id ⊆ unconsumed (queue' r) id)
    (awaited : Awaited id queue r k) : Awaited id queue' r k := by
  obtain ⟨d,mem,key⟩ := awaited
  exact ⟨d,grows mem,key⟩

theorem captureAwaits {control after c} (ok : captureChange control c = some after) :
    Awaited id after.queue c.table c.key ∧ ∀ r, unconsumed (control.queue r) id ⊆ unconsumed (after.queue r) id := by
  unfold captureChange at ok
  split at ok <;> try contradiction
  rename_i fresh
  cases ok
  have new : unconsumed (capture (control.queue c.table) ⟨c.id,c.op,c.key,c.rcAt⟩ fresh) id =
      ⟨c.id,c.op,c.key,c.rcAt⟩::unconsumed (control.queue c.table) id := by
    have unread : ¬Consumed (capture (control.queue c.table) ⟨c.id,c.op,c.key,c.rcAt⟩ fresh) id c.id :=
      fun consumed => fresh.2 _ consumed rfl
    exact filter_cons_of_pos (by rw [decide_eq_false unread]; rfl)
  refine ⟨⟨⟨c.id,c.op,c.key,c.rcAt⟩,?_,rfl⟩,fun r d mem => ?_⟩
  · simp only [Control.put,update_self,new]
    exact mem_cons_self
  · by_cases here : r = c.table
    · subst here
      simp only [Control.put,update_self,new]
      exact mem_cons_of_mem _ mem
    · simpa only [Control.put,update_of_ne here] using mem

theorem applyFrame (b : Base) (c : Change) {r k} (other : ¬(r = c.table ∧ k = c.key)) : view (c.apply b) r k = view b r k := by
  unfold Change.apply
  split
  · rw [viewUpsert]
    by_cases here : r = c.table
    · have apart : (k == c.key) = false := beq_false_of_ne fun same => other ⟨here,same⟩
      simp [here,lookup_cons,apart]
    · rw [if_neg here]
  · rw [viewErase,if_neg]
    exact fun gone => other ⟨gone.1,of_decide_eq_true gone.2⟩

theorem commitAwaits {changes : List Change} {control after : Control KeyValues}
    (ok : changes.foldlM captureChange control = some after) (source : Base) (r) :
    unconsumed (control.queue r) id ⊆ unconsumed (after.queue r) id ∧
      ∀ k, view (changes.foldl Change.apply source) r k = view source r k ∨ Awaited id after.queue r k := by
  induction changes generalizing control source with
  | nil =>
    cases ok
    exact ⟨fun _ mem => mem,fun _ => .inl rfl⟩
  | cons c changes ih =>
    rw [foldlM_cons] at ok
    obtain ⟨mid,first,rest⟩ := Option.bind_eq_some_iff.mp ok
    obtain ⟨own,grows⟩ := captureAwaits id first
    obtain ⟨later,differs⟩ := ih rest (c.apply source)
    refine ⟨fun _ mem => later (grows r mem),fun k => ?_⟩
    by_cases here : r = c.table ∧ k = c.key
    · obtain ⟨rfl,rfl⟩ := here
      exact .inr (awaitedGrows id later own)
    · rw [foldl_cons,← applyFrame source c here]
      exact differs k

end Commit

section Keep
variable {sync : Sync} {w w' : World} {r : TableRef}

structure Drifts (sync : Sync) (w w' : World) (r : TableRef) : Prop where
  awaits : ∀ k, Pending sync w r k → Pending sync w' r k
  source : ∀ k, view w'.source r k = view w.source r k ∨ Pending sync w' r k

theorem driftsSame (source : w'.source = w.source) (queue : w'.control.queue = w.control.queue) : Drifts sync w w' r := by
  refine ⟨fun k held => ?_,fun k => .inl (by rw [source])⟩
  unfold Pending
  rw [queue]
  exact held

theorem commitDrifts {changes : List Change} {control : Control KeyValues} (captures : changes.foldlM captureChange w.control = some control) :
    Drifts sync w { w with source := changes.foldl Change.apply w.source, control := control } r := by
  obtain ⟨grows,source⟩ := commitAwaits sync.id captures w.source r
  exact ⟨fun k => awaitedGrows sync.id grows,source⟩

section
variable (drifts : Drifts sync w w' r)
include drifts

theorem Drifts.safe {k} (same : view w'.target r k = view w.target r k) (held : Safe sync w r k) : Safe sync w' r k := by
  rcases held with equal | pending
  · rcases drifts.source k with still | pending
    · exact .inl (by rw [same,still,equal])
    · exact .inr pending
  · exact .inr (drifts.awaits k pending)

theorem Drifts.hole {k} (same : view w'.target r k = view w.target r k) (held : Hole sync w r k) : Hole sync w' r k :=
  fun none => drifts.safe same (held (same.symm.trans none))

theorem Drifts.clean (same : w'.target r = w.target r) (held : Clean sync w r) : Clean sync w' r := by
  have rows : ∀ k, view w'.target r k = view w.target r k := fun k => congrArg (List.lookup k) same
  exact fun k there => drifts.safe (rows k) (held k (rows k ▸ there))

theorem Drifts.filled (same : w'.target r = w.target r) (progress : w'.progress r = w.progress r)
    (held : Filled sync w r) : Filled sync w' r := by
  have rows : ∀ k, view w'.target r k = view w.target r k := fun k => congrArg (List.lookup k) same
  unfold Filled
  rw [progress]
  exact ⟨fun k below => drifts.hole (rows k) (held.1 k below),fun copied k => drifts.hole (rows k) (held.2 copied k)⟩

end

theorem filledFresh (fresh : w.progress r = ⟨none,false⟩) : Filled sync w r := by
  unfold Filled
  rw [fresh]
  exact ⟨fun k below => Bool.noConfusion below,fun copied => Bool.noConfusion copied⟩

theorem Drifts.sound {c start bs} (drifts : Drifts sync w w' c.ref) (same : w'.target c.ref = w.target c.ref)
    (held : CopySound sync w c start bs) : CopySound sync w' c start bs := by
  have rows : ∀ k, view w'.target c.ref k = view w.target c.ref k := fun k => congrArg (List.lookup k) same
  refine ⟨held.ranges,fun k below => drifts.hole (rows k) (held.base k below),held.own,fun chunk retried l mem k inside => ?_,
    fun chunk slot mem landed k inside => drifts.hole (rows k) (held.landed chunk slot mem landed k inside)⟩
  rcases drifts.source k with still | pending
  · rw [still]
    exact (held.snapshot chunk retried l mem k inside).imp_right (drifts.awaits k)
  · exact .inr pending

theorem CopySound.same {c start bs} (held : CopySound sync w c start bs) (source : w'.source = w.source)
    (queue : w'.control.queue = w.control.queue) (target : w'.target = w.target) : CopySound sync w' c start bs :=
  (driftsSame source queue).sound (congrFun target _) held

theorem Drifts.kept (drifts : Drifts sync w w' r) (same : w'.target r = w.target r) (progress : w'.progress r = w.progress r)
    (mode : ∀ kind c rest, w'.mode = .busy kind (some c) rest → c.ref = r → ∃ kind rest, w.mode = .busy kind (some c) rest)
    (held : Kept sync w r) : Kept sync w' r := by
  refine ⟨drifts.clean same held.clean,drifts.filled same progress held.filled,fun kind c rest at_ here => ?_⟩
  obtain ⟨kind,rest,before⟩ := mode kind c rest at_ here
  obtain ⟨start,bs,sound⟩ := held.running kind c rest before here
  subst here
  exact ⟨start,bs,drifts.sound same sound⟩

end Keep

section Chunks
variable {sync : Sync} {w : World} {c : Copying} {start : Option KeyValues} {bs : List KeyValues} {i : Nat} {chunk : Chunk}
variable {parts : List (Chunk × Slot)}

theorem memSet {α : Type*} {l : List α} {i : Nat} {x y : α} (mem : x ∈ l.set i y) : x = y ∨ x ∈ l :=
  (mem_or_eq_of_mem_set mem).symm

theorem rangesSet {slot slot' : Slot} (part : parts[i]? = some (chunk,slot)) :
    (parts.set i (chunk,slot')).map Prod.fst = parts.map Prod.fst := by
  obtain ⟨short,value⟩ := List.getElem?_eq_some_iff.mp part
  have inside : i < (parts.map Prod.fst).length := by rwa [length_map]
  have same : (parts.map Prod.fst).set i (parts.map Prod.fst)[i] = parts.map Prod.fst := set_getElem_self inside
  rw [getElem_map,value] at same
  rw [map_set,same]

theorem CopySound.put {slot slot' : Slot} (sound : CopySound sync w c start bs) (part : c.parts[i]? = some (chunk,slot))
    (reads : ∀ retried rows, slot' = .reading retried rows → (∀ e ∈ rows, chunk.has sync.le e.1 = true) ∧
      ∀ k, chunk.has sync.le k = true → List.lookup k rows = view w.source c.ref k ∨ Pending sync w c.ref k)
    (lands : slot' = .landed ∨ slot' = .done → ∀ k, chunk.has sync.le k = true → Hole sync w c.ref k) :
    CopySound sync w { c with parts := c.parts.set i (chunk,slot') } start bs := by
  refine ⟨(rangesSet part).trans sound.ranges,sound.base,fun other retried rows mem => ?_,fun other retried rows mem => ?_,
    fun other slot mem => ?_⟩
  · rcases memSet mem with new | old
    · cases new
      exact (reads retried rows rfl).1
    · exact sound.own other retried rows old
  · rcases memSet mem with new | old
    · cases new
      exact (reads retried rows rfl).2
    · exact sound.snapshot other retried rows old
  · rcases memSet mem with new | old
    · cases new
      exact lands
    · exact sound.landed other slot old

theorem CopySound.planned (sync) (w) (r mode) (filled : Filled sync w r) :
    CopySound sync w ⟨r,mode,(planChunks sync.le (w.source r) sync.targetRows (w.progress r).watermark).map
      fun c => (c,.waiting false)⟩ (w.progress r).watermark
        (keysetBoundaries sync.le (w.source r) (chunkRows sync.targetRows) (w.progress r).watermark) := by
  have waits : ∀ chunk slot, (chunk,slot) ∈ (planChunks sync.le (w.source r) sync.targetRows (w.progress r).watermark).map
      (fun c => (c,Slot.waiting false)) → slot = .waiting false := by
    intro chunk slot mem
    obtain ⟨_,_,same⟩ := mem_map.mp mem
    exact (Prod.mk.inj same).2.symm
  refine ⟨?_,filled.1,fun chunk retried rows mem => ?_,fun chunk retried rows mem => ?_,fun chunk slot mem landed => ?_⟩
  · rw [List.map_map]
    exact map_id _
  · cases waits _ _ mem
  · cases waits _ _ mem
  · cases waits _ _ mem
    rcases landed with none | none <;> cases none

theorem CopySound.uncount (sound : CopySound sync w c start bs) {slot} (part : c.parts[i]? = some (chunk,slot)) :
    CopySound sync w { c with parts := c.parts.set i (chunk,.waiting true) } start bs := by
  refine sound.put part (fun _ _ same => by cases same) fun none => ?_
  rcases none with none | none <;> cases none

theorem CopySound.count (sound : CopySound sync w c start bs) (part : c.parts[i]? = some (chunk,.landed)) :
    CopySound sync w { c with parts := c.parts.set i (chunk,.done) } start bs :=
  sound.put part (fun _ _ same => by cases same) fun _ => sound.landed chunk .landed (mem_of_getElem? part) (.inl rfl)

theorem copyChunkLookup (le) (rows) {k} (inside : chunk.has le k = true) :
    List.lookup k (copyChunk le rows chunk) = List.lookup k rows := by
  rw [copyChunk,lookupFilter rows fun k => chunk.has le k,if_pos inside]

theorem CopySound.read (sound : CopySound sync w c start bs) {retried} (part : c.parts[i]? = some (chunk,.waiting retried)) :
    CopySound sync w { c with parts := c.parts.set i (chunk,.reading retried (copyChunk sync.le (w.source c.ref) chunk)) } start bs := by
  refine sound.put part (fun _ rows same => ?_) fun none => by rcases none with none | none <;> cases none
  cases same
  exact ⟨fun e mem => (mem_filter.mp mem).2,fun k inside => .inl (copyChunkLookup _ _ inside)⟩

theorem leadingDone {p} (mem : p ∈ parts.take (leading parts)) : p ∈ parts ∧ p.2.isDone = true := by
  have front : parts.take (leading parts) = parts.takeWhile fun p => p.2.isDone :=
    (prefix_iff_eq_take.mp ( takeWhile_prefix _)).symm
  rw [front] at mem
  have counted := mem_takeWhile_imp mem
  exact ⟨( takeWhile_prefix _).subset mem,counted⟩

theorem doneOf {slot : Slot} (counted : slot.isDone = true) : slot = .done := by
  cases slot <;> first | rfl | cases counted

theorem checkpointCovers (le : KeyValues → KeyValues → Bool) {before : List (Chunk × Slot)} {p}
    (ranges : parts.map Prod.fst = buildKeysetRangesFrom start bs) (saved : checkpoint before parts = some p) :
    p.done = false ∧ (∃ b ∈ bs, p.watermark = some b) ∧
      ∀ k, above le start k = true → above le p.watermark k = false → ∃ q ∈ parts, q.2 = .done ∧ q.1.has le k = true := by
  unfold checkpoint at saved
  split at saved <;> try contradiction
  rename_i moved
  cases saved
  have short : leading parts-1 < parts.length := by omega
  have place : (buildKeysetRangesFrom start bs)[leading parts-1]? = some parts[leading parts-1].1 := by
    rw [← ranges,getElem?_map,getElem?_eq_getElem short,Option.map_some]
  have more : leading parts-1+1 < (buildKeysetRangesFrom start bs).length := by
    rw [← ranges,length_map]
    omega
  obtain ⟨b,known,bound⟩ := rangesBound place more
  rw [getElem?_eq_getElem short]
  dsimp only [Option.bind]
  rw [bound]
  refine ⟨rfl,⟨b,known,rfl⟩,fun k floor below => ?_⟩
  obtain ⟨d,mem,inside⟩ := prefixCovers place bound (by simpa [above] using below) floor
  rw [← ranges,← map_take,Nat.sub_add_cancel (by omega)] at mem
  obtain ⟨q,front,rfl⟩ := mem_map.mp mem
  obtain ⟨listed,counted⟩ := leadingDone front
  exact ⟨q,listed,doneOf counted,inside⟩

theorem CopySound.checkpointed (sound : CopySound sync w c start bs) {before p} (saved : checkpoint before c.parts = some p) :
    p.done = false ∧ ∀ k, above sync.le p.watermark k = false → Hole sync w c.ref k := by
  obtain ⟨undone,_,covers⟩ := checkpointCovers sync.le sound.ranges saved
  refine ⟨undone,fun k below => ?_⟩
  by_cases floor : above sync.le start k = true
  · obtain ⟨q,mem,counted,inside⟩ := covers k floor below
    exact sound.landed q.1 q.2 mem (.inr counted) k inside
  · exact sound.base k (Bool.eq_false_iff.mpr floor)

theorem CopySound.finished (sound : CopySound sync w c start bs) (all : ∀ p ∈ c.parts, p.2.isDone = true) (k) :
    Hole sync w c.ref k := by
  by_cases floor : above sync.le start k = true
  · have covered : ∃ d ∈ buildKeysetRangesFrom start bs, d.has sync.le k = true := rangesCover floor
    obtain ⟨d,mem,inside⟩ := covered
    rw [← sound.ranges] at mem
    obtain ⟨p,known,rfl⟩ := mem_map.mp mem
    exact sound.landed p.1 p.2 known (.inr (doneOf (all p known))) k inside
  · exact sound.base k (Bool.eq_false_iff.mpr floor)

theorem loadedRows {b b' r rows mode} (ok : bulkLoad sync b r rows mode = some b') : b' = upsert b r rows := by
  unfold bulkLoad accept at ok
  split at ok <;> repeat (split at ok <;> try contradiction)
  · exact (Option.some.inj ok).symm
  · exact (Option.some.inj ok).symm

end Chunks

section Land
variable {sync : Sync} {w : World} {c : Copying} {start : Option KeyValues} {bs : List KeyValues} {i : Nat} {chunk : Chunk}
  {retried : Bool} {rows : Rows} {mode : Mode}

theorem landHole {r k} (held : Hole sync w r k) :
    Hole sync { w with target := upsert w.target c.ref rows, mode := mode } r k := by
  intro none
  have before := none
  simp only [viewUpsert] at before
  split at before
  · rw [Option.or_eq_none_iff] at before
    rcases held before.2 with equal | pending
    · exact .inl (none.trans (before.2.symm.trans equal))
    · exact .inr pending
  · rcases held before with equal | pending
    · exact .inl (none.trans (before.symm.trans equal))
    · exact .inr pending

section
variable (sound : CopySound sync w c start bs) (part : c.parts[i]? = some (chunk,.reading retried rows))
include sound part

theorem CopySound.landSafe {k x}
    (row : List.lookup k rows = some x) : Safe sync { w with target := upsert w.target c.ref rows, mode := mode } c.ref k := by
  have mem := mem_of_getElem? part
  obtain ⟨e,inside,rfl⟩ := lookupMem row
  rcases sound.snapshot chunk retried rows mem e.1 (sound.own chunk retried rows mem e inside) with same | pending
  · refine .inl ?_
    rw [viewUpsert,if_pos rfl,row,Option.some_or,← same,row]
  · exact .inr pending

theorem CopySound.landClean
    (clean : Clean sync w c.ref) : Clean sync { w with target := upsert w.target c.ref rows, mode := mode } c.ref := by
  intro k there
  cases row : List.lookup k rows with
  | some x => exact sound.landSafe part row
  | none =>
    have same : view (upsert w.target c.ref rows) c.ref k = view w.target c.ref k := by
      rw [viewUpsert,if_pos rfl,row,Option.none_or]
    rcases clean k (same ▸ there) with equal | pending
    · exact .inl (same.trans equal)
    · exact .inr pending

theorem CopySound.land : CopySound sync { w with target := upsert w.target c.ref rows, mode := mode }
      { c with parts := c.parts.set i (chunk,.landed) } start bs := by
  have moved : CopySound sync { w with target := upsert w.target c.ref rows, mode := mode } c start bs :=
    ⟨sound.ranges,fun k below => landHole (sound.base k below),sound.own,sound.snapshot,
      fun chunk slot mem landed k inside => landHole (sound.landed chunk slot mem landed k inside)⟩
  refine moved.put part (fun _ _ same => by cases same) fun _ k inside none => ?_
  have before := none
  rw [viewUpsert,if_pos rfl,Option.or_eq_none_iff] at before
  rcases sound.snapshot chunk retried rows (mem_of_getElem? part) k inside with same | pending
  · exact .inl (none.trans (before.1.symm.trans same))
  · exact .inr pending

end

end Land

section Steps
variable {sync : Sync} {w w' : World} {a : Act} {r : TableRef}

theorem instructDrifts {i after} (did : instruct sync w i = some after) :
    after.source = w.source ∧ after.control.queue = w.control.queue ∧ after.mode = w.mode ∧
      (i ≠ .clear r → after.target r = w.target r) ∧ (i ≠ .reset r → after.progress r = w.progress r) := by
  cases i with
  | copy t => cases did
  | reset t =>
    cases did
    refine ⟨rfl,rfl,rfl,fun _ => rfl,fun other => ?_⟩
    have apart : r ≠ t := fun same => other (same ▸ rfl)
    simp [World.saveProgress,apart]
  | clear t =>
    obtain ⟨b,cleared,rfl⟩ := Option.map_eq_some_iff.mp did
    refine ⟨rfl,rfl,rfl,fun other => ?_,fun _ => rfl⟩
    have apart : r ≠ t := fun same => other (same ▸ rfl)
    unfold accept at cleared
    split at cleared <;> cases cleared
    simp [erase,apart]
  | _ => cases did; exact ⟨rfl,rfl,rfl,fun _ => rfl,fun _ => rfl⟩

theorem Kept.same (kept : Kept sync w r) (source : w'.source = w.source) (queue : w'.control.queue = w.control.queue)
    (target : w'.target r = w.target r) (progress : w'.progress r = w.progress r)
    (mode : ∀ kind c rest, w'.mode = .busy kind (some c) rest → c.ref ≠ r) : Kept sync w' r :=
  (driftsSame source queue).kept target progress (fun kind c rest at_ here => absurd here (mode kind c rest at_)) kept

theorem Kept.failed (kept : Kept sync w r) (kind) : Kept sync (w.fail kind) r := by
  cases kind <;> exact kept.same rfl rfl rfl rfl fun _ _ _ now => by cases now

theorem Kept.onward (kept : Kept sync w r) {kind c rest c'} (at_ : w'.mode = .busy kind (some c') rest) (here : c.ref = r)
    (before : ∃ kind rest, w.mode = .busy kind (some c) rest)
    (clean : ∀ start bs, CopySound sync w c start bs → Clean sync w' r)
    (filled : ∀ start bs, CopySound sync w c start bs → Filled sync w' r)
    (sound : ∀ start bs, CopySound sync w c start bs → CopySound sync w' c' start bs) : Kept sync w' r := by
  obtain ⟨kind,rest,before⟩ := before
  obtain ⟨start,bs,held⟩ := kept.running kind c rest before here
  refine ⟨clean start bs held,filled start bs held,fun kind d rest now _ => ?_⟩
  cases at_.symm.trans now
  exact ⟨start,bs,sound start bs held⟩

theorem keptMoves (moves : Moves sync w a w') (captured : w.captured = true) (apart : a.pass = false)
    (uncleared : ∀ kind rest, w.mode = .busy kind none (.clear r::rest) → a ≠ .exec) (kept : Kept sync w r) : Kept sync w' r := by
  cases moves with
  | commit held captures =>
    rename_i changes control
    rcases captures with ⟨_,captures⟩ | ⟨uncaptured,_⟩
    · have drifts : Drifts sync w { w with source := changes.foldl Change.apply w.source, control := control } r :=
        commitDrifts captures
      exact drifts.kept rfl rfl (fun kind c rest at_ _ => ⟨kind,rest,at_⟩) kept
    · rw [captured] at uncaptured
      cases uncaptured
  | drained idle => cases apart
  | enforced idle => cases apart
  | skip at_ copied => exact kept.same rfl rfl rfl rfl fun _ _ _ now => absurd now nextMode
  | plan at_ copied =>
    refine ⟨kept.clean,kept.filled,fun kind c rest now here => ?_⟩
    cases now
    subst here
    exact ⟨_,_,CopySound.planned sync _ _ _ kept.filled⟩
  | read at_ part =>
    rename_i i kind c rest chunk retried
    by_cases here : c.ref = r
    · refine kept.onward rfl here ⟨kind,rest,at_⟩ (fun _ _ _ => kept.clean) (fun _ _ _ => kept.filled) fun start bs held => ?_
      exact (held.read part).same rfl rfl rfl
    · refine kept.same rfl rfl rfl rfl fun kind d rest now => ?_
      cases now
      exact here
  | land at_ part loaded =>
    rename_i i kind c rest chunk retried rows b
    cases loadedRows loaded
    by_cases here : c.ref = r
    · subst here
      refine kept.onward rfl rfl ⟨kind,rest,at_⟩ (fun _ _ held => held.landClean part kept.clean) (fun _ _ _ => ?_)
        fun _ _ held => held.land part
      exact ⟨fun k below => landHole (kept.filled.1 k below),fun copied k => landHole (kept.filled.2 copied k)⟩
    · refine kept.same rfl rfl ?_ rfl fun kind d rest now => ?_
      · exact update_of_ne (Ne.symm here) _ _
      · cases now
        exact here
  | refused at_ part loaded => exact kept.failed _
  | retry at_ part uncounted =>
    rename_i i kind c rest chunk slot
    by_cases here : c.ref = r
    · refine kept.onward rfl here ⟨kind,rest,at_⟩ (fun _ _ _ => kept.clean) (fun _ _ _ => kept.filled) fun start bs held => ?_
      exact (held.uncount part).same rfl rfl rfl
    · refine kept.same rfl rfl rfl rfl fun kind d rest now => ?_
      cases now
      exact here
  | mark at_ part =>
    rename_i i kind c rest chunk
    by_cases here : c.ref = r
    · subst here
      cases saved : checkpoint c.parts (c.parts.set i (chunk,.done)) with
      | none =>
        refine kept.onward rfl rfl ⟨kind,rest,at_⟩ (fun _ _ _ => kept.clean) (fun _ _ _ => kept.filled) fun start bs held => ?_
        exact (held.count part).same rfl rfl rfl
      | some p =>
        refine kept.onward rfl rfl ⟨kind,rest,at_⟩ (fun _ _ _ => kept.clean) (fun start bs held => ?_) fun start bs held => ?_
        · obtain ⟨open_,passed⟩ := (held.count part).checkpointed saved
          unfold Filled
          rw [show ((w.parts kind c rest i (chunk,.done)).record c.ref (some p)).progress c.ref = p from update_self _ _ _]
          exact ⟨passed,fun copied => by rw [open_] at copied; cases copied⟩
        · exact (held.count part).same rfl rfl rfl
    · have mode : ∀ kind' d rest', Mode.busy kind (some { c with parts := c.parts.set i (chunk,.done) }) rest =
          .busy kind' (some d) rest' → d.ref ≠ r := by
        intro kind' d rest' now
        cases now
        exact here
      cases checkpoint c.parts (c.parts.set i (chunk,.done)) with
      | none => exact kept.same rfl rfl rfl rfl mode
      | some p => exact kept.same rfl rfl rfl (update_of_ne (Ne.symm here) _ _) mode
  | finish at_ all =>
    rename_i kind c i rest
    by_cases here : c.ref = r
    · subst here
      obtain ⟨start,bs,held⟩ := kept.running kind c (i::rest) at_ rfl
      refine ⟨kept.clean,?_,fun _ _ _ now => absurd now nextMode⟩
      unfold Filled
      rw [show ((w.saveProgress c.ref ⟨none,true⟩).next kind rest).progress c.ref = ⟨none,true⟩ from update_self _ _ _]
      exact ⟨fun k below => (Bool.noConfusion below),fun _ k => held.finished all k⟩
    · refine kept.same rfl rfl rfl ?_ fun _ _ _ now => absurd now nextMode
      exact update_of_ne (Ne.symm here) _ _
  | exec at_ did =>
    rename_i kind i rest after
    obtain ⟨source,queue,_,target,progress⟩ := instructDrifts did
    have uncleared : i ≠ .clear r := fun same => uncleared kind rest (same ▸ at_) rfl
    by_cases forgets : i = .reset r
    · subst forgets
      cases did
      exact ⟨kept.clean,filledFresh (update_self _ _ _),fun _ _ _ now => absurd now nextMode⟩
    · exact kept.same source queue (target uncleared) (progress forgets) fun _ _ _ now => absurd now nextMode
  | failed at_ _ did => exact kept.failed _
  | _ => exact kept.same rfl rfl rfl rfl fun _ _ _ at_ => by cases at_

theorem doneSafe {r} (kept : Kept sync w r) (copied : (w.progress r).done = true) (k) : Safe sync w r k := by
  by_cases there : view w.target r k = none
  · exact kept.filled.2 copied k there
  · exact kept.clean k there

end Steps

end Replicare.CopyCovers
