import Replicare.Bringup

/-! The copy of a bring-up once the source is quiet. -/
namespace Replicare.QuietCopy
open Engine hiding Component
open Relations Consume Stored Enforce Runs Chunks CopyRun CopyCovers CopyProgram Bringup List Function

def Precedes (sync : Sync) (r t : TableRef) : Prop := ∃ before after, sync.components.flatten = before++t::after ∧ r ∈ before

def ParentsFirst (sync : Sync) : Prop := ∀ fk ∈ sync.fks, fk.child ∈ sync.components.flatten ∧ Precedes sync fk.parent fk.child

def Left (sync : Sync) (w : World) (r : TableRef) (k : KeyValues) : Prop :=
  (w.progress r).done = false ∧ above sync.le (w.progress r).watermark k = true
instance (sync w r k) : Decidable (Left sync w r k) := inferInstanceAs (Decidable (_ ∧ _))

def settled (sync : Sync) (w : World) (r : TableRef) (k : KeyValues) : Option Row :=
  if Left sync w r k then (view w.source r k).or (view w.target r k) else view w.target r k

def Found (sync : Sync) (w : World) (fk : ForeignKey) (x : Row) : Prop :=
  ∃ k parent, settled sync w fk.parent k = some parent ∧ references fk x parent

def Rooted (sync : Sync) (w : World) : Prop :=
  ∀ fk ∈ sync.fks, ∀ k x, Left sync w fk.child k → view w.source fk.child k = some x → (∀ c ∈ fk.childCols, x c ≠ none) →
    Found sync w fk x

section Order
variable {sync : Sync} {w w' : World} {a : Act} {r t : TableRef} {before rest : List Instr}

def copies : Instr → Option TableRef
  | .copy r => some r
  | _ => none

theorem copiesOf : (bringup sync).filterMap copies = sync.components.flatten := by
  have each : ∀ order : List TableRef, (copyAndCutover order).filterMap copies = order := by
    intro order
    have own : (order.map Instr.copy).filterMap copies = order := by
      rw [filterMap_map]
      exact filterMap_some
    have others : (order.map Instr.cut).filterMap copies = [] := by
      rw [filterMap_map]
      exact filterMap_eq_nil_iff.mpr fun _ _ => rfl
    rw [copyAndCutover,filterMap_append,own,others,append_nil]
  have all : ∀ orders : List (List TableRef), (orders.flatMap copyAndCutover).filterMap copies = orders.flatten := by
    intro orders
    induction orders with
    | nil => rfl
    | cons order orders ih => rw [flatMap_cons,filterMap_append,each,ih,flatten_cons]
  rw [bringup,filterMap_cons_none rfl,all]

theorem memCopies {program : List Instr} : r ∈ program.filterMap copies ↔ .copy r ∈ program := by
  rw [mem_filterMap]
  refine ⟨fun ⟨i,mem,same⟩ => ?_,fun mem => ⟨_,mem,rfl⟩⟩
  cases i <;> cases same
  exact mem

theorem copiedBefore (precedes : Precedes sync r t) (split : bringup sync = before++.copy t::rest) : .copy r ∈ before := by
  obtain ⟨front,back,tables,mem⟩ := precedes
  have distinct := sync.distinct
  rw [tables] at distinct
  have out : t ∉ front := fun inside => (nodup_append.mp distinct).2.2 t inside t mem_cons_self rfl
  have same : front++t::back = before.filterMap copies++t::rest.filterMap copies := by
    rw [← tables,← copiesOf,split,filterMap_append]
    rfl
  exact memCopies.mp (passedBefore same out mem)

theorem precedesApart (precedes : Precedes sync r t) : r ≠ t := by
  rintro rfl
  obtain ⟨front,back,tables,mem⟩ := precedes
  have distinct := sync.distinct
  rw [tables] at distinct
  exact (nodup_append.mp distinct).2.2 r mem r mem_cons_self rfl

/- Behind a table that is not done nothing has been copied. -/
structure Ordered (sync : Sync) (w : World) : Prop where
  accepted : Consistent sync.fks (view w.target)
  behind : ∀ r t, Precedes sync r t → (w.progress r).done = false → w.target t = [] ∧ w.progress t = ⟨none,false⟩

theorem Ordered.same (held : Ordered sync w) (target : w'.target = w.target) (progress : w'.progress = w.progress) : Ordered sync w' := by
  refine ⟨by rw [target]; exact held.accepted,fun r t precedes undone => ?_⟩
  rw [progress] at undone ⊢
  rw [target]
  exact held.behind r t precedes undone

theorem failSame (kind) : (w.fail kind).target = w.target ∧ (w.fail kind).progress = w.progress := by
  cases kind <;> exact ⟨rfl,rfl⟩

theorem failSource (kind) : (w.fail kind).source = w.source := by
  cases kind <;> rfl

theorem bulkAccepted {b b' rows mode} (ok : bulkLoad sync b r rows mode = some b') : Consistent sync.fks (view b') := by
  unfold bulkLoad accept at ok
  split at ok <;> repeat (split at ok <;> try contradiction)
  · cases ok
    assumption
  · cases ok
    assumption

theorem Ordered.copying (held : Ordered sync w) (earlier : ∀ r, Precedes sync r t → (w.progress r).done = true)
    (accepted : Consistent sync.fks (view w'.target)) (target : ∀ s, s ≠ t → w'.target s = w.target s)
    (progress : ∀ s, s ≠ t → w'.progress s = w.progress s) (undone : (w.progress t).done = false) : Ordered sync w' := by
  refine ⟨accepted,fun r s precedes now => ?_⟩
  have was : (w.progress r).done = false := by
    by_cases here : r = t
    · rw [here]
      exact undone
    · rwa [progress r here] at now
  have apart : s ≠ t := by
    rintro rfl
    rw [earlier r precedes] at was
    cases was
  rw [target s apart,progress s apart]
  exact held.behind r s precedes was

theorem atCopy {c} {rest : List Instr} (held : Position sync w) (at_ : w.mode = .busy .bringup (some c) rest) :
    (∀ r, Precedes sync r c.ref → (w.progress r).done = true) ∧ (w.progress c.ref).done = false := by
  obtain ⟨before,placed⟩ := held _ _ _ at_
  obtain ⟨⟨tail,head⟩,undone⟩ := placed.current c rfl
  subst head
  exact ⟨fun r precedes => placed.copied r (copiedBefore precedes (Eq.symm placed.known)),undone⟩

def OnlyBringup (w : World) : Prop := ∀ kind current rest, w.mode = .busy kind current rest → kind = .bringup

theorem instructBringup {i after rest} (held : Position sync w) (at_ : w.mode = .busy .bringup none (i::rest))
    (did : instruct sync w i = some after) : after.source = w.source ∧ after.target = w.target ∧ after.progress = w.progress := by
  rcases bringupAt held at_ with rfl | ⟨t,rfl⟩ | ⟨t,rfl⟩
  · cases did
    exact ⟨rfl,rfl,rfl⟩
  · cases did
  · cases did
    exact ⟨rfl,rfl,rfl⟩

theorem orderedMoves (moves : Moves sync w a w') (only : ofBringup a = true) (position : Position sync w) (kind : OnlyBringup w)
    (held : Ordered sync w) : Ordered sync w' := by
  cases moves with
  | reseed | drained | enforced => cases only
  | land at_ part loaded =>
    cases kind _ _ _ at_
    obtain ⟨earlier,undone⟩ := atCopy position at_
    refine held.copying earlier (bulkAccepted loaded) (fun s other => ?_) (fun _ _ => rfl) undone
    rw [loadedRows loaded]
    exact update_of_ne other _ _
  | refused | failed => exact held.same (failSame _).1 (failSame _).2
  | mark at_ part =>
    cases kind _ _ _ at_
    obtain ⟨earlier,undone⟩ := atCopy position at_
    rename_i i c rest chunk
    cases checkpoint c.parts (c.parts.set i (chunk,.done)) with
    | none => exact held.same rfl rfl
    | some p => exact held.copying earlier held.accepted (fun _ _ => rfl) (fun s other => update_of_ne other _ _) undone
  | finish at_ all =>
    cases kind _ _ _ at_
    obtain ⟨earlier,undone⟩ := atCopy position at_
    exact held.copying earlier held.accepted (fun _ _ => rfl) (fun s other => update_of_ne other _ _) undone
  | exec at_ did =>
    cases kind _ _ _ at_
    obtain ⟨_,target,progress⟩ := instructBringup position at_ did
    exact held.same target progress
  | _ => exact held.same rfl rfl

theorem orderedRun {w₀ acts} (initial : Initial w₀) (only : ∀ a ∈ acts, ofBringup a = true)
    (ran : run (step sync) w₀ acts = some w) : Position sync w ∧ OnlyBringup w ∧ Ordered sync w := by
  have start : Position sync w₀ ∧ OnlyBringup w₀ ∧ Ordered sync w₀ := by
    refine ⟨positionIdle fun _ _ _ none => ?_,fun _ _ _ none => ?_,fun fk mem k x row => ?_,fun r t _ _ => ⟨initial.empty t,initial.fresh t⟩⟩
    · cases initial.idle.symm.trans none
    · cases initial.idle.symm.trans none
    · rw [view,initial.empty] at row
      cases row
  have along : Along (step sync) (fun _ a => ofBringup a = true) w₀ acts := alongOfAll fun a mem _ => only a mem
  refine runKeeps (P := fun w => Position sync w ∧ OnlyBringup w ∧ Ordered sync w) (fun w a w' held only ok => ?_) along ran start
  have moves := stepMoves ok
  exact ⟨positionMoves moves held.1,kindMoves moves only held.2.1,orderedMoves moves only held.1 held.2.1 held.2.2⟩

end Order

section Quiet
variable {sync : Sync} {w w' : World} {c : Copying} {start : Option KeyValues} {bs : List KeyValues} {i : Nat} {chunk : Chunk}

def Slot.loaded : Slot → Bool
  | .landed => true
  | .done => true
  | _ => false

structure Fetching (sync : Sync) (w : World) (c : Copying) (start : Option KeyValues) (bs : List KeyValues) : Prop where
  ranges : c.parts.map Prod.fst = buildKeysetRangesFrom start bs
  cuts : Cuts sync.le start bs
  waiting : ∀ chunk retried, (chunk,Slot.waiting retried) ∈ c.parts → retried = false
  reading : ∀ chunk retried rows, (chunk,Slot.reading retried rows) ∈ c.parts →
    retried = false ∧ rows = copyChunk sync.le (w.source c.ref) chunk
  landed : ∀ p ∈ c.parts, Slot.loaded p.2 = true → ∀ k x, p.1.has sync.le k = true → view w.source c.ref k = some x →
    view w.target c.ref k = some x
  floor : ∀ k, above sync.le (w.progress c.ref).watermark k = true → above sync.le start k = true
  passed : ∀ k x, above sync.le start k = true → above sync.le (w.progress c.ref).watermark k = false →
    view w.source c.ref k = some x → view w.target c.ref k = some x
  direct : c.mode = .direct → ∀ k, view w.target c.ref k ≠ none → ∃ p ∈ c.parts, Slot.loaded p.2 = true ∧ p.1.has sync.le k = true

theorem Fetching.same (held : Fetching sync w c start bs) (source : w'.source = w.source) (target : w'.target = w.target)
    (progress : w'.progress = w.progress) : Fetching sync w' c start bs := by
  obtain ⟨ranges,cuts,waiting,reading,landed,floor,passed,direct⟩ := held
  rw [← source] at reading landed passed
  rw [← target] at landed passed direct
  rw [← progress] at floor passed
  exact ⟨ranges,cuts,waiting,reading,landed,floor,passed,direct⟩

theorem Fetching.planned (order : KeyOrder sync.le) (w) (r) (probed) :
    Fetching sync w ⟨r,resolveLoadMode w.target r probed,(planChunks sync.le (w.source r) sync.targetRows (w.progress r).watermark).map
      fun c => (c,.waiting false)⟩ (w.progress r).watermark
        (keysetBoundaries sync.le (w.source r) (chunkRows sync.targetRows) (w.progress r).watermark) := by
  have waits : ∀ p ∈ (planChunks sync.le (w.source r) sync.targetRows (w.progress r).watermark).map
      (fun c => (c,Slot.waiting false)), p.2 = .waiting false := by
    intro p mem
    obtain ⟨_,_,rfl⟩ := mem_map.mp mem
    rfl
  refine ⟨?_,⟨boundariesSorted order _ _ _,fun b => boundariesAbove⟩,fun chunk retried mem => ?_,fun chunk retried rows mem => ?_,
    fun p mem loaded => ?_,fun k floor => floor,fun k x floor below => ?_,fun direct k there => ?_⟩
  · rw [List.map_map]
    exact map_id _
  · cases waits _ mem
    rfl
  · cases waits _ mem
  · rw [waits p mem] at loaded
    cases loaded
  · rw [floor] at below
    cases below
  · unfold resolveLoadMode at direct
    split at direct
    · rename_i empty
      refine absurd ?_ there
      rw [view,empty.2]
      rfl
    · cases direct

theorem memSetOther {α : Type*} {l : List α} {i : Nat} {p q x : α} (mem : p ∈ l) (place : l[i]? = some q) (other : p ≠ q) :
    p ∈ l.set i x := by
  obtain ⟨j,short,rfl⟩ := mem_iff_getElem.mp mem
  have apart : i ≠ j := by
    rintro rfl
    exact other (Option.some.inj ((getElem?_eq_getElem short).symm.trans place))
  refine mem_of_getElem? (i := j) ?_
  rw [getElem?_set_ne apart]
  exact getElem?_eq_getElem short

theorem Fetching.put {slot slot' : Slot} (held : Fetching sync w c start bs) (part : c.parts[i]? = some (chunk,slot))
    (waits : ∀ retried, slot' = .waiting retried → retried = false)
    (reads : ∀ retried rows, slot' = .reading retried rows → retried = false ∧ rows = copyChunk sync.le (w.source c.ref) chunk)
    (lands : Slot.loaded slot' = true → ∀ k x, chunk.has sync.le k = true → view w.source c.ref k = some x →
      view w.target c.ref k = some x) (keeps : Slot.loaded slot = true → Slot.loaded slot' = true) :
    Fetching sync w { c with parts := c.parts.set i (chunk,slot') } start bs := by
  refine ⟨(rangesSet part).trans held.ranges,held.cuts,fun other retried mem => ?_,fun other retried rows mem => ?_,
    fun p mem => ?_,held.floor,held.passed,fun direct k there => ?_⟩
  · rcases memSet mem with new | old
    · cases new
      exact waits retried rfl
    · exact held.waiting other retried old
  · rcases memSet mem with new | old
    · cases new
      exact reads retried rows rfl
    · exact held.reading other retried rows old
  · rcases memSet mem with rfl | old
    · exact lands
    · exact held.landed p old
  · obtain ⟨p,mem,loaded,inside⟩ := held.direct direct k there
    by_cases here : p = (chunk,slot)
    · subst here
      exact ⟨_,mem_set (List.getElem?_eq_some_iff.mp part).1 _,keeps loaded,inside⟩
    · exact ⟨p,memSetOther mem part here,loaded,inside⟩

theorem landView (b) (rows) (r) (k) : view (upsert b r (copyChunk sync.le rows chunk)) r k =
    if chunk.has sync.le k = true then (List.lookup k rows).or (view b r k) else view b r k := by
  rw [viewUpsert,if_pos rfl,copyChunk,lookupFilter rows fun k => chunk.has sync.le k]
  by_cases inside : chunk.has sync.le k = true
  · rw [if_pos inside,if_pos inside]
  · rw [if_neg inside,if_neg inside,Option.none_or]

theorem landKeeps {b rows r k x} (row : List.lookup k rows = some x) (there : chunk.has sync.le k = true ∨ view b r k = some x) :
    view (upsert b r (copyChunk sync.le rows chunk)) r k = some x := by
  rw [landView,row]
  split
  · rfl
  · exact there.resolve_left ‹_›

theorem Fetching.land {retried rows mode} (held : Fetching sync w c start bs) (part : c.parts[i]? = some (chunk,.reading retried rows)) :
    Fetching sync { w with target := upsert w.target c.ref rows, mode := mode } { c with parts := c.parts.set i (chunk,.landed) } start bs := by
  have mem := mem_of_getElem? part
  obtain ⟨_,rfl⟩ := held.reading chunk retried rows mem
  refine ⟨(rangesSet part).trans held.ranges,held.cuts,fun other retried mem => ?_,fun other retried rows mem => ?_,
    fun p mem loaded k x inside row => ?_,held.floor,fun k x floor below row => ?_,fun direct k there => ?_⟩
  · rcases memSet mem with new | old
    · cases new
    · exact held.waiting other retried old
  · rcases memSet mem with new | old
    · cases new
    · exact held.reading other retried rows old
  · rcases memSet mem with rfl | old
    · exact landKeeps row (.inl inside)
    · exact landKeeps row (.inr (held.landed p old loaded k x inside row))
  · exact landKeeps row (.inr (held.passed k x floor below row))
  · by_cases inside : chunk.has sync.le k = true
    · exact ⟨_,mem_set (List.getElem?_eq_some_iff.mp part).1 _,rfl,inside⟩
    · have was : view w.target c.ref k ≠ none := by
        intro none
        rw [landView,if_neg inside] at there
        exact there none
      obtain ⟨p,known,loaded,inside⟩ := held.direct direct k was
      refine ⟨p,memSetOther known part ?_,loaded,inside⟩
      rintro rfl
      cases loaded

theorem Fetching.count (held : Fetching sync w c start bs) (part : c.parts[i]? = some (chunk,.landed)) :
    Fetching sync w { c with parts := c.parts.set i (chunk,.done) } start bs :=
  held.put part (fun _ none => by cases none) (fun _ _ none => by cases none)
    (fun _ k x => held.landed _ (mem_of_getElem? part) rfl k x) fun _ => rfl

theorem Fetching.passes {before p} (order : KeyOrder sync.le) (held : Fetching sync w c start bs)
    (saved : checkpoint before c.parts = some p) (undone : (w.progress c.ref).done = false) (k) :
    ((p.done = false ∧ above sync.le p.watermark k = true) ↔ Left sync w c.ref k) ∨
      ∀ x, view w.source c.ref k = some x → view w.target c.ref k = some x := by
  obtain ⟨open_,⟨b,known,watermark⟩,covers⟩ := checkpointCovers sync.le held.ranges saved
  cases was : above sync.le (w.progress c.ref).watermark k with
  | true =>
    cases now : above sync.le p.watermark k with
    | true => exact .inl ⟨fun _ => ⟨undone,was⟩,fun _ => ⟨open_,rfl⟩⟩
    | false =>
      obtain ⟨q,mem,counted,inside⟩ := covers k (held.floor k was) now
      exact .inr fun x row => held.landed q mem (by rw [counted]; rfl) k x inside row
  | false =>
    cases now : above sync.le p.watermark k with
    | true =>
      rw [watermark] at now
      exact .inr fun x row => held.passed k x (aboveTrans order (held.cuts.floor b known) now) was row
    | false =>
      refine .inl ⟨fun left => ?_,fun left => ?_⟩
      · cases left.2
      · cases was.symm.trans left.2

theorem Fetching.checkpointed {before p mode} (order : KeyOrder sync.le) (held : Fetching sync w c start bs)
    (saved : checkpoint before c.parts = some p) : Fetching sync { w.saveProgress c.ref p with mode := mode } c start bs := by
  obtain ⟨_,⟨b,known,watermark⟩,covers⟩ := checkpointCovers sync.le held.ranges saved
  have now : (w.saveProgress c.ref p).progress c.ref = p := update_self _ _ _
  refine ⟨held.ranges,held.cuts,held.waiting,held.reading,held.landed,fun k floor => ?_,fun k x floor below row => ?_,held.direct⟩
  · rw [now,watermark] at floor
    exact aboveTrans order (held.cuts.floor b known) floor
  · rw [now] at below
    obtain ⟨q,mem,counted,inside⟩ := covers k floor below
    exact held.landed q mem (by rw [counted]; rfl) k x inside row

theorem Fetching.finished (held : Fetching sync w c start bs) (all : ∀ p ∈ c.parts, p.2.isDone = true) {k x}
    (left : Left sync w c.ref k) (row : view w.source c.ref k = some x) : view w.target c.ref k = some x := by
  have covered : ∃ d ∈ buildKeysetRangesFrom start bs, d.has sync.le k = true := rangesCover (held.floor k left.2)
  obtain ⟨d,mem,inside⟩ := covered
  rw [← held.ranges] at mem
  obtain ⟨p,known,rfl⟩ := mem_map.mp mem
  exact held.landed p known (by rw [doneOf (all p known)]; rfl) k x inside row

end Quiet

section Agree
variable {sync : Sync} {w w' : World} {t : TableRef}

theorem leftSaved {r p k mode} : Left sync { w.saveProgress r p with mode := mode } r k ↔
    p.done = false ∧ above sync.le p.watermark k = true := by
  unfold Left
  rw [show (w.saveProgress r p).progress r = p from update_self _ _ _]

structure Agrees (sync : Sync) (w w' : World) : Prop where
  source : w'.source = w.source
  settled : ∀ r k, settled sync w' r k = settled sync w r k
  left : ∀ fk ∈ sync.fks, ∀ k x, view w.source fk.child k = some x → (∀ c ∈ fk.childCols, x c ≠ none) →
    (Left sync w' fk.child k ↔ Left sync w fk.child k) ∨ Found sync w fk x

theorem Agrees.found (agrees : Agrees sync w w') {fk x} : Found sync w' fk x ↔ Found sync w fk x := by
  unfold Found
  simp only [agrees.settled]

theorem Agrees.rooted (agrees : Agrees sync w w') : Rooted sync w' ↔ Rooted sync w := by
  refine ⟨fun rooted fk mem k x left row whole => ?_,fun rooted fk mem k x left row whole => ?_⟩
  · rcases agrees.left fk mem k x row whole with same | found
    · exact agrees.found.mp (rooted fk mem k x (same.mpr left) (agrees.source ▸ row) whole)
    · exact found
  · rw [agrees.source] at row
    rcases agrees.left fk mem k x row whole with same | found
    · exact agrees.found.mpr (rooted fk mem k x (same.mp left) row whole)
    · exact agrees.found.mpr found

theorem agreesSame (source : w'.source = w.source) (target : w'.target = w.target) (progress : w'.progress = w.progress) :
    Agrees sync w w' := by
  have left : ∀ r k, Left sync w' r k ↔ Left sync w r k := fun r k => by unfold Left; rw [progress]
  refine ⟨source,fun r k => ?_,fun fk _ k _ _ _ => .inl (left fk.child k)⟩
  unfold QuietCopy.settled
  simp only [left,source,target]

theorem foundTarget (accepted : Consistent sync.fks (view w.target)) {fk k x} (mem : fk ∈ sync.fks)
    (copied : (w.progress fk.parent).done = true) (row : view w.target fk.child k = some x) (whole : ∀ c ∈ fk.childCols, x c ≠ none) :
    Found sync w fk x := by
  obtain ⟨kp,parent,there,refers⟩ := accepted fk mem k x row whole
  refine ⟨kp,parent,?_,refers⟩
  have past : ¬Left sync w fk.parent kp := by
    rintro ⟨undone,_⟩
    rw [copied] at undone
    cases undone
  rw [settled,if_neg past]
  exact there

theorem settledPlaced {r k} (placed : ∀ x, view w.source r k = some x → view w.target r k = some x) :
    settled sync w r k = view w.target r k := by
  unfold settled
  split
  · cases row : view w.source r k with
    | none => exact Option.none_or
    | some x => rw [placed x row,Option.some_or]
  · rfl

theorem agreesProgress (parents : ParentsFirst sync) (accepted : Consistent sync.fks (view w.target)) (source : w'.source = w.source)
    (target : w'.target = w.target) (progress : ∀ s, s ≠ t → w'.progress s = w.progress s)
    (earlier : ∀ r, Precedes sync r t → (w.progress r).done = true)
    (passes : ∀ k, (Left sync w' t k ↔ Left sync w t k) ∨ ∀ x, view w.source t k = some x → view w.target t k = some x) :
    Agrees sync w w' := by
  have others : ∀ s, s ≠ t → ∀ k, Left sync w' s k ↔ Left sync w s k := fun s other k => by unfold Left; rw [progress s other]
  have keeps : ∀ r k, (Left sync w' r k ↔ Left sync w r k) → settled sync w' r k = settled sync w r k := by
    intro r k same
    unfold settled
    simp only [same,source,target]
  refine ⟨source,fun r k => ?_,fun fk mem k x row whole => ?_⟩
  · by_cases here : r = t
    · subst here
      rcases passes k with same | placed
      · exact keeps r k same
      · rw [settledPlaced placed,settledPlaced (w := w') (by rw [source,target]; exact placed),target]
    · exact keeps r k (others r here k)
  · by_cases here : fk.child = t
    · rcases passes k with same | placed
      · exact .inl (here ▸ same)
      · subst here
        exact .inr (foundTarget accepted mem (earlier _ (parents fk mem).2) (placed x row) whole)
    · exact .inl (others fk.child here k)

theorem Fetching.agrees {c start bs retried rows mode} {i : Nat} {chunk : Chunk} (order : KeyOrder sync.le)
    (held : Fetching sync w c start bs) (part : c.parts[i]? = some (chunk,.reading retried rows))
    (undone : (w.progress c.ref).done = false) : Agrees sync w { w with target := upsert w.target c.ref rows, mode := mode } := by
  have mem := mem_of_getElem? part
  obtain ⟨_,rfl⟩ := held.reading chunk retried rows mem
  refine ⟨rfl,fun r k => ?_,fun fk _ k _ _ _ => .inl Iff.rfl⟩
  by_cases here : r = c.ref
  · subst here
    have known : chunk ∈ buildKeysetRangesFrom start bs := held.ranges ▸ mem_map_of_mem mem
    by_cases inside : chunk.has sync.le k = true
    · by_cases left : Left sync w c.ref k
      · have now : settled sync { w with target := upsert w.target c.ref (copyChunk sync.le (w.source c.ref) chunk), mode := mode } c.ref k =
            (view w.source c.ref k).or (view (upsert w.target c.ref (copyChunk sync.le (w.source c.ref) chunk)) c.ref k) := if_pos left
        rw [now,settled,if_pos left,landView,if_pos inside,view]
        cases List.lookup k (w.source c.ref) <;> rfl
      · have below : above sync.le (w.progress c.ref).watermark k = false := Bool.eq_false_iff.mpr fun beyond => left ⟨undone,beyond⟩
        have now : settled sync { w with target := upsert w.target c.ref (copyChunk sync.le (w.source c.ref) chunk), mode := mode } c.ref k =
            view (upsert w.target c.ref (copyChunk sync.le (w.source c.ref) chunk)) c.ref k := if_neg left
        rw [now,settled,if_neg left]
        cases row : view w.source c.ref k with
        | none =>
          rw [landView,if_pos inside,show List.lookup k (w.source c.ref) = none from row,Option.none_or]
        | some x =>
          rw [landKeeps row (.inl inside),held.passed k x (rangesFloor order held.cuts known inside) below row]
    · have same : view (upsert w.target c.ref (copyChunk sync.le (w.source c.ref) chunk)) c.ref k = view w.target c.ref k := by
        rw [landView,if_neg inside]
      unfold settled
      rw [same]
      rfl
  · have same : view (upsert w.target c.ref (copyChunk sync.le (w.source c.ref) chunk)) r k = view w.target r k := by
      rw [viewUpsert,if_neg here]
    unfold settled
    rw [same]
    rfl

end Agree

end Replicare.QuietCopy
