import Replicare.Drain
import Replicare.MysqlPreflight
import Replicare.MysqlRows

/-! Capture on a MySQL source. The triggers fire for the rows a statement names, not for the
rows that the action of a foreign key changes. -/
namespace Replicare.MysqlCapture
open Engine Consume Relations MysqlRows List

section
variable (keyCols : TableRef → List String)

def triggerRows (c : RowChange) : List (Op × KeyValues) :=
  let key := keyOf (keyCols c.table)
  match c.old, c.new with
  | none, none => []
  | none, some y => [(.insert,key y)]
  | some x, none => [(.delete,key x)]
  | some x, some y => if key y ≠ key x then [(.delete,key x),(.update,key y)] else [(.update,key y)]

variable (captured : List TableRef)

def fires (c : RowChange) : Bool := c.direct && decide (c.table ∈ captured)

def recorded (cs : List RowChange) : List (TableRef × Op × KeyValues) :=
  (cs.filter (fires captured)).flatMap fun c => (triggerRows keyCols c).map fun d => (c.table,d)

def Complete (cs : List RowChange) : Prop :=
  ∀ c ∈ cs, c.table ∈ captured → c.old ≠ c.new → ∀ k ∈ c.keys keyCols,
    ∃ d ∈ recorded keyCols captured cs, d.1 = c.table ∧ d.2.2 = k

def Covered (cs : List RowChange) : Prop :=
  ∀ c ∈ cs, c.direct = false → c.table ∈ captured → c.old ≠ c.new → ∀ k ∈ c.keys keyCols,
    ∃ d ∈ cs, d.direct = true ∧ d.table = c.table ∧ k ∈ d.keys keyCols

def replicated (h : Heap) : Tables := fun r k => if r ∈ captured then lookup keyCols h r k else none

end

structure System where
  heap : Heap
  world : Drain.World KeyValues Row

inductive Action where
  | statement (ops : List RowOp) (first : DeltaID) (now : Int)
  | pipeline (a : Drain.Action KeyValues Row)

section
variable (edges : List Reference) (keyCols : TableRef → List String) (captured : List TableRef)
variable (cascade : Drain.Cascade KeyValues Row) (sig : KeyValues → Bytes) (target : TargetID)

def stamped (h : Heap) (ds : List (TableRef × Op × KeyValues)) (first : DeltaID) (now : Int) :
    List (Drain.Change KeyValues Row) :=
  (ds.zipIdx first).map fun p => ⟨p.1.1,replicated keyCols captured h p.1.1 p.1.2.2,⟨p.2,p.1.2.1,p.1.2.2,now⟩⟩

def statement (s : System) (ops : List RowOp) (first : DeltaID) (now : Int) : Option System := do
  let done ← execute edges keyCols s.heap ops
  let world ← (stamped keyCols captured done.1 (recorded keyCols captured done.2) first now).foldlM Drain.change s.world
  some ⟨done.1,{ world with source := replicated keyCols captured done.1 }⟩

def step (s : System) : Action → Option System
  | .statement ops first now => statement edges keyCols captured s ops first now
  | .pipeline (.commit _) => none
  | .pipeline a => (Drain.step cascade sig target s.world a).map fun world => { s with world }

structure Synced (s : System) : Prop where
  source : s.world.source = replicated keyCols captured s.heap
  inv : Drain.Inv target s.world

def Faithful (s : System) : Action → Prop
  | .statement ops _ _ => ∀ g cs, execute edges keyCols s.heap ops = some (g,cs) → Covered keyCols captured cs
  | .pipeline a => Drain.HarmlessStep cascade sig target s.world a

end

def Converges (edges : List Reference) (keyCols : TableRef → List String) (captured : List TableRef)
    (before : Heap) (ops : List RowOp) : Prop :=
  ∀ cascade sig target s t u first now actions, s.heap = before → Synced keyCols captured target s →
    step edges keyCols captured cascade sig target s (.statement ops first now) = some t →
    Runs.Along (step edges keyCols captured cascade sig target) (Faithful edges keyCols captured cascade sig target) t actions →
    Runs.run (step edges keyCols captured cascade sig target) t actions = some u →
    (∀ r, unconsumed (u.world.queue r) target = []) → u.world.target = replicated keyCols captured u.heap

section
variable {edges : List Reference} {keyCols : TableRef → List String} {captured : List TableRef}
variable {cascade : Drain.Cascade KeyValues Row} {sig : KeyValues → Bytes} {target : TargetID}

theorem triggerKeys (c) (k) : (∃ d ∈ triggerRows keyCols c, d.2 = k) ↔ k ∈ c.keys keyCols := by
  obtain ⟨table,old,new,direct⟩ := c
  cases old <;> cases new <;> simp only [triggerRows,RowChange.keys] <;> try split
  all_goals simp_all [eq_comm]

theorem recordedIff {cs r k} : (∃ d ∈ recorded keyCols captured cs, d.1 = r ∧ d.2.2 = k) ↔
    r ∈ captured ∧ ∃ c ∈ cs, c.direct = true ∧ c.table = r ∧ k ∈ c.keys keyCols := by
  simp only [recorded,mem_flatMap,mem_filter,mem_map,fires,Bool.and_eq_true,decide_eq_true_eq]
  constructor
  · rintro ⟨_,⟨c,⟨mem,direct,tracked⟩,d,fired,rfl⟩,rfl,key⟩
    exact ⟨tracked,c,mem,direct,rfl,(triggerKeys c k).mp ⟨d,fired,key⟩⟩
  · rintro ⟨tracked,c,mem,direct,rfl,key⟩
    obtain ⟨d,fired,rfl⟩ := (triggerKeys c k).mpr key
    exact ⟨_,⟨c,⟨mem,direct,tracked⟩,d,fired,rfl⟩,rfl,rfl⟩

theorem completeIff {cs} : Complete keyCols captured cs ↔ Covered keyCols captured cs := by
  constructor
  · intro complete c mem _ tracked changed k key
    exact (recordedIff.mp (complete c mem tracked changed k key)).2
  · intro covered c mem tracked changed k key
    refine recordedIff.mpr ⟨tracked,?_⟩
    cases direct : c.direct with
    | true => exact ⟨c,mem,direct,rfl,key⟩
    | false => exact covered c mem direct tracked changed k key

theorem changesSource {s t : Drain.World KeyValues Row} {rows : Tables} {changes : List (Drain.Change KeyValues Row)}
    (ok : changes.foldlM Drain.change s = some t) (final : ∀ c ∈ changes, c.row = rows c.table c.delta.key) {r k}
    (written : s.source r k = rows r k ∨ ∃ c ∈ changes, c.table = r ∧ c.delta.key = k) : t.source r k = rows r k := by
  induction changes generalizing s with
  | nil =>
    cases ok
    exact written.resolve_right fun ⟨_,mem,_⟩ => absurd mem not_mem_nil
  | cons c rest ih =>
    simp only [foldlM_cons,bind,Option.bind_eq_some_iff] at ok
    obtain ⟨m,first,last⟩ := ok
    refine ih last (fun d mem => final d (mem_cons_of_mem _ mem)) ?_
    by_cases here : r = c.table ∧ k = c.delta.key
    · obtain ⟨rfl,rfl⟩ := here
      obtain ⟨_,rfl⟩ := Drain.changeCases first
      left
      simpa using final c mem_cons_self
    · rw [Drain.changeSource first here]
      refine written.imp_right ?_
      rintro ⟨d,mem,table,key⟩
      rcases mem_cons.mp mem with rfl|mem
      · exact absurd ⟨table.symm,key.symm⟩ here
      · exact ⟨d,mem,table,key⟩

theorem stampedFinal {h ds first now} :
    ∀ c ∈ stamped keyCols captured h ds first now, c.row = replicated keyCols captured h c.table c.delta.key := by
  intro c mem
  obtain ⟨p,_,rfl⟩ := mem_map.mp mem
  rfl

theorem stampedKeys {h ds first now r k} (mem : ∃ d ∈ ds, d.1 = r ∧ d.2.2 = k) :
    ∃ c ∈ stamped keyCols captured h ds first now, c.table = r ∧ c.delta.key = k := by
  obtain ⟨d,mem,rfl,rfl⟩ := mem
  obtain ⟨i,bound,rfl⟩ := mem_iff_getElem.mp mem
  have place : (ds[i],first+i) ∈ ds.zipIdx first := mem_iff_getElem.mpr ⟨i,by simpa using bound,by simp⟩
  exact ⟨_,mem_map_of_mem place,rfl,rfl⟩

theorem statementKeeps {s t : System} {ops first now} (synced : Synced keyCols captured target s)
    (covered : ∀ g cs, execute edges keyCols s.heap ops = some (g,cs) → Covered keyCols captured cs)
    (ok : statement edges keyCols captured s ops first now = some t) : Synced keyCols captured target t := by
  simp only [statement,bind,Option.bind_eq_some_iff] at ok
  obtain ⟨⟨g,cs⟩,ran,world,changed,last⟩ := ok
  cases last
  have same : world.source = replicated keyCols captured g := by
    funext r k
    refine changesSource changed stampedFinal ?_
    by_cases tracked : r ∈ captured
    · by_cases kept : lookup keyCols g r k = lookup keyCols s.heap r k
      · left
        rw [synced.source]
        simp only [replicated,kept]
      · obtain ⟨c,mem,rfl,differs,key⟩ := executeExplains ran r k kept
        exact .inr (stampedKeys (completeIff.mpr (covered g cs ran) c mem tracked differs k key))
    · left
      rw [synced.source]
      simp only [replicated,tracked,if_false]
  refine ⟨rfl,?_⟩
  rw [←same]
  exact Drain.commitKeeps synced.inv changed

theorem stepKeeps {s t a} (synced : Synced keyCols captured target s)
    (faithful : Faithful edges keyCols captured cascade sig target s a)
    (ok : step edges keyCols captured cascade sig target s a = some t) : Synced keyCols captured target t := by
  cases a with
  | statement ops first now => exact statementKeeps synced faithful ok
  | pipeline a =>
    have other : ∀ changes, a ≠ .commit changes := by
      rintro changes rfl
      cases ok
    have taken : ∃ world, Drain.step cascade sig target s.world a = some world ∧ { s with world } = t := by
      cases a with
      | commit changes => exact absurd rfl (other changes)
      | _ => exact Option.map_eq_some_iff.mp ok
    obtain ⟨world,taken,rfl⟩ := taken
    exact ⟨(Drain.stepSource other taken).trans synced.source,Drain.stepKeeps synced.inv faithful taken⟩

end

theorem captureCompleteIff {edges keyCols captured before ops after cs}
    (committed : execute edges keyCols before ops = some (after,cs)) :
    (Complete keyCols captured cs ∧ Converges edges keyCols captured before ops) ↔ Covered keyCols captured cs := by
  refine ⟨fun both => completeIff.mp both.1,fun covered => ⟨completeIff.mpr covered,?_⟩⟩
  rintro cascade sig target s t u first now actions rfl synced taken faithful ran drained
  have reached : Synced keyCols captured target t := by
    refine statementKeeps synced ?_ taken
    intro g ds again
    cases committed.symm.trans again
    exact covered
  have final := Runs.runKeeps (P := Synced keyCols captured target) (fun s a t => stepKeeps) faithful ran reached
  rw [Drain.drainedAgrees final.inv drained,final.source]

def orders : TableRef := ⟨"shop","orders"⟩
def items : TableRef := ⟨"shop","order_items"⟩

def itemOrder : ForeignKey := ⟨"item_order",items,["order_id"],orders,["id"],false⟩

def keyTable (r : TableRef) (cols : List String) (fks : List ForeignKey) : Table :=
  ⟨r,cols.map fun c => ⟨c,"bigint",false,false,""⟩,some ⟨"PRIMARY",["id"],true⟩,[],fks,"InnoDB"⟩

def keyColsOf (tables : List Table) (r : TableRef) : List String :=
  (((tables.find? fun t => t.ref = r).bind replicationKey).map Key.columns).getD []

def shop : List Table := [keyTable orders ["id"] [],keyTable items ["id","order_id"] [itemOrder]]

def cascading : List Reference := [⟨itemOrder,.cascade,.noAction⟩]

def order : Row := fun c => if c = "id" then some [49] else none
def item : Row := fun c => if c = "id" then some [55] else if c = "order_id" then some [49] else none

def ordered : Heap := fun r => if r = orders then [some order] else if r = items then [some item] else []

theorem captureCompleteBoth :
    ∃ after cs, execute cascading (keyColsOf shop) ordered [.delete items 0,.delete orders 0] = some (after,cs) ∧
      Complete (keyColsOf shop) [orders,items] cs ∧
      Converges cascading (keyColsOf shop) [orders,items] ordered [.delete items 0,.delete orders 0] := by
  have ran := (rfl : execute cascading (keyColsOf shop) ordered [.delete items 0,.delete orders 0] = some (_,_))
  refine ⟨_,_,ran,(captureCompleteIff ran).mpr ?_⟩
  intro c mem caused
  rcases mem_cons.mp mem with rfl|mem
  · cases caused
  · cases mem_singleton.mp mem
    cases caused

def inStep : System :=
  ⟨ordered,⟨replicated (keyColsOf shop) [orders,items] ordered,replicated (keyColsOf shop) [orders,items] ordered,
    fun _ => .empty,false,fun _ => none⟩⟩

def deleteOrder : List Action :=
  .statement [.delete orders 0] 1 0::(Drain.drainPass orders 10).map .pipeline

theorem cascadedDeleteUncaptured :
    (∀ components, (MysqlPreflight.buildPreflight components "shop" 80036 80036 shop shop).blocked = false ∧
      (MysqlPreflight.buildPreflight components "shop" 80036 80036 shop shop).replicable = [orders,items]) ∧
    (∃ after cs, execute cascading (keyColsOf shop) ordered [.delete orders 0] = some (after,cs) ∧
      ¬Complete (keyColsOf shop) [orders,items] cs) ∧
    ∃ t, Runs.run (step cascading (keyColsOf shop) [orders,items] Drain.noCascade Coalesce.keySignature "t") inStep deleteOrder = some t ∧
      (∀ r ∈ [orders,items], unconsumed (t.world.queue r) "t" = []) ∧
      (t.world.target items [some [55]]).isSome = true ∧
      replicated (keyColsOf shop) [orders,items] t.heap items [some [55]] = none := by
  refine ⟨fun components => ⟨?_,rfl⟩,⟨_,_,rfl,?_⟩,⟨_,rfl,by decide,by decide,by decide⟩⟩
  · exact MysqlPreflight.sameSchemaAccepted components _ _ _ (by decide) (by decide) (by decide) (by decide)
  · intro complete
    have delta := complete _ (mem_cons_of_mem _ mem_cons_self) (by decide) nofun [some [55]] (by decide)
    revert delta
    decide

end Replicare.MysqlCapture
