import Mathlib.Data.List.Pairwise
import Replicare.Chunks
import Replicare.PgPreflight

/-! The chunk plans of both engines over a key that may hold NULLs. A comparison of row values
that involves a NULL is not true, so a bounded range holds no such row. -/
namespace Replicare.ChunkNulls
open Engine Relations Stored Chunks List

def whole (k : KeyValues) : Bool := k.all Option.isSome

section Predicate
variable (le : KeyValues → KeyValues → Bool)

/- `(cols) >= (bound)` and `(cols) < (bound)`, where they are true. -/
def atLeast (k bound : KeyValues) : Bool := whole k && whole bound && le bound k
def lessThan (k bound : KeyValues) : Bool := whole k && whole bound && !le bound k

/- Postgres renders a bound as text, which a NULL has not. -/
def valueTuple (width : Nat) (vals : KeyValues) : Except String KeyValues :=
  if vals.length ≠ width then
    .error ("postgres: key tuple has "++toString vals.length++" values, want "++toString width)
  else match vals.findIdx? Option.isNone with
    | some i => .error ("postgres: key bound "++toString i++" is <nil>, want a text value")
    | none => .ok vals

def bound (width : Nat) : Option KeyValues → Except String (Option KeyValues)
  | none => .ok none
  | some vals => (valueTuple width vals).map some

def inRange (lo hi : Option KeyValues) (k : KeyValues) : Bool := lo.all (atLeast le k) && hi.all (lessThan le k)

def keysetPredicate (dialect : Dialect) (width : Nat) (c : Chunk) : Except String (KeyValues → Bool) :=
  match dialect with
  | .mysql => .ok (inRange le c.lo c.hi)
  | .postgres => do
      let lo ← bound width c.lo
      let hi ← bound width c.hi
      return inRange le lo hi

def selects (dialect : Dialect) (width : Nat) (c : Chunk) (k : KeyValues) : Bool :=
  match keysetPredicate le dialect width c with
  | .ok p => p k
  | .error _ => false

def maxChunks : Nat := 1000000

/- MySQL's `WHERE (key) >= (cur) ORDER BY key LIMIT 1 OFFSET n`. -/
def boundaryAfter (keys : List KeyValues) (n : Nat) (cur : Option KeyValues) : Option KeyValues :=
  ((keys.filter fun k => cur.all (atLeast le k)).insertionSort fun a b => le a b)[n]?

def walk (ref : TableRef) (keys : List KeyValues) (n : Nat) : Nat → Option KeyValues → Except String (List KeyValues)
  | left, cur => match boundaryAfter le keys n cur with
    | none => .ok []
    | some next => match left with
      | 0 => .error ("mysql: table "++ref.string++" produced more than "++toString maxChunks++" chunks; raise chunk size")
      | left+1 => (walk ref keys n left (some next)).map (next::·)

/- MySQL pairs each lower bound with the next. -/
def buildKeysetRanges (lo : Option KeyValues) (boundaries : List KeyValues) : List Chunk :=
  List.zipWith Chunk.mk (lo::boundaries.map some) (boundaries.map some++[none])

def planKeyset (dialect : Dialect) (ref : TableRef) (rows : Rows) (targetRows : Int) : Except String (List Chunk) :=
  match dialect with
  | .postgres => .ok (planChunks le rows targetRows none)
  | .mysql => (walk le ref (rows.map Prod.fst) (chunkRows targetRows) maxChunks none).map (buildKeysetRanges none)

def identityColumns (t : Table) : List String := (PgPreflight.captureColsFor t).map Prod.fst

def keyed (t : Table) (content : List Row) : Rows := content.map fun x => (keyOf (identityColumns t) x,x)

def CopiedOnce (dialect : Dialect) (t : Table) (content : List Row) (targetRows : Int) : Prop :=
  ∃ chunks, planKeyset le dialect t.ref (keyed t content) targetRows = .ok chunks ∧
    ∀ e ∈ keyed t content, (chunks.filter fun c => selects le dialect (identityColumns t).length c e.1).length = 1

end Predicate

section Selects
variable {le : KeyValues → KeyValues → Bool} {dialect : Dialect} {width : Nat} {c : Chunk} {k : KeyValues}

theorem boundOk {b} (fits : ∀ v, b = some v → v.length = width ∧ whole v = true) : bound width b = .ok b := by
  cases b with
  | none => rfl
  | some v =>
    obtain ⟨length,full⟩ := fits v rfl
    have none : v.findIdx? Option.isNone = none := by
      rw [findIdx?_eq_none_iff]
      intro x mem
      have here := all_eq_true.mp full x mem
      simpa using here
    simp [bound,valueTuple,length,none,Except.map]

theorem boundGives {b b'} (ok : bound width b = .ok b') : b' = b := by
  cases b with
  | none =>
    cases ok
    rfl
  | some v =>
    simp only [bound,valueTuple] at ok
    split at ok
    · cases ok
    · split at ok
      · cases ok
      · cases ok
        rfl

theorem selectsRange (selected : selects le dialect width c k = true) : inRange le c.lo c.hi k = true := by
  unfold selects at selected
  split at selected
  · rename_i p built
    cases dialect with
    | mysql =>
      cases built
      exact selected
    | postgres =>
      simp only [keysetPredicate,bind,Except.bind] at built
      split at built
      · cases built
      · rename_i lo low
        split at built
        · cases built
        · rename_i hi high
          cases built
          rw [boundGives low,boundGives high] at selected
          exact selected
  · cases selected

/- Both bounds, where there are some, are key tuples without a NULL. -/
def Fits (c : Chunk) (width : Nat) : Prop :=
  (∀ v, c.lo = some v → v.length = width ∧ whole v = true) ∧ ∀ v, c.hi = some v → v.length = width ∧ whole v = true

theorem predicateFits (fits : Fits c width) : keysetPredicate le dialect width c = .ok (inRange le c.lo c.hi) := by
  cases dialect with
  | mysql => rfl
  | postgres => simp [keysetPredicate,boundOk fits.1,boundOk fits.2,bind,Except.bind,pure,Except.pure]

theorem selectsFits (fits : Fits c width) : selects le dialect width c k = inRange le c.lo c.hi k := by
  rw [selects,predicateFits fits]

theorem inRangeHas (full : whole k = true) (low : ∀ v, c.lo = some v → whole v = true) (high : ∀ v, c.hi = some v → whole v = true) :
    inRange le c.lo c.hi k = c.has le k := by
  obtain ⟨lo,hi⟩ := c
  cases lo <;> cases hi <;> simp_all [inRange,Chunk.has,above,atLeast,lessThan]

theorem inRangeNull (null : whole k = false) (bounded : c.lo ≠ none ∨ c.hi ≠ none) : inRange le c.lo c.hi k = false := by
  obtain ⟨lo,hi⟩ := c
  cases lo <;> cases hi <;> simp_all [inRange,atLeast,lessThan]

end Selects

section Ranges
variable {le : KeyValues → KeyValues → Bool} {start : Option KeyValues} {bs : List KeyValues} {k : KeyValues}

theorem rangesSame (start bs) : buildKeysetRanges start bs = buildKeysetRangesFrom start bs := by
  induction bs generalizing start with
  | nil => rfl
  | cons b bs ih =>
    rw [buildKeysetRangesFrom,← ih]
    rfl

theorem rangesOnce (order : KeyOrder le) (cuts : Cuts le start bs) :
    ((buildKeysetRangesFrom start bs).filter fun c => c.has le k).length = if above le start k then 1 else 0 := by
  induction bs generalizing start with
  | nil =>
    cases floor : above le start k <;> simp [buildKeysetRangesFrom,Chunk.has,floor]
  | cons b bs ih =>
    have rest := ih cuts.tail
    rw [show above le (some b) k = le b k from rfl] at rest
    have first : Chunk.has le ⟨start,some b⟩ k = (above le start k && !le b k) := rfl
    rw [buildKeysetRangesFrom,filter_cons,first]
    cases beyond : le b k with
    | true =>
      have floor : above le start k = true := aboveTrans order (cuts.floor b mem_cons_self) beyond
      rw [beyond] at rest
      simp [rest,floor]
    | false =>
      rw [beyond] at rest
      have none : ((buildKeysetRangesFrom (some b) bs).filter fun c => c.has le k) = [] := length_eq_zero_iff.mp rest
      rw [none]
      cases floor : above le start k <;> rfl

theorem rangesBounded (some_ : bs ≠ []) {c} (mem : c ∈ buildKeysetRangesFrom start bs) : c.lo ≠ none ∨ c.hi ≠ none := by
  induction bs generalizing start with
  | nil => exact absurd rfl some_
  | cons b bs ih =>
    rcases mem_cons.mp mem with rfl | later
    · exact .inr (by simp)
    · cases bs with
      | nil =>
        cases mem_singleton.mp later
        exact .inl (by simp)
      | cons b' bs => exact ih (by simp) later

theorem rangesEnds {c} (mem : c ∈ buildKeysetRangesFrom start bs) :
    (c.lo = start ∨ ∃ b ∈ bs, c.lo = some b) ∧ ∀ v, c.hi = some v → v ∈ bs := by
  induction bs generalizing start with
  | nil =>
    cases mem_singleton.mp mem
    exact ⟨.inl rfl,by simp⟩
  | cons b bs ih =>
    rcases mem_cons.mp mem with rfl | later
    · refine ⟨.inl rfl,fun v same => ?_⟩
      cases same
      exact mem_cons_self
    · obtain ⟨low,high⟩ := ih later
      refine ⟨.inr ?_,fun v same => mem_cons_of_mem _ (high v same)⟩
      rcases low with here | ⟨d,mem,same⟩
      · exact ⟨b,mem_cons_self,here⟩
      · exact ⟨d,mem_cons_of_mem _ mem,same⟩

end Ranges

section Walk
variable {le : KeyValues → KeyValues → Bool} {ref : TableRef} {keys : List KeyValues} {n left : Nat} {cur : Option KeyValues}

theorem boundarySource {next} (found : boundaryAfter le keys n cur = some next) : next ∈ keys ∧ above le cur next = true := by
  have listed := (mem_insertionSort _).mp (mem_of_getElem? found)
  obtain ⟨mem,floor⟩ := mem_filter.mp listed
  refine ⟨mem,?_⟩
  cases cur with
  | none => rfl
  | some v => exact (Bool.and_eq_true_iff.mp floor).2

theorem walkNone {bs} (walked : walk le ref keys n left cur = .ok bs) : bs = [] ↔ boundaryAfter le keys n cur = none := by
  unfold walk at walked
  split at walked
  · rename_i none
    cases walked
    simp [none]
  · rename_i next found
    simp only [found,reduceCtorEq,iff_false]
    rintro rfl
    cases left with
    | zero => cases walked
    | succ left => cases rest : walk le ref keys n left (some next) <;> simp [rest,Except.map] at walked

theorem walkCuts (order : KeyOrder le) {bs} (walked : walk le ref keys n left cur = .ok bs) :
    Cuts le cur bs ∧ ∀ b ∈ bs, b ∈ keys := by
  induction left generalizing cur bs with
  | zero =>
    unfold walk at walked
    split at walked
    · cases walked
      exact ⟨⟨.nil,by simp⟩,by simp⟩
    · cases walked
  | succ left ih =>
    unfold walk at walked
    split at walked
    · cases walked
      exact ⟨⟨.nil,by simp⟩,by simp⟩
    · rename_i next found
      cases rest : walk le ref keys n left (some next) with
      | error e => simp [rest,Except.map] at walked
      | ok tail =>
        simp only [rest,Except.map,Except.ok.injEq] at walked
        subst walked
        obtain ⟨cuts,inside⟩ := ih rest
        obtain ⟨mem,floor⟩ := boundarySource found
        refine ⟨⟨pairwise_cons.mpr ⟨cuts.floor,cuts.sorted⟩,fun b listed => ?_⟩,fun b listed => ?_⟩
        · rcases mem_cons.mp listed with rfl | later
          · exact floor
          · exact aboveTrans order floor (cuts.floor b later)
        · rcases mem_cons.mp listed with rfl | later
          · exact mem
          · exact inside b later

def Distinct (le : KeyValues → KeyValues → Bool) (keys : List KeyValues) : Prop :=
  keys.Pairwise fun a b => whole a = true → whole b = true → ¬(le a b = true ∧ le b a = true)

section Full
variable (order : KeyOrder le) (distinct : Distinct le keys) (full : ∀ k ∈ keys, whole k = true)
include order distinct full

theorem sortedStrict : (keys.insertionSort fun a b => le a b).Pairwise fun a b => le a b = true ∧ ¬le b a = true := by
  have total : Std.Total (fun a b => le a b = true) := ⟨order.total⟩
  have trans : IsTrans KeyValues (fun a b => le a b = true) := ⟨fun _ _ _ => order.trans⟩
  have apart : (keys.insertionSort fun a b => le a b).Pairwise fun a b => ¬(le a b = true ∧ le b a = true) := by
    refine ((perm_insertionSort _ keys).pairwise_iff fun none both => none both.symm).mpr ?_
    exact distinct.imp_of_mem fun one two both => both (full _ one) (full _ two)
  exact (pairwise_insertionSort _ keys).imp₂ (fun a b low none => ⟨low,fun high => none ⟨low,high⟩⟩) apart

omit order in
theorem keysDetermine {a b} (one : a ∈ keys) (two : b ∈ keys) (low : le a b = true) (high : le b a = true) : a = b := by
  by_contra other
  have symm : Std.Symm fun a b => whole a = true → whole b = true → ¬(le a b = true ∧ le b a = true) :=
    ⟨fun _ _ apart one two both => apart two one both.symm⟩
  exact List.Pairwise.forall distinct one two other (full a one) (full b two) ⟨low,high⟩

theorem sortedFrom {i v} (place : (keys.insertionSort fun a b => le a b)[i]? = some v) :
    ((keys.filter fun k => atLeast le k v).insertionSort fun a b => le a b) = (keys.insertionSort fun a b => le a b).drop i := by
  have total : Std.Total (fun a b => le a b = true) := ⟨order.total⟩
  have trans : IsTrans KeyValues (fun a b => le a b = true) := ⟨fun _ _ _ => order.trans⟩
  have strict := sortedStrict order distinct full
  have listed : ∀ k ∈ keys.insertionSort fun a b => le a b, whole k = true :=
    fun k mem => full k ((mem_insertionSort _).mp mem)
  have inside := mem_of_getElem? place
  obtain ⟨short,here⟩ := List.getElem?_eq_some_iff.mp place
  have from_ : (keys.insertionSort fun a b => le a b).filter (fun k => atLeast le k v) = (keys.insertionSort fun a b => le a b).drop i := by
    have head : (keys.insertionSort fun a b => le a b).drop i = v::(keys.insertionSort fun a b => le a b).drop (i+1) := by
      rw [← here]
      exact drop_eq_getElem_cons short
    have parts := strict
    rw [← take_append_drop i (keys.insertionSort fun a b => le a b),pairwise_append,head] at parts
    obtain ⟨_,rest,below⟩ := parts
    nth_rewrite 1 [← take_append_drop i (keys.insertionSort fun a b => le a b)]
    rw [filter_append,filter_eq_nil_iff.mpr,nil_append,filter_eq_self]
    · intro k mem
      have known := listed k (mem_of_mem_drop mem)
      rw [head] at mem
      rcases mem_cons.mp mem with rfl | later
      · simpa [atLeast,known] using order.total k k
      · simpa [atLeast,known,listed v inside] using ((pairwise_cons.mp rest).1 k later).1
    · intro k mem
      have less := (below k mem v mem_cons_self).2
      simp [atLeast,less]
  refine List.Perm.eq_of_pairwise (fun a b one two low high => ?_) (pairwise_insertionSort _ _) ?_ ?_
  · have first := (mem_filter.mp ((mem_insertionSort _).mp one)).1
    have second := (mem_insertionSort _).mp (mem_of_mem_drop two)
    exact keysDetermine distinct full first second low high
  · exact (pairwise_insertionSort _ keys).sublist (drop_sublist _ _)
  · rw [← from_]
    exact (perm_insertionSort _ _).trans ((perm_insertionSort _ keys).symm.filter _)

theorem walkCount {i} (positive : 0 < n) (inside : i < keys.length ∨ i = 0)
    (here : ((keys.filter fun k => cur.all (atLeast le k)).insertionSort fun a b => le a b) = (keys.insertionSort fun a b => le a b).drop i) :
    (∃ bs, walk le ref keys n left cur = .ok bs) ↔ (keys.length-1-i)/n ≤ left := by
  have size : (keys.insertionSort fun a b => le a b).length = keys.length := length_insertionSort _ _
  have found : boundaryAfter le keys n cur = (keys.insertionSort fun a b => le a b)[i+n]? := by
    rw [boundaryAfter,here,getElem?_drop]
  induction left generalizing cur i with
  | zero =>
    unfold walk
    rw [found]
    by_cases more : i+n < keys.length
    · rw [getElem?_eq_getElem (by omega)]
      have many : 1 ≤ (keys.length-1-i)/n := (Nat.one_le_div_iff positive).mpr (by omega)
      simp only [reduceCtorEq,exists_false,false_iff]
      omega
    · rw [getElem?_eq_none (by omega)]
      have none : (keys.length-1-i)/n = 0 := Nat.div_eq_of_lt (by omega)
      simp [none]
  | succ left ih =>
    unfold walk
    rw [found]
    by_cases more : i+n < keys.length
    · have place : (keys.insertionSort fun a b => le a b)[i+n]? = some (keys.insertionSort fun a b => le a b)[i+n] :=
        getElem?_eq_getElem (by omega)
      have next := sortedFrom order distinct full place
      have after : (∃ bs, walk le ref keys n left (some (keys.insertionSort fun a b => le a b)[i+n]) = .ok bs) ↔
          (keys.length-1-(i+n))/n ≤ left := ih (.inl more) (by simpa using next)
        (by rw [boundaryAfter]; simp only [Option.all_some]; rw [next,getElem?_drop])
      have count : (keys.length-1-i)/n = (keys.length-1-(i+n))/n+1 := by
        have split : keys.length-1-i = keys.length-1-(i+n)+n := by omega
        rw [split,Nat.add_div_right _ positive]
      rw [place,count,Nat.add_le_add_iff_right]
      refine Iff.trans ?_ after
      dsimp only
      constructor
      · rintro ⟨bs,walked⟩
        cases rest : walk le ref keys n left (some (keys.insertionSort fun a b => le a b)[i+n]) with
        | error e => simp [rest,Except.map] at walked
        | ok tail => exact ⟨tail,rfl⟩
      · rintro ⟨tail,rest⟩
        exact ⟨_,by rw [rest]; rfl⟩
    · rw [getElem?_eq_none (by omega)]
      have none : (keys.length-1-i)/n = 0 := Nat.div_eq_of_lt (by omega)
      simp [none]

end Full

end Walk

section Plans
variable {le : KeyValues → KeyValues → Bool} {dialect : Dialect} {ref : TableRef} {rows : Rows} {targetRows : Int}

theorem chunkRowsPositive (targetRows) : 0 < chunkRows targetRows := by
  unfold chunkRows
  split
  · decide
  · omega

theorem boundariesNone {n} (positive : 0 < n) : keysetBoundaries le rows n none = [] ↔ rows.length ≤ n := by
  have all : (rows.map Prod.fst).filter (above le none) = rows.map Prod.fst := filter_eq_self.mpr fun _ _ => rfl
  have size : (((rows.map Prod.fst).filter (above le none)).insertionSort fun a b => le a b).length = rows.length := by
    rw [length_insertionSort,all,length_map]
  unfold keysetBoundaries
  rw [map_eq_nil_iff,filter_eq_nil_iff]
  constructor
  · intro none
    by_contra more
    have short : n < (((rows.map Prod.fst).filter (above le Option.none)).insertionSort fun a b => le a b).length := by omega
    have there : ((((rows.map Prod.fst).filter (above le Option.none)).insertionSort fun a b => le a b)[n],n) ∈
        (((rows.map Prod.fst).filter (above le Option.none)).insertionSort fun a b => le a b).zipIdx := by
      rw [mem_zipIdx_iff_getElem?]
      exact getElem?_eq_getElem short
    exact none _ there (by simp [positive])
  · intro few e mem
    obtain ⟨short,_⟩ := List.getElem?_eq_some_iff.mp (mem_zipIdx_iff_getElem?.mp mem)
    have small : e.2 < n := by omega
    simp only [decide_eq_true_eq,Nat.mod_eq_of_lt small]
    omega

theorem boundaryNone {n} : boundaryAfter le (rows.map Prod.fst) n none = none ↔ rows.length ≤ n := by
  have all : ((rows.map Prod.fst).filter fun k => Option.all (atLeast le k) none) = rows.map Prod.fst :=
    filter_eq_self.mpr fun _ _ => rfl
  rw [boundaryAfter,List.getElem?_eq_none_iff,length_insertionSort,all,length_map]

structure Planned (le : KeyValues → KeyValues → Bool) (rows : Rows) (n : Nat) (chunks : List Chunk) (bs : List KeyValues) : Prop where
  ranges : chunks = buildKeysetRangesFrom none bs
  cuts : Cuts le none bs
  keys : ∀ b ∈ bs, b ∈ rows.map Prod.fst
  single : bs = [] ↔ rows.length ≤ n

theorem planned (order : KeyOrder le) {chunks} (ok : planKeyset le dialect ref rows targetRows = .ok chunks) :
    ∃ bs, Planned le rows (chunkRows targetRows) chunks bs := by
  cases dialect with
  | postgres =>
    cases ok
    refine ⟨_,rfl,⟨boundariesSorted order _ _ _,fun b mem => boundariesAbove mem⟩,fun b mem => ?_,boundariesNone (chunkRowsPositive _)⟩
    exact (mem_filter.mp ((mem_insertionSort _).mp ((boundariesListed _ _ _).subset mem))).1
  | mysql =>
    cases walked : walk le ref (rows.map Prod.fst) (chunkRows targetRows) maxChunks none with
    | error e => simp [planKeyset,walked,Except.map] at ok
    | ok bs =>
      simp only [planKeyset,walked,Except.map,Except.ok.injEq] at ok
      obtain ⟨cuts,keys⟩ := walkCuts order walked
      refine ⟨bs,ok ▸ rangesSame _ _,cuts,keys,?_⟩
      rw [walkNone walked,boundaryNone]

theorem planSucceeds (order : KeyOrder le) (distinct : Distinct le (rows.map Prod.fst)) (full : ∀ e ∈ rows, whole e.1 = true) :
    (∃ chunks, planKeyset le dialect ref rows targetRows = .ok chunks) ↔
      (dialect = .mysql → (rows.length-1)/chunkRows targetRows ≤ maxChunks) := by
  cases dialect with
  | postgres => simp [planKeyset]
  | mysql =>
    have all : ((rows.map Prod.fst).filter fun k => Option.all (atLeast le k) none) = rows.map Prod.fst :=
      filter_eq_self.mpr fun _ _ => rfl
    have count : (∃ bs, walk le ref (rows.map Prod.fst) (chunkRows targetRows) maxChunks none = .ok bs) ↔
        ((rows.map Prod.fst).length-1-0)/chunkRows targetRows ≤ maxChunks :=
      walkCount order distinct (forall_mem_map.mpr full) (chunkRowsPositive targetRows) (.inr rfl) (by rw [all,drop_zero])
    rw [length_map,Nat.sub_zero] at count
    simp only [forall_const]
    refine Iff.trans ?_ count
    cases walked : walk le ref (rows.map Prod.fst) (chunkRows targetRows) maxChunks none <;> simp [planKeyset,walked,Except.map]

theorem fewSucceeds (few : rows.length ≤ chunkRows targetRows) : ∃ chunks, planKeyset le dialect ref rows targetRows = .ok chunks := by
  cases dialect with
  | postgres => exact ⟨_,rfl⟩
  | mysql =>
    have walked : walk le ref (rows.map Prod.fst) (chunkRows targetRows) maxChunks none = .ok [] := by
      unfold walk
      rw [boundaryNone.mpr few]
    exact ⟨_,by rw [planKeyset,walked]; rfl⟩

end Plans

section Once
variable {le : KeyValues → KeyValues → Bool} {dialect : Dialect} {t : Table} {content : List Row} {targetRows : Int} {chunks : List Chunk}
  {bs : List KeyValues}

theorem keyedWidth {e} (mem : e ∈ keyed t content) : e.1.length = (identityColumns t).length := by
  obtain ⟨x,_,rfl⟩ := mem_map.mp mem
  exact length_map _

theorem keyedLength : (keyed t content).length = content.length := length_map _

theorem nullUnselected (plan : Planned le (keyed t content) (chunkRows targetRows) chunks bs) (more : chunkRows targetRows < content.length)
    {k} (null : whole k = false) (width) : (chunks.filter fun c => selects le dialect width c k) = [] := by
  have some_ : bs ≠ [] := by
    intro none
    have few := plan.single.mp none
    rw [keyedLength] at few
    omega
  refine filter_eq_nil_iff.mpr fun c mem selected => ?_
  have range := selectsRange selected
  rw [inRangeNull null (rangesBounded some_ (plan.ranges ▸ mem))] at range
  cases range

section Full
variable (plan : Planned le (keyed t content) (chunkRows targetRows) chunks bs) (full : ∀ e ∈ keyed t content, whole e.1 = true)
include plan full

theorem fullFits {c} (mem : c ∈ chunks) : Fits c (identityColumns t).length := by
  have fits : ∀ v ∈ bs, v.length = (identityColumns t).length ∧ whole v = true := by
    intro v mem
    obtain ⟨e,inside,rfl⟩ := mem_map.mp (plan.keys v mem)
    exact ⟨keyedWidth inside,full e inside⟩
  rw [plan.ranges] at mem
  obtain ⟨low,high⟩ := rangesEnds mem
  refine ⟨fun v at_ => ?_,fun v at_ => fits v (high v at_)⟩
  rcases low with none | ⟨b,listed,is⟩
  · cases none.symm.trans at_
  · cases is.symm.trans at_
    exact fits v listed

theorem fullHas {c} (mem : c ∈ chunks) {k} (here : whole k = true) : selects le dialect (identityColumns t).length c k = c.has le k := by
  have fits := fullFits plan full mem
  rw [selectsFits fits,inRangeHas here (fun v at_ => (fits.1 v at_).2) fun v at_ => (fits.2 v at_).2]

theorem fullSelected (order : KeyOrder le) {k} (here : whole k = true) :
    (chunks.filter fun c => selects le dialect (identityColumns t).length c k).length = 1 := by
  rw [filter_congr fun c mem => fullHas plan full mem here,plan.ranges,rangesOnce order plan.cuts]
  rfl

end Full

theorem fewAlone (plan : Planned le (keyed t content) (chunkRows targetRows) chunks bs) (few : content.length ≤ chunkRows targetRows) :
    chunks = [⟨none,none⟩] := by
  have alone : bs = [] := plan.single.mpr (by rw [keyedLength]; exact few)
  rw [plan.ranges,alone]
  rfl

theorem openFits (width) : Fits ⟨none,none⟩ width := ⟨by simp,by simp⟩

theorem fewSelected (plan : Planned le (keyed t content) (chunkRows targetRows) chunks bs) (few : content.length ≤ chunkRows targetRows) (k width) :
    (chunks.filter fun c => selects le dialect width c k).length = 1 := by
  have all : selects le dialect width ⟨none,none⟩ k = true := by
    rw [selectsFits (openFits width)]
    rfl
  rw [fewAlone plan few,filter_cons,all]
  rfl

end Once

theorem onceWhole {le} (order : KeyOrder le) {dialect t content targetRows}
    (once : CopiedOnce le dialect t content targetRows) (more : chunkRows targetRows < content.length) :
    ∀ x ∈ content, whole (keyOf (identityColumns t) x) = true := by
  obtain ⟨chunks,ok,once⟩ := once
  obtain ⟨bs,plan⟩ := planned order ok
  intro x mem
  by_contra null
  have one := once (keyOf (identityColumns t) x,x) (mem_map_of_mem mem)
  rw [nullUnselected plan more (by simpa using null)] at one
  cases one

/- A table that fits into one chunk, or has no NULL in a key and not too many chunks for MySQL's walk. -/
def Splits (dialect : Dialect) (t : Table) (content : List Row) (targetRows : Int) : Prop :=
  content.length ≤ chunkRows targetRows ∨ (∀ x ∈ content, whole (keyOf (identityColumns t) x) = true) ∧
    (dialect = .mysql → (content.length-1)/chunkRows targetRows ≤ maxChunks)

theorem splitsOnce {le} (order : KeyOrder le) {dialect t content}
    (distinct : Distinct le (content.map (keyOf (identityColumns t)))) {targetRows} :
    CopiedOnce le dialect t content targetRows ↔ Splits dialect t content targetRows := by
  have names : (keyed t content).map Prod.fst = content.map (keyOf (identityColumns t)) := by
    simp [keyed,Function.comp_def]
  have fullIff : (∀ e ∈ keyed t content, whole e.1 = true) ↔ ∀ x ∈ content, whole (keyOf (identityColumns t) x) = true :=
    forall_mem_map
  constructor
  · intro once
    by_cases few : content.length ≤ chunkRows targetRows
    · exact .inl few
    · have full := onceWhole order once (not_le.mp few)
      obtain ⟨chunks,ok,_⟩ := once
      refine .inr ⟨full,?_⟩
      rw [← keyedLength (t := t)]
      exact (planSucceeds order (names ▸ distinct) (fullIff.mpr full)).mp ⟨chunks,ok⟩
  · rintro (few | ⟨full,enough⟩)
    · obtain ⟨chunks,ok⟩ : ∃ chunks, planKeyset le dialect t.ref (keyed t content) targetRows = .ok chunks :=
        fewSucceeds (by rw [keyedLength]; exact few)
      obtain ⟨bs,plan⟩ := planned order ok
      exact ⟨chunks,ok,fun e _ => fewSelected plan few e.1 _⟩
    · obtain ⟨chunks,ok⟩ : ∃ chunks, planKeyset le dialect t.ref (keyed t content) targetRows = .ok chunks :=
        (planSucceeds order (names ▸ distinct) (fullIff.mpr full)).mpr (by rw [keyedLength]; exact enough)
      obtain ⟨bs,plan⟩ := planned order ok
      exact ⟨chunks,ok,fun e mem => fullSelected plan (fullIff.mpr full) order (fullIff.mpr full e mem)⟩

/- Keys of one byte, with the place of a NULL among them. -/
def byteOrder (nulls : Nat) (a b : KeyValues) : Bool :=
  let place : KeyValues → Nat := fun k => ((k.head?.bind id).bind List.head?).elim nulls UInt8.toNat
  decide (place a ≤ place b)

theorem byteOrdered (nulls) : KeyOrder (byteOrder nulls) where
  total := by
    intro a b
    simp only [byteOrder,decide_eq_true_eq]
    exact Nat.le_total _ _
  trans := by
    intro a b c
    simp only [byteOrder,decide_eq_true_eq]
    exact Nat.le_trans

def accounts : Table where
  ref := ⟨"public","accounts"⟩
  columns := [⟨"email","text",true,false,""⟩]
  primaryKey := none
  uniqueKeys := [⟨"accounts_email_key",["email"],false⟩]
  foreignKeys := []
  storageEngine := "InnoDB"

def account (email : Option Bytes) : Row := fun c => if c = "email" then email else none

end Replicare.ChunkNulls
