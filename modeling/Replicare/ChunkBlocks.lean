import Replicare.ChunkNulls

/-! Which rows share a chunk. The keys in order fall into blocks of one size, and a
chunk holds the rows of one block, whichever engine planned it. -/
namespace Replicare.ChunkBlocks
open Engine Relations Stored Chunks ChunkNulls List

def everyNth (n : Nat) (l : List KeyValues) : List KeyValues :=
  (l.zipIdx.filter fun e => decide (e.2%n = 0 ∧ 0 < e.2)).map Prod.fst

def rank (le : KeyValues → KeyValues → Bool) (keys : List KeyValues) (k : KeyValues) : Nat := keys.countP fun z => !le k z

def block (le : KeyValues → KeyValues → Bool) (t : Table) (content : List Row) (targetRows : Int) (x : Row) : Nat :=
  rank le (content.map (keyOf (identityColumns t))) (keyOf (identityColumns t) x)/chunkRows targetRows

section Places
variable {n : Nat}

theorem everyNthAppend (n) (a b) : ∃ rest, everyNth n (a++b) = everyNth n a++rest ∧ ∀ k ∈ rest, k ∈ b := by
  refine ⟨((b.zipIdx a.length).filter fun e => decide (e.2%n = 0 ∧ 0 < e.2)).map Prod.fst,?_,fun k mem => ?_⟩
  · simp [everyNth,zipIdx_append]
  · obtain ⟨e,inside,rfl⟩ := mem_map.mp mem
    exact fst_mem_of_mem_zipIdx (mem_filter.mp inside).1

theorem everyNthShort {l} (short : l.length ≤ n) : everyNth n l = [] := by
  rw [everyNth,map_eq_nil_iff,filter_eq_nil_iff]
  intro e mem
  have low := snd_lt_of_mem_zipIdx mem
  rw [decide_eq_true_eq,Nat.mod_eq_of_lt (by omega)]
  omega

theorem everyNthLong {l} (positive : 0 < n) (long : n < l.length) : everyNth n l = l[n]::everyNth n (l.drop n) := by
  have front : ((l.take n).zipIdx.filter fun e => decide (e.2%n = 0 ∧ 0 < e.2)) = [] :=
    map_eq_nil_iff.mp (everyNthShort (length_take_le _ _))
  have size : (l.take n).length = n := length_take_of_le long.le
  -- behind the first block the places are shifted by one block
  have shifted : (((l.drop (n+1)).zipIdx (n+1)).filter fun e => decide (e.2%n = 0 ∧ 0 < e.2)).map Prod.fst =
      (((l.drop (n+1)).zipIdx 1).filter fun e => decide (e.2%n = 0 ∧ 0 < e.2)).map Prod.fst := by
    rw [← map_snd_add_zipIdx_eq_zipIdx,filter_map,List.map_map]
    congr 1
    refine filter_congr fun e mem => ?_
    have low := le_snd_of_mem_zipIdx mem
    simp only [Function.comp_apply,Prod.map_snd,Nat.add_mod_right]
    exact decide_eq_decide.mpr (and_congr_right fun _ => by omega)
  have whole_ : everyNth n l = everyNth n (l.take n++l.drop n) := by rw [take_append_drop]
  rw [whole_,everyNth,zipIdx_append,filter_append,front,nil_append,size,Nat.zero_add,everyNth,
    drop_eq_getElem_cons long,zipIdx_cons,zipIdx_cons]
  simpa [positive] using shifted

theorem everyNthLength (positive : 0 < n) (l) : (everyNth n l).length = (l.length-1)/n := by
  induction size : l.length using Nat.strong_induction_on generalizing l with
  | _ size_ ih =>
    subst size
    by_cases long : n < l.length
    · have rest := ih (l.drop n).length (by rw [length_drop]; omega) (l.drop n) rfl
      have split : l.length-1 = (l.drop n).length-1+n := by
        rw [length_drop]
        omega
      rw [everyNthLong positive long,length_cons,rest,split,Nat.add_div_right _ positive]
    · rw [everyNthShort (not_lt.mp long),Nat.div_eq_of_lt (by omega)]
      rfl

theorem everyNthSublist (n) (l) : (everyNth n l).Sublist l := by
  have listed := (filter_sublist (p := fun e => decide (e.2%n = 0 ∧ 0 < e.2)) (l := l.zipIdx)).map Prod.fst
  rwa [zipIdx_map_fst] at listed

end Places

section Ranges
variable {le : KeyValues → KeyValues → Bool} {start : Option KeyValues} {bs : List KeyValues} {k : KeyValues}

theorem noneBelow (order : KeyOrder le) {b} (above_ : ∀ b' ∈ bs, le b b' = true) (below : ¬le b k = true) :
    (b::bs).countP (fun b => le b k) = 0 := by
  refine countP_eq_zero.mpr fun b' mem low => below ?_
  rcases mem_cons.mp mem with rfl | later
  · exact low
  · exact order.trans (above_ b' later) low

theorem hasIff (order : KeyOrder le) (cuts : Cuts le start bs) (floor : above le start k = true) {i : Nat} {c : Chunk}
    (place : (buildKeysetRangesFrom start bs)[i]? = some c) : c.has le k = true ↔ bs.countP (fun b => le b k) = i := by
  induction bs generalizing start i with
  | nil =>
    obtain ⟨short,_⟩ := List.getElem?_eq_some_iff.mp place
    cases mem_singleton.mp (mem_of_getElem? place)
    simp only [buildKeysetRangesFrom,length_singleton] at short
    have first : i = 0 := by omega
    simp [Chunk.has,floor,first]
  | cons b bs ih =>
    have upper := (pairwise_cons.mp cuts.sorted).1
    cases i with
    | zero =>
      cases place
      by_cases beyond : le b k = true
      · simp [Chunk.has,beyond]
      · simp [Chunk.has,floor,beyond,noneBelow order upper beyond]
    | succ i =>
      by_cases beyond : le b k = true
      · have more : (b::bs).countP (fun b => le b k) = bs.countP (fun b => le b k)+1 := countP_cons_of_pos beyond
        rw [ih cuts.tail beyond place,more,Nat.add_right_cancel_iff]
      · rw [noneBelow order upper beyond]
        refine iff_of_false (fun inside => beyond ?_) (by omega)
        exact rangesFloor order cuts.tail (mem_of_getElem? place) inside

end Ranges

section Sorted
variable {le : KeyValues → KeyValues → Bool} {keys : List KeyValues} {n : Nat}

theorem blockCount (order : KeyOrder le) (positive : 0 < n) {l}
    (strict : l.Pairwise fun a b => le a b = true ∧ ¬le b a = true) {k} (mem : k ∈ l) :
    (everyNth n l).countP (fun b => le b k) = rank le l k/n := by
  obtain ⟨front,back,rfl⟩ := append_of_mem mem
  obtain ⟨_,upper,lower⟩ := pairwise_append.mp strict
  have self : le k k = true := (order.total k k).elim id id
  have low : ∀ z ∈ front++[k], le z k = true := by
    intro z here
    rcases mem_append.mp here with early | same
    · exact (lower z early k mem_cons_self).1
    · exact mem_singleton.mp same ▸ self
  have high : ∀ z ∈ back, ¬le z k = true := fun z here => ((pairwise_cons.mp upper).1 z here).2
  have place : rank le (front++k::back) k = front.length := by
    have early : front.countP (fun z => !le k z) = front.length :=
      countP_eq_length.mpr fun z here => by simpa using (lower z here k mem_cons_self).2
    have late : (k::back).countP (fun z => !le k z) = 0 := by
      refine countP_eq_zero.mpr fun z here => ?_
      rcases mem_cons.mp here with rfl | later
      · simp [self]
      · simp [((pairwise_cons.mp upper).1 z later).1]
    rw [rank,countP_append,early,late,Nat.add_zero]
  obtain ⟨rest,split,inside⟩ := everyNthAppend n (front++[k]) back
  rw [append_assoc,singleton_append] at split
  have none : rest.countP (fun b => le b k) = 0 := countP_eq_zero.mpr fun z here => high z (inside z here)
  have all : (everyNth n (front++[k])).countP (fun b => le b k) = (everyNth n (front++[k])).length :=
    countP_eq_length.mpr fun z here => low z ((everyNthSublist _ _).subset here)
  rw [split,countP_append,none,all,everyNthLength positive,place,length_append,length_singleton,Nat.add_sub_cancel,
    Nat.add_zero]

section Whole
variable (order : KeyOrder le) (distinct : Distinct le keys) (full : ∀ k ∈ keys, whole k = true)
include order distinct full

theorem walkBounds (positive : 0 < n) {ref left i cur bs}
    (here : ((keys.filter fun k => cur.all (atLeast le k)).insertionSort fun a b => le a b) = (keys.insertionSort fun a b => le a b).drop i)
    (walked : walk le ref keys n left cur = .ok bs) : bs = everyNth n ((keys.insertionSort fun a b => le a b).drop i) := by
  induction left generalizing cur i bs with
  | zero =>
    unfold walk at walked
    rw [boundaryAfter,here] at walked
    split at walked
    · rename_i none
      cases walked
      exact (everyNthShort (List.getElem?_eq_none_iff.mp none)).symm
    · cases walked
  | succ left ih =>
    unfold walk at walked
    rw [boundaryAfter,here] at walked
    split at walked
    · rename_i none
      cases walked
      exact (everyNthShort (List.getElem?_eq_none_iff.mp none)).symm
    · rename_i next found
      obtain ⟨long,value⟩ := List.getElem?_eq_some_iff.mp found
      cases rest : walk le ref keys n left (some next) with
      | error e => simp [rest,Except.map] at walked
      | ok tail =>
        simp only [rest,Except.map,Except.ok.injEq] at walked
        rw [getElem?_drop] at found
        have after := sortedFrom order distinct full found
        have later := ih (by simpa using after) rest
        rw [← walked,everyNthLong positive long,value,drop_drop,later]

end Whole

end Sorted

section Plans
variable {le : KeyValues → KeyValues → Bool} (order : KeyOrder le) {dialect : Dialect} {t : Table} {content : List Row} {targetRows : Int}
  (distinct : Distinct le (content.map (keyOf (identityColumns t)))) (splits : Splits dialect t content targetRows) {chunks : List Chunk}
  (ok : planKeyset le dialect t.ref (keyed t content) targetRows = .ok chunks)

theorem keyedKeys : (keyed t content).map Prod.fst = content.map (keyOf (identityColumns t)) := by simp [keyed,Function.comp_def]

include order ok

include distinct in
theorem planRanges (full : ∀ x ∈ content, whole (keyOf (identityColumns t) x) = true) :
    chunks = buildKeysetRangesFrom none (everyNth (chunkRows targetRows)
      ((content.map (keyOf (identityColumns t))).insertionSort fun a b => le a b)) := by
  cases dialect with
  | postgres =>
    cases ok
    have all : ((keyed t content).map Prod.fst).filter (above le none) = content.map (keyOf (identityColumns t)) := by
      rw [keyedKeys]
      exact filter_eq_self.mpr fun _ _ => rfl
    rw [planChunks,keysetBoundaries,all]
    rfl
  | mysql =>
    cases walked : walk le t.ref ((keyed t content).map Prod.fst) (chunkRows targetRows) maxChunks none with
    | error e => simp [planKeyset,walked,Except.map] at ok
    | ok bs =>
      simp only [planKeyset,walked,Except.map,Except.ok.injEq] at ok
      rw [keyedKeys] at walked
      have all : ((content.map (keyOf (identityColumns t))).filter fun k => Option.all (atLeast le k) none) =
          content.map (keyOf (identityColumns t)) := filter_eq_self.mpr fun _ _ => rfl
      have bounds := walkBounds order distinct (forall_mem_map.mpr full) (chunkRowsPositive targetRows) (by rw [all,drop_zero]) walked
      rw [← ok,rangesSame,bounds,drop_zero]

include splits

theorem splitsFit {c} (mem : c ∈ chunks) : Fits c (identityColumns t).length := by
  obtain ⟨bs,plan⟩ := planned order ok
  rcases splits with few | ⟨full,_⟩
  · rw [fewAlone plan few] at mem
    cases mem_singleton.mp mem
    exact openFits _
  · exact fullFits plan (forall_mem_map.mpr full) mem

include distinct

theorem blockSelects {x} (mem : x ∈ content) {i : Nat} {c : Chunk} (place : chunks[i]? = some c) :
    selects le dialect (identityColumns t).length c (keyOf (identityColumns t) x) = true ↔ block le t content targetRows x = i := by
  obtain ⟨bs,plan⟩ := planned order ok
  have known : keyOf (identityColumns t) x ∈ content.map (keyOf (identityColumns t)) := mem_map_of_mem mem
  rcases splits with few | ⟨full,_⟩
  · have self : le (keyOf (identityColumns t) x) (keyOf (identityColumns t) x) = true := (order.total _ _).elim id id
    have less : rank le (content.map (keyOf (identityColumns t))) (keyOf (identityColumns t) x) < content.length := by
      have size : (content.map (keyOf (identityColumns t))).length = content.length := length_map _
      rw [← size]
      refine lt_of_le_of_ne countP_le_length fun all => ?_
      have here := countP_eq_length.mp all _ known
      simp [self] at here
    have zero : block le t content targetRows x = 0 := Nat.div_eq_of_lt (by omega)
    rw [fewAlone plan few] at place
    obtain ⟨short,same⟩ := List.getElem?_eq_some_iff.mp place
    rw [length_singleton] at short
    have first : i = 0 := by omega
    subst first
    have alone : c = ⟨none,none⟩ := same.symm
    rw [alone,selectsFits (openFits _),zero]
    exact iff_of_true rfl rfl
  · have ranges := planRanges order distinct ok full
    have sorted : (content.map (keyOf (identityColumns t))).insertionSort (fun a b => le a b) |>.Perm (content.map (keyOf (identityColumns t))) :=
      perm_insertionSort _ _
    have strict := sortedStrict order distinct (forall_mem_map.mpr full)
    have cuts : Cuts le none (everyNth (chunkRows targetRows) ((content.map (keyOf (identityColumns t))).insertionSort fun a b => le a b)) := by
      refine ⟨List.Pairwise.sublist (everyNthSublist _ _) ?_,fun _ _ => rfl⟩
      exact strict.imp And.left
    rw [fullHas plan (forall_mem_map.mpr full) (mem_of_getElem? place) (full x mem)]
    rw [ranges] at place
    rw [hasIff order cuts rfl place,blockCount order (chunkRowsPositive targetRows) strict (sorted.mem_iff.mpr known),block,rank,
      sorted.countP_eq,rank]

end Plans

end Replicare.ChunkBlocks
