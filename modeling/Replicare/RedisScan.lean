import Replicare.RedisKeys

/-! The rolling SCAN of a Redis keyspace: one cursor for each shard, held across calls that
each collect a bounded batch, and the reset that ends a pass within a call. -/
namespace Replicare.RedisScan
open Engine RedisKeys List Function

/- reconState; a connection has at least one master. -/
structure Recon (n : Nat) where
  cursors : Fin (n+1) → UInt64
  done : Fin (n+1) → Bool
  idx : Fin (n+1)

variable {n : Nat}

def Recon.allDone (r : Recon n) : Bool := decide (∀ i, r.done i = true)

def Recon.reset (_ : Recon n) : Recon n := ⟨fun _ => 0,fun _ => false,0⟩

def newRecon : Recon n := ⟨fun _ => 0,fun _ => false,0⟩

def skip : Nat → Recon n → Recon n
  | 0, r => r
  | rounds+1, r => if r.done r.idx then skip rounds { r with idx := r.idx+1 } else r

def Recon.toOpen (r : Recon n) : Recon n := skip (n+1) r

structure Page where
  keys : List Bytes
  cursor : UInt64
  deriving DecidableEq, Repr

/- The answer to a SCAN; none is an error. -/
abbrev Answer := Option Page

def Recon.turn (r : Recon n) (p : Page) : Recon n :=
  if p.cursor = 0 then ⟨update r.cursors r.idx 0,update r.done r.idx true,r.idx+1⟩
  else { r with cursors := update r.cursors r.idx p.cursor }

inductive Outcome where
  | batch (keys : List Bytes) (passComplete : Bool)
  | failed
  | waiting
  deriving DecidableEq, Repr

def scanBatchFiltered (keep : Bytes → Bool) (max : Nat) (r : Recon n) (keys : List Bytes) (answers : List Answer) :
    Recon n × Outcome × List Answer :=
  if max ≤ keys.length then (r,.batch keys false,answers)
  else if r.allDone then (r.reset,.batch keys true,answers)
  else
    match answers with
    | [] => (r.toOpen,.waiting,[])
    | none::rest => (r.toOpen,.failed,rest)
    | some p::rest => scanBatchFiltered keep max (r.toOpen.turn p) (keys++p.keys.filter keep) rest

def scanBatch (sel : Option Selection) (max : Nat) (r : Recon n) (answers : List Answer) : Recon n × Outcome × List Answer :=
  scanBatchFiltered (chosen sel) max r [] answers

inductive Reads : Recon n → List Page → Recon n → Prop where
  | nil (r : Recon n) : Reads r [] r
  | page {r s : Recon n} {p : Page} {rest : List Page} (going : r.allDone = false) (later : Reads (r.toOpen.turn p) rest s) : Reads r (p::rest) s

def collected (keep : Bytes → Bool) (pages : List Page) : List Bytes := (pages.flatMap Page.keys).filter keep

inductive Ended (keep : Bytes → Bool) (max : Nat) (r : Recon n) (keys : List Bytes) : List Answer → Recon n → Outcome → Prop where
  | full {pages : List Page} {s : Recon n} (reads : Reads r pages s) (many : max ≤ (keys++collected keep pages).length) :
      Ended keep max r keys (pages.map some) s (.batch (keys++collected keep pages) false)
  | complete {pages : List Page} {s : Recon n} (reads : Reads r pages s) (few : (keys++collected keep pages).length < max) (all : s.allDone = true) :
      Ended keep max r keys (pages.map some) newRecon (.batch (keys++collected keep pages) true)
  | failed {pages : List Page} {s : Recon n} (reads : Reads r pages s) :
      Ended keep max r keys (pages.map some++[none]) s.toOpen .failed

section Loop
variable {keep : Bytes → Bool} {max : Nat} {r s : Recon n} {keys : List Bytes} {p : Page} {pages : List Page}

theorem collectedCons : collected keep (p::pages) = p.keys.filter keep++collected keep pages := by
  rw [collected,flatMap_cons,filter_append,collected]

theorem endedPage {answers : List Answer} {out : Outcome} (going : r.allDone = false)
    (later : Ended keep max (r.toOpen.turn p) (keys++p.keys.filter keep) answers s out) :
    Ended keep max r keys (some p::answers) s out := by
  cases later with
  | full reads many =>
    rw [append_assoc,←collectedCons] at many ⊢
    exact .full (.page going reads) many
  | complete reads few all =>
    rw [append_assoc,←collectedCons] at few ⊢
    exact .complete (.page going reads) few all
  | failed reads => exact .failed (.page going reads)

theorem endedFull (many : max ≤ keys.length) : Ended keep max r keys [] r (.batch keys false) := by
  have ended := @Ended.full n keep max r keys [] r (.nil r) (by simpa [collected] using many)
  rwa [collected,flatMap_nil,filter_nil,append_nil] at ended

theorem endedComplete (few : keys.length < max) (all : r.allDone = true) : Ended keep max r keys [] r.reset (.batch keys true) := by
  have ended := @Ended.complete n keep max r keys [] r (.nil r) (by simpa [collected] using few) all
  rwa [collected,flatMap_nil,filter_nil,append_nil] at ended

theorem scanEnded (answers : List Answer) : (scanBatchFiltered keep max r keys answers).2.1 = .waiting ∨
    ∃ taken, answers = taken++(scanBatchFiltered keep max r keys answers).2.2 ∧
      Ended keep max r keys taken (scanBatchFiltered keep max r keys answers).1 (scanBatchFiltered keep max r keys answers).2.1 := by
  induction answers generalizing r keys with
  | nil =>
    unfold scanBatchFiltered
    split
    · exact .inr ⟨[],rfl,endedFull ‹_›⟩
    · split
      · exact .inr ⟨[],rfl,endedComplete (Nat.not_le.mp ‹_›) ‹_›⟩
      · exact .inl rfl
  | cons answer rest ih =>
    unfold scanBatchFiltered
    split
    · exact .inr ⟨[],rfl,endedFull ‹_›⟩
    · split
      · exact .inr ⟨[],rfl,endedComplete (Nat.not_le.mp ‹_›) ‹_›⟩
      · rename_i few going
        rw [Bool.not_eq_true] at going
        cases answer with
        | none => exact .inr ⟨[none],rfl,@Ended.failed n keep max r keys [] r (.nil r)⟩
        | some p =>
          rcases @ih (r.toOpen.turn p) (keys++p.keys.filter keep) with waits | ⟨taken,split,ended⟩
          · exact .inl waits
          · refine .inr ⟨some p::taken,?_,endedPage going ended⟩
            rw [cons_append,←split]

theorem scanExact {sel answers out} (ran : scanBatch sel max r answers = (s,out,[]))
    (ended : out ≠ .waiting) : Ended (chosen sel) max r [] answers s out := by
  rw [scanBatch] at ran
  rcases @scanEnded n (chosen sel) max r [] answers with waits | ⟨taken,split,done⟩
  · rw [ran] at waits
    exact absurd waits ended
  · rw [ran,append_nil] at split
    rw [ran,←split] at done
    exact done

end Loop

section Server
variable (owner : Bytes → Fin (n+1)) (holds : Bytes → Prop)

def owe (r : Recon n) (p : Page) (owed : Bytes → Prop) (k : Bytes) : Prop :=
  if owner k = r.idx then (if r.cursors r.idx = 0 then holds k else owed k) ∧ k ∉ p.keys else owed k

def owedAfter (r : Recon n) (owed : Bytes → Prop) : List Page → Bytes → Prop
  | [] => owed
  | p::rest => owedAfter (r.toOpen.turn p) (owe owner holds r.toOpen p owed) rest

def Honest (r : Recon n) (owed : Bytes → Prop) : List Page → Prop
  | [] => True
  | p::rest => (p.cursor = 0 → ∀ k, owner k = r.toOpen.idx → ¬owe owner holds r.toOpen p owed k) ∧
      Honest (r.toOpen.turn p) (owe owner holds r.toOpen p owed) rest

def Covered (k : Bytes) (r : Recon n) (owed : Bytes → Prop) (seen : Prop) : Prop :=
  seen ∨ r.done (owner k) = false ∧ (r.cursors (owner k) ≠ 0 → owed k)

end Server

section Coverage
variable {owner : Bytes → Fin (n+1)} {holds : Bytes → Prop} {k : Bytes} {r s : Recon n} {owed : Bytes → Prop} {seen : Prop}

theorem skipKeeps (rounds : Nat) (r : Recon n) : (skip rounds r).done = r.done ∧ (skip rounds r).cursors = r.cursors := by
  induction rounds generalizing r with
  | zero => exact ⟨rfl,rfl⟩
  | succ rounds ih =>
    rw [skip]
    split
    · exact ih _
    · exact ⟨rfl,rfl⟩

theorem coveredOpen (covered : Covered owner k r owed seen) : Covered owner k r.toOpen owed seen := by
  rw [Covered,Recon.toOpen,(skipKeeps _ r).1,(skipKeeps _ r).2]
  exact covered

theorem coveredMono {more owing} (covered : Covered owner k r owed seen) (enough : seen → more)
    (kept : ¬more → owed k → owing k) : Covered owner k r owing more := by
  by_cases now : more
  · exact .inl now
  · rcases covered with seen | ⟨going,begun⟩
    · exact .inl (enough seen)
    · exact .inr ⟨going,fun started => kept now (begun started)⟩

theorem coveredNew : Covered owner k newRecon owed seen := .inr ⟨rfl,fun begun => absurd rfl begun⟩

theorem coveredDone (covered : Covered owner k r owed seen) (all : r.allDone = true) : seen := by
  rcases covered with seen | ⟨going,_⟩
  · exact seen
  · have every : ∀ i, r.done i = true := of_decide_eq_true all
    rw [every] at going
    cases going

theorem turnAway {p} (away : owner k ≠ r.idx) :
    (r.turn p).done (owner k) = r.done (owner k) ∧ (r.turn p).cursors (owner k) = r.cursors (owner k) := by
  rw [Recon.turn]
  split
  · exact ⟨update_of_ne away _ _,update_of_ne away _ _⟩
  · exact ⟨rfl,update_of_ne away _ _⟩

theorem pageCovers {p} (here : holds k) (covered : Covered owner k r owed seen)
    (honest : p.cursor = 0 → ∀ k, owner k = r.idx → ¬owe owner holds r p owed k) :
    Covered owner k (r.turn p) (owe owner holds r p owed) (seen ∨ k ∈ p.keys) := by
  rcases covered with seen | ⟨going,owing⟩
  · exact .inl (.inl seen)
  by_cases returned : k ∈ p.keys
  · exact .inl (.inr returned)
  by_cases mine : owner k = r.idx
  · have owes : owe owner holds r p owed k := by
      rw [owe,if_pos mine]
      refine ⟨?_,returned⟩
      split
      · exact here
      · rename_i begun
        rw [mine] at owing
        exact owing begun
    have onward : p.cursor ≠ 0 := fun ends => honest ends k mine owes
    refine .inr ⟨?_,fun _ => owes⟩
    rwa [Recon.turn,if_neg onward]
  · rw [Covered,(turnAway mine).1,(turnAway mine).2,owe,if_neg mine]
    exact .inr ⟨going,owing⟩

theorem readsCovers {pages : List Page} (reads : Reads r pages s) (here : holds k) (honest : Honest owner holds r owed pages)
    (covered : Covered owner k r owed seen) :
    Covered owner k s (owedAfter owner holds r owed pages) (seen ∨ k ∈ pages.flatMap Page.keys) := by
  induction reads generalizing owed seen with
  | nil r => simpa [owedAfter] using covered
  | page going later ih =>
    have next := ih honest.2 (pageCovers here (coveredOpen covered) honest.1)
    rwa [or_assoc,←mem_append,←flatMap_cons] at next

def pagesOf (answers : List Answer) : List Page := answers.filterMap id

theorem pagesOfMap (pages) : pagesOf (pages.map some) = pages := by
  rw [pagesOf,filterMap_map]
  exact filterMap_some

theorem endedCovers {keep : Bytes → Bool} {max : Nat} {taken : List Answer} {out : Outcome} (ended : Ended keep max r [] taken s out)
    (here : holds k) (honest : Honest owner holds r owed (pagesOf taken)) (covered : Covered owner k r owed seen) :
    Covered owner k s (owedAfter owner holds r owed (pagesOf taken)) (seen ∨ k ∈ (pagesOf taken).flatMap Page.keys) ∧
    ∀ keys, out = .batch keys true → seen ∨ k ∈ (pagesOf taken).flatMap Page.keys := by
  cases ended with
  | full reads many =>
    rw [pagesOfMap] at honest ⊢
    exact ⟨readsCovers reads here honest covered,fun keys complete => by cases complete⟩
  | complete reads few all =>
    rw [pagesOfMap] at honest ⊢
    have seen := coveredDone (readsCovers reads here honest covered) all
    exact ⟨.inl seen,fun _ _ => seen⟩
  | @failed pages _ reads =>
    have same : pagesOf (pages.map some++[none]) = pages := by
      rw [pagesOf,filterMap_append,←pagesOf,pagesOfMap]
      simp
    rw [same] at honest ⊢
    exact ⟨coveredOpen (readsCovers reads here honest covered),fun keys complete => by cases complete⟩

theorem endedBatch {keep : Bytes → Bool} {max : Nat} {taken : List Answer} {keys : List Bytes} {complete : Bool}
    (ended : Ended keep max r [] taken s (.batch keys complete)) : keys = collected keep (pagesOf taken) := by
  cases ended with
  | full reads many => rw [pagesOfMap,nil_append]
  | complete reads few all => rw [pagesOfMap,nil_append]

theorem honestWhole {p} (all : ∀ k, holds k → k ∈ p.keys) : Honest owner holds newRecon owed [p] := by
  have opened : (newRecon : Recon n).toOpen = newRecon := rfl
  refine ⟨fun _ k mine owes => ?_,trivial⟩
  have fresh : (newRecon : Recon n).cursors newRecon.idx = 0 := rfl
  rw [opened] at mine owes
  rw [owe,if_pos mine,if_pos fresh] at owes
  exact owes.2 (all k owes.1)

end Coverage

end Replicare.RedisScan
