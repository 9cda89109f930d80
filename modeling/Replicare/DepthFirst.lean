import Mathlib.Data.Finset.Card
import Mathlib.Data.List.Chain

/-! Three-colour depth-first search for a cycle, over any nodes with any order of their
successors. -/
namespace Replicare.DepthFirst
open Relation List Function

inductive Color where
  | white
  | gray
  | black
  deriving DecidableEq, Repr

structure Walk (ν : Type*) where
  color : ν → Color
  stack : List ν

variable {ν : Type*} [DecidableEq ν]

def Walk.enter (w : Walk ν) (n : ν) : Walk ν := ⟨update w.color n .gray,w.stack++[n]⟩

def Walk.leave (w : Walk ν) (n : ν) : Walk ν := ⟨update w.color n .black,w.stack.dropLast⟩

def start (stack : List ν) (m : ν) : Nat := if m ∈ stack then stack.idxOf m else 0

def loop (dfs : ν → Walk ν → Except (List ν) (Walk ν)) : List ν → Walk ν → Except (List ν) (Walk ν)
  | [], w => .ok w
  | m::ms, w =>
    match w.color m with
    | .gray => .error (w.stack.drop (start w.stack m)++[m])
    | .white => (dfs m w).bind (loop dfs ms)
    | .black => loop dfs ms w

def dfs (kids : ν → List ν) : Nat → ν → Walk ν → Except (List ν) (Walk ν)
  | 0, _, w => .ok w
  | fuel+1, n, w =>
    (loop (dfs kids fuel) (kids n) (w.enter n)).map fun w => w.leave n

def walk (kids : ν → List ν) (fuel : Nat) : List ν → Walk ν → Except (List ν) (Walk ν)
  | [], w => .ok w
  | n::ns, w => if w.color n = .white then (dfs kids fuel n w).bind (walk kids fuel ns) else walk kids fuel ns w

def detect (kids : ν → List ν) (nodes : List ν) : Except (List ν) (Walk ν) :=
  walk kids (nodes.length+1) nodes ⟨fun _ => .white,[]⟩

def Edge (kids : ν → List ν) (n m : ν) : Prop := m ∈ kids n

def Cycle (kids : ν → List ν) (c : List ν) : Prop := ∃ n mid, c = n::mid++[n] ∧ c.IsChain (Edge kids)

section Search
variable {kids : ν → List ν} {nodes : List ν}

structure Sound (kids : ν → List ν) (w : Walk ν) : Prop where
  gray : ∀ m, w.color m = .gray ↔ m ∈ w.stack
  path : w.stack.IsChain (Edge kids)
  closed : ∀ m, w.color m = .black → ∀ k ∈ kids m, w.color k = .black
  clear : ∀ m, w.color m = .black → ¬TransGen (Edge kids) m m

def Later (w t : Walk ν) : Prop := t.stack = w.stack ∧ ∀ m, w.color m ≠ .white → t.color m = w.color m

def whites (nodes : List ν) (w : Walk ν) : Nat := (nodes.toFinset.filter fun n => w.color n = .white).card

omit [DecidableEq ν] in
theorem Later.trans {w t u : Walk ν} (one : Later w t) (two : Later t u) : Later w u := by
  refine ⟨two.1.trans one.1,fun m seen => ?_⟩
  have same := one.2 m seen
  rw [two.2 m (same ▸ seen),same]

theorem whitesLater {w t} (later : Later w t) : whites nodes t ≤ whites nodes w := by
  refine Finset.card_le_card (Finset.monotone_filter_right _ fun m _ white => ?_)
  by_contra seen
  exact seen ((later.2 m seen).symm.trans white)

theorem grayCycle {w} {n m} (sound : Sound kids w) (top : w.stack.getLast? = some n) (edge : m ∈ kids n)
    (gray : w.color m = .gray) : Cycle kids (w.stack.drop (start w.stack m)++[m]) := by
  have listed := (sound.gray m).mp gray
  have less := idxOf_lt_length_of_mem listed
  have split : w.stack.drop (start w.stack m) = m::w.stack.drop (w.stack.idxOf m+1) := by
    rw [start,if_pos listed,drop_eq_getElem_cons less,getElem_idxOf less]
  refine ⟨m,w.stack.drop (w.stack.idxOf m+1),by rw [split],?_⟩
  refine isChain_append.mpr ⟨sound.path.drop _,isChain_singleton _,fun x last y head => ?_⟩
  have whole : (w.stack.drop (start w.stack m)).getLast? = some n := by
    rw [getLast?_drop,start,if_pos listed,if_neg (Nat.not_le.mpr less),top]
  rw [whole] at last
  cases last
  cases head
  exact edge

/- What a search does to the walk if it does not end with a cycle. -/
structure Visits (kids : ν → List ν) (w t : Walk ν) (ms : List ν) : Prop where
  sound : Sound kids t
  later : Later w t
  done : ∀ m ∈ ms, t.color m = .black

def Finds (kids : ν → List ν) (w : Walk ν) (ms : List ν) : Except (List ν) (Walk ν) → Prop
  | .error c => Cycle kids c
  | .ok t => Visits kids w t ms

omit [DecidableEq ν] in
theorem Visits.after {w t : Walk ν} {ms ns r} (first : Visits kids w t ms) (next : Finds kids t ns r) : Finds kids w (ms++ns) r := by
  cases r with
  | error c => exact next
  | ok u =>
    refine ⟨next.sound,first.later.trans next.later,fun m mem => ?_⟩
    rcases mem_append.mp mem with mem | mem
    · have black := first.done m mem
      exact (next.later.2 m (by rw [black]; decide)).trans black
    · exact next.done m mem

omit [DecidableEq ν] in
theorem visitsNone {w} {ms} (sound : Sound kids w) (black : ∀ m ∈ ms, w.color m = .black) : Visits kids w w ms :=
  ⟨sound,⟨rfl,fun _ _ => rfl⟩,black⟩

omit [DecidableEq ν] in
theorem bindFinds {w} {m ms} {next} {r} (first : Finds kids w [m] r)
    (rest : ∀ t, Visits kids w t [m] → Finds kids t ms (next t)) : Finds kids w (m::ms) (r.bind next) := by
  cases r with
  | error c => exact first
  | ok t => exact first.after (rest t first)

theorem loopFinds {search : ν → Walk ν → Except (List ν) (Walk ν)} {fuel n ms} (inside : ∀ m ∈ ms, m ∈ kids n)
    (visit : ∀ m w, Sound kids w → w.color m = .white → w.stack.getLast? = some n → m ∈ kids n →
      whites nodes w < fuel → Finds kids w [m] (search m w))
    {w} (sound : Sound kids w) (top : w.stack.getLast? = some n) (few : whites nodes w < fuel) :
    Finds kids w ms (loop search ms w) := by
  induction ms generalizing w with
  | nil => exact visitsNone sound fun _ none => absurd none not_mem_nil
  | cons m ms ih =>
    have edge := inside m mem_cons_self
    have rest := fun k mem => inside k (mem_cons_of_mem m mem)
    rw [loop]
    cases color : w.color m with
    | gray => exact grayCycle sound top edge color
    | black => exact (visitsNone sound fun k mem => mem_singleton.mp mem ▸ color).after (ih rest sound top few)
    | white =>
      refine bindFinds (visit m w sound color top edge few) fun t first => ?_
      exact ih rest first.sound (first.later.1 ▸ top) ((whitesLater first.later).trans_lt few)

@[simp] theorem enterColor (w : Walk ν) (n m) : (w.enter n).color m = if m = n then .gray else w.color m := update_apply ..

@[simp] theorem leaveColor (w : Walk ν) (n m) : (w.leave n).color m = if m = n then .black else w.color m := update_apply ..

theorem soundEnter {w : Walk ν} {n} (sound : Sound kids w) (white : w.color n = .white)
    (below : ∀ l, w.stack.getLast? = some l → n ∈ kids l) : Sound kids (w.enter n) := by
  have old : ∀ m, (w.enter n).color m = .black → w.color m = .black := by
    intro m black
    rw [enterColor] at black
    split at black
    · cases black
    · exact black
  refine ⟨fun m => ?_,?_,fun m black k edge => ?_,fun m black => sound.clear m (old m black)⟩
  · rw [enterColor,Walk.enter,mem_append,mem_singleton,←sound.gray m]
    split <;> simp [*]
  · refine isChain_append.mpr ⟨sound.path,isChain_singleton n,fun l last m head => ?_⟩
    cases head
    exact below l last
  · have still := sound.closed m (old m black) k edge
    have other : k ≠ n := fun same => by rw [same,white] at still; cases still
    rw [enterColor,if_neg other,still]

theorem soundLeave {w t : Walk ν} {n} (sound : Sound kids w) (white : w.color n = .white)
    (visits : Visits kids (w.enter n) t (kids n)) : Visits kids w (t.leave n) [n] := by
  have stack : t.stack = w.stack++[n] := visits.later.1
  have gray : t.color n = .gray := (visits.sound.gray n).mpr (by simp [stack])
  have fresh : n ∉ w.stack := fun mem => by rw [(sound.gray n).mpr mem] at white; cases white
  have onward : ∀ m k, ReflTransGen (Edge kids) m k → t.color m = .black → t.color k = .black := by
    intro m k path black
    induction path with
    | refl => exact black
    | tail _ edge ih => exact visits.sound.closed _ ih _ edge
  have alone : ¬TransGen (Edge kids) n n := by
    intro round
    obtain ⟨k,edge,back⟩ := TransGen.head'_iff.mp round
    have black := onward k n back (visits.done k edge)
    rw [gray] at black
    cases black
  have ends : (t.leave n).stack = w.stack := by rw [Walk.leave,stack,dropLast_concat]
  refine ⟨⟨fun m => ?_,ends ▸ sound.path,fun m black k edge => ?_,fun m black => ?_⟩,⟨ends,fun m seen => ?_⟩,by simp⟩
  · rw [ends,leaveColor]
    split
    · simp [*]
    · rw [visits.sound.gray,stack]
      simp [*]
  · rw [leaveColor] at black ⊢
    split
    · rfl
    · split at black
      · rename_i same
        exact visits.done k (same ▸ edge)
      · exact visits.sound.closed m black k edge
  · rw [leaveColor] at black
    split at black
    · rename_i same
      exact same ▸ alone
    · exact visits.sound.clear m black
  · have other : m ≠ n := fun same => seen (same ▸ white)
    have kept := visits.later.2 m
    rw [enterColor,if_neg other] at kept
    rw [leaveColor,if_neg other,kept seen]

theorem whitesEnter {w : Walk ν} {n} (known : n ∈ nodes) (white : w.color n = .white) : whites nodes (w.enter n) < whites nodes w := by
  refine Finset.card_lt_card ((Finset.ssubset_iff_of_subset fun m mem => ?_).mpr ⟨n,by simp [known,white],by simp⟩)
  rw [Finset.mem_filter,enterColor] at mem
  refine Finset.mem_filter.mpr ⟨mem.1,?_⟩
  have still := mem.2
  split at still
  · cases still
  · exact still

section
variable (total : ∀ n m, m ∈ kids n → n ∈ nodes ∧ m ∈ nodes)
include total

theorem dfsFinds {fuel n} {w} (known : n ∈ nodes) (sound : Sound kids w)
    (white : w.color n = .white) (below : ∀ l, w.stack.getLast? = some l → n ∈ kids l) (few : whites nodes w < fuel) :
    Finds kids w [n] (dfs kids fuel n w) := by
  induction fuel generalizing n w with
  | zero => exact absurd few (Nat.not_lt_zero _)
  | succ fuel ih =>
    have less := (whitesEnter known white).trans_le (Nat.le_of_lt_succ few)
    have found := loopFinds (fun _ mem => mem) (fun m u sound white top edge few =>
      ih (total n m edge).2 sound white (fun l last => by cases top.symm.trans last; exact edge) few)
      (soundEnter sound white below) getLast?_concat less
    rw [dfs]
    cases ran : loop (dfs kids fuel) (kids n) (w.enter n) with
    | error c =>
      rw [ran] at found
      exact found
    | ok t =>
      rw [ran] at found
      exact soundLeave sound white found

theorem walkFinds {ns} {w} (inside : ∀ n ∈ ns, n ∈ nodes) (sound : Sound kids w)
    (empty : w.stack = []) : Finds kids w ns (walk kids (nodes.length+1) ns w) := by
  induction ns generalizing w with
  | nil => exact visitsNone sound fun _ none => absurd none not_mem_nil
  | cons n ns ih =>
    have rest := fun k mem => inside k (mem_cons_of_mem n mem)
    rw [walk]
    split
    · rename_i white
      refine bindFinds (dfsFinds total (inside n mem_cons_self) sound white (fun l last => ?_)
        (Nat.lt_succ_of_le ((Finset.card_filter_le _ _).trans (toFinset_card_le _)))) fun t first => ?_
      · rw [empty] at last
        cases last
      · exact ih rest first.sound (first.later.1.trans empty)
    · rename_i seen
      have black : w.color n = .black := by
        cases color : w.color n with
        | white => exact absurd color seen
        | gray => exact absurd ((sound.gray n).mp color) (by simp [empty])
        | black => rfl
      exact (visitsNone sound fun k mem => mem_singleton.mp mem ▸ black).after (ih rest sound empty)

omit total in
omit [DecidableEq ν] in
theorem cycleRound {c} (cycle : Cycle kids c) : ∃ n, TransGen (Edge kids) n n := by
  obtain ⟨n,mid,rfl,chain⟩ := cycle
  refine ⟨n,?_⟩
  cases mid with
  | nil => exact .single (by simpa using chain)
  | cons m mid =>
    obtain ⟨first,rest⟩ := isChain_cons_cons.mp chain
    exact .head' first (relationReflTransGen_of_exists_isChain_cons (mid++[n]) rest (by simp))

theorem detectFinds : (∀ c, detect kids nodes = .error c → Cycle kids c) ∧
    ((∃ c, detect kids nodes = .error c) ↔ ∃ n, TransGen (Edge kids) n n) := by
  have fresh : Sound kids (⟨fun _ => .white,[]⟩ : Walk ν) := ⟨by simp,.nil,by simp,by simp⟩
  have found := walkFinds total (fun _ mem => mem) fresh rfl
  change Finds kids _ nodes (detect kids nodes) at found
  refine ⟨fun c failed => by rwa [failed] at found,?_,?_⟩
  · rintro ⟨c,failed⟩
    rw [failed] at found
    exact cycleRound found
  · rintro ⟨n,round⟩
    obtain ⟨m,edge,_⟩ := TransGen.head'_iff.mp round
    cases ran : detect kids nodes with
    | error c => exact ⟨c,rfl⟩
    | ok t =>
      rw [ran] at found
      exact absurd round (found.sound.clear n (found.done n (total n m edge).1))

end

end Search
end Replicare.DepthFirst
