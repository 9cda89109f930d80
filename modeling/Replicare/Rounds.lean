import Mathlib.Data.Finset.Card
import Mathlib.Data.Finset.Union
import Mathlib.Algebra.Order.BigOperators.Group.List
import Mathlib.Algebra.Order.Ring.Nat

/-! Rounds over several queues of batches. -/
namespace Replicare.Rounds
open List

section Phase
variable {β β' ω ω' : Type*}

def phase (tx : β → ω → Option β) : List ω → β → β × List ω
  | [], b => (b,[])
  | w::ws, b =>
      match tx b w with
      | none => phase tx ws b
      | some c => ((phase tx ws c).1,w::(phase tx ws c).2)

theorem phaseSublist (tx : β → ω → Option β) (ws b) : (phase tx ws b).2.Sublist ws := by
  induction ws generalizing b with
  | nil => exact List.Sublist.refl []
  | cons w ws ih =>
    simp only [phase]
    split
    · exact (ih b).cons w
    · rename_i c _
      exact (ih c).cons_cons w

theorem phaseSimulates {tx : β → ω → Option β} {tx' : β' → ω' → Option β'} {related : β → β' → Prop} (name : ω → ω')
    {ws} (agree : ∀ b c, related b c → ∀ w ∈ ws, Option.Rel related (tx b w) (tx' c (name w)))
    {b c} (start : related b c) :
    related (phase tx ws b).1 (phase tx' (ws.map name) c).1 ∧
      (phase tx' (ws.map name) c).2 = (phase tx ws b).2.map name := by
  induction ws generalizing b c with
  | nil => exact ⟨start,rfl⟩
  | cons w ws ih =>
    have first := agree b c start w mem_cons_self
    have rest : ∀ b c, related b c → ∀ v ∈ ws, Option.Rel related (tx b v) (tx' c (name v)) :=
      fun b c held v mem => agree b c held v (mem_cons_of_mem _ mem)
    simp only [map_cons,phase]
    cases taken : tx b w with
    | none =>
      cases other : tx' c (name w) with
      | none => exact ih rest start
      | some e =>
        rw [taken,other] at first
        cases first
    | some d =>
      cases other : tx' c (name w) with
      | none =>
        rw [taken,other] at first
        cases first
      | some e =>
        rw [taken,other] at first
        cases first with
        | some held =>
          obtain ⟨states,names⟩ := ih rest held
          exact ⟨states,congrArg (name w::·) names⟩

/- The phases from `j` on, each over what has taken the one before it. -/
def pass (tx : Nat → β → ω → Option β) (order : Nat → List ω → List ω) : Nat → Nat → List ω → β → β × List ω
  | 0, _, ws, b => (b,ws)
  | left+1, j, ws, b =>
      pass tx order left (j+1) (phase (tx j) (order j ws) b).2 (phase (tx j) (order j ws) b).1

theorem passMem {tx : Nat → β → ω → Option β} {order : Nat → List ω → List ω} (within : ∀ j l, ∀ w ∈ order j l, w ∈ l)
    {left j ws b w} (took : w ∈ (pass tx order left j ws b).2) : w ∈ ws := by
  induction left generalizing j ws b with
  | zero => exact took
  | succ left ih => exact within j ws w ((phaseSublist _ _ _).subset (ih took))

def pick (positions : List Nat) (l : List ω) : List ω := positions.filterMap fun i => l[i]?

theorem pickMap (positions) (name : ω → ω') (l) : pick positions (l.map name) = (pick positions l).map name := by
  simp [pick,map_filterMap]

theorem memPick {positions : List Nat} {l : List ω} (whole : positions.Perm (List.range l.length)) {w} :
    w ∈ pick positions l ↔ w ∈ l := by
  simp only [pick,mem_filterMap,whole.mem_iff,mem_range]
  refine ⟨fun ⟨i,_,found⟩ => mem_of_getElem? found,fun mem => ?_⟩
  obtain ⟨i,found⟩ := mem_iff_getElem?.mp mem
  exact ⟨i,(List.getElem?_eq_some_iff.mp found).1,found⟩

theorem pickRange (l : List ω) : pick (List.range l.length) l = l := by
  have each : (List.range l.length).map (fun i => l[i]?) = l.map some := by
    refine ext_getElem (by simp) fun i _ _ => ?_
    simp
  have joined := congrArg (List.filterMap id) each
  simpa [filterMap_map,pick] using joined

theorem pickReverse (l : List ω) : pick (List.range l.length).reverse l = l.reverse := by
  rw [pick,filterMap_reverse]
  exact congrArg List.reverse (pickRange l)

def arranged (arrange : Nat → Nat → List Nat) (j : Nat) (l : List ω) : List ω := pick (arrange j l.length) l

theorem arrangedMem {arrange j} {l : List ω} {w} (mem : w ∈ arranged arrange j l) : w ∈ l := by
  obtain ⟨i,_,found⟩ := mem_filterMap.mp mem
  exact mem_of_getElem? found

theorem arrangedMap (arrange) (name : ω → ω') (j) (l) :
    arranged arrange j (l.map name) = (arranged arrange j l).map name := by
  simp only [arranged,length_map,pickMap]

end Phase

def Whole (arrange : Nat → Nat → List Nat) : Prop := ∀ j n, (arrange j n).Perm (List.range n)

variable {τ φ : Type*} [DecidableEq τ] [DecidableEq φ]

/- `carries j q i` is what phase `j` of batch `i` of queue `q` lands. -/
structure Plan (τ φ : Type*) where
  queues : List τ
  blocks : τ → Nat
  phases : Nat
  carries : Nat → τ → Nat → Finset φ
  requires : φ → φ → Prop

/- A phase of a batch of a queue. -/
structure Item (τ : Type*) where
  queue : τ
  block : Nat
  phase : Nat

namespace Plan
variable (p : Plan τ φ)

def Valid (x : Item τ) : Prop := x.queue ∈ p.queues ∧ x.block < p.blocks x.queue ∧ x.phase < p.phases

def lands (x : Item τ) : Finset φ := p.carries x.phase x.queue x.block

def Earlier (x y : Item τ) : Prop :=
  x.queue = y.queue ∧ (x.block < y.block ∨ x.block = y.block ∧ x.phase < y.phase)

inductive Possible : Item τ ⊕ φ → Prop where
  | item {x} (valid : p.Valid x) (before : ∀ y, p.Valid y → Earlier y x → Possible (.inl y))
      (met : ∀ a ∈ p.lands x, ∀ b, p.requires a b → b ∉ p.lands x → Possible (.inr b)) : Possible (.inl x)
  | atom {x a} (taken : Possible (.inl x)) (carried : a ∈ p.lands x) : Possible (.inr a)

def Closed (landed : Finset φ) : Prop := ∀ a ∈ landed, ∀ b, p.requires a b → b ∈ landed

open Classical in
noncomputable def attempt (j : Nat) (pos : τ → Nat) (landed : Finset φ) (q : τ) : Option (Finset φ) :=
  if p.Closed (landed ∪ p.carries j q (pos q)) then some (landed ∪ p.carries j q (pos q)) else none

noncomputable def pass (order : Nat → List τ → List τ) (pos : τ → Nat) (left j : Nat) (active : List τ) (landed : Finset φ) :
    Finset φ × List τ := Rounds.pass (fun j => p.attempt j pos) order left j active landed

structure State (τ φ : Type*) where
  landed : Finset φ
  pos : τ → Nat

def active (pos : τ → Nat) : List τ := p.queues.filter fun q => decide (pos q < p.blocks q)

noncomputable def round (order : Nat → List τ → List τ) (s : State τ φ) : State τ φ where
  landed := (p.pass order s.pos p.phases 0 (p.active s.pos) s.landed).1
  pos := fun q => if q ∈ (p.pass order s.pos p.phases 0 (p.active s.pos) s.landed).2 then s.pos q+1 else s.pos q

noncomputable def rounds (order : Nat → Nat → List τ → List τ) (s : State τ φ) : Nat → State τ φ
  | 0 => s
  | n+1 => p.round (order n) (rounds order s n)

def start : State τ φ := ⟨∅,fun _ => 0⟩

def Fair (order : Nat → List τ → List τ) : Prop := ∀ j l q, q ∈ order j l ↔ q ∈ l

omit [DecidableEq τ] in
theorem fairArranged {arrange} (whole : Whole arrange) : Fair (arranged (ω := τ) arrange) :=
  fun j l _ => memPick (whole j l.length)

def all : Finset φ :=
  p.queues.toFinset.biUnion fun q => (Finset.range (p.blocks q)).biUnion fun i =>
    (Finset.range p.phases).biUnion fun j => p.carries j q i

variable {p} {order : Nat → List τ → List τ} {pos : τ → Nat} {landed : Finset φ}

section Passes
omit [DecidableEq τ]

theorem attemptSome {j q next} (taken : p.attempt j pos landed q = some next) :
    p.Closed next ∧ next = landed ∪ p.carries j q (pos q) := by
  unfold attempt at taken
  split at taken
  · rename_i closed
    cases taken
    exact ⟨closed,rfl⟩
  · cases taken

theorem attemptNone {j q} (refused : p.attempt j pos landed q = none) : ¬p.Closed (landed ∪ p.carries j q (pos q)) := by
  unfold attempt at refused
  split at refused
  · cases refused
  · assumption

theorem attemptLanded {j q} (closed : p.Closed landed) (carried : p.carries j q (pos q) ⊆ landed) :
    p.attempt j pos landed q = some landed := by
  rw [attempt,Finset.union_eq_left.mpr carried,if_pos closed]

theorem phaseGrows (j) (ws) (landed) : landed ⊆ (phase (p.attempt j pos) ws landed).1 := by
  induction ws generalizing landed with
  | nil => exact Finset.Subset.refl landed
  | cons q ws ih =>
    simp only [phase]
    split
    · exact ih landed
    · rename_i next taken
      obtain ⟨_,rfl⟩ := attemptSome taken
      exact Finset.subset_union_left.trans (ih _)

theorem phaseClosed {j ws} (closed : p.Closed landed) : p.Closed (phase (p.attempt j pos) ws landed).1 := by
  induction ws generalizing landed with
  | nil => exact closed
  | cons q ws ih =>
    simp only [phase]
    split
    · exact ih closed
    · rename_i next taken
      exact ih (attemptSome taken).1

theorem phaseTook {j q ws} (took : q ∈ (phase (p.attempt j pos) ws landed).2) :
    p.carries j q (pos q) ⊆ (phase (p.attempt j pos) ws landed).1 := by
  induction ws generalizing landed with
  | nil => exact absurd took not_mem_nil
  | cons w ws ih =>
    simp only [phase] at took ⊢
    cases taken : p.attempt j pos landed w with
    | none =>
      simp only [taken] at took ⊢
      exact ih took
    | some next =>
      simp only [taken] at took ⊢
      rcases mem_cons.mp took with rfl | later
      · obtain ⟨_,rfl⟩ := attemptSome taken
        exact Finset.subset_union_right.trans (phaseGrows j ws _)
      · exact ih later

theorem phaseStays {j q ws} (same : (phase (p.attempt j pos) ws landed).1 = landed) (mem : q ∈ ws)
    (out : q ∉ (phase (p.attempt j pos) ws landed).2) : ¬p.Closed (landed ∪ p.carries j q (pos q)) := by
  induction ws with
  | nil => exact absurd mem not_mem_nil
  | cons w ws ih =>
    simp only [phase] at same out
    cases taken : p.attempt j pos landed w with
    | none =>
      simp only [taken] at same out
      rcases mem_cons.mp mem with rfl | later
      · exact attemptNone taken
      · exact ih same later out
    | some next =>
      simp only [taken] at same out
      have kept : next = landed := by
        obtain ⟨_,rfl⟩ := attemptSome taken
        exact Finset.Subset.antisymm ((phaseGrows j ws _).trans (Finset.subset_of_eq same)) Finset.subset_union_left
      subst kept
      rw [mem_cons,not_or] at out
      rcases mem_cons.mp mem with first | later
      · exact absurd first out.1
      · exact ih same later out.2

theorem passSucc (left j) (active) (landed) : p.pass order pos (left+1) j active landed =
    p.pass order pos left (j+1) (phase (p.attempt j pos) (order j active) landed).2
      (phase (p.attempt j pos) (order j active) landed).1 := rfl

theorem passGrows (left j) (active) (landed) : landed ⊆ (p.pass order pos left j active landed).1 := by
  induction left generalizing j active landed with
  | zero => exact Finset.Subset.refl landed
  | succ left ih => exact (phaseGrows j _ landed).trans (ih _ _ _)

theorem passClosed {left j active} (closed : p.Closed landed) : p.Closed (p.pass order pos left j active landed).1 := by
  induction left generalizing j active landed with
  | zero => exact closed
  | succ left ih => exact ih (phaseClosed closed)

theorem passActive (fair : Fair order) {left j q active}
    (took : q ∈ (p.pass order pos left j active landed).2) : q ∈ active :=
  passMem (fun j l q => (fair j l q).mp) took

theorem passTook (fair : Fair order) {left j q active} (took : q ∈ (p.pass order pos left j active landed).2) :
    ∀ i, j ≤ i → i < j+left → p.carries i q (pos q) ⊆ (p.pass order pos left j active landed).1 := by
  induction left generalizing j active landed with
  | zero => intro i low high; omega
  | succ left ih =>
    intro i low high
    rw [passSucc] at took ⊢
    rcases Nat.eq_or_lt_of_le low with rfl | later
    · exact (phaseTook (passActive fair took)).trans (passGrows _ _ _ _)
    · exact ih took i later (by omega)

end Passes

theorem passStays (fair : Fair order) {left j q active}
    (same : (p.pass order pos left j active landed).1 = landed) (mem : q ∈ active)
    (out : q ∉ (p.pass order pos left j active landed).2) :
    ∃ i, j ≤ i ∧ i < j+left ∧ (∀ h, j ≤ h → h < i → p.carries h q (pos q) ⊆ landed) ∧
      ¬p.Closed (landed ∪ p.carries i q (pos q)) := by
  induction left generalizing j active with
  | zero => exact absurd mem out
  | succ left ih =>
    rw [passSucc] at same out
    have kept : (phase (p.attempt j pos) (order j active) landed).1 = landed :=
      Finset.Subset.antisymm ((passGrows _ _ _ _).trans (Finset.subset_of_eq same)) (phaseGrows _ _ _)
    by_cases took : q ∈ (phase (p.attempt j pos) (order j active) landed).2
    · have first := phaseTook took
      rw [kept] at same out first
      obtain ⟨i,low,high,before,refused⟩ := ih same took out
      refine ⟨i,by omega,by omega,?_,refused⟩
      intro h from_ below
      rcases Nat.eq_or_lt_of_le from_ with rfl | later
      · exact first
      · exact before h later below
    · refine ⟨j,le_refl j,by omega,fun h low below => by omega,?_⟩
      exact phaseStays kept ((fair j active q).mpr mem) took

omit [DecidableEq τ] in
theorem passSimulates {β ω} {tx} (name : ω → τ) {related : β → Finset φ → Prop}
    {arrange} (whole : Whole arrange) {left j} {ws}
    (agree : ∀ i, j ≤ i → i < j+left → ∀ b c, related b c → p.Closed c → ∀ w ∈ ws,
      (∀ h < i, p.carries h (name w) (pos (name w)) ⊆ c) → Option.Rel related (tx i b w) (p.attempt i pos c (name w)))
    {b c} (start : related b c) (closed : p.Closed c) (passed : ∀ w ∈ ws, ∀ h < j, p.carries h (name w) (pos (name w)) ⊆ c) :
    related (Rounds.pass tx (arranged arrange) left j ws b).1 (p.pass (arranged arrange) pos left j (ws.map name) c).1 ∧
      (p.pass (arranged arrange) pos left j (ws.map name) c).2 =
        (Rounds.pass tx (arranged arrange) left j ws b).2.map name := by
  induction left generalizing j ws b c with
  | zero => exact ⟨start,rfl⟩
  | succ left ih =>
    have tried : ∀ w ∈ arranged arrange j ws, w ∈ ws := fun w => (memPick (whole j ws.length)).mp
    -- what has landed before the phase stays landed in it
    have agreed : ∀ b d, (related b d ∧ p.Closed d ∧ c ⊆ d) → ∀ w ∈ arranged arrange j ws,
        Option.Rel (fun b d => related b d ∧ p.Closed d ∧ c ⊆ d) (tx j b w) (p.attempt j pos d (name w)) := by
      intro b d held w mem
      have both := agree j (le_refl j) (by omega) b d held.1 held.2.1 w (tried w mem)
        fun h below => (passed w (tried w mem) h below).trans held.2.2
      generalize tx j b w = other at both ⊢
      cases taken : p.attempt j pos d (name w) with
      | none =>
        rw [taken] at both
        cases both
        exact .none
      | some e =>
        rw [taken] at both
        obtain ⟨closed,rfl⟩ := attemptSome taken
        cases both with
        | some found => exact .some ⟨found,closed,held.2.2.trans Finset.subset_union_left⟩
    obtain ⟨⟨held,_,_⟩,names⟩ := phaseSimulates name agreed ⟨start,closed,Finset.Subset.refl c⟩
    rw [passSucc,arrangedMap,names]
    refine ih (fun i low high b d held closed w mem => ?_) held (phaseClosed closed) fun w mem h below => ?_
    · exact agree i (by omega) (by omega) b d held closed w (tried w ((phaseSublist _ _ _).subset mem))
    · rcases Nat.lt_succ_iff_lt_or_eq.mp below with earlier | rfl
      · exact (passed w (tried w ((phaseSublist _ _ _).subset mem)) h earlier).trans (phaseGrows _ _ _)
      · exact phaseTook (names ▸ mem_map_of_mem mem)

def Sound (p : Plan τ φ) (landed : Finset φ) : Prop := ∀ a ∈ landed, p.Possible (.inr a)

def Ready (p : Plan τ φ) (pos : τ → Nat) (j : Nat) (q : τ) : Prop :=
  q ∈ p.queues ∧ pos q < p.blocks q ∧ ∀ y, p.Valid y → Earlier y ⟨q,pos q,j⟩ → p.Possible (.inl y)

omit [DecidableEq τ] in
theorem attemptSound {j q next} (bounded : j < p.phases) (sound : p.Sound landed) (ready : p.Ready pos j q)
    (taken : p.attempt j pos landed q = some next) : p.Possible (.inl ⟨q,pos q,j⟩) ∧ p.Sound next := by
  obtain ⟨closed,rfl⟩ := attemptSome taken
  have possible : p.Possible (.inl ⟨q,pos q,j⟩) := by
    refine .item ⟨ready.1,ready.2.1,bounded⟩ ready.2.2 fun a mem b needed out => ?_
    have present := closed a (Finset.mem_union_right _ mem) b needed
    exact sound b ((Finset.mem_union.mp present).resolve_right out)
  refine ⟨possible,fun a mem => ?_⟩
  rcases Finset.mem_union.mp mem with old | new
  · exact sound a old
  · exact .atom possible new

omit [DecidableEq τ] in
theorem phaseSound {j ws} (bounded : j < p.phases) (sound : p.Sound landed) (ready : ∀ q ∈ ws, p.Ready pos j q) :
    p.Sound (phase (p.attempt j pos) ws landed).1 ∧
      ∀ q ∈ (phase (p.attempt j pos) ws landed).2, p.Possible (.inl ⟨q,pos q,j⟩) := by
  induction ws generalizing landed with
  | nil => exact ⟨sound,fun q mem => absurd mem not_mem_nil⟩
  | cons w ws ih =>
    have rest : ∀ q ∈ ws, p.Ready pos j q := fun q mem => ready q (mem_cons_of_mem _ mem)
    simp only [phase]
    cases taken : p.attempt j pos landed w with
    | none => exact ih sound rest
    | some next =>
      obtain ⟨possible,kept⟩ := attemptSound bounded sound (ready w mem_cons_self) taken
      obtain ⟨after,others⟩ := ih kept rest
      refine ⟨after,fun q mem => ?_⟩
      rcases mem_cons.mp mem with rfl | later
      · exact possible
      · exact others q later

omit [DecidableEq τ] in
theorem passSound (fair : Fair order) {left j active} (bounded : j+left = p.phases) (sound : p.Sound landed)
    (ready : ∀ q ∈ active, p.Ready pos j q) :
    p.Sound (p.pass order pos left j active landed).1 ∧
      ∀ q ∈ (p.pass order pos left j active landed).2, p.Ready pos p.phases q := by
  induction left generalizing j active landed with
  | zero =>
    cases bounded
    exact ⟨sound,ready⟩
  | succ left ih =>
    have tried : ∀ q ∈ order j active, p.Ready pos j q := fun q mem => ready q ((fair j active q).mp mem)
    obtain ⟨kept,took⟩ := phaseSound (by omega) sound tried
    refine ih (by omega) kept fun q mem => ?_
    obtain ⟨known,open_,before⟩ := tried q ((phaseSublist _ _ _).subset mem)
    refine ⟨known,open_,fun y valid earlier => ?_⟩
    obtain ⟨queue,block,phase⟩ := y
    obtain ⟨same,cases_⟩ := earlier
    dsimp only at same cases_
    subst same
    rcases cases_ with lower | ⟨rfl,lower⟩
    · exact before _ valid ⟨rfl,.inl lower⟩
    · rcases Nat.lt_succ_iff_lt_or_eq.mp lower with below | rfl
      · exact before _ valid ⟨rfl,.inr ⟨rfl,below⟩⟩
      · exact took queue mem

/- What holds between rounds. -/
structure Inv (p : Plan τ φ) (s : State τ φ) : Prop where
  closed : p.Closed s.landed
  sound : p.Sound s.landed
  bounded : ∀ q ∈ p.queues, s.pos q ≤ p.blocks q
  taken : ∀ x, p.Valid x → x.block < s.pos x.queue → p.Possible (.inl x) ∧ p.lands x ⊆ s.landed

omit [DecidableEq τ] [DecidableEq φ] in
theorem invStart : p.Inv start where
  closed := fun a mem => absurd mem (Finset.notMem_empty a)
  sound := fun a mem => absurd mem (Finset.notMem_empty a)
  bounded := fun _ _ => Nat.zero_le _
  taken := fun _ _ below => absurd below (Nat.not_lt_zero _)

omit [DecidableEq τ] [DecidableEq φ] in
theorem memActive {q} : q ∈ p.active pos ↔ q ∈ p.queues ∧ pos q < p.blocks q := by
  simp [active]

variable {s : State τ φ}

omit [DecidableEq τ] [DecidableEq φ] in
theorem activeReady (inv : p.Inv s) : ∀ q ∈ p.active s.pos, p.Ready s.pos 0 q := by
  intro q mem
  obtain ⟨known,open_⟩ := memActive.mp mem
  refine ⟨known,open_,fun y valid earlier => ?_⟩
  obtain ⟨queue,block,phase⟩ := y
  obtain ⟨rfl,lower | ⟨_,lower⟩⟩ := earlier
  · exact (inv.taken _ valid lower).1
  · exact absurd lower (Nat.not_lt_zero _)

theorem roundKeeps (fair : Fair order) (inv : p.Inv s) : p.Inv (p.round order s) := by
  obtain ⟨sound,ready⟩ := passSound fair (Nat.zero_add _) inv.sound (activeReady inv)
  refine ⟨passClosed inv.closed,sound,fun q known => ?_,fun x valid below => ?_⟩
  · simp only [round]
    split
    · rename_i took
      exact (ready q took).2.1
    · exact inv.bounded q known
  · obtain ⟨queue,block,phase⟩ := x
    have grows : s.landed ⊆ (p.pass order s.pos p.phases 0 (p.active s.pos) s.landed).1 := passGrows _ _ _ _
    by_cases old : block < s.pos queue
    · obtain ⟨possible,carried⟩ := inv.taken _ valid old
      exact ⟨possible,carried.trans grows⟩
    · simp only [round] at below
      split at below
      · rename_i took
        obtain rfl : block = s.pos queue := by omega
        refine ⟨(ready queue took).2.2 _ valid ⟨rfl,.inr ⟨rfl,valid.2.2⟩⟩,?_⟩
        exact passTook fair took phase (Nat.zero_le _) (by rw [Nat.zero_add]; exact valid.2.2)
      · exact absurd below old

theorem landedAll (inv : p.Inv s) : s.landed ⊆ p.all := by
  intro a mem
  obtain ⟨x,possible,carried⟩ : ∃ x, p.Possible (.inl x) ∧ a ∈ p.lands x := by
    cases inv.sound a mem with
    | atom taken carried => exact ⟨_,taken,carried⟩
  cases possible with
  | item valid =>
    simp only [all,Finset.mem_biUnion,mem_toFinset,Finset.mem_range]
    exact ⟨x.queue,valid.1,x.block,valid.2.1,x.phase,valid.2.2,carried⟩

def Done (p : Plan τ φ) (s : State τ φ) (x : Item τ) : Prop :=
  x.block < s.pos x.queue ∨ x.block = s.pos x.queue ∧ ∀ j ≤ x.phase, p.carries j x.queue x.block ⊆ s.landed

omit [DecidableEq τ] in
theorem possibleDone {done : Item τ → Prop} (closed : p.Closed landed)
    (carried : ∀ x, p.Valid x → done x → p.lands x ⊆ landed)
    (idle : ∀ x, p.Valid x → (∀ y, p.Valid y → Earlier y x → done y) → p.Closed (landed ∪ p.lands x) → done x)
    {e} (possible : p.Possible e) : e.elim (fun x => p.Valid x ∧ done x) (· ∈ landed) := by
  induction possible with
  | item valid before met ihBefore ihMet =>
    rename_i x
    refine ⟨valid,idle x valid (fun y known earlier => (ihBefore y known earlier).2) fun a mem b needed => ?_⟩
    rcases Finset.mem_union.mp mem with old | new
    · exact Finset.mem_union_left _ (closed a old b needed)
    · by_cases own : b ∈ p.lands x
      · exact Finset.mem_union_right _ own
      · exact Finset.mem_union_left _ (ihMet a new b needed own)
  | atom taken mem ih => exact carried _ ih.1 ih.2 mem

theorem idleDone (fair : Fair order) (inv : p.Inv s) (landed : (p.round order s).landed = s.landed)
    (pos : ∀ q ∈ p.queues, (p.round order s).pos q = s.pos q) {x} (valid : p.Valid x)
    (before : ∀ y, p.Valid y → Earlier y x → p.Done s y) (fits : p.Closed (s.landed ∪ p.lands x)) : p.Done s x := by
  obtain ⟨queue,block,phase⟩ := x
  have out : queue ∉ (p.pass order s.pos p.phases 0 (p.active s.pos) s.landed).2 := by
    intro took
    have moved := pos queue valid.1
    simp only [round,if_pos took] at moved
    omega
  by_cases old : block < s.pos queue
  · exact .inl old
  have open_ : s.pos queue < p.blocks queue := lt_of_le_of_lt (not_lt.mp old) valid.2.1
  obtain ⟨i,_,high,empty,refused⟩ := passStays fair landed (memActive.mpr ⟨valid.1,open_⟩) out
  rw [Nat.zero_add] at high
  -- the refused phase of the batch in front is not before this one
  have notDone : ¬p.Done s ⟨queue,s.pos queue,i⟩ := by
    rintro (below | ⟨_,carried⟩)
    · exact absurd below (lt_irrefl _)
    · exact refused (by rw [Finset.union_eq_left.mpr (carried i (le_refl i))]; exact inv.closed)
  have notEarlier : ¬Earlier ⟨queue,s.pos queue,i⟩ (⟨queue,block,phase⟩ : Item τ) :=
    fun earlier => notDone (before _ ⟨valid.1,open_,high⟩ earlier)
  have same : block = s.pos queue := by
    by_contra other
    exact notEarlier ⟨rfl,.inl (by dsimp only; omega)⟩
  subst same
  have upTo : phase ≤ i := by
    by_contra beyond
    exact notEarlier ⟨rfl,.inr ⟨rfl,by dsimp only; omega⟩⟩
  rcases Nat.eq_or_lt_of_le upTo with rfl | below
  · exact absurd fits refused
  · exact .inr ⟨rfl,fun j bound => empty j (Nat.zero_le j) (lt_of_le_of_lt bound below)⟩

def potential (p : Plan τ φ) (s : State τ φ) : Nat := s.landed.card+(p.queues.map s.pos).sum

def bound (p : Plan τ φ) : Nat := p.all.card+(p.queues.map p.blocks).sum

theorem potentialBound (inv : p.Inv s) : p.potential s ≤ p.bound :=
  Nat.add_le_add (Finset.card_le_card (landedAll inv)) (sum_le_sum inv.bounded)

theorem posGrows (q) : s.pos q ≤ (p.round order s).pos q := by
  simp only [round]
  split
  · exact Nat.le_succ _
  · exact le_refl _

theorem roundGains (fair : Fair order) (inv : p.Inv s) (possible : ∀ x, p.Valid x → p.Possible (.inl x)) {q}
    (open_ : q ∈ p.active s.pos) : p.potential s < p.potential (p.round order s) := by
  have grows : s.landed ⊆ (p.round order s).landed := passGrows _ _ _ _
  have sums : (p.queues.map s.pos).sum ≤ (p.queues.map (p.round order s).pos).sum :=
    sum_le_sum fun q _ => posGrows q
  by_contra stuck
  have cards := Finset.card_le_card grows
  unfold potential at stuck
  have landed : (p.round order s).landed = s.landed := (Finset.eq_of_subset_of_card_le grows (by omega)).symm
  have pos : ∀ q ∈ p.queues, (p.round order s).pos q = s.pos q := by
    intro q known
    by_contra moved
    have strict : (p.queues.map s.pos).sum < (p.queues.map (p.round order s).pos).sum :=
      sum_lt_sum _ _ (fun q _ => posGrows q) ⟨q,known,lt_of_le_of_ne (posGrows q) (Ne.symm moved)⟩
    omega
  obtain ⟨known,below⟩ := memActive.mp open_
  have out : q ∉ (p.pass order s.pos p.phases 0 (p.active s.pos) s.landed).2 := by
    intro took
    have moved := pos q known
    simp only [round,if_pos took] at moved
    omega
  obtain ⟨i,_,high,_,refused⟩ := passStays fair landed open_ out
  rw [Nat.zero_add] at high
  have carried : ∀ x, p.Valid x → p.Done s x → p.lands x ⊆ s.landed := by
    rintro x valid (old | ⟨_,now⟩)
    · exact (inv.taken x valid old).2
    · exact now x.phase (le_refl _)
  have valid : p.Valid ⟨q,s.pos q,i⟩ := ⟨known,below,high⟩
  have done := (possibleDone inv.closed carried (fun x valid before fits => idleDone fair inv landed pos valid before fits)
    (possible _ valid)).2
  have empty : p.carries i q (s.pos q) ⊆ s.landed := carried _ valid done
  exact refused (by rw [Finset.union_eq_left.mpr empty]; exact inv.closed)

variable {orders : Nat → Nat → List τ → List τ}

theorem roundsKeep (fair : ∀ n, Fair (orders n)) (inv : p.Inv s) (n) : p.Inv (p.rounds orders s n) := by
  induction n with
  | zero => exact inv
  | succ n ih => exact roundKeeps (fair n) ih

theorem eventually {f : Nat → Nat} {happens : Nat → Prop} {limit} (bounded : ∀ n, f n ≤ limit)
    (grows : ∀ n, happens n ∨ f n < f (n+1)) : ∃ n, happens n := by
  by_contra never
  have climbs : ∀ n, n ≤ f n := by
    intro n
    induction n with
    | zero => exact Nat.zero_le _
    | succ n ih =>
      have more := (grows n).resolve_left fun now => never ⟨n,now⟩
      omega
  have above := climbs (limit+1)
  have below := bounded (limit+1)
  omega

theorem emptiedIff (fair : ∀ n, Fair (orders n)) :
    (∃ n, p.active (p.rounds orders start n).pos = []) ↔ ∀ x, p.Valid x → p.Possible (.inl x) := by
  have held := roundsKeep fair (invStart (p := p))
  constructor
  · rintro ⟨n,empty⟩ x valid
    have complete : ¬(p.rounds orders start n).pos x.queue < p.blocks x.queue := fun below => by
      have listed := memActive.mpr ⟨valid.1,below⟩
      rw [empty] at listed
      exact not_mem_nil listed
    exact ((held n).taken x valid (lt_of_lt_of_le valid.2.1 (not_lt.mp complete))).1
  · intro possible
    refine eventually (fun n => potentialBound (held n)) fun n => ?_
    cases tried : p.active (p.rounds orders start n).pos with
    | nil => exact .inl rfl
    | cons q rest => exact .inr (roundGains (fair n) (held n) possible (tried ▸ mem_cons_self))

theorem emptiedLanded (inv : p.Inv s) (empty : p.active s.pos = []) : s.landed = p.all := by
  refine Finset.Subset.antisymm (landedAll inv) fun a mem => ?_
  simp only [all,Finset.mem_biUnion,mem_toFinset,Finset.mem_range] at mem
  obtain ⟨q,known,i,below,j,phase,carried⟩ := mem
  have complete : ¬s.pos q < p.blocks q := fun open_ => by
    have listed := memActive.mpr ⟨known,open_⟩
    rw [empty] at listed
    exact not_mem_nil listed
  exact (inv.taken ⟨q,i,j⟩ ⟨known,below,phase⟩ (lt_of_lt_of_le below (not_lt.mp complete))).2 carried

end Plan
end Replicare.Rounds
