import Mathlib.Algebra.Order.BigOperators.Group.List
import Mathlib.Algebra.Order.Group.Nat

/-! Things that land in batches. Each needs others to be there, at the latest with its own
batch, and a batch that misses something is refused. -/
namespace Replicare.Landing
open List Function

variable {α ι κ : Type*}

/- What is needed may be there earlier. -/
structure Needs (met : List α → α → Prop) : Prop where
  grows : ∀ {l l' x}, l ⊆ l' → met l x → met l' x

def settle (met : List α → α → Prop) [∀ l x, Decidable (met l x)] (l : List α) : Option (List α) :=
  if ∀ x ∈ l, met l x then some l else none

def load (met : List α → α → Prop) [∀ l x, Decidable (met l x)] (there : List α) (batches : List (List α)) : Option (List α) :=
  batches.foldlM (fun l batch => settle met (l++batch)) there

def Lands (met : List α → α → Prop) : List α → List (List α) → Prop
  | _, [] => True
  | there, batch::rest => (∀ x ∈ batch, met (there++batch) x) ∧ Lands met (there++batch) rest

variable {met : List α → α → Prop}

section Load
variable [∀ l x, Decidable (met l x)] {there out : List α} {batches : List (List α)}

theorem loadIff (needs : Needs met) (held : ∀ x ∈ there, met there x) :
    load met there batches = some out ↔ Lands met there batches ∧ out = there++batches.flatten := by
  induction batches generalizing there with
  | nil => simp [load,Lands,eq_comm]
  | cons batch rest ih =>
    have fits : (∀ x ∈ there++batch, met (there++batch) x) ↔ ∀ x ∈ batch, met (there++batch) x := by
      refine ⟨fun all x mem => all x (mem_append_right _ mem),fun all x mem => ?_⟩
      rcases mem_append.mp mem with old | new
      · exact needs.grows (subset_append_left _ _) (held x old)
      · exact all x new
    have first : load met there (batch::rest) = (settle met (there++batch)).bind fun l => load met l rest := by
      simp only [load,foldlM_cons]
      rfl
    rw [first,settle]
    by_cases all : ∀ x ∈ there++batch, met (there++batch) x
    · rw [if_pos all,Option.bind_some,ih all,Lands,flatten_cons,append_assoc,and_iff_right (fits.mp all)]
    · rw [if_neg all]
      simp only [Option.bind_none,reduceCtorEq,false_iff,Lands]
      exact fun lands => all (fits.mpr lands.1.1)

theorem loadAppend {front back} : load met there (front++back) = (load met there front).bind fun l => load met l back := by
  unfold load
  rw [foldlM_append]
  rfl

theorem settlesIff {f : κ → List α} {front} {last : κ} :
    (front++[last]).foldlM (fun _ k => settle met (f k)) there = some out ↔
      (∀ k ∈ front++[last], ∀ x ∈ f k, met (f k) x) ∧ out = f last := by
  induction front generalizing there with
  | nil =>
    simp only [nil_append,foldlM_cons,foldlM_nil,mem_singleton,forall_eq,settle]
    split
    · rename_i fits
      exact ⟨fun same => ⟨fits,(Option.some.inj same).symm⟩,fun both => congrArg some both.2.symm⟩
    · rename_i misses
      exact iff_of_false (by simp) fun both => misses both.1
  | cons k front ih =>
    rw [cons_append,foldlM_cons,settle]
    split
    · rename_i fits
      have rest : (front++[last]).foldlM (fun _ k => settle met (f k)) (f k) = some out ↔
          (∀ k ∈ front++[last], ∀ x ∈ f k, met (f k) x) ∧ out = f last := ih
      refine rest.trans ?_
      simp only [mem_cons,forall_eq_or_imp]
      exact and_congr_left fun _ => (and_iff_right fits).symm
    · rename_i misses
      simp only [mem_cons,forall_eq_or_imp]
      exact iff_of_false (by simp) fun both => misses both.1.1

end Load

section Lands
variable {there there' : List α} {batches : List (List α)}

theorem landsMono (needs : Needs met) (sub : there ⊆ there') (lands : Lands met there batches) : Lands met there' batches := by
  induction batches generalizing there there' with
  | nil => trivial
  | cons batch rest ih =>
    have more : there++batch ⊆ there'++batch := append_subset.mpr
      ⟨fun _ mem => mem_append_left _ (sub mem),subset_append_right _ _⟩
    exact ⟨fun x mem => needs.grows more (lands.1 x mem),ih more lands.2⟩

theorem landsAppend {front back} :
    Lands met there (front++back) ↔ Lands met there front ∧ Lands met (there++front.flatten) back := by
  induction front generalizing there with
  | nil => simp [Lands]
  | cons batch front ih =>
    rw [cons_append,Lands,Lands,ih,flatten_cons,append_assoc,and_assoc]

theorem landsSingles {l} :
    Lands met there (l.map fun x => [x]) ↔ ∀ front x back, l = front++x::back → met (there++(front++[x])) x := by
  induction l generalizing there with
  | nil => simp [Lands]
  | cons a l ih =>
    simp only [map_cons,Lands,mem_singleton,forall_eq,ih]
    constructor
    · rintro ⟨first,rest⟩ front x back split
      rcases cons_eq_append_iff.mp split with ⟨rfl,head⟩ | ⟨front',rfl,tail⟩
      · cases head
        exact first
      · have later := rest front' x back tail
        rwa [append_assoc,singleton_append] at later
    · intro every
      refine ⟨every [] a l rfl,fun front x back split => ?_⟩
      rw [append_assoc,singleton_append]
      exact every (a::front) x back (by rw [split]; rfl)

theorem landsParts (needs : Needs met) {parts unit} :
    (∀ l : List κ, l.Perm parts → Lands met there (l.flatMap unit)) ↔ ∀ part ∈ parts, Lands met there (unit part) := by
  constructor
  · intro every part mem
    obtain ⟨front,back,rfl⟩ := append_of_mem mem
    have first := every (part::(front++back)) perm_middle.symm
    rw [flatMap_cons,landsAppend] at first
    exact first.1
  · intro alone l perm
    have mine : ∀ part ∈ l, Lands met there (unit part) := fun part mem => alone part (perm.mem_iff.mp mem)
    clear perm alone
    induction l generalizing there with
    | nil => trivial
    | cons part l ih =>
      rw [flatMap_cons,landsAppend]
      refine ⟨mine part mem_cons_self,ih fun other mem => ?_⟩
      exact landsMono needs (subset_append_left _ _) (mine other (mem_cons_of_mem _ mem))

theorem landsGroups (needs : Needs met) {order} {parts : ι → List κ} {unit : ι → κ → List (List α)} :
    (∀ pick : ι → List κ, (∀ i, (pick i).Perm (parts i)) → Lands met there (order.flatMap fun i => (pick i).flatMap (unit i))) ↔
      ∀ front i back, order = front++i::back → ∀ part ∈ parts i,
        Lands met (there++(front.flatMap fun j => (parts j).flatMap (unit j)).flatten) (unit i part) := by
  have members : ∀ {pick : ι → List κ} (front : List ι), (∀ i, (pick i).Perm (parts i)) →
      (front.flatMap fun j => (pick j).flatMap (unit j)).flatten ⊆ (front.flatMap fun j => (parts j).flatMap (unit j)).flatten := by
    intro pick front perm x mem
    obtain ⟨batch,inside,own⟩ := mem_flatten.mp mem
    obtain ⟨j,listed,known⟩ := mem_flatMap.mp inside
    refine mem_flatten.mpr ⟨batch,mem_flatMap.mpr ⟨j,listed,?_⟩,own⟩
    exact ((perm j).flatMap_right _).mem_iff.mp known
  constructor
  · classical
    rintro every front i back rfl part mem
    obtain ⟨early,late,split⟩ := append_of_mem mem
    -- the part goes first in its group, the other groups stay as they are
    have perm : ∀ j, (update parts i (part::(early++late)) j).Perm (parts j) := by
      intro j
      by_cases here : j = i
      · subst here
        rw [update_self,split]
        exact perm_middle.symm
      · rw [update_of_ne here]
    have lands := every _ perm
    rw [flatMap_append,flatMap_cons,update_self,flatMap_cons,landsAppend,landsAppend,landsAppend] at lands
    refine landsMono needs (append_subset.mpr ⟨subset_append_left _ _,fun x there => ?_⟩) lands.2.1.1
    exact mem_append_right _ (members front perm there)
  · intro alone pick perm
    induction order generalizing there with
    | nil => trivial
    | cons i order ih =>
      rw [flatMap_cons,landsAppend]
      refine ⟨(landsParts needs).mpr (fun part mem => ?_) _ (perm i),?_⟩
      · simpa using alone [] i order rfl part mem
      · have rest : Lands met (there++((parts i).flatMap (unit i)).flatten) (order.flatMap fun j => (pick j).flatMap (unit j)) := by
          refine ih fun front j back split part mem => ?_
          have lands := alone (i::front) j back (by rw [split]; rfl) part mem
          rwa [flatMap_cons,flatten_append,← append_assoc] at lands
        refine landsMono needs (append_subset.mpr ⟨subset_append_left _ _,fun x mem => ?_⟩) rest
        exact mem_append_right _ (((perm i).flatMap_right _).flatten.mem_iff.mpr mem)

end Lands

section Parts
variable {content : List α} {parts : List κ} {sel : κ → α → Bool}

theorem partsCount [DecidableEq α] (x : α) :
    (parts.flatMap fun c => content.filter (sel c)).count x = (parts.filter fun c => sel c x).length*content.count x := by
  induction parts with
  | nil => simp
  | cons c parts ih =>
    rw [flatMap_cons,count_append,ih,filter_cons]
    cases here : sel c x with
    | true => rw [count_filter here,if_pos rfl,length_cons,Nat.succ_mul,Nat.add_comm]
    | false =>
      have out : x ∉ content.filter (sel c) := fun mem => by simp [here] at mem
      rw [count_eq_zero_of_not_mem out,if_neg Bool.false_ne_true,Nat.zero_add]

theorem partsPerm : (parts.flatMap fun c => content.filter (sel c)).Perm content ↔ ∀ x ∈ content, (parts.filter fun c => sel c x).length = 1 := by
  classical
  rw [perm_iff_count]
  constructor
  · intro same x mem
    have positive : 0 < content.count x := count_pos_iff.mpr mem
    have here := same x
    rw [partsCount] at here
    exact Nat.eq_of_mul_eq_mul_right positive (here.trans (Nat.one_mul _).symm)
  · intro once x
    rw [partsCount]
    by_cases mem : x ∈ content
    · rw [once x mem,Nat.one_mul]
    · rw [count_eq_zero_of_not_mem mem,Nat.mul_zero]

end Parts

end Replicare.Landing
