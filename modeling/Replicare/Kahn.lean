import Mathlib.Data.Set.Finite.Basic
import Mathlib.Order.WellFounded

/-! Kahn's topological sort over any nodes: edges may be repeated, some nodes may be held back,
and the queue may be kept in any order. -/
namespace Replicare.Kahn
open Relation List Function

variable {ν : Type*} [DecidableEq ν]

def release (held : ν → Bool) : List ν → (ν → Nat) → List ν × (ν → Nat)
  | [], degree => ([],degree)
  | c::rest, degree =>
      let next := update degree c (degree c-1)
      let (ready,after) := release held rest next
      (if next c = 0 ∧ held c = false then c::ready else ready,after)

def drain (kids : ν → List ν) (held : ν → Bool) (arrange : List ν → List ν → List ν) : Nat → List ν → (ν → Nat) → List ν
  | fuel+1, n::queue, degree =>
      let (ready,after) := release held (kids n) degree
      n::drain kids held arrange fuel (arrange queue ready) after
  | _, _, _ => []

/- `p` stands before `c`. -/
def Before (l : List ν) (p c : ν) : Prop := ∃ front back, l = front++c::back ∧ p ∈ front

section Release
variable {held : ν → Bool} {kids : List ν} {degree : ν → Nat}

theorem releaseDegree (c : ν) : (release held kids degree).2 c = degree c-kids.count c := by
  induction kids generalizing degree with
  | nil => simp [release]
  | cons k kids ih =>
    simp only [release,ih]
    by_cases here : c = k
    · subst here
      simp only [update_self,count_cons_self]
      omega
    · have other : k ≠ c := fun same => here same.symm
      rw [update_of_ne here,count_cons_of_ne other]

theorem releaseReady (enough : ∀ c, kids.count c ≤ degree c) :
    (release held kids degree).1.Nodup ∧ ∀ c, c ∈ (release held kids degree).1 ↔
      c ∈ kids ∧ degree c = kids.count c ∧ held c = false := by
  induction kids generalizing degree with
  | nil => simp [release]
  | cons k kids ih =>
    have later : ∀ c, kids.count c ≤ update degree k (degree k-1) c := by
      intro c
      have bound := enough c
      by_cases here : c = k
      · subst here
        simp only [update_self,count_cons_self] at bound ⊢
        omega
      · have other : k ≠ c := fun same => here same.symm
        rw [count_cons_of_ne other] at bound
        rwa [update_of_ne here]
    have bound := enough k
    rw [count_cons_self] at bound
    obtain ⟨distinct,ready⟩ := ih later
    have rest : ∀ c, c ≠ k → (c ∈ (release held kids (update degree k (degree k-1))).1 ↔
        c ∈ k::kids ∧ degree c = (k::kids).count c ∧ held c = false) := by
      intro c other
      rw [ready,update_of_ne other,count_cons_of_ne fun same => other same.symm,mem_cons]
      simp [other]
    have own : k ∈ (release held kids (update degree k (degree k-1))).1 ↔
        k ∈ kids ∧ degree k-1 = kids.count k ∧ held k = false := by
      rw [ready,update_self]
    simp only [release,update_self]
    by_cases last : degree k-1 = 0 ∧ held k = false
    · have gone : k ∉ kids := by
        rw [← count_eq_zero]
        omega
      rw [if_pos last]
      refine ⟨nodup_cons.mpr ⟨fun again => gone (own.mp again).1,distinct⟩,fun c => ?_⟩
      by_cases here : c = k
      · subst here
        have none := count_eq_zero.mpr gone
        simp only [mem_cons_self,true_and,true_iff,count_cons_self]
        exact ⟨by omega,last.2⟩
      · rw [mem_cons,or_iff_right here,rest c here]
    · rw [if_neg last]
      refine ⟨distinct,fun c => ?_⟩
      by_cases here : c = k
      · subst here
        rw [own,count_cons_self]
        simp only [mem_cons_self,true_and]
        constructor
        · rintro ⟨_,same,free⟩
          exact ⟨by omega,free⟩
        · rintro ⟨same,free⟩
          have some_ : 0 < kids.count c := by
            by_contra none
            exact last ⟨by omega,free⟩
          exact ⟨count_pos_iff.mp some_,by omega,free⟩
      · exact rest c here

end Release

structure Sorting (nodes : List ν) (edges : List (ν × ν)) (kids : ν → List ν) (arrange : List ν → List ν → List ν) : Prop where
  distinct : nodes.Nodup
  inside : ∀ e ∈ edges, e.1 ∈ nodes ∧ e.2 ∈ nodes
  kids : ∀ n, (kids n).Perm ((edges.filter fun e => decide (e.1 = n)).map Prod.snd)
  arrange : ∀ queue ready, (arrange queue ready).Perm (queue++ready)

def open_ (edges : List (ν × ν)) (sorted : List ν) (c : ν) : Nat := edges.countP fun e => decide (e.2 = c ∧ e.1 ∉ sorted)

section Drain
variable {nodes : List ν} {edges : List (ν × ν)} {kids : ν → List ν} {arrange : List ν → List ν → List ν} {held : ν → Bool}

theorem Sorting.count (sorting : Sorting nodes edges kids arrange) (n c : ν) :
    (kids n).count c = edges.countP fun e => decide (e.1 = n ∧ e.2 = c) := by
  rw [(sorting.kids n).count_eq,count_eq_countP,countP_map,countP_filter]
  refine countP_congr fun e _ => ?_
  simp [and_comm]

theorem openSnoc {sorted n} (fresh : n ∉ sorted) (c : ν) :
    open_ edges sorted c = open_ edges (sorted++[n]) c+edges.countP fun e => decide (e.1 = n ∧ e.2 = c) := by
  unfold open_
  induction edges with
  | nil => rfl
  | cons e edges ih =>
    rw [countP_cons,countP_cons,countP_cons,ih]
    by_cases target : e.2 = c
    · by_cases here : e.1 = n
      · simp [target,here,fresh]
        omega
      · simp [target,here]
        omega
    · simp [target]

theorem openZero {sorted c} : open_ edges sorted c = 0 ↔ ∀ p, (p,c) ∈ edges → p ∈ sorted := by
  unfold open_
  rw [countP_eq_zero]
  constructor
  · intro none p mem
    by_contra out
    exact none (p,c) mem (by simp [out])
  · intro all e mem counted
    obtain ⟨rfl,out⟩ := of_decide_eq_true counted
    exact out (all e.1 mem)

structure Ordered (nodes : List ν) (edges : List (ν × ν)) (held : ν → Bool) (sorted : List ν) : Prop where
  distinct : sorted.Nodup
  known : ∀ c ∈ sorted, c ∈ nodes
  free : ∀ c ∈ sorted, held c = false
  before : ∀ front c back, sorted = front++c::back → ∀ p, (p,c) ∈ edges → p ∈ front

structure Running (nodes : List ν) (edges : List (ν × ν)) (held : ν → Bool) (sorted queue : List ν) (degree : ν → Nat) : Prop
    extends Ordered nodes edges held sorted where
  degree : ∀ c, degree c = open_ edges sorted c
  queued : ∀ c ∈ queue, c ∈ nodes ∧ held c = false ∧ open_ edges sorted c = 0
  apart : (sorted++queue).Nodup
  ready : ∀ c ∈ nodes, held c = false → open_ edges sorted c = 0 → c ∈ sorted++queue

omit [DecidableEq ν] in
theorem Ordered.snoc {sorted} (held_ : Ordered nodes edges held sorted) {n} (known : n ∈ nodes) (free : held n = false)
    (fresh : n ∉ sorted) (done : ∀ p, (p,n) ∈ edges → p ∈ sorted) : Ordered nodes edges held (sorted++[n]) where
  distinct := nodup_append.mpr ⟨held_.distinct,nodup_singleton n,fun a mem b own same => by
    cases mem_singleton.mp own
    exact fresh (same ▸ mem)⟩
  known := by
    intro c mem
    rcases mem_append.mp mem with old | new
    · exact held_.known c old
    · exact mem_singleton.mp new ▸ known
  free := by
    intro c mem
    rcases mem_append.mp mem with old | new
    · exact held_.free c old
    · exact mem_singleton.mp new ▸ free
  before := by
    intro front c back split p edge
    rcases append_eq_append_iff.mp split with ⟨more,rfl,tail⟩ | ⟨more,rfl,tail⟩
    · -- the split is at the new node
      cases more with
      | nil =>
        cases tail
        simpa using done p edge
      | cons a more => simp at tail
    · cases more with
      | nil =>
        cases tail
        simpa using done p edge
      | cons a more =>
        cases tail
        exact held_.before front c more rfl p edge

theorem Sorting.memKids (sorting : Sorting nodes edges kids arrange) {n c} : c ∈ kids n ↔ (n,c) ∈ edges := by
  rw [(sorting.kids n).mem_iff,mem_map]
  constructor
  · rintro ⟨e,listed,rfl⟩
    obtain ⟨inside,here⟩ := mem_filter.mp listed
    rwa [← of_decide_eq_true here]
  · intro edge
    exact ⟨(n,c),mem_filter.mpr ⟨edge,decide_eq_true rfl⟩,rfl⟩

section Step
variable {sorted queue : List ν} {n : ν} {degree : ν → Nat} (running : Running nodes edges held sorted (n::queue) degree)
include running

theorem Running.fresh : n ∉ sorted := fun mem => (nodup_append.mp running.apart).2.2 n mem n mem_cons_self rfl

variable (sorting : Sorting nodes edges kids arrange)
include sorting

theorem Running.degrees (c : ν) : degree c = open_ edges (sorted++[n]) c+(kids n).count c := by
  rw [running.degree,sorting.count,openSnoc running.fresh]

theorem Running.released : (release held (kids n) degree).1.Nodup ∧
    ∀ c, c ∈ (release held (kids n) degree).1 ↔ c ∈ kids n ∧ open_ edges (sorted++[n]) c = 0 ∧ held c = false := by
  have enough : ∀ c, (kids n).count c ≤ degree c := fun c => by rw [running.degrees sorting]; omega
  obtain ⟨distinct,ready⟩ := releaseReady enough
  refine ⟨distinct,fun c => ?_⟩
  rw [ready,running.degrees sorting]
  refine and_congr_right fun _ => and_congr_left fun _ => ?_
  omega

theorem Running.step :
    Running nodes edges held (sorted++[n]) (arrange queue (release held (kids n) degree).1) (release held (kids n) degree).2 := by
  obtain ⟨known,free,none⟩ := running.queued n mem_cons_self
  have apart := running.apart
  rw [nodup_append,nodup_cons] at apart
  obtain ⟨_,⟨out,queueDistinct⟩,cross⟩ := apart
  have fresh := running.fresh
  have degrees := running.degrees sorting
  obtain ⟨readyDistinct,readyIff⟩ := running.released sorting
  have arranged := sorting.arrange queue (release held (kids n) degree).1
  have memIff : ∀ c, c ∈ arrange queue (release held (kids n) degree).1 ↔ c ∈ queue ∨ c ∈ (release held (kids n) degree).1 := by
    intro c
    rw [arranged.mem_iff,mem_append]
  have kidNode : ∀ c, c ∈ kids n → (n,c) ∈ edges := fun c => sorting.memKids.mp
  -- a node that is ready now had an edge from here, so it was neither sorted nor queued
  have new : ∀ c, c ∈ (release held (kids n) degree).1 → c ∉ sorted ∧ c ≠ n ∧ c ∉ queue := by
    intro c mem
    have edge := kidNode c ((readyIff c).mp mem).1
    have waiting : open_ edges sorted c ≠ 0 := fun zero => fresh (openZero.mp zero n edge)
    refine ⟨fun old => ?_,fun same => ?_,fun old => ?_⟩
    · obtain ⟨front,back,split⟩ := append_of_mem old
      have early := running.before front c back split n edge
      exact fresh (split ▸ mem_append_left _ early)
    · exact waiting (same ▸ none)
    · exact waiting (running.queued c (mem_cons_of_mem _ old)).2.2
  refine ⟨running.toOrdered.snoc known free fresh (openZero.mp none),fun c => ?_,fun c mem => ?_,?_,fun c node open' zero => ?_⟩
  · rw [releaseDegree,degrees]
    omega
  · rcases (memIff c).mp mem with old | now
    · obtain ⟨node,open',zero⟩ := running.queued c (mem_cons_of_mem _ old)
      exact ⟨node,open',openZero.mpr fun p edge => mem_append_left _ (openZero.mp zero p edge)⟩
    · obtain ⟨kid,zero,open'⟩ := (readyIff c).mp now
      exact ⟨(sorting.inside _ (kidNode c kid)).2,open',zero⟩
  · have queues : (arrange queue (release held (kids n) degree).1).Nodup := by
      rw [arranged.nodup_iff,nodup_append]
      exact ⟨queueDistinct,readyDistinct,fun a old b now same => (new b now).2.2 (same ▸ old)⟩
    refine nodup_append.mpr ⟨(running.toOrdered.snoc known free fresh (openZero.mp none)).distinct,queues,
      fun a early b late same => ?_⟩
    subst same
    rcases (memIff a).mp late with old | now
    · rcases mem_append.mp early with sorted | own
      · exact cross a sorted a (mem_cons_of_mem _ old) rfl
      · exact out (mem_singleton.mp own ▸ old)
    · rcases mem_append.mp early with sorted | own
      · exact (new a now).1 sorted
      · exact (new a now).2.1 (mem_singleton.mp own)
  · by_cases was : open_ edges sorted c = 0
    · rcases mem_append.mp (running.ready c node open' was) with old | queued
      · exact mem_append_left _ (mem_append_left _ old)
      · rcases mem_cons.mp queued with rfl | later
        · exact mem_append_left _ (mem_append_right _ mem_cons_self)
        · exact mem_append_right _ ((memIff c).mpr (.inl later))
    · have kid : c ∈ kids n := by
        by_contra out
        have none := count_eq_zero.mpr out
        have all := degrees c
        rw [running.degree,zero,none] at all
        exact was all
      exact mem_append_right _ ((memIff c).mpr (.inr ((readyIff c).mpr ⟨kid,zero,open'⟩)))

end Step

/- A whole sort: nothing that could be sorted is left out. -/
structure Sorted (nodes : List ν) (edges : List (ν × ν)) (held : ν → Bool) (sorted : List ν) : Prop
    extends Ordered nodes edges held sorted where
  complete : ∀ c ∈ nodes, held c = false → (∀ p, (p,c) ∈ edges → p ∈ sorted) → c ∈ sorted

theorem Running.spent {sorted queue degree} (running : Running nodes edges held sorted queue degree)
    (enough : nodes.length ≤ sorted.length) : queue = [] := by
  have all : ∀ c ∈ sorted++queue, c ∈ nodes := by
    intro c mem
    rcases mem_append.mp mem with old | queued
    · exact running.known c old
    · exact (running.queued c queued).1
  have short := running.apart.length_le_of_subset all
  rw [length_append] at short
  exact eq_nil_of_length_eq_zero (by omega)

theorem drainSorted (sorting : Sorting nodes edges kids arrange) {fuel sorted queue degree}
    (enough : nodes.length ≤ sorted.length+fuel) (running : Running nodes edges held sorted queue degree) :
    Sorted nodes edges held (sorted++drain kids held arrange fuel queue degree) := by
  have ended : ∀ {sorted : List ν} {degree : ν → Nat}, Running nodes edges held sorted [] degree → Sorted nodes edges held sorted := by
    intro sorted degree running
    refine ⟨running.toOrdered,fun c node free all => ?_⟩
    have mem := running.ready c node free (openZero.mpr all)
    rwa [append_nil] at mem
  induction fuel generalizing sorted queue degree with
  | zero =>
    cases running.spent enough
    simpa [drain] using ended running
  | succ fuel ih =>
    cases queue with
    | nil => simpa [drain] using ended running
    | cons n queue =>
      have rest := ih (by rw [length_append,length_singleton]; omega) (running.step sorting)
      rw [append_assoc] at rest
      exact rest

theorem kahnStarts (distinct : nodes.Nodup) {queue degree}
    (degrees : ∀ c, degree c = edges.countP fun e => decide (e.2 = c))
    (queued : queue.Perm (nodes.filter fun c => decide (degree c = 0 ∧ held c = false))) : Running nodes edges held [] queue degree := by
  have opens : ∀ c, open_ edges [] c = degree c := by
    intro c
    rw [degrees,open_]
    exact countP_congr fun e _ => by simp
  have mem : ∀ c, c ∈ queue ↔ c ∈ nodes ∧ degree c = 0 ∧ held c = false := by
    intro c
    rw [queued.mem_iff,mem_filter,decide_eq_true_eq]
  refine ⟨⟨nodup_nil,by simp,by simp,by simp⟩,fun c => (opens c).symm,fun c listed => ?_,?_,fun c node free zero => ?_⟩
  · obtain ⟨node,zero,free⟩ := (mem c).mp listed
    exact ⟨node,free,(opens c).trans zero⟩
  · rw [nil_append,queued.nodup_iff]
    exact distinct.filter _
  · exact (mem c).mpr ⟨node,(opens c).symm.trans zero,free⟩

theorem kahnSorted (sorting : Sorting nodes edges kids arrange) {queue degree}
    (degrees : ∀ c, degree c = edges.countP fun e => decide (e.2 = c))
    (queued : queue.Perm (nodes.filter fun c => decide (degree c = 0 ∧ held c = false))) :
    Sorted nodes edges held (drain kids held arrange nodes.length queue degree) := by
  have sorted := drainSorted sorting (Nat.le_add_left _ _) (kahnStarts sorting.distinct degrees queued)
  rwa [nil_append] at sorted

end Drain

section Left
variable {nodes : List ν} {edges : List (ν × ν)} {held : ν → Bool} {sorted : List ν}

def Up (edges : List (ν × ν)) (c p : ν) : Prop := (p,c) ∈ edges

def Stuck (edges : List (ν × ν)) (held : ν → Bool) (c : ν) : Prop :=
  ∃ u, ReflTransGen (Up edges) c u ∧ (held u = true ∨ TransGen (Up edges) u u)

theorem beforeIndex {l} (distinct : l.Nodup) {p c : ν} : Before l p c ↔ c ∈ l ∧ l.idxOf p < l.idxOf c := by
  have place : ∀ {front back}, l = front++c::back → l.idxOf c = front.length := by
    rintro front back rfl
    have out : c ∉ front := fun mem => (nodup_append.mp distinct).2.2 c mem c mem_cons_self rfl
    rw [idxOf_append_of_notMem out,idxOf_cons_self,Nat.add_zero]
  constructor
  · rintro ⟨front,back,split,mem⟩
    refine ⟨split ▸ mem_append_right _ mem_cons_self,?_⟩
    rw [place split,split,idxOf_append_of_mem mem]
    exact idxOf_lt_length_iff.mpr mem
  · rintro ⟨mem,less⟩
    obtain ⟨front,back,split⟩ := append_of_mem mem
    refine ⟨front,back,split,?_⟩
    by_contra out
    rw [place split,split,idxOf_append_of_notMem out] at less
    omega

theorem Before.trans {l} (distinct : l.Nodup) {a b c : ν} (one : Before l a b) (two : Before l b c) : Before l a c := by
  rw [beforeIndex distinct] at one two ⊢
  exact ⟨two.1,one.2.trans two.2⟩

theorem Before.irrefl {l} (distinct : l.Nodup) {a : ν} (before : Before l a a) : False := by
  rw [beforeIndex distinct] at before
  exact Nat.lt_irrefl _ before.2

omit [DecidableEq ν] in
theorem Before.left {l} {p c : ν} (before : Before l p c) : p ∈ l := by
  obtain ⟨front,back,rfl,mem⟩ := before
  exact mem_append_left _ mem

theorem Before.front {l front back} (distinct : l.Nodup) {p c : ν} (before : Before l p c) (split : l = front++c::back) : p ∈ front := by
  have listed := before.left
  rw [split] at listed
  rcases mem_append.mp listed with early | late
  · exact early
  · rcases mem_cons.mp late with rfl | later
    · exact (before.irrefl distinct).elim
    · obtain ⟨mid,rest,rfl⟩ := append_of_mem later
      have after : Before l c p := ⟨front++c::mid,rest,by rw [split,append_assoc]; rfl,by simp⟩
      exact ((before.trans distinct after).irrefl distinct).elim

section Places
variable {l : List ν} {a b : ν}

omit [DecidableEq ν] in
theorem beforePairwise {R} (pairwise : l.Pairwise R) (before : Before l a b) : R a b := by
  obtain ⟨front,back,rfl,mem⟩ := before
  exact (pairwise_append.mp pairwise).2.2 a mem b mem_cons_self

theorem beforeTotal (distinct : l.Nodup) (one : a ∈ l) (two : b ∈ l) : a = b ∨ Before l a b ∨ Before l b a := by
  rw [beforeIndex distinct,beforeIndex distinct]
  rcases Nat.lt_trichotomy (l.idxOf a) (l.idxOf b) with less | same | more
  · exact .inr (.inl ⟨two,less⟩)
  · exact .inl ((idxOf_inj one).mp same)
  · exact .inr (.inr ⟨one,more⟩)

omit [DecidableEq ν] in
theorem beforePair : Before l a b ↔ [a,b].Sublist l := by
  constructor
  · rintro ⟨front,back,rfl,mem⟩
    exact (singleton_sublist.mpr mem).append (singleton_sublist.mpr mem_cons_self)
  · intro sub
    obtain ⟨early,late,rfl,one,two⟩ := cons_sublist_iff.mp sub
    obtain ⟨front,back,rfl⟩ := append_of_mem (singleton_sublist.mp two)
    exact ⟨early++front,back,by simp,mem_append_left _ one⟩

theorem beforeFilter (distinct : l.Nodup) {p : ν → Bool} (one : a ∈ l.filter p) (two : b ∈ l.filter p) :
    Before (l.filter p) a b ↔ Before l a b := by
  have up : ∀ {a b}, Before (l.filter p) a b → Before l a b := fun before => beforePair.mpr ((beforePair.mp before).trans filter_sublist)
  refine ⟨up,fun before => ?_⟩
  rcases beforeTotal (distinct.filter p) one two with rfl | there | back
  · exact (before.irrefl distinct).elim
  · exact there
  · exact ((before.trans distinct (up back)).irrefl distinct).elim

end Places

section
variable (ordered : Ordered nodes edges held sorted)
include ordered

omit [DecidableEq ν] in
theorem Ordered.upward {c p} (mem : c ∈ sorted) (edge : Up edges c p) : Before sorted p c := by
  obtain ⟨front,back,split⟩ := append_of_mem mem
  exact ⟨front,back,split,ordered.before front c back split p edge⟩

omit [DecidableEq ν] in
theorem Ordered.ancestor {c u} (mem : c ∈ sorted) (path : ReflTransGen (Up edges) c u) : u ∈ sorted := by
  induction path with
  | refl => exact mem
  | tail _ edge ih => exact (ordered.upward ih edge).left

theorem Ordered.earlier {c u : ν} (mem : c ∈ sorted) (path : TransGen (Up edges) c u) : Before sorted u c := by
  induction path with
  | single edge => exact ordered.upward mem edge
  | tail _ edge ih => exact (ordered.upward ih.left edge).trans ordered.distinct ih

end

theorem Sorted.leftIff (whole : Sorted nodes edges held sorted) (inside : ∀ e ∈ edges, e.1 ∈ nodes) {c : ν} (node : c ∈ nodes) :
    c ∉ sorted ↔ Stuck edges held c := by
  constructor
  · intro left
    by_contra free
    -- above a node that is not stuck there are finitely many nodes and no cycle
    let Loose := { n : ν // n ∈ nodes ∧ ¬Stuck edges held n }
    have finite : Finite Loose := ((finite_toSet nodes).subset fun n (loose : n ∈ nodes ∧ ¬Stuck edges held n) => loose.1).to_subtype
    have trans : IsTrans Loose fun p n => TransGen (Up edges) n.1 p.1 := ⟨fun _ _ _ one two => two.trans one⟩
    have irrefl : Std.Irrefl fun p n : Loose => TransGen (Up edges) n.1 p.1 :=
      ⟨fun n loop => n.2.2 ⟨n.1,.refl,.inr loop⟩⟩
    have wf := Finite.wellFounded_of_trans_of_irrefl fun p n : Loose => TransGen (Up edges) n.1 p.1
    have all : ∀ n : Loose, n.1 ∈ sorted := by
      intro n
      induction n using wf.induction with
      | h n ih =>
        have open' : held n.1 = false := by
          by_contra stuck
          exact n.2.2 ⟨n.1,.refl,.inl (by simpa using stuck)⟩
        refine whole.complete n.1 n.2.1 open' fun p edge => ?_
        have loose : ¬Stuck edges held p := by
          rintro ⟨u,path,end_⟩
          exact n.2.2 ⟨u,.head edge path,end_⟩
        exact ih ⟨p,inside _ edge,loose⟩ (.single edge)
    exact left (all ⟨c,node,free⟩)
  · rintro ⟨u,path,end_⟩ mem
    have there := whole.ancestor mem path
    rcases end_ with stuck | loop
    · cases stuck.symm.trans (whole.free u there)
    · exact (whole.earlier there loop).irrefl whole.distinct

end Left

end Replicare.Kahn
