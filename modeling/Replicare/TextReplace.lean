import Mathlib.Data.List.Infix

/-! Replacing every occurrence of a word in a text, from left to right. -/
namespace Replicare.TextReplace
open List
variable {α : Type*} [DecidableEq α]

def replaceFrom (old new : List α) : Nat → List α → List α
  | _, [] => []
  | skip+1, _::s => replaceFrom old new skip s
  | 0, c::s => if old <+: c::s then new++replaceFrom old new (old.length-1) s else c::replaceFrom old new 0 s

def replaceAll (old new s : List α) : List α := replaceFrom old new 0 s

section Replace
variable {old new s : List α}

theorem replaceSkip (old new : List α) (k : Nat) (s : List α) : replaceFrom old new k s = replaceAll old new (s.drop k) := by
  induction s generalizing k with
  | nil => cases k <;> rfl
  | cons c s ih =>
    cases k with
    | zero => rfl
    | succ k => rw [replaceFrom,ih,drop_succ_cons]

theorem replaceHere (some_ : old ≠ []) (new s : List α) : replaceAll old new (old++s) = new++replaceAll old new s := by
  obtain ⟨c,rest,rfl⟩ := exists_cons_of_ne_nil some_
  rw [replaceAll,cons_append,replaceFrom,if_pos (by simp),replaceSkip]
  simp

theorem replaceLater {c} (other : ¬old <+: c::s) : replaceAll old new (c::s) = c::replaceAll old new s := by
  rw [replaceAll,replaceFrom,if_neg other,replaceAll]

theorem replaceInduction {P : List α → Prop} (old : List α) (some_ : old ≠ []) (nil : P []) (here : ∀ s, P s → P (old++s))
    (later : ∀ c s, ¬old <+: c::s → P s → P (c::s)) (s : List α) : P s := by
  induction length : s.length using Nat.strong_induction_on generalizing s with
  | _ n ih =>
    cases s with
    | nil => exact nil
    | cons c rest =>
      by_cases starts : old <+: c::rest
      · obtain ⟨tail,split⟩ := starts
        have shorter : tail.length < n := by
          have sum := congrArg List.length split
          have positive := length_pos_iff.mpr some_
          rw [length_append] at sum
          omega
        rw [← split]
        exact here tail (ih _ shorter tail rfl)
      · refine later c rest starts (ih rest.length ?_ rest rfl)
        rw [← length,length_cons]
        omega

theorem replaceSplit {c} (some_ : old ≠ []) (apart : c ∉ old) (new a b : List α) :
    replaceAll old new (a++c::b) = replaceAll old new a++c::replaceAll old new b := by
  have crosses : ∀ {a : List α}, ¬old <+: a → ¬old <+: a++c::b := by
    intro a none starts
    rcases prefix_or_prefix_of_prefix starts (prefix_append a (c::b)) with inside | ⟨tail,rfl⟩
    · exact none inside
    · cases tail with
      | nil => exact none (by rw [append_nil])
      | cons d tail =>
        have first := (cons_prefix_cons.mp ((prefix_append_right_inj a).mp starts)).1
        exact apart (by simp [first])
  refine replaceInduction (P := fun a => replaceAll old new (a++c::b) = replaceAll old new a++c::replaceAll old new b) old some_ ?_
    (fun a ih => ?_) (fun d a other ih => ?_) a
  · refine replaceLater fun starts => ?_
    obtain ⟨d,rest,rfl⟩ := exists_cons_of_ne_nil some_
    rw [(cons_prefix_cons.mp starts).1] at apart
    exact apart mem_cons_self
  · rw [append_assoc,replaceHere some_,ih,replaceHere some_,append_assoc]
  · have later : ¬old <+: d::(a++c::b) := crosses other
    rw [cons_append,replaceLater later,ih,replaceLater other,cons_append]

end Replace

def copies (w : List α) (m : Nat) : List α := (List.replicate m w).flatten

inductive Grown (q : α) (w : List α) : List α → List α → Prop where
  | nil : Grown q w [] []
  | keep {c s t} : c ≠ q → Grown q w s t → Grown q w (c::s) (c::t)
  | mark {s t} (m : Nat) : Grown q w s t → Grown q w (q::s) (copies w m++q::t)

section Grown
variable {q : α} {w s t u a : List α}

theorem Grown.after (grown : Grown q w s t) (a) : Grown q w (a++s) (a++t) := by
  induction a with
  | nil => exact grown
  | cons c a ih =>
    by_cases mark : c = q
    · subst mark
      exact .mark 0 ih
    · exact .keep mark ih

theorem grownSelf (s) : Grown q w s s := by
  have self := (Grown.nil (q := q) (w := w)).after s
  rwa [append_nil] at self

omit [DecidableEq α]

theorem Grown.length (grown : Grown q w s t) : s.length ≤ t.length := by
  induction grown with
  | nil => exact Nat.le_refl _
  | keep _ _ ih => exact Nat.succ_le_succ ih
  | mark m _ ih =>
    rw [length_append,length_cons,length_cons]
    omega

theorem Grown.eq (some_ : w ≠ []) (grown : Grown q w s t) (long : t.length ≤ s.length) : s = t := by
  induction grown with
  | nil => rfl
  | keep _ _ ih => rw [ih (Nat.le_of_succ_le_succ long)]
  | mark m grown ih =>
    have low := grown.length
    cases m with
    | zero => exact congrArg _ (ih (Nat.le_of_succ_le_succ long))
    | succ m =>
      have positive := length_pos_iff.mpr some_
      simp only [copies,replicate_succ,flatten_cons,length_append,length_cons] at long
      omega

theorem Grown.freeFront (free : q ∉ a) (grown : Grown q w (a++s) u) : ∃ v, u = a++v ∧ Grown q w s v := by
  induction a generalizing u with
  | nil => exact ⟨u,rfl,grown⟩
  | cons c a ih =>
    rw [mem_cons,not_or] at free
    cases grown with
    | keep _ rest =>
      obtain ⟨v,rfl,grown⟩ := ih free.2 rest
      exact ⟨v,rfl,grown⟩
    | mark => exact absurd rfl free.1

theorem Grown.marked (grown : Grown q w (q::s) u) : ∃ m v, u = copies w m++q::v ∧ Grown q w s v := by
  cases grown with
  | keep other _ => exact absurd rfl other
  | mark m rest => exact ⟨m,_,rfl,rest⟩

theorem copiesAdd (w : List α) (m n : Nat) : copies w (m+n) = copies w m++copies w n := by
  rw [copies,copies,copies,replicate_add,flatten_append]

theorem freeCopies (free : q ∉ w) (m) : q ∉ copies w m := by
  intro mem
  obtain ⟨l,listed,inside⟩ := mem_flatten.mp mem
  exact free (eq_of_mem_replicate listed ▸ inside)

theorem firstMark {a b x y} (one : q ∉ a) (two : q ∉ b) (same : a++q::x = b++q::y) : x = y := by
  induction a generalizing b with
  | nil =>
    cases b with
    | nil => exact (List.cons.inj same).2
    | cons c b => exact absurd ((List.cons.inj same).1 ▸ mem_cons_self) two
  | cons c a ih =>
    cases b with
    | nil => exact absurd ((List.cons.inj same).1.symm ▸ mem_cons_self) one
    | cons d b => exact ih (fun mem => one (mem_cons_of_mem _ mem)) (fun mem => two (mem_cons_of_mem _ mem)) (List.cons.inj same).2

variable (free : q ∉ w) (some_ : w ≠ [])
include free

theorem Grown.trans (one : Grown q w s t) (two : Grown q w t u) : Grown q w s u := by
  induction one generalizing u with
  | nil => exact two
  | keep other _ ih =>
    cases two with
    | keep _ rest => exact .keep other (ih rest)
    | mark => exact absurd rfl other
  | mark m _ ih =>
    obtain ⟨v,rfl,beyond⟩ := two.freeFront (freeCopies free m)
    obtain ⟨n,v,rfl,rest⟩ := beyond.marked
    rw [← append_assoc,← copiesAdd]
    exact .mark _ (ih rest)

include some_

theorem Grown.front {m : Nat} (grown : Grown q w (copies w m++q::s) (q::t)) : m = 0 ∧ Grown q w s t := by
  obtain ⟨v,same,beyond⟩ := grown.freeFront (freeCopies free m)
  cases m with
  | zero =>
    obtain ⟨n,v',rfl,rest⟩ := beyond.marked
    cases n with
    | zero =>
      have tail : t = v' := tail_eq_of_cons_eq same
      exact ⟨rfl,tail ▸ rest⟩
    | succ n =>
      obtain ⟨c,w',rfl⟩ := exists_cons_of_ne_nil some_
      have head : q = c := (List.cons.inj same).1
      exact absurd (head ▸ mem_cons_self) free
  | succ m =>
    obtain ⟨c,w',rfl⟩ := exists_cons_of_ne_nil some_
    have head : q = c := (List.cons.inj same).1
    exact absurd (head ▸ mem_cons_self) free

theorem Grown.between (low : Grown q w (a++s) u) (high : Grown q w u (a++t)) : ∃ v, u = a++v ∧ Grown q w s v ∧ Grown q w v t := by
  induction a generalizing u with
  | nil => exact ⟨u,rfl,low,high⟩
  | cons c a ih =>
    cases low with
    | @keep _ _ u other rest =>
      have single : q ∉ [c] := fun mem => other (mem_singleton.mp mem).symm
      obtain ⟨v,same,rest'⟩ := Grown.freeFront (a := [c]) (s := u) single high
      have tail : a++t = v := (List.cons.inj same).2
      obtain ⟨v,rfl,both⟩ := ih rest (tail ▸ rest')
      exact ⟨v,rfl,both⟩
    | mark m rest =>
      obtain ⟨rfl,rest'⟩ := high.front free some_
      obtain ⟨v,rfl,both⟩ := ih rest rest'
      exact ⟨v,rfl,both⟩

theorem Grown.own (low : Grown q w (q::s) u) (high : Grown q w u (w++q::t)) :
    ∃ v, Grown q w s v ∧ Grown q w v t ∧ (u = q::v ∨ u = w++q::v) := by
  obtain ⟨m,v,rfl,grows⟩ := low.marked
  refine ⟨v,grows,?_⟩
  cases m with
  | zero =>
    obtain ⟨n,v',same,rest⟩ := Grown.marked high
    have tail := firstMark free (freeCopies free n) same
    exact ⟨tail ▸ rest,.inl rfl⟩
  | succ m =>
    have split : copies w (m+1)++q::v = w++(copies w m++q::v) := by
      simp [copies,replicate_succ]
    rw [split] at high
    obtain ⟨v',same,rest⟩ := high.freeFront free
    have tail := append_cancel_left same
    rw [← tail] at rest
    obtain ⟨rfl,grown⟩ := rest.front free some_
    exact ⟨grown,.inr split⟩

end Grown

def NoStart (x a u : List α) : Prop := ∀ front back, a = front++back → back ≠ [] → ¬x <+: back++u

section Word
variable {q : α} {w x' s a u v : List α} (free : q ∉ w) (some_ : w ≠ [])

theorem grownReplace (x' s : List α) : Grown q w s (replaceAll (q::x') (w++q::x') s) := by
  refine replaceInduction (P := fun s => Grown q w s (replaceAll (q::x') (w++q::x') s)) (q::x') (cons_ne_nil _ _) .nil
    (fun s ih => ?_) (fun c s other ih => ?_) s
  · rw [replaceHere (cons_ne_nil _ _),append_assoc]
    have one := Grown.mark (w := w) 1 (ih.after x')
    simpa [copies] using one
  · rw [replaceLater other]
    exact ih.after [c]

theorem replaceAfter {x a u : List α} (none : NoStart x a u) (new : List α) : replaceAll x new (a++u) = a++replaceAll x new u := by
  induction a with
  | nil => rfl
  | cons c a ih =>
    have later : ¬x <+: c::(a++u) := none [] (c::a) rfl (cons_ne_nil _ _)
    rw [cons_append,replaceLater later,
      ih fun front back split => none (c::front) back (by rw [split,cons_append])]
    rfl

theorem replaceNone {x s : List α} (none : ¬x <:+: s) (new : List α) : replaceAll x new s = s := by
  have start : NoStart x s [] := by
    intro front back split _ starts
    rw [append_nil] at starts
    exact none (split ▸ starts.isInfix.trans (suffix_append front back).isInfix)
  have kept := replaceAfter start new
  rwa [append_nil,show replaceAll x new [] = [] from rfl,append_nil] at kept

include free some_

theorem replaceFront (kept : replaceAll (q::x') (w++q::x') (a++u) = a++v) : NoStart (q::x') a u ∧ v = replaceAll (q::x') (w++q::x') u := by
  induction a with
  | nil =>
    refine ⟨fun front back split some_ => absurd ?_ some_,kept.symm⟩
    exact (append_eq_nil_iff.mp split.symm).2
  | cons c a ih =>
    by_cases starts : q::x' <+: c::(a++u)
    · obtain ⟨tail,split⟩ := starts
      rw [cons_append,← split,replaceHere (cons_ne_nil _ _)] at kept
      obtain ⟨d,w',rfl⟩ := exists_cons_of_ne_nil some_
      have first : d = c := (List.cons.inj kept).1
      have mark : q = c := (List.cons.inj split).1
      exact absurd (mark.trans first.symm ▸ mem_cons_self) free
    · rw [cons_append,replaceLater starts,cons_append] at kept
      obtain ⟨none,rest⟩ := ih (List.cons.inj kept).2
      refine ⟨fun front back split other => ?_,rest⟩
      cases front with
      | nil =>
        rw [nil_append] at split
        rwa [← split]
      | cons d front => exact none front back (List.cons.inj split).2 other

omit free in
theorem replaceSame : replaceAll (q::x') (w++q::x') s = s ↔ ¬q::x' <:+: s := by
  constructor
  · refine replaceInduction (P := fun s => replaceAll (q::x') (w++q::x') s = s → ¬q::x' <:+: s) (q::x') (cons_ne_nil _ _) ?_
      (fun s ih => ?_) (fun c s other ih => ?_) s
    · intro _ inside
      simp at inside
    · intro same
      have longer := congrArg List.length same
      have grown := (grownReplace (q := q) (w := w) x' s).length
      have positive := length_pos_iff.mpr some_
      rw [replaceHere (cons_ne_nil _ _)] at longer
      simp only [length_append,length_cons] at longer
      omega
    · intro same inside
      rw [replaceLater other] at same
      rcases infix_cons_iff.mp inside with starts | later
      · exact other starts
      · exact ih (List.cons.inj same).2 later
  · exact fun none => replaceNone none (w++q::x')

end Word

section Stages
variable (w : List α)

def plain : List (List α × List α) → List α
  | [] => []
  | e::items => e.1++(e.2++plain items)

def full : List (List α × List α) → List α
  | [] => []
  | e::items => w++(e.1++(e.2++full items))

def stages (items : List (List α × List α)) (t : List α) : List α := items.foldl (fun t e => replaceAll e.1 (w++e.1) t) t

def Alone : List α → List (List α × List α) → Prop
  | _, [] => True
  | a, e::items => NoStart e.1 a (e.1++(e.2++plain items)) ∧ ¬e.1 <:+: e.2++plain items ∧ Alone (a++(w++(e.1++e.2))) items

variable {w} {q : α} {items : List (List α × List α)} (free : q ∉ w) (some_ : w ≠ []) (marked : ∀ e ∈ items, e.1.head? = some q)
include free some_ marked

omit some_ in
theorem grownStages (t : List α) : Grown q w t (stages w items t) := by
  induction items generalizing t with
  | nil => exact grownSelf t
  | cons e items ih =>
    obtain ⟨x',word⟩ := head?_eq_some_iff.mp (marked e mem_cons_self)
    rw [stages,foldl_cons,word]
    exact (grownReplace x' t).trans free (ih (fun e mem => marked e (mem_cons_of_mem _ mem)) _)

theorem stagesAlone {a U : List α} (low : Grown q w (plain items) U) (final : stages w items (a++U) = a++full w items) :
    U = plain items ∧ Alone w a items := by
  induction items generalizing a U with
  | nil =>
    cases low
    exact ⟨rfl,trivial⟩
  | cons e items ih =>
    obtain ⟨x,z⟩ := e
    obtain ⟨x',word⟩ := head?_eq_some_iff.mp (marked _ mem_cons_self)
    cases (show x = q::x' from word)
    have later : ∀ e ∈ items, e.1.head? = some q := fun e mem => marked e (mem_cons_of_mem _ mem)
    have whole : stages w items (replaceAll (q::x') (w++q::x') (a++U)) = a++(w++(q::x'++(z++full w items))) := final
    have high : Grown q w (replaceAll (q::x') (w++q::x') (a++U)) (a++(w++(q::x'++(z++full w items)))) := by
      rw [← whole]
      exact grownStages free later _
    obtain ⟨V,kept,lowV,highV⟩ := (grownReplace x' (a++U)).between free some_ high
    obtain ⟨none,rfl⟩ := replaceFront free some_ kept
    have split : ∀ t : List α, q::(x'++z++t) = q::x'++(z++t) := by simp
    have own : Grown q w (q::(x'++z++plain items)) U := by
      rw [split]
      exact low
    have top : Grown q w U (w++q::(x'++z++full w items)) := by
      rw [split]
      exact lowV.trans free highV
    obtain ⟨U₁,low₁,high₁,either⟩ := Grown.own free some_ own top
    obtain ⟨U₂,rfl,low₂,high₂⟩ := low₁.between free some_ high₁
    rcases either with rfl | rfl
    · rw [split] at none lowV highV kept whole ⊢
      have here := replaceHere (cons_ne_nil q x') (w++q::x') (z++U₂)
      rw [here] at lowV highV kept
      have after : Grown q w ((w++(q::x'++z))++U₂) ((w++q::x')++replaceAll (q::x') (w++q::x') (z++U₂)) := by
        have grown := (grownReplace (q := q) (w := w) x' (z++U₂)).after (w++q::x')
        simpa using grown
      obtain ⟨V,is,low₃,high₃⟩ := after.between free some_ (show Grown q w _ ((w++(q::x'++z))++full w items) by simpa using highV)
      rw [kept,is,← append_assoc] at whole
      obtain ⟨rfl,alone⟩ := ih later (low₂.trans free low₃) (a := a++(w++(q::x'++z))) (by simpa using whole)
      obtain rfl := low₂.eq some_ low₃.length
      refine ⟨rfl,none,?_,alone⟩
      have same : replaceAll (q::x') (w++q::x') (z++plain items) = z++plain items := by
        have whole : (w++q::x')++replaceAll (q::x') (w++q::x') (z++plain items) = (w++q::x')++(z++plain items) := by simpa using is
        exact append_cancel_left whole
      exact (replaceSame some_).mp same
    · -- a copy that was put before the word too early would be there twice
      rw [split] at highV
      have early : NoStart (q::x') w (q::x'++(z++U₂)) := by
        rintro front back rfl other ⟨tail,starts⟩
        obtain ⟨c,back,rfl⟩ := exists_cons_of_ne_nil other
        have mark : q = c := (List.cons.inj starts).1
        exact free (by simp [mark])
      rw [replaceAfter early,replaceHere (cons_ne_nil q x')] at highV
      obtain ⟨v,is,grown⟩ := highV.freeFront free
      rw [← append_cancel_left is] at grown
      have twice := Grown.front (m := 1) (q := q) free some_ (by simpa [copies] using grown)
      exact absurd twice.1 (by decide)

theorem stagesIff (a : List α) : stages w items (a++plain items) = a++full w items ↔ Alone w a items := by
  refine ⟨fun final => (stagesAlone free some_ marked (grownSelf _) final).2,fun alone => ?_⟩
  induction items generalizing a with
  | nil => rfl
  | cons e items ih =>
    obtain ⟨x',word⟩ := head?_eq_some_iff.mp (marked e mem_cons_self)
    obtain ⟨none,once,rest⟩ := alone
    have first : replaceAll e.1 (w++e.1) (a++(e.1++(e.2++plain items))) = a++(w++(e.1++e.2))++plain items := by
      rw [word] at none once ⊢
      rw [replaceAfter none,replaceHere (cons_ne_nil _ _),(replaceSame some_).mpr once]
      simp
    have more := ih (fun e mem => marked e (mem_cons_of_mem _ mem)) _ rest
    show stages w items (replaceAll e.1 (w++e.1) (a++(e.1++(e.2++plain items)))) = _
    rw [first,more,full]
    simp

end Stages

end Replicare.TextReplace
