import Replicare.TextReplace
import Replicare.MysqlTypes

/-! References to environment variables in a configuration text. -/
namespace Replicare.EnvExpand
open TextReplace MysqlTypes List

abbrev Text := List Char

def nul : Char := '\x00'

/- The variables of a process: no name and no value holds a NUL. -/
structure Environment where
  lookup : Text → Option Text
  names : ∀ {n v}, lookup n = some v → nul ∉ n
  values : ∀ {n v}, lookup n = some v → nul ∉ v

inductive Refusal where
  | empty (reference : Text)
  | unset (name : Text)
  deriving DecidableEq

def Refusal.map (f : Text → Text) : Refusal → Refusal
  | .empty reference => .empty (f reference)
  | .unset name => .unset (f name)

def opening : Text := ['$','\x7b']
def escape : Text := ['$','$','\x7b']
def escSentinel : Text := nul::"REPLICARE_ESC".toList++[nul]

def reference : Text → Option Text
  | '$' :: '\x7b' :: s => if '\x7d' ∈ s then some (s.takeWhile (· ≠ '\x7d')) else none
  | _ => none

def splitDefault : Text → Text×Option Text
  | [] => ([],none)
  | ':' :: '-' :: s => ([],some s)
  | c::s => (c::(splitDefault s).1,(splitDefault s).2)

def scan (piece : Text → Option (Nat×Text×Option Refusal)) : Nat → Text → Text×Option Refusal
  | _, [] => ([],none)
  | skip+1, _::s => scan piece skip s
  | 0, c::s =>
    match piece (c::s) with
    | none => (c::(scan piece 0 s).1,(scan piece 0 s).2)
    | some (length,text,error) => (text++(scan piece (length-1) s).1,error.or (scan piece (length-1) s).2)

def resolve (env : Environment) (inner : Text) : Text×Option Refusal :=
  let name := trimSpace (splitDefault inner).1
  if name = [] then ([],some (.empty (opening++inner++['\x7d'])))
  else
    match env.lookup name, (splitDefault inner).2 with
    | some value, _ => (value,none)
    | none, some default => (default,none)
    | none, none => ([],some (.unset name))

def protect (s : Text) : Text := replaceAll escape escSentinel s
def restore (s : Text) : Text := replaceAll escSentinel opening s

def envRef (env : Environment) (s : Text) : Option (Nat×Text×Option Refusal) :=
  (reference s).map fun inner => (inner.length+3,resolve env inner)

def expandString (env : Environment) (s : Text) : Text×Option Refusal :=
  let out := scan (envRef env) 0 (protect s)
  (restore out.1,out.2)

def substitute (env : Environment) (inner : Text) : Text×Option Refusal :=
  let name := trimSpace (splitDefault inner).1
  if name = [] then ([],some (.empty (opening++inner++['\x7d'])))
  else
    match (if escape <:+: name then none else env.lookup name), (splitDefault inner).2 with
    | some value, _ => (value,none)
    | none, some default => (replaceAll escape opening default,none)
    | none, none => ([],some (.unset name))

def escapeOrRef (env : Environment) (s : Text) : Option (Nat×Text×Option Refusal) :=
  if escape <+: s then some (3,opening,none) else (reference s).map fun inner => (inner.length+3,substitute env inner)

def onePass (env : Environment) (s : Text) : Text×Option Refusal := scan (escapeOrRef env) 0 s

section Scan
variable {piece : Text → Option (Nat×Text×Option Refusal)}

theorem scanSkip (k) (s) : scan piece k s = scan piece 0 (s.drop k) := by
  induction s generalizing k with
  | nil => cases k <;> rfl
  | cons c s ih =>
    cases k with
    | zero => rfl
    | succ k => rw [scan,ih,drop_succ_cons]

theorem scanNone {c s} (none_ : piece (c::s) = none) : scan piece 0 (c::s) = (c::(scan piece 0 s).1,(scan piece 0 s).2) := by
  rw [scan,none_]

theorem scanSome {s} {length new} (some_ : s ≠ []) (positive : 0 < length) (here : piece s = some (length,new)) :
    scan piece 0 s = (new.1++(scan piece 0 (s.drop length)).1,new.2.or (scan piece 0 (s.drop length)).2) := by
  obtain ⟨c,s,rfl⟩ := exists_cons_of_ne_nil some_
  obtain ⟨n,rfl⟩ := Nat.exists_eq_succ_of_ne_zero positive.ne'
  rw [scan,here]
  dsimp only
  rw [Nat.succ_sub_one,scanSkip,drop_succ_cons]

end Scan

section Reference
variable {s inner : Text}

theorem innerOf (closed : '\x7d' ∉ inner) (rest) : (inner++ '\x7d'::rest).takeWhile (· ≠ '\x7d') = inner := by
  have pass : ∀ c ∈ inner, decide (c ≠ '\x7d') = true := by
    intro c mem
    have other : c ≠ '\x7d' := fun same => closed (same ▸ mem)
    exact decide_eq_true other
  rw [takeWhile_append_of_pos pass]
  simp

theorem referenceOf (closed : '\x7d' ∉ inner) (rest) : reference (opening++(inner++ '\x7d'::rest)) = some inner := by
  show (if '\x7d' ∈ inner++ '\x7d'::rest then some ((inner++ '\x7d'::rest).takeWhile (· ≠ '\x7d')) else none) = _
  rw [if_pos (by simp),innerOf closed]

theorem referenceSome (found : reference s = some inner) : '\x7d' ∉ inner ∧ ∃ rest, s = opening++(inner++ '\x7d'::rest) := by
  unfold reference at found
  split at found
  · rename_i s
    obtain ⟨closed,same⟩ := Option.ite_none_right_eq_some.mp found
    obtain ⟨front,rest,rfl,none⟩ := eq_append_cons_of_mem closed
    rw [innerOf none] at same
    cases same
    exact ⟨none,rest,rfl⟩
  · cases found

theorem referenceOther {c} (other : c ≠ '$') (s) : reference (c::s) = none := by
  unfold reference
  split
  · rename_i same
    exact absurd (List.cons.inj same).1 other
  · rfl

end Reference

section Protect
variable {s t : Text}

theorem escapeSome : escape ≠ [] := cons_ne_nil _ _

theorem protectEscape (s) : protect (escape++s) = escSentinel++protect s := replaceHere escapeSome _ s

theorem protectLater {c} (other : ¬escape <+: c::s) : protect (c::s) = c::protect s := replaceLater other

theorem protectInduction {P : Text → Prop} (nil : P []) (here : ∀ s, P s → P (escape++s))
    (later : ∀ c s, ¬escape <+: c::s → P s → P (c::s)) (s) : P s :=
  replaceInduction escape escapeSome nil here later s

theorem protectSplit {c} (apart : c ∉ escape) (a b) : protect (a++c::b) = protect a++c::protect b := replaceSplit escapeSome apart _ a b

theorem memProtect {c} : c ∈ protect s → c ∈ s ∨ c ∈ escSentinel := by
  refine protectInduction (P := fun s => c ∈ protect s → c ∈ s ∨ c ∈ escSentinel) (fun mem => .inl mem)
    (fun s ih mem => ?_) (fun d s other ih mem => ?_) s
  · rw [protectEscape] at mem
    rcases mem_append.mp mem with new | old
    · exact .inr new
    · exact (ih old).imp_left (mem_append_right escape)
  · rw [protectLater other] at mem
    rcases mem_cons.mp mem with rfl | old
    · exact .inl mem_cons_self
    · exact (ih old).imp_left (mem_cons_of_mem d)

theorem protectHead {c} (plain : c ≠ nul) (starts : protect s = c::t) : ∃ u, s = c::u ∧ t = protect u := by
  cases s with
  | nil => cases starts
  | cons d s =>
    by_cases other : escape <+: d::s
    · obtain ⟨rest,split⟩ := other
      rw [←split,protectEscape] at starts
      exact absurd (List.cons.inj starts).1.symm plain
    · rw [protectLater other] at starts
      cases starts
      exact ⟨s,rfl,rfl⟩

theorem protectNil : protect s = [] ↔ s = [] := by
  refine ⟨fun none => ?_,fun none => by rw [none]; rfl⟩
  cases s with
  | nil => rfl
  | cons d s =>
    by_cases other : escape <+: d::s
    · obtain ⟨rest,split⟩ := other
      rw [←split,protectEscape] at none
      cases none
    · rw [protectLater other] at none
      cases none

theorem protectFree (free : ¬escape <:+: s) : protect s = s := replaceNone free _

theorem protectMarked : escape <:+: s → nul ∈ protect s := by
  refine protectInduction (P := fun s => escape <:+: s → nul ∈ protect s) (fun inside => ?_) (fun s _ _ => ?_) (fun c s other ih inside => ?_) s
  · exact absurd (infix_nil.mp inside) escapeSome
  · rw [protectEscape]
    exact mem_append_left _ mem_cons_self
  · rw [protectLater other]
    rcases infix_cons_iff.mp inside with starts | later
    · exact absurd starts other
    · exact mem_cons_of_mem c (ih later)

theorem protectReference (inner rest) : protect (opening++(inner++ '\x7d'::rest)) = opening++(protect inner++ '\x7d'::protect rest) := by
  have first : ∀ t, ¬escape <+: '$':: '\x7b'::t := fun t starts =>
    absurd (cons_prefix_cons.mp (cons_prefix_cons.mp starts).2).1 (by decide)
  have second : ∀ t, ¬escape <+: '\x7b'::t := fun t starts => absurd (cons_prefix_cons.mp starts).1 (by decide)
  have split : protect (inner++ '\x7d'::rest) = protect inner++ '\x7d'::protect rest := protectSplit (by decide) inner rest
  rw [←split]
  exact (protectLater (first _)).trans (congrArg _ (protectLater (second _)))

theorem splitLater {c} (other : ¬(c = ':' ∧ s.head? = some '-')) : splitDefault (c::s) = (c::(splitDefault s).1,(splitDefault s).2) := by
  rw [splitDefault.eq_def]
  split
  · rename_i empty
    cases empty
  · rename_i same
    cases same
    exact absurd ⟨rfl,rfl⟩ other
  · rename_i same
    cases same
    rfl

theorem splitPrefix (s) : (splitDefault s).1 <+: s := by
  fun_induction splitDefault s with
  | case1 => exact prefix_rfl
  | case2 s => exact nil_prefix
  | case3 c s _ ih => exact cons_prefix_cons.mpr ⟨rfl,ih⟩

theorem splitProtect (s) : splitDefault (protect s) = (protect (splitDefault s).1,(splitDefault s).2.map protect) := by
  refine protectInduction (P := fun s => splitDefault (protect s) = (protect (splitDefault s).1,(splitDefault s).2.map protect)) rfl
    (fun s ih => ?_) (fun c s other ih => ?_) s
  · have sentinel : ∀ t, splitDefault (escSentinel++t) = (escSentinel++(splitDefault t).1,(splitDefault t).2) := fun t => rfl
    have plain : splitDefault (escape++s) = (escape++(splitDefault s).1,(splitDefault s).2) := rfl
    rw [protectEscape,sentinel,ih,plain,protectEscape]
  · rw [protectLater other]
    by_cases dash : c = ':' ∧ s.head? = some '-'
    · obtain ⟨rfl,head⟩ := dash
      obtain ⟨rest,rfl⟩ := head?_eq_some_iff.mp head
      have next : ¬escape <+: '-'::rest := fun starts => absurd (cons_prefix_cons.mp starts).1 (by decide)
      rw [protectLater next]
      rfl
    · have dash' : ¬(c = ':' ∧ (protect s).head? = some '-') := by
        refine fun both => dash ⟨both.1,?_⟩
        obtain ⟨rest,split⟩ := head?_eq_some_iff.mp both.2
        obtain ⟨u,rfl,_⟩ := protectHead (by decide) split
        rfl
      have shorter : ¬escape <+: c::(splitDefault s).1 := fun starts => other (starts.trans (cons_prefix_cons.mpr ⟨rfl,splitPrefix s⟩))
      rw [splitLater dash',splitLater dash,ih,protectLater shorter]

theorem dropProtect (s) : (protect s).dropWhile isSpace = protect (s.dropWhile isSpace) := by
  refine protectInduction (P := fun s => (protect s).dropWhile isSpace = protect (s.dropWhile isSpace)) rfl
    (fun s _ => ?_) (fun c s other ih => ?_) s
  · have sentinel : ∀ t, (escSentinel++t).dropWhile isSpace = escSentinel++t := fun t => rfl
    have plain : (escape++s).dropWhile isSpace = escape++s := rfl
    rw [protectEscape,sentinel,plain,protectEscape]
  · rw [protectLater other,dropWhile_cons,dropWhile_cons]
    split
    · exact ih
    · exact (protectLater other).symm

theorem lastProtect {c} : (protect s).getLast? = some c → c = nul ∨ s.getLast? = some c := by
  refine protectInduction (P := fun s => (protect s).getLast? = some c → c = nul ∨ s.getLast? = some c) (fun last => by cases last)
    (fun s ih last => ?_) (fun d s other ih last => ?_) s
  · rw [protectEscape,getLast?_append] at last
    cases rest : (protect s).getLast? with
    | none =>
      rw [rest] at last
      exact .inl (Option.some.inj last).symm
    | some e =>
      rw [rest] at last
      cases last
      refine (ih rest).imp_right fun same => ?_
      rw [getLast?_append,same]
      rfl
  · rw [protectLater other,getLast?_cons] at last
    cases rest : (protect s).getLast? with
    | none =>
      have none : s = [] := protectNil.mp (getLast?_eq_none_iff.mp rest)
      rw [rest] at last
      cases last
      exact .inr (by rw [none]; rfl)
    | some e =>
      rw [rest] at last
      cases last
      refine (ih rest).imp_right fun same => ?_
      rw [getLast?_cons,same]
      rfl

theorem trimProtect (s) : trimSpace (protect s) = protect (trimSpace s) := by
  have right : ∀ s, ((protect s).reverse.dropWhile isSpace).reverse = protect (s.reverse.dropWhile isSpace).reverse := by
    intro s
    induction s using List.reverseRecOn with
    | nil => rfl
    | append_singleton s c ih =>
      by_cases space : isSpace c = true
      · have apart : c ∉ escape := by
          intro mem
          have known : escape.all (fun d => !isSpace d) = true := by decide
          exact absurd space (by simpa using all_eq_true.mp known c mem)
        have last : protect (s++[c]) = protect s++[c] := protectSplit apart s []
        rw [last,reverse_concat,reverse_concat,dropWhile_cons_of_pos space,dropWhile_cons_of_pos space]
        exact ih
      · have kept : ∀ t : Text, (∀ d, t.getLast? = some d → isSpace d = false) → (t.reverse.dropWhile isSpace).reverse = t := by
          intro t last
          rcases eq_nil_or_concat t with rfl | ⟨front,d,rfl⟩
          · rfl
          · have other := last d (by simp)
            simp [other]
        rw [kept (s++[c]) (by simpa using space),kept (protect (s++[c])) fun d last => ?_]
        rcases lastProtect last with rfl | same
        · rfl
        · have same : c = d := by simpa using same
          rw [←same]
          simpa using space
  rw [trimSpace,dropProtect,right]
  rfl

end Protect

section Restore
variable {s t v : Text}

theorem restoreSentinel (s) : restore (escSentinel++s) = opening++restore s := replaceHere (cons_ne_nil _ _) _ s

theorem restorePlain (plain : nul ∉ v) (s) : restore (v++s) = v++restore s := by
  induction v with
  | nil => rfl
  | cons c v ih =>
    rw [mem_cons,not_or] at plain
    have later : ¬escSentinel <+: c::(v++s) := fun starts => plain.1 (cons_prefix_cons.mp starts).1
    rw [cons_append,restore,replaceLater later,←restore,ih plain.2,cons_append]

theorem restoreProtect : nul ∉ v → restore (protect v++s) = replaceAll escape opening v++restore s := by
  refine protectInduction (P := fun v => nul ∉ v → restore (protect v++s) = replaceAll escape opening v++restore s) (fun _ => rfl)
    (fun v ih plain => ?_) (fun c v other ih plain => ?_) v
  · rw [protectEscape,append_assoc,restoreSentinel,ih fun mem => plain (mem_append_right _ mem),replaceHere escapeSome,append_assoc]
  · rw [mem_cons,not_or] at plain
    have one := restorePlain (v := [c]) (by simpa using plain.1) (protect v++s)
    rw [singleton_append] at one
    rw [protectLater other,cons_append,one,ih plain.2,replaceLater other]
    rfl

end Restore

section Expand
variable {env : Environment} {s inner : Text}

theorem splitPlain (plain : nul ∉ s) : ∀ d ∈ (splitDefault s).2, nul ∉ d := by
  fun_induction splitDefault s with
  | case1 => simp
  | case2 s =>
    intro d same
    cases same
    exact fun mem => plain (mem_cons_of_mem _ (mem_cons_of_mem _ mem))
  | case3 c s _ ih => exact ih fun mem => plain (mem_cons_of_mem c mem)

theorem lookupProtect (env : Environment) (name : Text) : env.lookup (protect name) = if escape <:+: name then none else env.lookup name := by
  split
  · rename_i marked
    cases found : env.lookup (protect name) with
    | none => rfl
    | some v => exact absurd (protectMarked marked) (env.names found)
  · rename_i free
    rw [protectFree free]

theorem resolveProtect (env : Environment) (plain : nul ∉ inner) (s) :
    restore ((resolve env (protect inner)).1++s) = (substitute env inner).1++restore s ∧
    (resolve env (protect inner)).2 = (substitute env inner).2.map (Refusal.map protect) := by
  simp only [resolve,substitute,splitProtect,trimProtect,protectNil,lookupProtect]
  split
  · have whole := protectReference inner []
    simp only [append_assoc]
    exact ⟨rfl,congrArg (some ∘ Refusal.empty) whole.symm⟩
  · cases found : (if escape <:+: trimSpace (splitDefault inner).1 then none else env.lookup (trimSpace (splitDefault inner).1)) with
    | some v =>
      have clean : nul ∉ v := env.values (Option.ite_none_left_eq_some.mp found).2
      exact ⟨restorePlain clean s,rfl⟩
    | none =>
      cases given : (splitDefault inner).2 with
      | none => exact ⟨rfl,rfl⟩
      | some d => exact ⟨restoreProtect (splitPlain plain d given),rfl⟩

theorem referenceProtect {c s} (other : ¬escape <+: c::s) (none_ : reference (c::s) = none) : reference (c::protect s) = none := by
  cases found : reference (c::protect s) with
  | none => rfl
  | some inner =>
    obtain ⟨_,rest,same⟩ := referenceSome found
    obtain ⟨rfl,tail⟩ := List.cons.inj same
    obtain ⟨u,rfl,body⟩ := protectHead (by decide) tail
    have closing : '\x7d' ∈ protect u := by
      rw [←body]
      simp
    rcases memProtect closing with inside | sentinel
    · obtain ⟨front,rest,rfl,free⟩ := eq_append_cons_of_mem inside
      exact absurd (none_.symm.trans (referenceOf free rest)) (by simp)
    · exact absurd sentinel (by decide)

theorem scanSentinel (s) : scan (envRef env) 0 (escSentinel++s) = (escSentinel++(scan (envRef env) 0 s).1,(scan (envRef env) 0 s).2) := by
  have apart : ∀ a : Text, '$' ∉ a → scan (envRef env) 0 (a++s) = (a++(scan (envRef env) 0 s).1,(scan (envRef env) 0 s).2) := by
    intro a free
    induction a with
    | nil => rfl
    | cons c a ih =>
      rw [mem_cons,not_or] at free
      have none_ : envRef env (c::(a++s)) = none := by rw [envRef,referenceOther (Ne.symm free.1)]; rfl
      rw [cons_append,scanNone none_,ih free.2]
      rfl
  exact apart escSentinel (by decide)

theorem dropReference (inner rest) : (opening++(inner++ '\x7d'::rest)).drop (inner.length+3) = rest := by
  have split : opening++(inner++ '\x7d'::rest) = (opening++(inner++['\x7d']))++rest := by simp
  have length : inner.length+3 = (opening++(inner++['\x7d'])).length := by simp [opening]
  rw [split,length,drop_left]

theorem scanProtect (env) (plain : nul ∉ s) : restore (scan (envRef env) 0 (protect s)).1 = (onePass env s).1 ∧
    (scan (envRef env) 0 (protect s)).2 = (onePass env s).2.map (Refusal.map protect) := by
  unfold onePass
  induction length : s.length using Nat.strong_induction_on generalizing s with
  | _ n ih =>
    cases s with
    | nil => exact ⟨rfl,rfl⟩
    | cons c s =>
      by_cases escaped : escape <+: c::s
      · have piece : escapeOrRef env (c::s) = some (3,opening,none) := if_pos escaped
        obtain ⟨rest,split⟩ := escaped
        have shorter : rest.length < n := by
          rw [←length,←split,length_append]
          exact Nat.lt_add_of_pos_left (by decide)
        have next := ih _ shorter (fun mem => plain (split ▸ mem_append_right _ mem)) rfl
        rw [scanSome (cons_ne_nil _ _) (by decide) piece,←split,protectEscape,scanSentinel]
        dsimp only
        rw [restoreSentinel,next.1,next.2]
        exact ⟨rfl,rfl⟩
      · cases found : reference (c::s) with
        | none =>
          have one : envRef env (c::protect s) = none := by rw [envRef,referenceProtect escaped found]; rfl
          have two : escapeOrRef env (c::s) = none := by rw [escapeOrRef,if_neg escaped,found]; rfl
          have free := plain
          rw [mem_cons,not_or] at free
          have next := ih s.length (by rw [←length]; exact Nat.lt_succ_self _) free.2 rfl
          have first := restorePlain (v := [c]) (by simpa using free.1) (scan (envRef env) 0 (protect s)).1
          rw [protectLater escaped,scanNone one,scanNone two]
          exact ⟨first.trans (congrArg _ next.1),next.2⟩
        | some inner =>
          obtain ⟨closed,rest,split⟩ := referenceSome found
          have two : escapeOrRef env (c::s) = some (inner.length+3,substitute env inner) := by rw [escapeOrRef,if_neg escaped,found]; rfl
          have closed' : '\x7d' ∉ protect inner := fun mem => (memProtect mem).elim closed (by decide)
          have one : envRef env (protect (c::s)) = some ((protect inner).length+3,resolve env (protect inner)) := by
            rw [split,protectReference,envRef,referenceOf closed']
            rfl
          have shorter : rest.length < n := by
            rw [←length,split]
            simp
            omega
          have free : nul ∉ inner ∧ nul ∉ rest := by
            rw [split] at plain
            simp only [mem_append,mem_cons,not_or] at plain
            exact ⟨plain.2.1,plain.2.2.2⟩
          have next := ih _ shorter free.2 rfl
          have here := resolveProtect env free.1 (scan (envRef env) 0 (protect rest)).1
          have filled : protect (c::s) ≠ [] := fun none => absurd (protectNil.mp none) (cons_ne_nil _ _)
          rw [scanSome filled (by omega) one,scanSome (cons_ne_nil _ _) (by omega) two,split,protectReference,dropReference,dropReference]
          dsimp only
          rw [here.1,here.2,next.1,next.2]
          refine ⟨rfl,?_⟩
          cases (substitute env inner).2 <;> rfl

end Expand

/- Escapes in the text of an error are shown as the placeholder. -/
theorem expandOnePass (env : Environment) {s : Text} (plain : nul ∉ s) :
    expandString env s = ((onePass env s).1,(onePass env s).2.map (Refusal.map protect)) := by
  have both := scanProtect env plain
  exact Prod.ext both.1 both.2

def single (name value : Text) (plain : nul ∉ name++value) : Environment where
  lookup n := if n = name then some value else none
  names found := by
    rw [(Option.ite_none_right_eq_some.mp found).1]
    exact fun mem => plain (mem_append_left _ mem)
  values found := by
    cases (Option.ite_none_right_eq_some.mp found).2
    exact fun mem => plain (mem_append_right _ mem)

theorem expandItself : expandString (single ['A'] (opening++['A','\x7d']++escape) (by decide))
    (opening++['A','\x7d']++escape++opening++"B:-".toList++escape++['\x7d']) =
    (opening++['A','\x7d']++escape++opening++opening,none) := by
  rw [expandOnePass _ (by decide)]
  decide

end Replicare.EnvExpand
