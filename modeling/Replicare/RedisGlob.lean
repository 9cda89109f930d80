import Replicare.RedisKeys

/-! The language of key patterns: a pattern is a list of tokens, and a key matches it if it can
be cut into pieces, one for each token. -/
namespace Replicare.RedisGlob
open Engine RedisKeys
open List hiding beq_eq_decide

inductive Member where
  | byte (b : UInt8)
  | range (x y : UInt8)
  deriving DecidableEq, Repr

def Member.has (b : UInt8) : Member → Bool
  | .byte c => c == b
  | .range x y => inRange x y b

inductive Token where
  | star
  | any
  | oneOf (negated : Bool) (members : List Member)
  | literal (b : UInt8)
  deriving DecidableEq, Repr

def members : Bytes → List Member × Bytes
  | [] => ([],[])
  | [c] => if c = closeClass then ([],[]) else ([.byte c],[])
  | [c,d] =>
    if c = closeClass then ([],[d])
    else if c = escape then ([.byte d],[])
    else (members [d]).map (.byte c::·) id
  | c::d::e::rest =>
    if c = closeClass then ([],d::e::rest)
    else if c = escape then (members (e::rest)).map (.byte d::·) id
    else if d = dash ∧ e ≠ closeClass then (members rest).map (.range c e::·) id
    else (members (d::e::rest)).map (.byte c::·) id

theorem membersShrink (p) : (members p).2.length ≤ p.length := by
  fun_induction members p <;> simp_all <;> omega

def classBody (rest : Bytes) : Bytes := if rest.head? = some caret then rest.drop 1 else rest

theorem bodyShrinks (rest) : (classBody rest).length ≤ rest.length := by
  rw [classBody]
  split
  · simp
  · exact Nat.le_refl _

def tokens : Bytes → List Token
  | [] => []
  | c::rest =>
    if c = RedisKeys.star then .star::tokens rest
    else if c = question then .any::tokens rest
    else if c = openClass then
      .oneOf (rest.head? = some caret) (members (classBody rest)).1::tokens (members (classBody rest)).2
    else if c = escape then .literal (rest.headD c)::tokens (rest.drop 1)
    else .literal c::tokens rest
termination_by p => p.length
decreasing_by
  all_goals simp only [length_cons,length_drop]
  any_goals omega
  exact Nat.lt_succ_of_le ((membersShrink _).trans (bodyShrinks rest))

def Token.accepts (b : UInt8) : Token → Bool
  | .star => false
  | .any => true
  | .oneOf negated members => members.any (Member.has b) != negated
  | .literal c => c == b

def Token.takes (t : Token) (piece : Bytes) : Prop := t = .star ∨ ∃ b, piece = [b] ∧ t.accepts b = true

def Cut (ts : List Token) (s : Bytes) : Prop := ∃ pieces : List Bytes, List.Forall₂ Token.takes ts pieces ∧ pieces.flatten = s

theorem cutNil {s} : Cut [] s ↔ s = [] := by
  constructor
  · rintro ⟨pieces,each,rfl⟩
    cases each
    rfl
  · rintro rfl
    exact ⟨[],.nil,rfl⟩

theorem cutCons {t ts s} : Cut (t::ts) s ↔ ∃ piece rest, s = piece++rest ∧ t.takes piece ∧ Cut ts rest := by
  constructor
  · rintro ⟨pieces,each,rfl⟩
    cases each with
    | @cons _ piece _ pieces takes each => exact ⟨piece,pieces.flatten,rfl,takes,pieces,each,rfl⟩
  · rintro ⟨piece,_,rfl,takes,pieces,each,rfl⟩
    exact ⟨piece::pieces,.cons takes each,rfl⟩

theorem cutStar {ts s} : Cut (.star::ts) s ↔ ∃ rest, rest <:+ s ∧ Cut ts rest := by
  rw [cutCons]
  constructor
  · rintro ⟨piece,rest,rfl,_,cut⟩
    exact ⟨rest,suffix_append _ _,cut⟩
  · rintro ⟨rest,⟨piece,rfl⟩,cut⟩
    exact ⟨piece,rest,rfl,.inl rfl,cut⟩

theorem cutByte {t ts s} (single : t ≠ .star) : Cut (t::ts) s ↔ ∃ b rest, s = b::rest ∧ t.accepts b = true ∧ Cut ts rest := by
  rw [cutCons]
  constructor
  · rintro ⟨piece,rest,rfl,takes,cut⟩
    obtain ⟨b,rfl,accepts⟩ := takes.resolve_left single
    exact ⟨b,rest,rfl,accepts,cut⟩
  · rintro ⟨b,rest,rfl,accepts,cut⟩
    exact ⟨[b],rest,rfl,.inr ⟨b,rfl,accepts⟩,cut⟩

theorem cutStars (p s) : Cut (.star::tokens p) s ↔ Cut (.star::tokens (p.dropWhile (· == RedisKeys.star))) s := by
  induction p generalizing s with
  | nil => rfl
  | cons c rest ih =>
    by_cases more : c = RedisKeys.star
    · rw [tokens,if_pos more,dropWhile_cons_of_pos (by simpa using more),←ih,cutStar]
      constructor
      · rintro ⟨t,behind,cut⟩
        obtain ⟨u,further,cut⟩ := cutStar.mp cut
        exact cutStar.mpr ⟨u,further.trans behind,cut⟩
      · exact fun cut => ⟨s,suffix_refl s,cut⟩
    · rw [dropWhile_cons_of_neg (by simpa using more)]

theorem classMembers (b matched p) : classMatch b matched p = (matched || (members p).1.any (Member.has b),(members p).2) := by
  fun_induction classMatch b matched p
  case case10 plain escapes single ih =>
    rw [Bool.and_eq_true,beq_iff_eq,bne_iff_ne] at single
    simp_all only [members]
    simp_all [Member.has,Bool.or_assoc]
  all_goals simp_all [members,Member.has,Bool.or_assoc]

theorem loopByte {fuel c rest b s} (plain : c ≠ RedisKeys.star) :
    ∃ t after, tokens (c::rest) = t::tokens after ∧ t ≠ .star ∧ after.length ≤ rest.length ∧
      globLoop (fuel+1) (c::rest) (b::s) = (t.accepts b && globLoop fuel after s) := by
  rw [globLoop.eq_def]
  simp only [beq_iff_eq,plain,if_false]
  rw [tokens,if_neg plain]
  split
  · exact ⟨.any,rest,rfl,Token.noConfusion,Nat.le_refl _,rfl⟩
  · split
    · refine ⟨_,_,rfl,Token.noConfusion,(membersShrink _).trans (bodyShrinks rest),?_⟩
      simp [classMembers,Token.accepts,classBody,beq_eq_decide]
    · split
      · refine ⟨_,_,rfl,Token.noConfusion,by simp,?_⟩
        cases rest <;> rfl
      · exact ⟨_,_,rfl,Token.noConfusion,Nat.le_refl _,rfl⟩

theorem loopCuts {fuel p s} (enough : p.length ≤ fuel) : globLoop fuel p s = true ↔ Cut (tokens p) s := by
  induction fuel generalizing p s with
  | zero =>
    obtain rfl := length_eq_zero_iff.mp (Nat.le_zero.mp enough)
    rw [tokens,cutNil,globLoop,List.isEmpty_iff]
  | succ fuel ih =>
    cases p with
    | nil =>
      rw [tokens,cutNil]
      exact List.isEmpty_iff
    | cons c rest =>
      have within : rest.length ≤ fuel := Nat.le_of_succ_le_succ enough
      by_cases stars : c = RedisKeys.star
      · have shorter := (dropWhile_sublist (l := rest) (· == RedisKeys.star)).length_le.trans within
        rw [tokens,if_pos stars,cutStars,cutStar,globLoop.eq_def]
        simp only [stars,beq_self_eq_true,if_true,Bool.or_eq_true,any_eq_true,mem_tails,ih shorter]
        constructor
        · rintro (last | found)
          · rw [List.isEmpty_iff.mp last,tokens]
            exact ⟨[],nil_suffix,cutNil.mpr rfl⟩
          · exact found
        · exact .inr
      · cases s with
        | nil =>
          obtain ⟨t,after,read,single,_,_⟩ := @loopByte fuel c rest 0 [] stars
          rw [read,cutByte single,globLoop.eq_def]
          simp [stars]
        | cons b s =>
          obtain ⟨t,after,read,single,shorter,loop⟩ := @loopByte fuel c rest b s stars
          rw [read,cutByte single,loop,Bool.and_eq_true,ih (shorter.trans within)]
          constructor
          · exact fun both => ⟨b,s,rfl,both⟩
          · rintro ⟨_,_,same,both⟩
            cases same
            exact both

theorem globMatchIff (pattern s : Bytes) : globMatch pattern s = true ↔ Cut (tokens pattern) s := loopCuts (Nat.le_refl _)

example : tokens [openClass,97,dash,escape,closeClass,closeClass] = [.oneOf false [.range 97 escape],.literal closeClass] := by
  simp [tokens,members,classBody,openClass,escape,dash,closeClass,question,RedisKeys.star,caret]

end Replicare.RedisGlob
