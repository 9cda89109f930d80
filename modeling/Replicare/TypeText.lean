import Replicare.PgTypes

/-! Numbers inside the texts of column types: what the two parsers read where a decimal number was
printed. -/
namespace Replicare.TypeText
open MysqlTypes PgTypes List

def decimal (n : Nat) : List Char := Nat.toDigits 10 n

theorem decimalDigit {n c} (mem : c ∈ decimal n) : c.isDigit = true := Nat.isDigit_of_mem_toDigits (by decide) (by decide) mem

theorem decimalSome (n) : decimal n ≠ [] := Nat.toDigits_ne_nil

theorem digitPlain {c} (digit : c.isDigit = true) : isSpace c = false ∧ regexSpace c = false ∧ c.toLower = c ∧
    c ∉ ['(',')',',',' ','-','+'] := by
  have bounds : 48 ≤ c.toNat ∧ c.toNat ≤ 57 := by
    simpa [Char.isDigit,UInt32.le_iff_toNat_le] using digit
  have cases_ : c ∈ ['0','1','2','3','4','5','6','7','8','9'] := by
    have code : c.toNat ∈ [48,49,50,51,52,53,54,55,56,57] := by
      simp only [mem_cons,not_mem_nil]
      omega
    rw [←Char.ofNat_toNat c]
    simp only [mem_cons,not_mem_nil,or_false] at code ⊢
    rcases code with h | h | h | h | h | h | h | h | h | h <;> simp [h]
  simp only [mem_cons,not_mem_nil,or_false] at cases_
  rcases cases_ with rfl | rfl | rfl | rfl | rfl | rfl | rfl | rfl | rfl | rfl <;> decide

theorem digitsFold {s} (all : ∀ c ∈ s, c.isDigit) (n) :
    s.foldlM (fun n c => if c.isDigit then some (10*n+(c.toNat- '0'.toNat)) else none) n = some (Nat.ofDigitChars 10 s n) := by
  induction s generalizing n with
  | nil => rfl
  | cons c s ih =>
    have first := all c mem_cons_self
    have rest := fun d mem => all d (mem_cons_of_mem c mem)
    rw [foldlM_cons,if_pos first,Nat.ofDigitChars_cons]
    exact ih rest _

theorem atoiDecimal {n} (small : n < 2^63) : atoi (decimal n) = some (n : Int) := by
  have value : digits (decimal n) = some n := by
    rw [digits,if_neg (by simp [decimal]),digitsFold fun c => decimalDigit,decimal,Nat.ofDigitChars_ten_toDigits]
  have sign : ∀ c ∈ ['-','+'], ∀ rest, decimal n ≠ c::rest := by
    intro c mem rest same
    have plain := (digitPlain (decimalDigit (n := n) (c := c) (by simp [same]))).2.2.2
    simp only [mem_cons,not_mem_nil,or_false] at mem plain
    rcases mem with rfl | rfl <;> simp at plain
  exact atoiDigits (fun rest => ⟨sign _ (by simp) rest,sign _ (by simp) rest⟩) value small

theorem trimmed {l} (head : ∀ c ∈ l.head?, isSpace c = false) (last : ∀ c ∈ l.getLast?, isSpace c = false) : trimSpace l = l := by
  have front : l.dropWhile isSpace = l := by
    cases l with
    | nil => rfl
    | cons c l => rw [dropWhile_cons,if_neg (by simp [head c rfl])]
  have back : l.reverse.dropWhile isSpace = l.reverse := by
    cases shape : l.reverse with
    | nil => rfl
    | cons c rest =>
      have final : l.getLast? = some c := by rw [←head?_reverse,shape,head?_cons]
      rw [dropWhile_cons,if_neg (by simp [last c final])]
  rw [trimSpace,front,back,reverse_reverse]

theorem decimalTrimmed (n) : trimSpace (decimal n) = decimal n :=
  trimmed (fun _ mem => (digitPlain (decimalDigit (mem_of_mem_head? mem))).1) fun _ mem => (digitPlain (decimalDigit (mem_of_mem_getLast? mem))).1

theorem atoiDecimals {numbers : List Nat} (small : ∀ n ∈ numbers, n < 2^63) :
    (numbers.map decimal).filterMap (fun number => atoi (trimSpace number)) = numbers.map Int.ofNat := by
  induction numbers with
  | nil => rfl
  | cons n numbers ih =>
    rw [map_cons,map_cons,filterMap_cons,decimalTrimmed,atoiDecimal (small n mem_cons_self)]
    exact congrArg _ (ih fun m mem => small m (mem_cons_of_mem n mem))

section Postgres

theorem digitRunDecimal {n c rest} (other : c.isDigit = false) : digitRun (decimal n++c::rest) = some (decimal n,c::rest) := by
  have taken : (decimal n++c::rest).takeWhile Char.isDigit = decimal n := by
    rw [takeWhile_append_of_pos fun d => decimalDigit,takeWhile_cons,if_neg (by simp [other]),append_nil]
  have left : (decimal n++c::rest).dropWhile Char.isDigit = c::rest := by
    rw [dropWhile_append_of_pos fun d => decimalDigit,dropWhile_cons,if_neg (by simp [other])]
  rw [digitRun,taken,left,if_neg (decimalSome n)]

theorem noSpace (n rest) : (decimal n++rest).dropWhile regexSpace = decimal n++rest := by
  obtain ⟨c,more,shape⟩ := exists_cons_of_ne_nil (decimalSome n)
  have plain := (digitPlain (decimalDigit (n := n) (c := c) (by simp [shape]))).2.1
  rw [shape,cons_append,dropWhile_cons,if_neg (by simp [plain])]

theorem modsOne (n rest) : modsAt ('('::(decimal n++ ')'::rest)) = some ([decimal n],rest) := by
  rw [modsAt,noSpace,digitRunDecimal rfl]
  simp [moreMods,regexSpace]

theorem modsTwo (n m rest) : modsAt ('('::(decimal n++ ','::(decimal m++ ')'::rest))) = some ([decimal n,decimal m],rest) := by
  rw [modsAt,noSpace,digitRunDecimal rfl]
  simp [moreMods,regexSpace,noSpace,digitRunDecimal]

theorem modsSigned (n rest) : modsAt ('('::(decimal n++ ',':: '-'::rest)) = none := by
  rw [modsAt,noSpace,digitRunDecimal rfl]
  simp [moreMods,regexSpace,digitRun]

theorem modsElse {c rest} (other : c ≠ '(') : modsAt (c::rest) = none := by
  rw [modsAt]
  intro rest' same
  cases same
  exact other rfl

theorem firstModsSkip {before rest} (plain : '(' ∉ before) : firstMods (before++rest) = firstMods rest := by
  induction before with
  | nil => rfl
  | cons c before ih =>
    have parts := ne_and_not_mem_of_not_mem_cons plain
    rw [cons_append,firstMods,modsElse parts.1.symm]
    exact ih parts.2

theorem stripModsSkip {before rest} {fuel} (plain : '(' ∉ before) :
    stripMods (before.length+fuel) (before++rest) = before++stripMods fuel rest := by
  induction before with
  | nil => rw [length_nil,Nat.zero_add,nil_append,nil_append]
  | cons c before ih =>
    have parts := ne_and_not_mem_of_not_mem_cons plain
    rw [length_cons,Nat.succ_add,cons_append,stripMods,modsElse parts.1.symm]
    exact congrArg (c::·) (ih parts.2)

theorem stripModsNone {l} {fuel} (plain : '(' ∉ l) : stripMods fuel l = l := by
  induction l generalizing fuel with
  | nil => cases fuel <;> rfl
  | cons c l ih =>
    have parts := ne_and_not_mem_of_not_mem_cons plain
    cases fuel with
    | zero => rfl
    | succ fuel =>
      rw [stripMods,modsElse parts.1.symm]
      exact congrArg (c::·) (ih parts.2)

def cleaned (l : List Char) : String := String.ofList ([' '].intercalate (fields (trimSpace l)))

/- A type text as the server prints it. -/
structure Printed (l : List Char) : Prop where
  head : ∀ c ∈ l.head?, isSpace c = false
  last : ∀ c ∈ l.getLast?, isSpace c = false
  lower : ∀ c ∈ l, c.toLower = c

theorem Printed.parse {l} (printed : Printed l) : parseType (String.ofList l) =
    ⟨cleaned (stripMods l.length l),(firstMods l).filterMap fun number => atoi (trimSpace number)⟩ := by
  have same : (trimSpace l).map Char.toLower = l := by
    rw [trimmed printed.head printed.last]
    exact (map_congr_left printed.lower).trans (map_id l)
  rw [parseType,String.toList_ofList]
  simp only [same]
  rfl

theorem parseModded {before mods after : List Char} {numbers : List Nat} (printed : Printed (before++ '('::mods++after))
    (plain : '(' ∉ before ∧ '(' ∉ after) (read : modsAt ('('::mods++after) = some (numbers.map decimal,after)) (small : ∀ n ∈ numbers, n < 2^63) :
    parseType (String.ofList (before++ '('::mods++after)) = ⟨cleaned (before++after),numbers.map Int.ofNat⟩ := by
  have long : (before++ '('::mods++after).length = before.length+((mods++after).length+1) := by
    simp only [length_append,length_cons]
    omega
  rw [printed.parse,long,append_assoc,stripModsSkip plain.1,firstModsSkip plain.1,cons_append,stripMods,firstMods]
  rw [cons_append] at read
  simp only [read,stripModsNone plain.2,atoiDecimals small]

theorem parseUnread {before rest} (printed : Printed (before++ '('::rest)) (plain : '(' ∉ before ∧ '(' ∉ rest)
    (unread : modsAt ('('::rest) = none) : parseType (String.ofList (before++ '('::rest)) = ⟨cleaned (before++ '('::rest),[]⟩ := by
  have mods : firstMods rest = [] := by
    have skip := @firstModsSkip _ [] plain.2
    rwa [append_nil] at skip
  have kept : stripMods (before++ '('::rest).length (before++ '('::rest) = before++ '('::rest := by
    rw [length_append,stripModsSkip plain.1,length_cons,stripMods,unread]
    exact congrArg _ (congrArg _ (stripModsNone plain.2))
  rw [printed.parse,kept,firstModsSkip plain.1,firstMods,unread]
  simp only [mods]
  rfl

end Postgres
end Replicare.TypeText
