import Replicare.TextReplace

/-! The predicate that picks the rows of some keys, and its rewriting for a join, where
every quoted key column that is found in its text gets the alias of the register. -/
namespace Replicare.PgPredicate
open TextReplace List

abbrev Text := List Char

structure CaptureCol where
  name : Text
  type : Text
  deriving DecidableEq, Repr

def doubleQuote : Char := '\x22'
def singleQuote : Char := '\x27'

def quoteIdentifier (s : Text) : Text := doubleQuote::(replaceAll [doubleQuote] [doubleQuote,doubleQuote] s++[doubleQuote])

def sqlTextLiteral (s : Text) : Text := singleQuote::(replaceAll [singleQuote] [singleQuote,singleQuote] s++[singleQuote])

def comma : Text := [',',' ']

def join (parts : List Text) : Text := comma.intercalate parts

def cast (v : Text) (type : Text) : Text := sqlTextLiteral v++([':',':']++type)

section Build

def boundText (p : CaptureCol × Option Text × Nat) : Except String Text :=
  match p.2.1 with
  | none => .error ("postgres: key bound "++toString p.2.2++" is <nil>, want a text value")
  | some v => .ok (cast v p.1.type)

def valueTuple (cols : List CaptureCol) (vals : List (Option Text)) : Except String Text :=
  if vals.length ≠ cols.length then
    .error ("postgres: key tuple has "++toString vals.length++" values, want "++toString cols.length)
  else do
    let parts ← (cols.zip vals.zipIdx).mapM boundText
    .ok ('('::(join parts++[')']))

def singleValue (col : CaptureCol) (k : List (Option Text)) : Except String Text :=
  match k with
  | [some v] => .ok (cast v col.type)
  | [none] => .error "postgres: key value is <nil>, want text"
  | k => .error ("postgres: key has "++toString k.length++" values, want 1")

def keysetInWith (ident : CaptureCol → Text) (keyCols : List CaptureCol) (keys : List (List (Option Text))) : Except String Text :=
  if keys = [] then .ok "FALSE".toList
  else
    match keyCols with
    | [col] => do
        let vals ← keys.mapM (singleValue col)
        .ok (ident col++(" IN (".toList++(join vals++[')'])))
    | cols => do
        let tuples ← keys.mapM (valueTuple cols)
        .ok ('('::(join (cols.map ident)++(") IN (".toList++(join tuples++[')']))))

def keysetInPredicate (keyCols : List CaptureCol) (keys : List (List (Option Text))) : Except String Text :=
  keysetInWith (fun c => quoteIdentifier c.name) keyCols keys

def qualifyPredicate (pred : Text) (keyCols : List CaptureCol) (alias_ : Text) : Text :=
  keyCols.foldl (fun out kc => replaceAll (quoteIdentifier kc.name) (alias_++('.'::quoteIdentifier kc.name)) out) pred

def qualifiedPredicate (keyCols : List CaptureCol) (keys : List (List (Option Text))) (alias_ : Text) : Except String Text :=
  keysetInWith (fun c => alias_++('.'::quoteIdentifier c.name)) keyCols keys

end Build

section Shape
variable (cols : List CaptureCol) (keys : List (List Text)) (alias_ : Text)

def tupleText (k : List Text) : Text := '('::(join ((cols.zip k).map fun p => cast p.2 p.1.type)++[')'])

def closing : Text :=
  match cols with
  | [col] => " IN (".toList++(join (keys.map fun k => cast (k.headD []) col.type)++[')'])
  | cols => ") IN (".toList++(join (keys.map (tupleText cols))++[')'])

def opening : Text := if cols.length = 1 then [] else ['(']

def followed (last : Text) : List CaptureCol → List (CaptureCol × Text)
  | [] => []
  | [c] => [(c,last)]
  | c::d::cols => (c,comma)::followed last (d::cols)

def written (ident : CaptureCol → Text) (l : List (CaptureCol × Text)) : Text := l.flatMap fun e => ident e.1++e.2

def qualified (c : CaptureCol) : Text := alias_++('.'::quoteIdentifier c.name)

def textBefore (before : List CaptureCol) : Text := opening cols++written (qualified alias_) (before.map fun c => (c,comma))

def beyond (last : Text) (after : List CaptureCol) : Text :=
  if after = [] then last else comma++(join (after.map fun c => quoteIdentifier c.name)++last)

def textAfter (after : List CaptureCol) : Text := beyond (closing cols keys) after

def Apart : Prop := ∀ before c after, cols = before++c::after →
  NoStart (quoteIdentifier c.name) (textBefore cols alias_ before) (quoteIdentifier c.name++textAfter cols keys after) ∧
    ¬quoteIdentifier c.name <:+: textAfter cols keys after

end Shape

section Built
variable {cols : List CaptureCol} {keys : List (List Text)} {alias_ : Text}

theorem joinWritten (ident) (some_ : cols ≠ []) (last) : join (cols.map ident)++last = written ident (followed last cols) := by
  induction cols with
  | nil => exact absurd rfl some_
  | cons c cols ih =>
    cases cols with
    | nil => simp [join,written,followed]
    | cons d cols =>
      have rest := ih (cons_ne_nil _ _)
      have head : join ((c::d::cols).map ident) = ident c++(comma++join ((d::cols).map ident)) := by
        simp [join,List.intercalate]
      rw [head,followed,written,flatMap_cons,← written,← rest]
      simp

theorem mapMOk {β γ : Type*} {f : β → Except String γ} {g : β → γ} {l : List β} (each : ∀ x ∈ l, f x = .ok (g x)) : l.mapM f = .ok (l.map g) := by
  induction l with
  | nil => rfl
  | cons x l ih =>
    rw [mapM_cons,each x mem_cons_self,ih fun y mem => each y (mem_cons_of_mem _ mem)]
    rfl

theorem zippedOk (vals) (start) : (cols.zip ((vals.map some).zipIdx start)).mapM boundText =
    .ok ((cols.zip vals).map fun p => cast p.2 p.1.type) := by
  induction cols generalizing vals start with
  | nil => rfl
  | cons c cols ih =>
    cases vals with
    | nil => rfl
    | cons v vals =>
      rw [map_cons,zipIdx_cons,zip_cons_cons,mapM_cons,ih]
      rfl

theorem tupleOk {k} (wide : k.length = cols.length) : valueTuple cols (k.map some) = .ok (tupleText cols k) := by
  rw [valueTuple,if_neg (by simp [wide]),zippedOk]
  rfl

theorem singleOk {k : List Text} (wide : k.length = 1) (col : CaptureCol) : singleValue col (k.map some) = .ok (cast (k.headD []) col.type) := by
  obtain ⟨v,rfl⟩ := length_eq_one_iff.mp wide
  rfl

theorem built (ident : CaptureCol → Text) (some_ : cols ≠ []) (any : keys ≠ []) (wide : ∀ k ∈ keys, k.length = cols.length) :
    keysetInWith ident cols (keys.map (List.map some)) = .ok (opening cols++written ident (followed (closing cols keys) cols)) := by
  have more : keys.map (List.map some) ≠ [] := by simpa using any
  rw [← joinWritten ident some_]
  unfold keysetInWith
  rw [if_neg more]
  cases cols with
  | nil => exact absurd rfl some_
  | cons c cols =>
    cases cols with
    | nil =>
      have vals : (keys.map (List.map some)).mapM (singleValue c) = .ok (keys.map fun k => cast (k.headD []) c.type) := by
        rw [mapM_map]
        exact mapMOk fun k mem => singleOk (wide k mem) c
      dsimp only
      rw [vals]
      simp [opening,closing,join]
      rfl
    | cons d cols =>
      have tuples : (keys.map (List.map some)).mapM (valueTuple (c::d::cols)) = .ok (keys.map (tupleText (c::d::cols))) := by
        rw [mapM_map]
        exact mapMOk fun k mem => tupleOk (wide k mem)
      dsimp only
      rw [tuples]
      simp [opening,closing]
      rfl

def words (last : Text) (cols : List CaptureCol) : List (Text × Text) := (followed last cols).map fun e => (quoteIdentifier e.1.name,e.2)

theorem followedCons (last) (c) (cols) :
    followed last (c::cols) = (c,if cols = [] then last else comma)::followed last cols := by
  cases cols with
  | nil => rfl
  | cons d cols => rw [followed,if_neg (cons_ne_nil _ _)]

theorem writtenPlain (last) (cols) : written (fun c => quoteIdentifier c.name) (followed last cols) = plain (words last cols) := by
  unfold written words
  induction followed last cols with
  | nil => rfl
  | cons e l ih =>
    rw [flatMap_cons,map_cons,plain,ih]
    exact append_assoc _ _ _

theorem writtenFull (last) (cols) : written (qualified alias_) (followed last cols) = full (alias_++['.']) (words last cols) := by
  unfold written words
  induction followed last cols with
  | nil => rfl
  | cons e l ih =>
    rw [flatMap_cons,map_cons,full,ih]
    simp [qualified]

theorem qualifyStages (last) (pred) : qualifyPredicate pred cols alias_ = stages (alias_++['.']) (words last cols) pred := by
  unfold qualifyPredicate stages words
  induction cols generalizing pred with
  | nil => rfl
  | cons c cols ih =>
    rw [followedCons,map_cons,foldl_cons,foldl_cons,ih,append_assoc]
    rfl

theorem wordsCons (last) (c) (cols) : ∃ sep, words last (c::cols) = (quoteIdentifier c.name,sep)::words last cols ∧
    sep++plain (words last cols) = beyond last cols ∧ (cols ≠ [] → sep = comma) := by
  refine ⟨if cols = [] then last else comma,by rw [words,followedCons,map_cons,words],?_,fun more => if_neg more⟩
  unfold beyond
  by_cases none : cols = []
  · subst none
    exact append_nil _
  · rw [if_neg none,if_neg none,← writtenPlain,← joinWritten _ none]

theorem aloneIff (last) (cols) (a) : Alone (alias_++['.']) a (words last cols) ↔ ∀ before c after, cols = before++c::after →
      NoStart (quoteIdentifier c.name) (a++written (qualified alias_) (before.map fun c => (c,comma))) (quoteIdentifier c.name++beyond last after) ∧
        ¬quoteIdentifier c.name <:+: beyond last after := by
  induction cols generalizing a with
  | nil => exact iff_of_true trivial fun before c after split => absurd split (by simp)
  | cons c cols ih =>
    obtain ⟨sep,split,text,more⟩ := wordsCons last c cols
    have regroup : cols ≠ [] → ∀ before : List CaptureCol, a++((alias_++['.'])++(quoteIdentifier c.name++sep))++
        written (qualified alias_) (before.map fun c => (c,comma)) = a++written (qualified alias_) ((c::before).map fun c => (c,comma)) := by
      intro some_ before
      simp [written,qualified,more some_]
    rw [split,Alone,text,ih]
    constructor
    · rintro ⟨none,once,rest⟩ before c' after cut
      cases before with
      | nil =>
        obtain ⟨rfl,rfl⟩ := List.cons.inj cut
        rw [map_nil,show written (qualified alias_) [] = [] from rfl,append_nil]
        exact ⟨none,once⟩
      | cons b before =>
        obtain ⟨rfl,tail⟩ := List.cons.inj cut
        rw [← regroup (by simp [tail])]
        exact rest before c' after tail
    · intro all
      have first := all [] c cols rfl
      rw [map_nil,show written (qualified alias_) [] = [] from rfl,append_nil] at first
      refine ⟨first.1,first.2,fun before c' after cut => ?_⟩
      rw [regroup (by simp [cut])]
      exact all (c::before) c' after (by rw [cut,cons_append])

theorem wordsMarked (last) (cols) : ∀ e ∈ words last cols, e.1.head? = some doubleQuote := by
  intro e mem
  obtain ⟨p,_,rfl⟩ := mem_map.mp mem
  rfl

theorem unquoted {text} (none : doubleQuote ∉ text) : qualifyPredicate text cols alias_ = text := by
  unfold qualifyPredicate
  induction cols with
  | nil => rfl
  | cons c cols ih =>
    have first : replaceAll (quoteIdentifier c.name) ((alias_++['.'])++quoteIdentifier c.name) text = text :=
      (replaceSame (by simp)).mpr fun inside => none (inside.subset mem_cons_self)
    rw [append_assoc] at first
    rw [foldl_cons,show alias_++ '.'::quoteIdentifier c.name = alias_++(['.']++quoteIdentifier c.name) from rfl,first,ih]

end Built

theorem qualifyIff (cols : List CaptureCol) (keys : List (List Text)) (alias_ : Text) (some_ : cols ≠ []) (plain_ : doubleQuote ∉ alias_)
    (wide : ∀ k ∈ keys, k.length = cols.length) :
    (keysetInPredicate cols (keys.map (List.map some))).map (fun pred => qualifyPredicate pred cols alias_) =
      qualifiedPredicate cols (keys.map (List.map some)) alias_ ↔ keys = [] ∨ Apart cols keys alias_ := by
  by_cases any : keys = []
  · subst any
    refine iff_of_true ?_ (.inl rfl)
    have false : qualifyPredicate "FALSE".toList cols alias_ = "FALSE".toList := unquoted (by decide)
    exact congrArg Except.ok false
  · have free : doubleQuote ∉ alias_++['.'] := by simpa [doubleQuote] using plain_
    have one := built (fun c => quoteIdentifier c.name) some_ any wide
    have two := built (qualified alias_) some_ any wide
    have whole := stagesIff free (by simp) (wordsMarked (closing cols keys) cols) (opening cols)
    rw [or_iff_right any,keysetInPredicate,one,show qualifiedPredicate cols (keys.map (List.map some)) alias_ = _ from two,
      writtenPlain,writtenFull,Except.map,Except.ok.injEq,qualifyStages (closing cols keys),whole,aloneIff]
    rfl

def lineCols : List CaptureCol := [⟨"order_id".toList,"bigint".toList⟩,⟨"line no".toList,"integer".toList⟩]

theorem linesQualified : (keysetInPredicate lineCols [[some "7".toList,some "1".toList]]).map (fun pred => qualifyPredicate pred lineCols ['r']) =
      qualifiedPredicate lineCols [[some "7".toList,some "1".toList]] ['r'] ∧ Apart lineCols [["7".toList,"1".toList]] ['r'] := by
  have same : (keysetInPredicate lineCols [[some "7".toList,some "1".toList]]).map (fun pred => qualifyPredicate pred lineCols ['r']) =
      qualifiedPredicate lineCols [[some "7".toList,some "1".toList]] ['r'] := by decide +kernel
  have apart := (qualifyIff lineCols [["7".toList,"1".toList]] ['r'] (by decide) (by decide) (by decide)).mp same
  exact ⟨same,apart.resolve_left (by decide)⟩

def labelCols : List CaptureCol := [⟨"id".toList,"text".toList⟩]

def nestedCols : List CaptureCol := [⟨"id".toList,"text".toList⟩,⟨"x\"id\"y".toList,"text".toList⟩]

theorem labelChanged : (keysetInPredicate labelCols [[some "a\"id\"b".toList]]).map (fun pred => qualifyPredicate pred labelCols ['r']) =
      .ok "r.\"id\" IN ('ar.\"id\"b'::text)".toList ∧
    qualifiedPredicate labelCols [[some "a\"id\"b".toList]] ['r'] = .ok "r.\"id\" IN ('a\"id\"b'::text)".toList ∧
    (keysetInPredicate nestedCols [[some [],some []]]).map (fun pred => qualifyPredicate pred nestedCols ['r']) ≠
      qualifiedPredicate nestedCols [[some [],some []]] ['r'] := by
  decide +kernel

end Replicare.PgPredicate
