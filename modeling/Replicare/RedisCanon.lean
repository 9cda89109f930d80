import Mathlib.Data.List.Sort
import Replicare.RedisKeys
import Replicare.Wire

/-! Canonical bytes of a Redis value, as verify and the mesh's change detection hash them. -/
namespace Replicare.RedisCanon
open Engine Wire List

/- A Go string: its length is an int. -/
abbrev Text := {b : Bytes // b.length < 2^63}

def le (a b : Text) : Prop := a.val ≤ b.val

instance : DecidableRel le := fun a b => inferInstanceAs (Decidable (a.val ≤ b.val))
instance : Std.Total le := ⟨fun a b => List.le_total a.val b.val⟩
instance : IsTrans Text le := ⟨fun _ _ _ first second => List.le_trans first second⟩

inductive Kind where
  | string
  | list
  | set
  | zset
  | hash
  | stream
  deriving DecidableEq, Repr

def Kind.name : Kind → Bytes
  | .string => [115,116,114,105,110,103]
  | .list => [108,105,115,116]
  | .set => [115,101,116]
  | .zset => [122,115,101,116]
  | .hash => [104,97,115,104]
  | .stream => [115,116,114,101,97,109]

/- A Go map as the list of its pairs in the order in which a range loop meets them. -/
structure GoMap where
  pairs : List (Text × Text)
  distinct : (pairs.map Prod.fst).Nodup

/- The reply of the type's read command. Scores stand as FormatFloat prints them. -/
inductive Reply where
  | bytes (b : Bytes)
  | slice (vals : List Text)
  | scored (zs : List (Text × Text))
  | map (m : GoMap)
  | messages (msgs : List (Text × GoMap))
  | vanished
  | wrongType
  | broken

def writeField (b : Bytes) : Bytes := be 8 b.length++b

def joinFields (vals : List Text) : Bytes := vals.flatMap fun v => writeField v.val

def sortStrings (vals : List Text) : List Text := vals.insertionSort le

def GoMap.get (m : GoMap) (f : Text) : Text := (m.pairs.lookup f).getD ⟨[],by decide⟩

def flat (l : List (Text × Text)) : List Text := l.flatMap fun p => [p.1,p.2]

def GoMap.parts (m : GoMap) : List Text := flat ((sortStrings (m.pairs.map Prod.fst)).map fun f => (f,m.get f))

inductive Outcome where
  | canon (b : Bytes)
  | skip
  | failed
  deriving DecidableEq, Repr

def canonicalValue (typ : Kind) : Reply → Outcome
  | .bytes b => .canon b
  | .slice vals => .canon (joinFields (if typ = .set then sortStrings vals else vals))
  | .scored zs => .canon (joinFields (flat zs))
  | .map m => .canon (joinFields m.parts)
  | .messages msgs => .canon (joinFields (msgs.flatMap fun m => m.1::m.2.parts))
  | .vanished => .skip
  | .wrongType => .skip
  | .broken => .failed

def hashed (key : Bytes) (typ : Kind) (canon : Bytes) : Bytes := writeField key++(writeField typ.name++writeField canon)

structure Entry where
  id : UInt64 × UInt64
  fields : List (Text × Text)
  some : fields ≠ []

def idText (id : UInt64 × UInt64) : Bytes := RedisKeys.itoa id.1.toNat++45::RedisKeys.itoa id.2.toNat

structure Stream where
  entries : List Entry
  ordered : entries.Pairwise fun a b => a.id.1 < b.id.1 ∨ a.id.1 = b.id.1 ∧ a.id.2 < b.id.2

structure Hash where
  pairs : Finset (Text × Text)
  function : ∀ p ∈ pairs, ∀ q ∈ pairs, p.1 = q.1 → p = q

inductive Value where
  | string (b : Bytes)
  | list (vals : List Text)
  | set (members : Finset Text)
  | zset (members : List (Text × Text))
  | hash (fields : Hash)
  | stream (entries : Stream)

def Value.kind : Value → Kind
  | .string _ => .string
  | .list _ => .list
  | .set _ => .set
  | .zset _ => .zset
  | .hash _ => .hash
  | .stream _ => .stream

def collect : List (Text × Text) → List (Text × Text)
  | [] => []
  | p::rest => if p.1 ∈ rest.map Prod.fst then collect rest else p::collect rest

inductive Answers : Value → Reply → Prop where
  | string (b : Bytes) : Answers (.string b) (.bytes b)
  | list (vals : List Text) : Answers (.list vals) (.slice vals)
  | set {members : Finset Text} {vals : List Text} (any : (vals : Multiset Text) = members.val) : Answers (.set members) (.slice vals)
  | zset (zs : List (Text × Text)) : Answers (.zset zs) (.scored zs)
  | hash {fields : Hash} {m : GoMap} (any : (m.pairs : Multiset (Text × Text)) = fields.pairs.val) : Answers (.hash fields) (.map m)
  | stream {entries : Stream} {msgs : List (Text × GoMap)}
      (each : List.Forall₂ (fun e m => m.1.val = idText e.id ∧ m.2.pairs.Perm (collect e.fields)) entries.entries msgs) :
      Answers (.stream entries) (.messages msgs)

section Fields

theorem joinNone {l} (none : joinFields l = []) : l = [] := by
  cases l with
  | nil => rfl
  | cons v l =>
    have size := congrArg List.length none
    rw [joinFields,flatMap_cons,writeField,length_append,length_append,beLength,length_nil] at size
    omega

theorem joinInjective {l m} (same : joinFields l = joinFields m) : l = m := by
  induction l generalizing m with
  | nil => exact (joinNone same.symm).symm
  | cons v l ih =>
    cases m with
    | nil => exact joinNone same
    | cons w m =>
      simp only [joinFields,flatMap_cons,writeField,append_assoc] at same
      obtain ⟨first,rest⟩ := fieldCut (by have := v.property; omega) (by have := w.property; omega) same
      rw [Subtype.ext first,ih rest]

theorem hashedCanon {key typ a b} : hashed key typ a = hashed key typ b ↔ a = b := by
  constructor
  · intro same
    have last := append_cancel_left (append_cancel_left same)
    exact (append_inj last (by rw [beLength,beLength])).2
  · intro same
    rw [same]

theorem sortPerm {l m} (perm : l.Perm m) : sortStrings l = sortStrings m := by
  refine List.Perm.eq_of_pairwise ?_ (pairwise_insertionSort le l) (pairwise_insertionSort le m) ?_
  · intro a b _ _ one two
    exact Subtype.ext (List.le_antisymm one two)
  · exact (perm_insertionSort le l).trans (perm.trans (perm_insertionSort le m).symm)

theorem sortMem {l a} : a ∈ sortStrings l ↔ a ∈ l := (perm_insertionSort le l).mem_iff

theorem permOfSort {l m} (same : sortStrings l = sortStrings m) : l.Perm m :=
  (perm_insertionSort le l).symm.trans ((List.Perm.of_eq same).trans (perm_insertionSort le m))

end Fields

section Maps
variable {m n : GoMap}

theorem lookupDistinct {l : List (Text × Text)} (distinct : (l.map Prod.fst).Nodup) {f x : Text} :
    l.lookup f = some x ↔ (f,x) ∈ l := by
  induction l with
  | nil => simp
  | cons p l ih =>
    rw [map_cons,nodup_cons] at distinct
    rw [lookup_cons,mem_cons]
    by_cases here : f = p.1
    · subst here
      simp only [beq_self_eq_true,Option.some.injEq]
      constructor
      · rintro rfl
        exact .inl rfl
      · rintro (same | later)
        · rw [←same]
        · exact absurd (mem_map_of_mem later) distinct.1
    · rw [beq_eq_false_iff_ne.mpr here]
      simp only
      rw [ih distinct.2]
      exact ⟨.inr,fun member => member.resolve_left fun same => here (congrArg Prod.fst same)⟩

theorem getOfMem {f x : Text} (member : (f,x) ∈ m.pairs) : m.get f = x := by
  rw [GoMap.get,(lookupDistinct m.distinct).mpr member,Option.getD_some]

theorem pairIff {f x} : (f,x) ∈ m.pairs ↔ f ∈ m.pairs.map Prod.fst ∧ m.get f = x := by
  constructor
  · exact fun member => ⟨mem_map_of_mem member,getOfMem member⟩
  · rintro ⟨named,rfl⟩
    obtain ⟨⟨g,x⟩,member,rfl⟩ := mem_map.mp named
    rwa [getOfMem member]

theorem partsPerm (perm : m.pairs.Perm n.pairs) : m.parts = n.parts := by
  have get : m.get = n.get := by
    funext f
    have lookups : m.pairs.lookup f = n.pairs.lookup f := by
      apply Option.ext
      intro x
      rw [lookupDistinct m.distinct,lookupDistinct n.distinct,perm.mem_iff]
    rw [GoMap.get,GoMap.get,lookups]
  rw [GoMap.parts,GoMap.parts,sortPerm (perm.map Prod.fst),get]

theorem flatCut {l k} (same : flat l = flat k) : l = k := by
  induction l generalizing k with
  | nil =>
    cases k with
    | nil => rfl
    | cons d k => simp [flat] at same
  | cons c l ih =>
    cases k with
    | nil => simp [flat] at same
    | cons d k =>
      simp only [flat,flatMap_cons,cons_append,nil_append,List.cons.injEq] at same
      rw [Prod.ext same.1 same.2.1,ih same.2.2]

theorem permOfParts (same : m.parts = n.parts) : m.pairs.Perm n.pairs := by
  have pairs := flatCut same
  have names := congrArg (List.map Prod.fst) pairs
  rw [List.map_map,List.map_map] at names
  replace names : sortStrings (m.pairs.map Prod.fst) = sortStrings (n.pairs.map Prod.fst) := by
    simpa [Function.comp_def] using names
  rw [names] at pairs
  have values : ∀ f ∈ sortStrings (n.pairs.map Prod.fst), m.get f = n.get f :=
    fun f named => congrArg Prod.snd (map_inj_left.mp pairs f named)
  have keys := permOfSort names
  rw [perm_ext_iff_of_nodup (List.Nodup.of_map _ m.distinct) (List.Nodup.of_map _ n.distinct)]
  rintro ⟨f,x⟩
  rw [pairIff,pairIff,keys.mem_iff]
  refine and_congr_right fun named => ?_
  rw [values f (sortMem.mpr named)]

end Maps

section Streams

theorem collectKeys (l) (f) : f ∈ (collect l).map Prod.fst ↔ f ∈ l.map Prod.fst := by
  induction l with
  | nil => rfl
  | cons p l ih =>
    rw [collect]
    split
    · rename_i later
      rw [ih,map_cons,mem_cons]
      exact ⟨.inr,fun member => member.elim (fun here => here ▸ later) id⟩
    · rw [map_cons,mem_cons,ih,map_cons,mem_cons]

theorem collectDistinct (l) : ((collect l).map Prod.fst).Nodup := by
  induction l with
  | nil => exact nodup_nil
  | cons p l ih =>
    rw [collect]
    split
    · exact ih
    · rename_i fresh
      rw [map_cons,nodup_cons,collectKeys]
      exact ⟨fresh,ih⟩

theorem messagesSame {entries : List Entry} {msgs other : List (Text × GoMap)}
    (one : List.Forall₂ (fun e m => m.1.val = idText e.id ∧ m.2.pairs.Perm (collect e.fields)) entries msgs)
    (two : List.Forall₂ (fun e m => m.1.val = idText e.id ∧ m.2.pairs.Perm (collect e.fields)) entries other) :
    (msgs.flatMap fun m => m.1::m.2.parts) = other.flatMap fun m => m.1::m.2.parts := by
  induction one generalizing other with
  | nil =>
    cases two
    rfl
  | cons here rest ih =>
    cases two with
    | cons there later =>
      rw [flatMap_cons,flatMap_cons,ih later,Subtype.ext (here.1.trans there.1.symm),
        partsPerm (here.2.trans there.2.symm)]

end Streams

theorem canonSame {v : Value} {r s : Reply} (one : Answers v r) (two : Answers v s) : canonicalValue v.kind r = canonicalValue v.kind s := by
  cases one with
  | set here =>
    cases two with
    | set there =>
      have perm := Multiset.coe_eq_coe.mp (here.trans there.symm)
      simp only [canonicalValue,Value.kind,if_pos,sortPerm perm]
  | hash here =>
    cases two with
    | hash there =>
      have perm := Multiset.coe_eq_coe.mp (here.trans there.symm)
      simp only [canonicalValue,partsPerm perm]
  | stream here =>
    cases two with
    | stream there => simp only [canonicalValue,messagesSame here there]
  | _ => cases two; rfl

theorem canonTold {v w : Value} {r s : Reply} (kind : w.kind = v.kind) (plain : v.kind ≠ .stream) (one : Answers v r) (two : Answers w s)
    (same : canonicalValue v.kind r = canonicalValue w.kind s) : v = w := by
  cases one with
  | string b =>
    cases two with
    | string c => exact congrArg Value.string (Outcome.canon.inj same)
    | _ => cases kind
  | list vals =>
    cases two with
    | list more => exact congrArg Value.list (joinInjective (Outcome.canon.inj same))
    | _ => cases kind
  | set here =>
    cases two with
    | set there =>
      have perm := permOfSort (joinInjective (Outcome.canon.inj same))
      exact congrArg Value.set (Finset.val_inj.mp (here.symm.trans ((Multiset.coe_eq_coe.mpr perm).trans there)))
    | _ => cases kind
  | zset zs =>
    cases two with
    | zset more => exact congrArg Value.zset (flatCut (joinInjective (Outcome.canon.inj same)))
    | _ => cases kind
  | @hash one m here =>
    cases two with
    | @hash two n there =>
      have perm := permOfParts (joinInjective (Outcome.canon.inj same))
      have pairs : one.pairs = two.pairs := Finset.val_inj.mp (here.symm.trans ((Multiset.coe_eq_coe.mpr perm).trans there))
      cases one
      cases two
      cases pairs
      rfl
    | _ => cases kind
  | stream _ => exact absurd rfl plain

theorem idTextLength (id) : (idText id).length < 2^63 := by
  have digits : ∀ n : UInt64, (RedisKeys.itoa n.toNat).length ≤ 20 := by
    intro n
    rw [RedisKeys.itoa,length_map,Nat.length_toDigits_le_iff (by decide) (by decide)]
    exact lt_trans n.toNat_lt (by decide)
  have one := digits id.1
  have two := digits id.2
  rw [idText,length_append,length_cons]
  omega

def received (e : Entry) : Text × GoMap := (⟨idText e.id,idTextLength e.id⟩,⟨collect e.fields,collectDistinct e.fields⟩)

theorem receivedAnswers (st) : Answers (.stream st) (.messages (st.entries.map received)) := by
  refine .stream ?_
  rw [forall₂_map_right_iff,forall₂_same]
  exact fun e _ => ⟨rfl,.refl _⟩

theorem answered (v) : ∃ r a, Answers v r ∧ canonicalValue v.kind r = .canon a := by
  cases v with
  | string b => exact ⟨_,_,.string b,rfl⟩
  | list vals => exact ⟨_,_,.list vals,rfl⟩
  | set members => exact ⟨_,_,.set (Finset.coe_toList members),rfl⟩
  | zset zs => exact ⟨_,_,.zset zs,rfl⟩
  | hash fields =>
    have distinct : (fields.pairs.toList.map Prod.fst).Nodup := by
      refine (nodup_map_iff_inj_on (Finset.nodup_toList _)).mpr ?_
      intro p first q second same
      exact fields.function p (Finset.mem_toList.mp first) q (Finset.mem_toList.mp second) same
    exact ⟨.map ⟨_,distinct⟩,_,.hash (Finset.coe_toList _),rfl⟩
  | stream st => exact ⟨_,_,receivedAnswers st,rfl⟩

theorem streamBlurred {st} (some_ : st.entries ≠ []) :
    ∃ other r, Value.stream other ≠ .stream st ∧ Answers (.stream st) r ∧ Answers (.stream other) r := by
  obtain ⟨⟨id,fields,nonempty⟩,rest,first⟩ := exists_cons_of_ne_nil some_
  obtain ⟨p,more,rfl⟩ := exists_cons_of_ne_nil nonempty
  have ordered := st.ordered
  rw [first,pairwise_cons] at ordered
  have doubled : (⟨id,p::p::more,cons_ne_nil _ _⟩::rest : List Entry).Pairwise fun a b => a.id.1 < b.id.1 ∨ a.id.1 = b.id.1 ∧ a.id.2 < b.id.2 :=
    pairwise_cons.mpr ordered
  have fields : collect (p::p::more) = collect (p::more) := by
    rw [collect,if_pos (.head _)]
  refine ⟨⟨_,doubled⟩,_,?_,receivedAnswers st,?_⟩
  · intro same
    have entries := congrArg Stream.entries (Value.stream.inj same)
    rw [first] at entries
    have size := congrArg (fun l => ((l.map Entry.fields).head?.getD []).length) entries
    simp at size
  · have answers := receivedAnswers ⟨_,doubled⟩
    rw [map_cons] at answers
    rw [first,map_cons]
    have head : received ⟨id,p::p::more,cons_ne_nil _ _⟩ = received ⟨id,p::more,nonempty⟩ := by
      simp only [received,fields]
    rwa [head] at answers

theorem emptyTold {st : Stream} {w : Value} {r s : Reply} (empty : st.entries = []) (kind : w.kind = .stream)
    (one : Answers (.stream st) r) (two : Answers w s)
    (same : canonicalValue .stream r = canonicalValue w.kind s) : .stream st = w := by
  cases one with
  | stream none =>
    rw [empty] at none
    cases none
    cases two with
    | @stream other msgs each =>
      have parts := joinNone (Outcome.canon.inj same).symm
      have messages : msgs = [] := by
        cases msgs with
        | nil => rfl
        | cons m msgs => simp at parts
      subst messages
      have entries : other.entries = [] := by
        cases found : other.entries with
        | nil => rfl
        | cons e rest =>
          rw [found] at each
          cases each
      cases st
      cases other
      cases empty
      cases entries
      rfl
    | _ => cases kind

def Faithful (v : Value) : Prop :=
  ∀ w r s a b key, w.kind = v.kind → Answers v r → Answers w s → canonicalValue v.kind r = .canon a → canonicalValue w.kind s = .canon b →
    (a = b ↔ v = w) ∧ (hashed key v.kind a = hashed key w.kind b ↔ v = w)

theorem faithfulOf {v : Value} (told : ∀ w r s, w.kind = v.kind → Answers v r → Answers w s →
    canonicalValue v.kind r = canonicalValue w.kind s → v = w) : Faithful v := by
  intro w r s a b key kind one two left right
  have same : a = b ↔ v = w := by
    constructor
    · rintro rfl
      exact told w r s kind one two (left.trans right.symm)
    · rintro rfl
      exact Outcome.canon.inj (left.symm.trans ((canonSame one two).trans right))
  rw [kind,hashedCanon]
  exact ⟨same,same⟩

theorem canonFaithfulIff (v : Value) : (∃ r a, Answers v r ∧ canonicalValue v.kind r = .canon a) ∧
    (Faithful v ↔ ∀ st, v = .stream st → st.entries = []) := by
  refine ⟨answered v,?_,?_⟩
  · rintro faithful st rfl
    by_contra some_
    obtain ⟨other,r,differs,one,two⟩ := streamBlurred some_
    cases one with
    | stream each =>
      exact differs ((faithful (.stream other) _ _ _ _ [] rfl (.stream each) two rfl rfl).1.mp rfl).symm
  · intro empty
    refine faithfulOf fun w r s kind one two same => ?_
    cases one with
    | stream each => exact emptyTold (empty _ rfl) kind (.stream each) two same
    | _ => exact canonTold kind Kind.noConfusion (by constructor <;> assumption) two same

def entry (ms : UInt64) (p : Text × Text) (more : List (Text × Text)) : Entry := ⟨(ms,0),p::more,cons_ne_nil _ _⟩

def letter (c : UInt8) : Text := ⟨[c],by simp⟩
def idOf (digit : UInt8) : Text := ⟨[digit,45,48],by simp⟩

def oneEntry : Stream :=
  ⟨[entry 1 (letter 49,letter 120) [(idOf 50,letter 121),(letter 97,idOf 51),(letter 98,letter 122)]],by simp⟩
def threeEntries : Stream :=
  ⟨[entry 1 (letter 49,letter 120) [],entry 2 (letter 121,letter 97) [],entry 3 (letter 98,letter 122) []],by decide⟩
def swapped : Stream :=
  ⟨[entry 1 (idOf 50,letter 121) [(letter 49,letter 120),(letter 97,idOf 51),(letter 98,letter 122)]],by simp⟩

theorem streamsFlattened : ∃ r s t, Answers (.stream oneEntry) r ∧ Answers (.stream threeEntries) s ∧ Answers (.stream swapped) t ∧
    canonicalValue .stream r = canonicalValue .stream s ∧ canonicalValue .stream r = canonicalValue .stream t ∧
    Value.stream oneEntry ≠ .stream threeEntries ∧ Value.stream oneEntry ≠ .stream swapped := by
  refine ⟨_,_,_,receivedAnswers _,receivedAnswers _,receivedAnswers _,by decide,by decide,?_,?_⟩
  · intro same
    have size := congrArg (fun st => st.entries.length) (Value.stream.inj same)
    simp [oneEntry,threeEntries] at size
  · intro same
    have fields := congrArg (fun st => (st.entries.map Entry.fields)) (Value.stream.inj same)
    simp [oneEntry,swapped,entry,letter,idOf] at fields

end Replicare.RedisCanon
