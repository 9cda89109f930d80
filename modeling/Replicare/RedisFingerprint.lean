import Mathlib.Data.Finset.Fold
import Replicare.RedisCanon

/-! The fingerprint of a Redis keyspace: SCAN pages of all shards, each selected key hashed
with its type and canonical value, the hashes folded by exclusive or. -/
namespace Replicare.RedisFingerprint
open Engine RedisCanon RedisKeys List

/- What TYPE and the type's read command gave for a scanned key; none for a key that is
gone or of a type the code does not read. -/
structure Read where
  key : Bytes
  found : Option (Kind × Reply)

section Code
variable (digest : Bytes → UInt64)

def hashRead (acc : Option (UInt64 × Nat)) (r : Read) : Option (UInt64 × Nat) :=
  acc.bind fun a =>
    match r.found with
    | none => some a
    | some (typ,reply) =>
      match canonicalValue typ reply with
      | .failed => none
      | .skip => some a
      | .canon c => some (a.1 ^^^ digest (hashed r.key typ c),a.2+1)

def hashBatch (reads : List Read) : Option (UInt64 × Nat) := reads.foldl (hashRead digest) (some (0,0))

def addPage (sel : Option Selection) (acc : Option (UInt64 × Nat)) (page : List Read) : Option (UInt64 × Nat) :=
  acc.bind fun a =>
    let selected := page.filter fun r => chosen sel r.key
    if selected.isEmpty then some a
    else (hashBatch digest selected).map fun b => (a.1 ^^^ b.1,a.2+b.2)

def fingerprintUnit (sel : Option Selection) (pages : List (List Read)) : Option (UInt64 × Nat) :=
  pages.foldl (addPage digest sel) (some (0,0))

end Code

structure Keyspace where
  value : Bytes → Option Value
  keys : Finset Bytes
  held : ∀ k, k ∈ keys ↔ (value k).isSome

noncomputable section
variable (digest : Bytes → UInt64) (sel : Option Selection) (K : Keyspace)

def canonOf (v : Value) : Bytes := (answered v).choose_spec.choose

theorem canonOfReply {v r} (answers : Answers v r) : canonicalValue v.kind r = .canon (canonOf v) := by
  have spec := (answered v).choose_spec.choose_spec
  rw [canonSame answers spec.1]
  exact spec.2

def word (key : Bytes) : Option UInt64 := (K.value key).map fun v => digest (hashed key v.kind (canonOf v))

def selectedKeys : Finset Bytes := K.keys.filter fun k => chosen sel k

def fingerprintOf : UInt64 × Nat :=
  ((selectedKeys sel K).fold (· ^^^ ·) 0 fun k => (word digest K k).getD 0,(selectedKeys sel K).card)

end

def Reads (K : Keyspace) (r : Read) : Prop :=
  match K.value r.key with
  | none => r.found = none
  | some v => ∃ reply, r.found = some (v.kind,reply) ∧ Answers v reply

section Terms
variable {digest : Bytes → UInt64} {sel : Option Selection} {K : Keyspace}

def xorAll (l : List UInt64) : UInt64 := l.foldl (· ^^^ ·) 0

theorem xorFrom (a) (l) : l.foldl (· ^^^ ·) a = a ^^^ xorAll l := by
  induction l generalizing a with
  | nil => simp [xorAll]
  | cons b l ih =>
    rw [xorAll,foldl_cons,foldl_cons,ih,ih (0 ^^^ b)]
    simp [UInt64.xor_assoc]

noncomputable def added (digest : Bytes → UInt64) (K : Keyspace) (a : UInt64 × Nat) (keys : List Bytes) : UInt64 × Nat :=
  ((keys.filterMap (word digest K)).foldl (· ^^^ ·) a.1,a.2+(keys.filterMap (word digest K)).length)

theorem addedAppend (a) (one two) : added digest K a (one++two) = added digest K (added digest K a one) two := by
  simp only [added,filterMap_append,foldl_append,length_append,Nat.add_assoc]

theorem addedZero (a) (keys) :
    added digest K a keys = (a.1 ^^^ (added digest K (0,0) keys).1,a.2+(added digest K (0,0) keys).2) := by
  simp only [added,Nat.zero_add]
  rw [xorFrom]
  rfl

theorem hashReadAdds {r : Read} (reads : Reads K r) (a : UInt64 × Nat) : hashRead digest (some a) r = some (added digest K a [r.key]) := by
  unfold Reads at reads
  cases value : K.value r.key with
  | none =>
    rw [value] at reads
    simp [hashRead,added,word,value,reads]
  | some v =>
    rw [value] at reads
    obtain ⟨reply,found,answers⟩ := reads
    simp [hashRead,added,word,value,found,canonOfReply answers]

theorem hashBatchAdds {reads : List Read} (all : ∀ r ∈ reads, Reads K r) (a : UInt64 × Nat) :
    reads.foldl (hashRead digest) (some a) = some (added digest K a (reads.map Read.key)) := by
  induction reads generalizing a with
  | nil => rfl
  | cons r reads ih =>
    rw [forall_mem_cons] at all
    rw [foldl_cons,hashReadAdds all.1,ih all.2,←addedAppend]
    rfl

def picked (sel : Option Selection) (reads : List Read) : List Bytes := (reads.map Read.key).filter (chosen sel)

theorem pageAdds {page : List Read} (all : ∀ r ∈ page, Reads K r) (a : UInt64 × Nat) :
    addPage digest sel (some a) page = some (added digest K a (picked sel page)) := by
  have keys : (page.filter fun r => chosen sel r.key).map Read.key = picked sel page := by
    rw [picked,filter_map]
    rfl
  have batch := @hashBatchAdds digest K (page.filter fun r => chosen sel r.key) (fun r member => all r (mem_of_mem_filter member)) (0,0)
  simp only [addPage,Option.bind_some]
  split
  · rename_i none
    rw [List.isEmpty_iff] at none
    rw [←keys,none]
    rfl
  · rw [hashBatch,batch,keys,Option.map_some,addedZero a]

theorem unitAdds {pages : List (List Read)} (all : ∀ page ∈ pages, ∀ r ∈ page, Reads K r) (a : UInt64 × Nat) :
    pages.foldl (addPage digest sel) (some a) = some (added digest K a (picked sel pages.flatten)) := by
  induction pages generalizing a with
  | nil => rfl
  | cons page pages ih =>
    rw [forall_mem_cons] at all
    rw [foldl_cons,pageAdds all.1,ih all.2,←addedAppend,flatten_cons,picked,picked,picked,map_append,filter_append]

def counted (sel : Option Selection) (K : Keyspace) (reads : List Read) : List Bytes := (picked sel reads).filter fun k => k ∈ K.keys

theorem wordsCounted (keys : List Bytes) :
    keys.filterMap (word digest K) = (keys.filter fun k => k ∈ K.keys).map fun k => (word digest K k).getD 0 := by
  induction keys with
  | nil => rfl
  | cons k keys ih =>
    have held := K.held k
    cases value : K.value k with
    | none =>
      rw [value] at held
      have out : k ∉ K.keys := by simp [held]
      rw [filterMap_cons_none (by simp [word,value]),ih,filter_cons_of_neg (by simpa using out)]
    | some v =>
      rw [value] at held
      have here : k ∈ K.keys := by simp [held]
      have found : word digest K k = some (digest (hashed k v.kind (canonOf v))) := by simp [word,value]
      rw [filterMap_cons_some found,ih,filter_cons_of_pos (by simpa using here),map_cons,found,Option.getD_some]

theorem countedFinset {reads} (covers : ∀ k ∈ K.keys, k ∈ reads.map Read.key) :
    (counted sel K reads).toFinset = selectedKeys sel K := by
  ext k
  simp only [counted,picked,selectedKeys,mem_toFinset,mem_filter,Finset.mem_filter,decide_eq_true_eq]
  exact ⟨fun both => ⟨both.2,both.1.2⟩,fun both => ⟨⟨covers k both.1,both.2⟩,both.1⟩⟩

theorem countedCount {reads k} (member : k ∈ selectedKeys sel K) :
    (counted sel K reads).count k = (reads.map Read.key).count k := by
  rw [selectedKeys,Finset.mem_filter] at member
  rw [counted,count_filter (by simpa using member.1),picked,count_filter member.2]

end Terms

section Result
variable (digest : Bytes → UInt64) (sel : Option Selection) (K : Keyspace)

theorem unitCounted {pages : List (List Read)} (reads : ∀ page ∈ pages, ∀ r ∈ page, Reads K r) :
    fingerprintUnit digest sel pages = some (((counted sel K pages.flatten).map fun k => (word digest K k).getD 0).foldl (· ^^^ ·) 0,
      (counted sel K pages.flatten).length) := by
  rw [fingerprintUnit,unitAdds reads,added,wordsCounted,length_map,Nat.zero_add]
  rfl

theorem foldCounted {l : List Bytes} (once : l.Nodup) (f : Bytes → UInt64) :
    (l.map f).foldl (· ^^^ ·) 0 = l.toFinset.fold (fun a b : UInt64 => a ^^^ b) 0 f := by
  rw [Finset.fold,toFinset_val,once.dedup,Multiset.map_coe,Multiset.coe_fold_l]

theorem countedOnce {reads} (covers : ∀ k ∈ K.keys, k ∈ reads.map Read.key) :
    (counted sel K reads).Nodup ↔ ∀ k ∈ selectedKeys sel K, (reads.map Read.key).count k = 1 := by
  rw [←countedFinset covers,nodup_iff_count_le_one]
  constructor
  · intro atMost k member
    have here := count_pos_iff.mpr (mem_toFinset.mp member)
    rw [countedFinset covers] at member
    have most := atMost k
    rw [countedCount member] at here most
    omega
  · intro exactly k
    by_cases member : k ∈ counted sel K reads
    · have listed := mem_toFinset.mpr member
      have one := exactly k listed
      rw [countedFinset covers] at listed
      rw [countedCount listed]
      omega
    · rw [count_eq_zero.mpr member]
      omega

theorem contentOnly {other} (same : ∀ k, chosen sel k = true → other.value k = K.value k) :
    fingerprintOf digest sel other = fingerprintOf digest sel K := by
  have keys : selectedKeys sel other = selectedKeys sel K := by
    ext k
    simp only [selectedKeys,Finset.mem_filter]
    refine and_congr_left fun picked => ?_
    rw [other.held,K.held,same k picked]
  rw [fingerprintOf,fingerprintOf,keys]
  congr 1
  refine Finset.fold_congr fun k member => ?_
  rw [selectedKeys,Finset.mem_filter] at member
  rw [word,word,same k member.2]

/- The result is the keyspace's own exactly if SCAN returned no selected key twice, and
the keyspace's own depends on the selected content only. -/
theorem fingerprintOnceIff {pages : List (List Read)} (reads : ∀ page ∈ pages, ∀ r ∈ page, Reads K r)
    (covers : ∀ k ∈ K.keys, k ∈ pages.flatten.map Read.key) :
    (fingerprintUnit digest sel pages = some (fingerprintOf digest sel K) ↔
      ∀ k ∈ selectedKeys sel K, (pages.flatten.map Read.key).count k = 1) ∧
    ∀ other : Keyspace, (∀ k, chosen sel k = true → other.value k = K.value k) →
      fingerprintOf digest sel other = fingerprintOf digest sel K := by
  refine ⟨?_,fun other same => contentOnly digest sel K same⟩
  rw [←countedOnce sel K covers,unitCounted digest sel K reads,fingerprintOf,Option.some.injEq,Prod.mk.injEq,←countedFinset covers]
  constructor
  · rintro ⟨_,size⟩
    rw [card_toFinset] at size
    exact dedup_eq_self.mp ((dedup_sublist _).eq_of_length size.symm)
  · intro once
    exact ⟨foldCounted once _,(toFinset_card_of_nodup once).symm⟩

end Result

def stringKey : Keyspace := ⟨fun k => if k = [107] then some (.string [118]) else none,{[107]},by simp [apply_ite Option.isSome]⟩

def scanned : Read := ⟨[107],some (.string,.bytes [118])⟩

theorem scannedReads : ∀ page ∈ [[scanned]], ∀ r ∈ page, Reads stringKey r := by
  intro page first r member
  obtain rfl : page = [scanned] := by simpa using first
  obtain rfl : r = scanned := by simpa using member
  exact ⟨.bytes [118],rfl,.string [118]⟩

theorem fingerprintOneKey : fingerprintUnit (fun _ => 7) none [[scanned]] = some (fingerprintOf (fun _ => 7) none stringKey) :=
  (fingerprintOnceIff (fun _ => 7) none stringKey scannedReads (by decide)).1.mpr (by decide)

/- The one key of the keyspace, returned once by one SCAN and on two pages by another. -/
theorem fingerprintTwice : Reads stringKey scanned ∧ stringKey.keys = {scanned.key} ∧
    fingerprintUnit (fun _ => 7) none [[scanned]] = some (7,1) ∧
    fingerprintUnit (fun _ => 7) none [[scanned],[scanned]] = some (0,2) := by
  exact ⟨⟨.bytes [118],rfl,.string [118]⟩,by decide⟩

end Replicare.RedisFingerprint
