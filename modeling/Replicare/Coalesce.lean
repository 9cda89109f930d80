import Mathlib.Data.List.Nodup
import Replicare.Engine

/-! Reduction of a read of dirty keys to distinct keys plus every observed delta id. -/
namespace Replicare.Coalesce
open Engine List

variable {K S : Type*} [DecidableEq S] {sig : K → S}

def scan (sig : K → S) : List S → List (DirtyKey K) → List K × List DeltaID
  | _, [] => ([],[])
  | seen, d::rest =>
      if sig d.key ∈ seen then
        let tail := scan sig seen rest
        (tail.1,d.deltaID::tail.2)
      else
        let tail := scan sig (sig d.key::seen) rest
        (d.key::tail.1,d.deltaID::tail.2)

def coalesce (sig : K → S) (dirty : List (DirtyKey K)) : List K × List DeltaID := scan sig [] dirty

theorem scanIds (sig : K → S) (seen dirty) : (scan sig seen dirty).2 = dirty.map DirtyKey.deltaID := by
  induction dirty generalizing seen with
  | nil => rfl
  | cons d rest ih =>
    simp only [scan]
    split <;> simp only [ih,map_cons]

theorem scanSource {seen dirty k} (mem : k ∈ (scan sig seen dirty).1) : (∃ d ∈ dirty, d.key = k) ∧ sig k ∉ seen := by
  induction dirty generalizing seen with
  | nil => simp [scan] at mem
  | cons d rest ih =>
    simp only [scan] at mem
    split at mem
    · obtain ⟨⟨e,he,same⟩,new⟩ := ih mem
      exact ⟨⟨e,mem_cons_of_mem _ he,same⟩,new⟩
    · rename_i unseen
      rcases mem_cons.mp mem with rfl | later
      · exact ⟨⟨d,mem_cons_self,rfl⟩,unseen⟩
      · obtain ⟨⟨e,he,same⟩,new⟩ := ih later
        exact ⟨⟨e,mem_cons_of_mem _ he,same⟩,fun old => new (mem_cons_of_mem _ old)⟩

theorem scanCovers (sig : K → S) (seen) {dirty d} (mem : d ∈ dirty) :
    sig d.key ∈ seen ∨ ∃ k ∈ (scan sig seen dirty).1, sig k = sig d.key := by
  induction dirty generalizing seen with
  | nil => simp at mem
  | cons e rest ih =>
    simp only [scan]
    rcases mem_cons.mp mem with rfl | later
    · split
      · rename_i old; exact .inl old
      · exact .inr ⟨d.key,mem_cons_self,rfl⟩
    · split
      · exact ih seen later
      · rcases ih (sig e.key::seen) later with old | ⟨k,hk,same⟩
        · rcases mem_cons.mp old with same | old
          · exact .inr ⟨e.key,mem_cons_self,same.symm⟩
          · exact .inl old
        · exact .inr ⟨k,mem_cons_of_mem _ hk,same⟩

theorem scanSeparates {seen dirty} : ((scan sig seen dirty).1.map sig).Nodup := by
  induction dirty generalizing seen with
  | nil => simp [scan]
  | cons d rest ih =>
    simp only [scan]
    split
    · exact ih
    · refine nodup_cons.mpr ⟨?_,ih⟩
      intro old
      obtain ⟨k,hk,same⟩ := mem_map.mp old
      exact (scanSource hk).2 (by simp [same])

theorem coalesceIds (sig : K → S) (dirty) : (coalesce sig dirty).2 = dirty.map DirtyKey.deltaID :=
  scanIds sig [] dirty

theorem coalesceSource {dirty k} (mem : k ∈ (coalesce sig dirty).1) : ∃ d ∈ dirty, d.key = k := (scanSource mem).1

theorem coalesceKeepsIff (sig : K → S) (dirty) : (∀ d ∈ dirty, d.key ∈ (coalesce sig dirty).1) ↔
      ∀ d ∈ dirty, ∀ e ∈ dirty, sig d.key = sig e.key → d.key = e.key := by
  constructor
  · intro kept d hd e he same
    exact inj_on_of_nodup_map scanSeparates (kept d hd) (kept e he) same
  · intro separate d hd
    rcases scanCovers sig [] hd with old | ⟨k,hk,same⟩
    · simp at old
    · obtain ⟨e,he,rfl⟩ := coalesceSource hk
      rw [separate d hd e he same.symm]
      exact hk

def MapsReadKeys (sig : K → S) : Prop :=
  ∀ (dirty : List (DirtyKey K)) (k : K), k ∈ (coalesce sig dirty).1 ↔ ∃ d ∈ dirty, d.key = k

theorem mapsReadKeysOfInjective (separate : Function.Injective sig) : MapsReadKeys sig := by
  intro dirty k
  refine ⟨coalesceSource,?_⟩
  intro read
  obtain ⟨d,hd,rfl⟩ := read
  exact (coalesceKeepsIff sig dirty).mpr (fun _ _ _ _ same => separate same) d hd

def nul : UInt8 := 0

/- What fmt.Sprint prints for a nil interface value. -/
def nilText : Bytes := [60,110,105,108,62]

def part : Option Bytes → Bytes
  | some s => s
  | none => nilText

def keySignature (kv : KeyValues) : Bytes := [nul].intercalate (kv.map part)

/- The NUL-free pieces of the key columns in order, a NULL column printed. -/
def pieces : KeyValues → List Bytes
  | [] => [[]]
  | [v] => (part v).splitOn nul
  | v::w::rest => (part v).splitOn nul++pieces (w::rest)

theorem signaturePieces (kv) : (keySignature kv).splitOn nul = pieces kv := by
  induction kv with
  | nil => simp [keySignature,pieces]
  | cons v rest ih =>
    cases rest with
    | nil => simp [keySignature,pieces]
    | cons w rest =>
      have joined : keySignature (v::w::rest) = part v++nul::keySignature (w::rest) := by
        simp [keySignature,intercalate_cons_cons]
      rw [joined,splitOn_append_cons_self,ih]
      rfl

theorem signatureEqIff (a b) : keySignature a = keySignature b ↔ pieces a = pieces b := by
  constructor
  · intro same
    rw [← signaturePieces a,← signaturePieces b,same]
  · intro same
    have joined : ∀ kv, keySignature kv = [nul].intercalate (pieces kv) := by
      intro kv
      rw [← signaturePieces,intercalate_splitOn]
    rw [joined a,joined b,same]

structure LosesNoKey (dirty : List (DirtyKey KeyValues)) : Prop where
  observed : ∀ d ∈ dirty, d.key ∈ (coalesce keySignature dirty).1
  merged : ∀ d ∈ dirty, ∀ e ∈ dirty, keySignature d.key = keySignature e.key → d.key = e.key
  reread : ∀ id ∈ (coalesce keySignature dirty).2, ∀ d ∈ dirty, d.deltaID = id →
    d.key ∈ (coalesce keySignature dirty).1

def PiecesSeparate (dirty : List (DirtyKey KeyValues)) : Prop :=
  ∀ d ∈ dirty, ∀ e ∈ dirty, pieces d.key = pieces e.key → d.key = e.key

theorem losesNoKeyIff (dirty : List (DirtyKey KeyValues)) : LosesNoKey dirty ↔ PiecesSeparate dirty := by
  have separated : PiecesSeparate dirty ↔
      ∀ d ∈ dirty, ∀ e ∈ dirty, keySignature d.key = keySignature e.key → d.key = e.key := by
    simp only [PiecesSeparate,signatureEqIff]
  rw [separated]
  constructor
  · exact fun kept => kept.merged
  · intro separate
    have observed := (coalesceKeepsIff keySignature dirty).mpr separate
    exact ⟨observed,separate,fun _ _ d hd _ => observed d hd⟩

theorem binaryKeysCollide : ¬LosesNoKey [⟨1,.update,[some [nul],some []]⟩,⟨2,.update,[some [],some [nul]]⟩] := by
  intro kept
  have missing := kept.observed ⟨2,.update,[some [],some [nul]]⟩ (by decide)
  revert missing
  decide

theorem plainPieces {kv} (some : kv ≠ []) (plain : ∀ v ∈ kv, nul ∉ part v) : pieces kv = kv.map part := by
  rw [← signaturePieces]
  apply splitOn_intercalate
  · intro l hl
    obtain ⟨v,hv,rfl⟩ := mem_map.mp hl
    exact plain v hv
  · simpa using some

theorem partsInjective {a b : KeyValues} (ha : some nilText ∉ a) (hb : some nilText ∉ b)
    (same : a.map part = b.map part) : a = b := by
  induction a generalizing b with
  | nil => exact (map_eq_nil_iff.mp same.symm).symm
  | cons v a ih =>
    cases b with
    | nil => simp at same
    | cons w b =>
      simp only [map_cons,List.cons.injEq,mem_cons,not_or] at same ha hb
      have head : v = w := by
        cases v <;> cases w <;> simp_all [part]
      rw [head,ih ha.2 hb.2 same.2]

theorem plainKeysSeparate {dirty : List (DirtyKey KeyValues)} (columns : ∀ d ∈ dirty, d.key ≠ [])
    (plain : ∀ d ∈ dirty, some nilText ∉ d.key ∧ ∀ v ∈ d.key, nul ∉ part v) : PiecesSeparate dirty := by
  intro d hd e he same
  rw [plainPieces (columns d hd) (plain d hd).2,plainPieces (columns e he) (plain e he).2] at same
  exact partsInjective (plain d hd).1 (plain e he).1 same

theorem plainKeysOnce {dirty : List (DirtyKey KeyValues)} (columns : ∀ d ∈ dirty, d.key ≠ [])
    (plain : ∀ d ∈ dirty, some nilText ∉ d.key ∧ ∀ v ∈ d.key, nul ∉ part v) :
    (coalesce keySignature dirty).1.Nodup ∧ (∀ k, k ∈ (coalesce keySignature dirty).1 ↔ ∃ d ∈ dirty, d.key = k) ∧
      (coalesce keySignature dirty).2 = dirty.map DirtyKey.deltaID := by
  have separate := plainKeysSeparate columns plain
  refine ⟨List.Nodup.of_map _ scanSeparates,fun k => ⟨coalesceSource,?_⟩,coalesceIds _ _⟩
  rintro ⟨d,mem,rfl⟩
  refine (coalesceKeepsIff keySignature dirty).mpr (fun d hd e he same => ?_) d mem
  exact separate d hd e he ((signatureEqIff _ _).mp same)

theorem plainKeysOnceTwice : (coalesce keySignature [⟨1,.insert,[some [49],none]⟩,⟨2,.update,[some [49],none]⟩]).1.Nodup :=
  (plainKeysOnce (by decide) (by decide)).1

end Replicare.Coalesce
