import Replicare.ChunkNulls
import Replicare.CopyRun
import Replicare.JsonText

/-! The state store keeps the watermark of a copy as jsonb: the key tuple goes through
`json.Marshal`, the cast to jsonb, its text output and the JSON decoder. -/
namespace Replicare.WatermarkCodec
open Engine Chunks CopyRun JsonText List Function

/- How `json.Marshal` writes a character of a string, or a byte that is not UTF-8. -/
def goEscaped (c : Char) : Bool := decide (c.toNat < 32 ∨ c ∈ ['<','>','&','\u2028','\u2029'])

def goEscape : Option Char → List Char
  | none => slash:: 'u'::hex4 replacement.toNat
  | some c => writeChar goEscaped c

def marshal (kv : Option KeyValues) : List Char := writeTuple [','] goEscape (kv.map (List.map (Option.map runes)))

abbrev Jsonb := Option (List (Option (List Char)))

def nul : Char := '\x00'

def castJsonb (text : List Char) : Except String Jsonb :=
  match readTuple text with
  | none => .error "invalid input syntax for type json"
  | some (value,rest) =>
      if skip rest ≠ [] then .error "invalid input syntax for type json"
      else if value.any fun items => items.any fun item => item.any fun cs => decide (nul ∈ cs) then
        .error "unsupported Unicode escape sequence"
      else .ok value

def jsonbEscape (c : Char) : List Char := writeChar (fun c => decide (c.toNat < 32)) c

def jsonbText (value : Jsonb) : List Char := writeTuple [',',' '] jsonbEscape value

def decodeKeyValues (b : List Char) : Except String (Option KeyValues) :=
  if b = [] then .ok none
  else
    match readTuple b with
    | none => .error "invalid character"
    | some (value,_) => .ok (value.map (List.map (Option.map encode)))

structure Saved where
  done : Bool
  watermark : Jsonb

abbrev Store := String × TargetID × TableRef → Option Saved

def saveCopyProgress (store : Store) (sync : String) (target : TargetID) (t : TableRef) (p : CopyProgress) : Except String Store :=
  match castJsonb (marshal p.watermark) with
  | .error e => .error ("statepg: save copy progress for "++sync++"/"++target++"/"++t.string++": "++e)
  | .ok watermark => .ok (update store (sync,target,t) (some ⟨p.done,watermark⟩))

def loadCopyProgress (store : Store) (sync : String) (target : TargetID) (t : TableRef) : Except String CopyProgress :=
  match store (sync,target,t) with
  | none => .ok ⟨none,false⟩
  | some row =>
      match decodeKeyValues (jsonbText row.watermark) with
      | .error e => .error ("statepg: decode watermark: "++e)
      | .ok watermark => .ok ⟨watermark,row.done⟩

def lossy (bytes : Bytes) : List Char := (runes bytes).map fun rune => rune.getD replacement

theorem goWritten (rune) : Written (goEscape rune) (rune.getD replacement) := by
  cases rune with
  | none => exact writtenHex (by decide)
  | some c =>
    have all : ∀ c ∈ ['<','>','&','\u2028','\u2029'], c.toNat < 65536 := by simp
    have low : ∀ c, goEscaped c = true → c.toNat < 65536 := by
      intro c chosen
      rcases of_decide_eq_true chosen with control | mem
      · omega
      · exact all c mem
    exact writtenChar (fun c control => decide_eq_true (.inl control)) low c

theorem jsonbWritten (c) : Written (jsonbEscape c) c :=
  writtenChar (fun c control => decide_eq_true control) (fun c chosen => Nat.lt_trans (of_decide_eq_true chosen) (by decide)) c

theorem readMarshal (kv) : readTuple (marshal kv) = some (kv.map (List.map (Option.map lossy)),[]) := by
  have read := readWritten goWritten [] (by simp) (kv.map (List.map (Option.map runes))) []
  rw [append_nil] at read
  rw [marshal,read]
  cases kv with
  | none => rfl
  | some items =>
    have each : ∀ v : Option Bytes, (v.map runes).map (List.map fun rune => rune.getD replacement) = v.map lossy := by
      intro v
      cases v <;> rfl
    simp only [Option.map_some,List.map_map,comp_def,each]

theorem decodeJsonb (value) : decodeKeyValues (jsonbText value) = .ok (value.map (List.map (Option.map encode))) := by
  have read := readWritten jsonbWritten [' '] (by simp [blank]) value []
  rw [append_nil] at read
  have some_ : jsonbText value ≠ [] := by cases value <;> simp [jsonbText,writeTuple,nullText]
  rw [decodeKeyValues,if_neg some_,jsonbText,read]
  cases value with
  | none => rfl
  | some items => simp

theorem lossyEncode (cs) : lossy (encode cs) = cs := by
  rw [lossy,runesEncode,List.map_map]
  exact map_id cs

section Save
variable (store : Store) (sync : String) (target : TargetID) (t : TableRef)

theorem saveOk (w) (done) (out) : saveCopyProgress store sync target t ⟨some w,done⟩ = .ok out ↔
    (∀ b, some b ∈ w → nul ∉ lossy b) ∧ out = update store (sync,target,t) (some ⟨done,some (w.map (Option.map lossy))⟩) := by
  have found : ((some (w.map (Option.map lossy))).any fun items => items.any fun item => item.any fun cs => decide (nul ∈ cs)) = true ↔
      ∃ b, some b ∈ w ∧ nul ∈ lossy b := by
    simp only [Option.any_some,any_map,any_eq_true,comp_def,Option.any_map]
    constructor
    · rintro ⟨v,mem,held⟩
      cases v with
      | none => cases held
      | some b => exact ⟨b,mem,of_decide_eq_true held⟩
    · rintro ⟨b,mem,held⟩
      exact ⟨some b,mem,decide_eq_true held⟩
  rw [saveCopyProgress,castJsonb,readMarshal]
  dsimp only [Option.map_some]
  rw [if_neg (by simp [skip])]
  by_cases held : ∃ b, some b ∈ w ∧ nul ∈ lossy b
  · rw [if_pos (found.mpr held)]
    obtain ⟨b,mem,held⟩ := held
    exact iff_of_false (by simp) fun both => both.1 b mem held
  · rw [if_neg (mt found.mp held)]
    have free : ∀ b, some b ∈ w → nul ∉ lossy b := fun b mem in_ => held ⟨b,mem,in_⟩
    rw [Except.ok.injEq,eq_comm,and_iff_right free]

theorem loadSaved (w) (done) :
    loadCopyProgress (update store (sync,target,t) (some ⟨done,some w⟩)) sync target t = .ok ⟨some (w.map (Option.map encode)),done⟩ := by
  rw [loadCopyProgress,update_self]
  dsimp only
  rw [decodeJsonb]
  rfl

def Resumes (w : KeyValues) : Prop := ∃ saved, saveCopyProgress store sync target t ⟨some w,false⟩ = .ok saved ∧
  ∃ p, loadCopyProgress saved sync target t = .ok p ∧ p.done = false ∧ p.watermark = some w ∧
    ∀ le rows targetRows k, above le (some w) k = true → ∃ c ∈ planChunks le rows targetRows p.watermark, c.has le k = true

theorem resumesIff (w : KeyValues) : Resumes store sync target t w ↔ ∀ b, some b ∈ w → ∃ cs, encode cs = b ∧ nul ∉ cs := by
  constructor
  · rintro ⟨saved,ok,p,loaded,_,same,_⟩ b mem
    obtain ⟨free,rfl⟩ := (saveOk store sync target t w false saved).mp ok
    rw [loadSaved] at loaded
    cases Except.ok.inj loaded
    have each : w.map (fun v => (v.map lossy).map encode) = w.map id := by
      simpa [comp_def] using same
    have own := map_inj_left.mp each (some b) mem
    exact ⟨lossy b,Option.some.inj own,free b mem⟩
  · intro text
    have free : ∀ b, some b ∈ w → nul ∉ lossy b := by
      intro b mem
      obtain ⟨cs,rfl,free⟩ := text b mem
      rwa [lossyEncode]
    have back : (w.map (Option.map lossy)).map (Option.map encode) = w := by
      rw [List.map_map]
      refine (map_congr_left fun v mem => ?_).trans (map_id w)
      cases v with
      | none => rfl
      | some b =>
        obtain ⟨cs,rfl,_⟩ := text b mem
        simp [lossyEncode]
    refine ⟨_,(saveOk store sync target t w false _).mpr ⟨free,rfl⟩,_,loadSaved store sync target t _ false,rfl,congrArg some back,?_⟩
    intro le rows targetRows k floor
    rw [back]
    exact rangesCover floor

end Save

def tags : TableRef := ⟨"app","tags"⟩

def tagRows : Stored.Rows := [([some [0x80]],fun _ => none),([some [0x90]],fun _ => none),([some [0xf0]],fun _ => none)]

theorem binaryKeysLost : planChunks (ChunkNulls.byteOrder 0) tagRows 1 none =
      [⟨none,some [some [0x90]]⟩,⟨some [some [0x90]],some [some [0xf0]]⟩,⟨some [some [0xf0]],none⟩] ∧
    ((saveCopyProgress (fun _ => none) "s" "t" tags ⟨some [some [0x90]],false⟩).bind fun saved => loadCopyProgress saved "s" "t" tags) =
      .ok ⟨some [some [0xef,0xbf,0xbd]],false⟩ ∧
    (∀ c ∈ planChunks (ChunkNulls.byteOrder 0) tagRows 1 (some [some [0xef,0xbf,0xbd]]), c.has (ChunkNulls.byteOrder 0) [some [0x90]] = false) ∧
    ¬Resumes (fun _ => none) "s" "t" tags [some [0x90]] ∧ ¬Resumes (fun _ => none) "s" "t" tags [some [0]] := by
  have changed : ((saveCopyProgress (fun _ => none) "s" "t" tags ⟨some [some [0x90]],false⟩).bind fun saved => loadCopyProgress saved "s" "t" tags) =
      .ok ⟨some [some [0xef,0xbf,0xbd]],false⟩ := by decide +kernel
  have refused : (saveCopyProgress (fun _ => none) "s" "t" tags ⟨some [some [0]],false⟩).isOk = false := by decide +kernel
  refine ⟨by decide +kernel,changed,by decide +kernel,?_,?_⟩
  · rintro ⟨saved,ok,p,loaded,_,same,_⟩
    rw [ok] at changed
    have here : p = ⟨some [some [0xef,0xbf,0xbd]],false⟩ := Except.ok.inj (loaded.symm.trans changed)
    rw [here] at same
    exact absurd same (by decide)
  · rintro ⟨saved,ok,_⟩
    rw [ok] at refused
    cases refused

end Replicare.WatermarkCodec
