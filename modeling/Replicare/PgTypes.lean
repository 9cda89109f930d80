import Replicare.MysqlTypes

/-! Compatibility of Postgres column types, as pre-flight judges a pair of columns by the texts
format_type gives them. -/
namespace Replicare.PgTypes
open MysqlTypes (CompatLevel isSpace trimSpace atoi)

structure PgType where
  base : String
  mods : List Int
  deriving DecidableEq, Repr

def regexSpace (c : Char) : Bool := decide (c.toNat ∈ [9,10,12,13,32])

def digitRun (s : List Char) : Option (List Char × List Char) :=
  if s.takeWhile Char.isDigit = [] then none else some (s.takeWhile Char.isDigit,s.dropWhile Char.isDigit)

def moreMods : Nat → List Char → Option (List (List Char) × List Char)
  | 0, _ => none
  | fuel+1, s =>
      match s.dropWhile regexSpace with
      | ')'::rest => some ([],rest)
      | ','::rest => do
          let (first,rest) ← digitRun (rest.dropWhile regexSpace)
          let (others,rest) ← moreMods fuel rest
          some (first::others,rest)
      | _ => none

def modsAt : List Char → Option (List (List Char) × List Char)
  | '('::rest => do
      let (first,rest) ← digitRun (rest.dropWhile regexSpace)
      let (others,rest) ← moreMods (rest.length+1) rest
      some (first::others,rest)
  | _ => none

def firstMods : List Char → List (List Char)
  | [] => []
  | c::rest =>
      match modsAt (c::rest) with
      | some (numbers,_) => numbers
      | none => firstMods rest

def stripMods : Nat → List Char → List Char
  | fuel+1, c::rest =>
      match modsAt (c::rest) with
      | some (_,after) => stripMods fuel after
      | none => c::stripMods fuel rest
  | _, s => s

def fields (s : List Char) : List (List Char) := (s.splitOnP isSpace).filter fun f => !f.isEmpty

def parseType (s : String) : PgType :=
  let l := (trimSpace s.toList).map Char.toLower
  { base := String.ofList ([' '].intercalate (fields (trimSpace (stripMods l.length l))))
    mods := (firstMods l).filterMap fun number => atoi (trimSpace number) }

def PgType.hasMods (p : PgType) : Bool := !p.mods.isEmpty

def PgType.firstMod (p : PgType) (default : Int) : Int := p.mods.head?.getD default

inductive Family where
  | int | decimal | float | text | bool | uuid | date | timestamp | timestampTZ | time | timeTZ | json | jsonb
  | bytea | interval | other
  deriving DecidableEq, Repr

def Family.name : Family → String
  | .int => "integer" | .decimal => "numeric" | .float => "float" | .text => "text" | .bool => "boolean"
  | .uuid => "uuid" | .date => "date" | .timestamp => "timestamp" | .timestampTZ => "timestamptz" | .time => "time"
  | .timeTZ => "timetz" | .json => "json" | .jsonb => "jsonb" | .bytea => "bytea" | .interval => "interval"
  | .other => "other"

def PgType.family (p : PgType) : Family :=
  if p.base ∈ ["smallint","int2","integer","int","int4","bigint","int8"] then .int
  else if p.base ∈ ["numeric","decimal"] then .decimal
  else if p.base ∈ ["real","float4","double precision","float8"] then .float
  else if p.base ∈ ["text","character varying","varchar","character","char","bpchar","\"char\""] then .text
  else if p.base ∈ ["boolean","bool"] then .bool
  else if p.base = "uuid" then .uuid
  else if p.base = "date" then .date
  else if p.base ∈ ["timestamp without time zone","timestamp"] then .timestamp
  else if p.base ∈ ["timestamp with time zone","timestamptz"] then .timestampTZ
  else if p.base ∈ ["time without time zone","time"] then .time
  else if p.base ∈ ["time with time zone","timetz"] then .timeTZ
  else if p.base = "json" then .json
  else if p.base = "jsonb" then .jsonb
  else if p.base = "bytea" then .bytea
  else if p.base = "interval" then .interval
  else .other

def PgType.intWidth (p : PgType) : Nat :=
  if p.base ∈ ["smallint","int2"] then 16 else if p.base ∈ ["integer","int","int4"] then 32
  else if p.base ∈ ["bigint","int8"] then 64 else 0

def PgType.floatWidth (p : PgType) : Nat :=
  if p.base ∈ ["real","float4"] then 32 else if p.base ∈ ["double precision","float8"] then 64 else 0

def PgType.textLimit (p : PgType) : Int :=
  if p.base ∈ ["character varying","varchar"] then p.firstMod (-1)
  else if p.base ∈ ["character","char","bpchar"] then p.firstMod 1
  else -1

def PgType.numericPrecisionScale (p : PgType) : Int × Int := ((p.mods[0]?).getD 0,(p.mods[1]?).getD 0)

def PgType.numericHoldsIntegers (p : PgType) : Bool :=
  !p.hasMods || decide (p.numericPrecisionScale.2 = 0 ∧ 19 ≤ p.numericPrecisionScale.1)

def classifyToText (s t : PgType) : CompatLevel × String :=
  if t.textLimit < 0 then (.widen,"target holds any value as text")
  else if s.family = .text ∧ 0 ≤ s.textLimit ∧ s.textLimit ≤ t.textLimit then
    (.widen,"target text length accommodates source")
  else (.risky,"target length "++toString t.textLimit++" may truncate the source value")

def classifyNumeric (s t : PgType) : CompatLevel × String :=
  if !t.hasMods then (.widen,"unconstrained numeric target")
  else if !s.hasMods then (.risky,"constraining an unconstrained numeric may overflow")
  else if s.numericPrecisionScale.1 ≤ t.numericPrecisionScale.1 ∧ s.numericPrecisionScale.2 ≤ t.numericPrecisionScale.2 then
    (.widen,"wider or equal numeric precision/scale")
  else (.risky,"narrower numeric precision/scale may lose data")

def classifyPrecision (s t : PgType) : CompatLevel × String :=
  if s.firstMod 6 ≤ t.firstMod 6 then (.widen,"equal or higher temporal precision")
  else (.risky,"lower temporal precision truncates fractional seconds")

def unrecognized : CompatLevel × String :=
  (.risky,"unrecognized type pair; verify the target accepts the source text form")

def classifySameFamily (fam : Family) (s t : PgType) : CompatLevel × String :=
  match fam with
  | .int => if s.intWidth ≤ t.intWidth then (.widen,"wider or equal integer") else (.risky,"narrower integer may overflow")
  | .decimal => classifyNumeric s t
  | .float => if s.floatWidth ≤ t.floatWidth then (.widen,"wider or equal float") else (.risky,"narrower float loses precision")
  | .timestamp | .timestampTZ | .time | .timeTZ => classifyPrecision s t
  | .other => unrecognized
  | _ => (.widen,"same type family")

def classifyCrossFamily (sf tf : Family) (t : PgType) : CompatLevel × String :=
  match sf, tf with
  | .int, .decimal => (if t.numericHoldsIntegers then .widen else .risky,"integer into numeric")
  | .int, .float => (.risky,"large integers lose precision as float")
  | .decimal, .int => (.risky,"numeric into integer loses the fractional part")
  | .decimal, .float => (.risky,"numeric into float may lose precision")
  | .float, .decimal => (.risky,"float into numeric may lose precision")
  | .float, .int => (.risky,"float into integer loses the fractional part")
  | .date, .timestamp => (.widen,"date widens to timestamp")
  | .date, .timestampTZ => (.risky,"date into timestamptz assumes a time zone")
  | .timestamp, .timestampTZ => (.risky,"timestamp into timestamptz reinterprets the wall clock")
  | .timestampTZ, .timestamp => (.risky,"timestamptz into timestamp drops the zone")
  | .timestamp, .date => (.risky,"timestamp into date drops the time")
  | .timestampTZ, .date => (.risky,"timestamptz into date drops the time")
  | .time, .timeTZ => (.risky,"time into timetz assumes a zone")
  | .timeTZ, .time => (.risky,"timetz into time drops the zone")
  | .json, .jsonb => (.widen,"json into jsonb")
  | .jsonb, .json => (.widen,"jsonb into json")
  | _, _ =>
      if sf = .other ∨ tf = .other then unrecognized
      else (.incompatible,sf.name++" and "++tf.name++" are not compatible")

def classifyTypes (srcType tgtType : String) : CompatLevel × String :=
  if srcType = tgtType then (.identical,"")
  else
    let s := parseType srcType
    let t := parseType tgtType
    if t.family = .text then classifyToText s t
    else if s.family = t.family then classifySameFamily s.family s t
    else classifyCrossFamily s.family t.family t

example : parseType "timestamp(3) without time zone" = ⟨"timestamp without time zone",[3]⟩ := by decide
example : (classifyTypes "uuid" "bigint").1 = .incompatible := by decide

end Replicare.PgTypes
