import Replicare.RedisStream

/-! The types filter of a Redis sync. The initial copy asks the server for keys of the
listed types; the rolling upsert pass and the delete sweep do not know the list. -/
namespace Replicare.RedisTypes
open Engine Coalesce RedisKeys RedisScan RedisStream Runs List

section Copy
variable {n : Nat} {V : Type}

/- The passes of one shard: one for each listed type, or one without TYPE. -/
def passTypes (types : List Bytes) : List (Option Bytes) := if types.isEmpty then [none] else types.map some

def frameKeys (sel : Option Selection) (S : Keyspace V) (keys : List Bytes) : List (Bytes × V) :=
  rereadCurrent (fun _ => S) (keys.filter (chosen sel))

def scanShard (sel : Option Selection) (S : Keyspace V) (passes : List (List Page)) : List (Bytes × V) :=
  passes.flatMap fun pages => pages.flatMap fun p => frameKeys sel S p.keys

def copyChunk (version : Nat) (types : List Bytes) (sel : Option Selection) (S : Keyspace V) (passes : Fin (n+1) → List (List Page)) :
    Option (List (Bytes × V)) :=
  if !types.isEmpty && decide (version < 60000) then none
  else some ((List.finRange (n+1)).flatMap fun i => scanShard sel S (passes i))

/- What a whole SCAN ... TYPE of a shard returns of a keyspace that does not change. -/
structure Typed (typeOf : V → Bytes) (S : Keyspace V) (mine : Bytes → Prop) (typ : Option Bytes) (pages : List Page) : Prop where
  returns : ∀ k v, mine k → S k = some v → (∀ name ∈ typ, typeOf v = name) → ∃ p ∈ pages, k ∈ p.keys
  only : ∀ p ∈ pages, ∀ k ∈ p.keys, ∃ v, S k = some v ∧ ∀ name ∈ typ, typeOf v = name

structure HonestCopy (typeOf : V → Bytes) (owner : Bytes → Fin (n+1)) (types : List Bytes) (S : Keyspace V) (passes : Fin (n+1) → List (List Page)) :
    Prop where
  each : ∀ i, List.Forall₂ (fun typ pages => Typed typeOf S (fun k => owner k = i) typ pages) (passTypes types) (passes i)

variable {typeOf : V → Bytes} {owner : Bytes → Fin (n+1)} {types : List Bytes} {sel : Option Selection} {S : Keyspace V}
  {passes : Fin (n+1) → List (List Page)}

theorem frameMem {keys k} : k ∈ (frameKeys sel S keys).map Prod.fst ↔ k ∈ keys ∧ chosen sel k = true ∧ S k ≠ none := by
  rw [frameKeys,rereadNamed,mem_filter,and_assoc]

theorem copiedPage {version records} (copied : copyChunk version types sel S passes = some records) {k} :
    k ∈ records.map Prod.fst ↔ ∃ i, ∃ pages ∈ passes i, ∃ p ∈ pages, k ∈ p.keys ∧ chosen sel k = true ∧ S k ≠ none := by
  rw [copyChunk] at copied
  split at copied
  · cases copied
  · cases copied
    simp only [scanShard,map_flatMap,mem_flatMap,mem_finRange,true_and,frameMem]

theorem pairedLeft {α β} {R : α → β → Prop} {l} {m} (each : List.Forall₂ R l m) {a : α} (member : a ∈ l) :
    ∃ b ∈ m, R a b := by
  induction each with
  | nil => cases member
  | cons here _ ih =>
    rcases mem_cons.mp member with rfl | later
    · exact ⟨_,.head _,here⟩
    · obtain ⟨b,mem,related⟩ := ih later
      exact ⟨b,.tail _ mem,related⟩

theorem pairedRight {α β} {R : α → β → Prop} {l} {m} (each : List.Forall₂ R l m) {b : β} (member : b ∈ m) :
    ∃ a ∈ l, R a b := pairedLeft each.flip member

theorem copiedIff {version} {records} (listed : types ≠ []) (honest : HonestCopy typeOf owner types S passes)
    (copied : copyChunk version types sel S passes = some records) {k} :
    k ∈ records.map Prod.fst ↔ ∃ v, S k = some v ∧ chosen sel k = true ∧ typeOf v ∈ types := by
  have passed : passTypes types = types.map some := by
    rw [passTypes,if_neg (by simpa using listed)]
  rw [copiedPage copied]
  constructor
  · rintro ⟨i,pages,member,p,page,found,picked,_⟩
    obtain ⟨typ,asked,typed⟩ := pairedRight (honest.each i) member
    rw [passed] at asked
    obtain ⟨name,inList,rfl⟩ := mem_map.mp asked
    obtain ⟨v,held,type⟩ := typed.only p page k found
    exact ⟨v,held,picked,type name rfl ▸ inList⟩
  · rintro ⟨v,held,picked,type⟩
    obtain ⟨pages,member,typed⟩ := pairedLeft (honest.each (owner k)) (passed ▸ mem_map_of_mem type)
    obtain ⟨p,page,found⟩ := typed.returns k v rfl held fun name same => Option.some.inj same
    exact ⟨owner k,pages,member,p,page,found,picked,by simp [held]⟩

end Copy

section Phases
variable {n m : Nat} {V : Type} (site : Site n m)

def restores (w : World n m V) : Action V → List Bytes
  | .drain call =>
    match readDirtyKeys site w call with
    | (_,.batch keys _,[]) => (rereadCurrent call.upsertViews (coalesce id (dirty w.changeID keys)).1).map Prod.fst
    | _ => []
  | _ => []

def logged (s : World n m V × List Bytes) (a : Action V) : Option (World n m V × List Bytes) :=
  (step site s.1 a).map fun t => (t,s.2++restores site s.1 a)

variable {site} {w t : World n m V}

theorem restoresQuiet {call r keys complete} (quiet : QuietDrain site w call)
    (read : readDirtyKeys site w call = (r,.batch keys complete,[])) {k} :
    k ∈ restores site w (.drain call) ↔ k ∈ keys ∧ w.source k ≠ none := by
  rw [restores,read]
  simp only
  rw [quiet.upserts,rereadNamed,distinctMem]

theorem loggedRun {acts log done} (ran : run (logged site) (w,log) acts = some (t,done)) :
    run (step site) w acts = some t := by
  induction acts generalizing w log with
  | nil =>
    cases ran
    rfl
  | cons a acts ih =>
    obtain ⟨⟨u,more⟩,first,rest⟩ := runCons ran
    obtain ⟨v,took,same⟩ := Option.map_eq_some_iff.mp first
    cases same
    rw [run,took]
    exact ih rest

theorem alongLogged {cond acts log} (held : Along (step site) cond w acts) :
    Along (logged site) (fun s a => cond s.1 a) (w,log) acts := by
  induction acts generalizing w log with
  | nil => trivial
  | cons a acts ih =>
    refine ⟨held.1,?_⟩
    rintro ⟨u,more⟩ took
    obtain ⟨v,stepped,same⟩ := Option.map_eq_some_iff.mp took
    cases same
    exact ih (held.2 _ stepped)

theorem passLogged {begins completes acts log begun} (pass : PassIn (step site) begins completes begun w acts) :
    PassIn (logged site) (fun s a => begins s.1 a) (fun s a => completes s.1 a) begun (w,log) acts := by
  induction acts generalizing w log begun with
  | nil => exact pass.elim
  | cons a acts ih =>
    rcases pass with now | ⟨u,took,later⟩
    · exact .inl now
    · refine .inr ⟨(u,log++restores site w a),?_,ih later⟩
      rw [logged,took]
      rfl

variable {k : Bytes} {S : Keyspace V} {log more : List Bytes}

theorem restoredOnly {a} (quiet : Quiet site w a ∧ w.source = S) (took : logged site (w,log) a = some (t,more))
    (before : k ∈ log → chosen site.sel k = true ∧ S k ≠ none) : k ∈ more → chosen site.sel k = true ∧ S k ≠ none := by
  obtain ⟨quiet,rfl⟩ := quiet
  obtain ⟨u,stepped,same⟩ := Option.map_eq_some_iff.mp took
  cases same
  rw [mem_append]
  rintro (old | now)
  · exact before old
  · cases a with
    | drain call =>
      obtain ⟨r,keys,complete,read,_⟩ := quietDrain quiet stepped
      obtain ⟨member,present⟩ := (restoresQuiet quiet read).mp now
      exact ⟨readChosen read member,present⟩
    | _ => cases now

theorem restoredAll {a} (picked : chosen site.sel k = true) (present : S k ≠ none)
    (under : Covered site.owner k w.recon w.owed (k ∈ log) ∨ drainBegins w a) (quiet : Quiet site w a ∧ w.source = S)
    (took : logged site (w,log) a = some (t,more)) :
    Covered site.owner k t.recon t.owed (k ∈ more) ∧ (drainCompletes site w a → k ∈ more) := by
  obtain ⟨quiet,rfl⟩ := quiet
  obtain ⟨u,stepped,same⟩ := Option.map_eq_some_iff.mp took
  cases same
  have old : k ∈ log → k ∈ log++restores site w a := fun member => mem_append_left _ member
  cases a with
  | sweep call =>
    have covered := under.resolve_right fun never => never
    obtain ⟨⟨v,result⟩,swept,rfl⟩ := Option.map_eq_some_iff.mp stepped
    obtain ⟨r,keys,complete,_,_,_,_,recon,owed,_⟩ := quietSweep quiet swept
    simp only [recon,owed]
    exact ⟨coveredMono covered old fun _ owes => owes,fun never => never.elim⟩
  | drain call =>
    obtain ⟨r,keys,complete,read,_,_,recon,_,owed,_⟩ := quietDrain quiet stepped
    obtain ⟨covered,completes⟩ := readCovers read quiet picked present under
    have enough : k ∈ log ∨ k ∈ keys → k ∈ log++restores site w (.drain call) :=
      Or.rec old fun member => mem_append_right _ ((restoresQuiet quiet read).mpr ⟨member,present⟩)
    rw [recon,owed]
    refine ⟨coveredMono covered enough fun _ owes => owes,?_⟩
    rintro ⟨r,keys,completed⟩
    cases read.symm.trans completed
    exact enough (completes rfl)
  | _ => exact quiet.elim

theorem restoredIff {acts} (ran : run (logged site) (w,[]) acts = some (t,log)) (quiet : Along (step site) (Quiet site) w acts)
    (pass : PassIn (step site) drainBegins (drainCompletes site) False w acts) : k ∈ log ↔ chosen site.sel k = true ∧ w.source k ≠ none := by
  have still := quietSource quiet
  constructor
  · refine runKeeps (P := fun s => k ∈ s.2 → chosen site.sel k = true ∧ w.source k ≠ none) ?_ (alongLogged still) ran not_mem_nil.elim
    exact fun s a u before met took => restoredOnly met took before
  · rintro ⟨picked,present⟩
    refine passReaches (P := fun s => Covered site.owner k s.1.recon s.1.owed (k ∈ s.2)) (Q := fun s => k ∈ s.2) ?_ ?_ ?_
      (alongLogged still) ran False.elim (passLogged pass)
    · exact fun s a u under met took => (restoredAll picked present under met took).1
    · exact fun s a u under met completes took => (restoredAll picked present under met took).2 completes
    · intro s a u here _ took
      obtain ⟨v,_,same⟩ := Option.map_eq_some_iff.mp took
      cases same
      exact mem_append_left _ here

end Phases

section Result
variable {n m : Nat} {V : Type} {site : Site n m}

theorem typesAgreeIff {w t : World n m V} {typeOf : V → Bytes} {types log : List Bytes} {version : Nat} {records : List (Bytes × V)}
    {passes : Fin (n+1) → List (List Page)} {acts : List (Action V)} (listed : types ≠ [])
    (honest : HonestCopy typeOf site.owner types w.source passes) (copied : copyChunk version types site.sel w.source passes = some records)
    (ran : run (logged site) (w,[]) acts = some (t,log)) (quiet : Along (step site) (Quiet site) w acts)
    (pass : PassIn (step site) drainBegins (drainCompletes site) False w acts)
    (sweep : PassIn (step site) sweepBegins (sweepCompletes site) False w acts) :
    ((∀ k, k ∈ records.map Prod.fst ↔ k ∈ log) ∧ ∀ k v, w.target k = some v → t.target k = none → typeOf v ∈ types) ↔
    (∀ k v, w.source k = some v → chosen site.sel k = true → typeOf v ∈ types) ∧
      ∀ k v, w.target k = some v → w.source k = none → chosen site.sel k = true → typeOf v ∈ types := by
  obtain ⟨arrives,untouched⟩ := settledTarget (loggedRun ran) quiet pass sweep
  refine and_congr ⟨fun same k v held picked => ?_,fun all k => ?_⟩ ⟨fun kept k v held missing picked => ?_,fun all k v held gone => ?_⟩
  · have restored := (restoredIff ran quiet pass).mpr ⟨picked,by simp [held]⟩
    obtain ⟨x,found,_,type⟩ := (copiedIff listed honest copied).mp ((same k).mpr restored)
    cases held.symm.trans found
    exact type
  · rw [copiedIff listed honest copied,restoredIff ran quiet pass]
    constructor
    · rintro ⟨v,held,picked,_⟩
      exact ⟨picked,by simp [held]⟩
    · rintro ⟨picked,present⟩
      obtain ⟨v,held⟩ := Option.ne_none_iff_exists'.mp present
      exact ⟨v,held,picked,all k v held picked⟩
  · exact kept k v held ((arrives k picked).trans missing)
  · cases picked : chosen site.sel k with
    | true => exact all k v held ((arrives k picked).symm.trans gone) picked
    | false =>
      rw [untouched k picked,held] at gone
      cases gone

end Result

def stringType : Bytes := [115,116,114,105,110,103]
def hashType : Bytes := [104,97,115,104]

def strings : Fin 1 → List (List Page) := fun _ => [[⟨[[1]],0⟩]]

theorem stringsHonest : HonestCopy (fun _ => stringType) oneShard.owner [stringType] one strings := by
  refine ⟨fun i => .cons ⟨fun k v _ here _ => ?_,fun p page k found => ?_⟩ .nil⟩
  · by_cases first : k = [1]
    · exact ⟨_,.head _,by simp [first]⟩
    · simp [one,first] at here
  · obtain rfl : p = ⟨[[1]],0⟩ := by simpa using page
    obtain rfl : k = [1] := by simpa using found
    exact ⟨[11],rfl,fun name same => Option.some.inj same⟩

theorem typesAgreeStrings : ∃ t log, run (logged oneShard) (settled,[]) bothPasses = some (t,log) ∧ ∀ k, k ∈ [[1]] ↔ k ∈ log := by
  obtain ⟨t,ran,quiet,pass,sweep⟩ := bothPassesRun
  have both : ∃ log, run (logged oneShard) (settled,[]) bothPasses = some (t,log) := ⟨_,congrArg (Option.map fun t => (t,[[1]])) ran⟩
  obtain ⟨log,logs⟩ := both
  have copied : copyChunk 70000 [stringType] none one strings = some [([1],[11])] := rfl
  have agree := (typesAgreeIff (by simp) stringsHonest copied logs quiet pass sweep).mpr ⟨fun _ _ _ _ => .head _,fun _ _ _ _ _ => .head _⟩
  exact ⟨t,log,logs,agree.1⟩

theorem hashesStreamed : HonestCopy (fun _ : Bytes => hashType) oneShard.owner [stringType] one (fun _ => [[⟨[],0⟩]]) ∧
    copyChunk 70000 [stringType] oneShard.sel one (fun _ : Fin 1 => [[⟨[],0⟩]]) = some [] ∧
    ∃ t, run (logged oneShard) (settled,[]) bothPasses = some (t,[[1]]) ∧ t.target [1] = some [11] ∧
      settled.target [2] = some [22] ∧ t.target [2] = none := by
  refine ⟨⟨fun i => .cons ⟨fun k v _ _ typed => ?_,fun p page k found => ?_⟩ .nil⟩,rfl,_,rfl,rfl,rfl,rfl⟩
  · exact absurd (typed stringType rfl) (by decide)
  · obtain rfl : p = ⟨[],0⟩ := by simpa using page
    cases found

end Replicare.RedisTypes
