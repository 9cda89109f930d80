import Mathlib.Algebra.Order.Ring.Nat
import Replicare.LastWriter
import Replicare.RedisMesh

/-! The version-guarded apply of a mesh sink over the whole keyspace of one member. The script
orders versions by doubles; below 2^53 that is the order of `beats`. -/
namespace Replicare.RedisJoin
open Hlc HlcEngines LastWriter RedisMesh List Function

variable {K N C : Type*} [DecidableEq K] [LinearOrder N]

/- `version.beats`; `present` is told by the option. -/
def beats (v : Version N) : Option (Version N) → Bool
  | none => true
  | some other =>
      if v.phys ≠ other.phys then decide (other.phys < v.phys)
      else if v.log ≠ other.log then decide (other.log < v.log)
      else decide (other.node < v.node)

def toNumber (n : Int) : Int :=
  let ulp : Int := 2^(n.natAbs.log2-52)
  let low := n/ulp
  let rest := n%ulp
  if 2*rest < ulp then low*ulp
  else if ulp < 2*rest then (low+1)*ulp
  else (low+low%2)*ulp

def luaWins (entry : Option (Meta N)) (v : Version N) : Bool :=
  match entry with
  | none => true
  | some e =>
      let ep := toNumber e.version.phys
      let el := toNumber e.version.log
      let ip := toNumber v.phys
      let il := toNumber v.log
      if ep < ip then true
      else if ip = ep ∧ el < il then true
      else if ip = ep ∧ il = el ∧ e.version.node < v.node then true
      else false

structure Store (K N C : Type*) where
  time : Int
  data : K → Option (Data C)
  register : K → Option (Meta N)

namespace Store

def elapse (s : Store K N C) (wait : Nat) : Store K N C :=
  { s with time := s.time+wait, data := fun k => unexpired (s.time+wait) (s.data k) }

def del (s : Store K N C) (k : K) : Store K N C := { s with data := update s.data k none }

/- RESTORE REPLACE refuses a negative TTL and a payload it cannot load. -/
def restore (accepts : Value C → Bool) (s : Store K N C) (k : K) (r : Record N C) (v : Value C) : Option (Store K N C) :=
  if 0 ≤ r.ttl ∧ accepts v = true then some { s with data := update s.data k (RedisMesh.restore s.time r v) }
  else none

def hset (s : Store K N C) (k : K) (e : Meta N) : Store K N C :=
  { s with register := update s.register k (some e) }

def read (s : Store K N C) (k : K) : Option (Data C) := unexpired s.time (s.data k)

end Store

section Apply
variable (accepts : Value C → Bool)

/- A command that fails ends the script; what ran before it stays. -/
def meshApplyScript (s : Store K N C) (k : K) (r : Record N C) : Store K N C × Bool :=
  if luaWins (s.register k) r.version then
    match r.body with
    | none => ((s.del k).hset k r.entry,true)
    | some v =>
        match s.restore accepts k r v with
        | none => (s,false)
        | some t => (t.hset k r.entry,true)
  else (s,true)

inductive Framed (K N C : Type*) where
  | plain (k : K)
  | mesh (k : K) (r : Record N C)

def stageUpsertCluster (s : Store K N C) : List (Nat × Framed K N C) → Store K N C × Bool
  | [] => (s,true)
  | (_,.plain _)::_ => (s,false)
  | (wait,.mesh k r)::rest =>
      let (t,ok) := meshApplyScript accepts (s.elapse wait) k r
      if ok then stageUpsertCluster t rest else (t,false)

structure Arrival (K N C : Type*) where
  wait : Nat
  key : K
  record : Record N C

def Arrival.framed (a : Arrival K N C) : Nat × Framed K N C := (a.wait,.mesh a.key a.record)

def deliver (s : Store K N C) (calls : List (List (Arrival K N C))) : Store K N C :=
  calls.foldl (fun s call => (stageUpsertCluster accepts s (call.map Arrival.framed)).1) s

def arrive (s : Store K N C) (a : Arrival K N C) : Store K N C :=
  (meshApplyScript accepts (s.elapse a.wait) a.key a.record).1

def Loadable (r : Record N C) : Prop := ∀ v ∈ r.body, 0 ≤ r.ttl ∧ accepts v = true

end Apply

/- Both clock parts are exact as doubles; the logical one is an `int32`. -/
def Exact (v : Version N) : Prop := v.phys.natAbs < 2^53 ∧ InRange v.log

def Store.Exact (s : Store K N C) : Prop := ∀ k e, s.register k = some e → RedisJoin.Exact e.version

section Order
variable {v w : Version N}

theorem toNumberExact {n} (small : n.natAbs < 2^53) : toNumber n = n := by
  have bits : n.natAbs.log2-52 = 0 := by
    by_cases zero : n.natAbs = 0
    · simp [zero]
    · have := (Nat.log2_lt zero).mpr small
      omega
  simp only [toNumber,bits]
  omega

omit [LinearOrder N] in
theorem numbersExact (exact : Exact v) : toNumber v.phys = v.phys ∧ toNumber v.log = v.log := by
  obtain ⟨phys,low,high⟩ := exact
  exact ⟨toNumberExact phys,toNumberExact (by omega)⟩

theorem beatsLt : beats v (some w) = true ↔ w < v := by
  rw [versionLt]
  simp only [beats]
  split
  · rename_i apart
    rw [decide_eq_true_iff]
    constructor
    · exact .inl
    · rintro (below | ⟨same,_⟩)
      · exact below
      · exact absurd same.symm apart
  · rename_i phys
    have phys : v.phys = w.phys := not_not.mp phys
    split
    · rename_i apart
      rw [decide_eq_true_iff]
      constructor
      · exact fun below => .inr ⟨phys.symm,.inl below⟩
      · rintro (below | ⟨_,below | ⟨same,_⟩⟩)
        · omega
        · exact below
        · exact absurd same.symm apart
    · rename_i log
      have log : v.log = w.log := not_not.mp log
      rw [decide_eq_true_iff]
      constructor
      · exact fun below => .inr ⟨phys.symm,.inr ⟨log.symm,below⟩⟩
      · rintro (below | ⟨_,below | ⟨_,below⟩⟩)
        · omega
        · omega
        · exact below

theorem luaAgrees {entry} (stored : ∀ e ∈ entry, Exact e.version) (exact : Exact v) :
    luaWins entry v = beats v (entry.map Meta.version) := by
  cases entry with
  | none => rfl
  | some e =>
    obtain ⟨ip,il⟩ := numbersExact exact
    obtain ⟨ep,el⟩ := numbersExact (stored e rfl)
    rw [Bool.eq_iff_iff,Option.map_some,beatsLt,versionLt]
    simp only [luaWins,ip,il,ep,el]
    split
    · rename_i below
      exact ⟨fun _ => .inl below,fun _ => rfl⟩
    · rename_i phys
      split
      · rename_i below
        exact ⟨fun _ => .inr ⟨below.1.symm,.inl below.2⟩,fun _ => rfl⟩
      · rename_i log
        split
        · rename_i below
          exact ⟨fun _ => .inr ⟨below.1.symm,.inr ⟨below.2.1.symm,below.2.2⟩⟩,fun _ => rfl⟩
        · rename_i node
          refine ⟨fun no => absurd no Bool.false_ne_true,?_⟩
          rintro (below | ⟨same,below | ⟨alike,below⟩⟩)
          · exact absurd below phys
          · exact absurd ⟨same.symm,below⟩ log
          · exact absurd ⟨same.symm,alike.symm,below⟩ node

theorem beatsWins (entry) : beats v (entry.map Meta.version) = wins entry v := by
  cases entry with
  | none => rfl
  | some e =>
    rw [Bool.eq_iff_iff,Option.map_some,beatsLt]
    simp [wins]

end Order

section Script
variable {accepts : Value C → Bool} {s : Store K N C} {k q : K} {r : Record N C}

def Store.put (s : Store K N C) (k : K) (r : Record N C) : Store K N C :=
  { s with data := update s.data k (r.body.bind (RedisMesh.restore s.time r)),
           register := update s.register k (some r.entry) }

theorem scriptCases (accepts : Value C → Bool) (s : Store K N C) (k : K) (r : Record N C) :
    (meshApplyScript accepts s k r).1 = s ∨
      luaWins (s.register k) r.version = true ∧ (meshApplyScript accepts s k r).1 = s.put k r := by
  unfold meshApplyScript Store.put
  split
  · rename_i won
    cases body : r.body with
    | none => exact .inr ⟨won,rfl⟩
    | some v =>
      by_cases loaded : 0 ≤ r.ttl ∧ accepts v = true
      · simp only [Store.restore,if_pos loaded]
        exact .inr ⟨won,rfl⟩
      · left
        simp only [Store.restore,if_neg loaded]
  · exact .inl rfl

theorem scriptTogether (accepts : Value C → Bool) (s : Store K N C) (k : K) (r : Record N C) (q : K) :
    ((meshApplyScript accepts s k r).1.register q = s.register q ∧ (meshApplyScript accepts s k r).1.data q = s.data q) ∨
    (q = k ∧ luaWins (s.register k) r.version = true ∧
      (meshApplyScript accepts s k r).1.register q = some r.entry ∧
      (meshApplyScript accepts s k r).1.data q = r.body.bind (RedisMesh.restore s.time r)) := by
  rcases scriptCases accepts s k r with kept | ⟨won,put⟩
  · rw [kept]
    exact .inl ⟨rfl,rfl⟩
  · rw [put]
    by_cases same : q = k
    · subst same
      exact .inr ⟨rfl,won,update_self ..,update_self ..⟩
    · exact .inl ⟨update_of_ne same ..,update_of_ne same ..⟩

theorem scriptTime (accepts : Value C → Bool) (s : Store K N C) (k : K) (r : Record N C) :
    (meshApplyScript accepts s k r).1.time = s.time := by
  rcases scriptCases accepts s k r with kept | ⟨_,put⟩
  · rw [kept]
  · rw [put]
    rfl

theorem scriptLoads (loads : Loadable accepts r) :
    meshApplyScript accepts s k r = (if luaWins (s.register k) r.version then s.put k r else s,true) := by
  unfold meshApplyScript Store.put
  split
  · cases body : r.body with
    | none => rfl
    | some v => simp only [Store.restore,if_pos (loads v body),Store.hset,Option.bind_some]
  · rfl

theorem scriptMesh {E : Type*} [DecidableEq E] {u : State E N C} {n : N} (loads : Loadable accepts r)
    (stored : ∀ e ∈ u.register n, Exact e.version) (exact : Exact r.version) (here : s.time = u.time)
    (data : s.data k = u.data n) (register : s.register k = u.register n) :
    (meshApplyScript accepts s k r).1.data k = (meshApply u n r).data n ∧
      (meshApplyScript accepts s k r).1.register k = (meshApply u n r).register n := by
  rw [scriptLoads loads,register,luaAgrees stored exact,beatsWins]
  unfold meshApply Store.put
  split
  · simp only [update_self,here,and_self]
  · exact ⟨data,register⟩

end Script

section Deliveries
variable {accepts : Value C → Bool} {s : Store K N C} {k : K} {a : Arrival K N C} {as : List (Arrival K N C)}

theorem stageAll (loads : ∀ a ∈ as, Loadable accepts a.record) :
    stageUpsertCluster accepts s (as.map Arrival.framed) = (as.foldl (arrive accepts) s,true) := by
  induction as generalizing s with
  | nil => rfl
  | cons a as ih =>
    have ran : (meshApplyScript accepts (s.elapse a.wait) a.key a.record).2 = true := by
      rw [scriptLoads (loads a mem_cons_self)]
    simp only [map_cons,Arrival.framed,stageUpsertCluster,ran,if_true]
    exact ih fun b mem => loads b (mem_cons_of_mem _ mem)

theorem deliverFlat {calls} (loads : ∀ a ∈ calls.flatten, Loadable accepts a.record) :
    deliver accepts s calls = calls.flatten.foldl (arrive accepts) s := by
  induction calls generalizing s with
  | nil => rfl
  | cons call calls ih =>
    rw [flatten_cons] at loads
    rw [flatten_cons,foldl_append,← ih fun a mem => loads a (mem_append_right _ mem)]
    simp only [deliver,foldl_cons,stageAll fun a mem => loads a (mem_append_left _ mem)]

theorem arriveTime (accepts : Value C → Bool) (s : Store K N C) (a : Arrival K N C) :
    (arrive accepts s a).time = s.time+a.wait := scriptTime ..

theorem foldTime (accepts : Value C → Bool) (s : Store K N C) (as : List (Arrival K N C)) :
    s.time ≤ (as.foldl (arrive accepts) s).time := by
  induction as generalizing s with
  | nil => exact le_refl _
  | cons a as ih =>
    have step := arriveTime accepts s a
    have rest := ih (arrive accepts s a)
    rw [foldl_cons]
    omega

theorem arriveRegister (loads : Loadable accepts a.record) (stored : s.Exact) (exact : Exact a.record.version) :
    (arrive accepts s a).register k =
      if a.key = k then absorb Meta.version (s.register k) a.record.entry else s.register k := by
  unfold arrive
  rw [scriptLoads loads]
  have agrees : luaWins ((s.elapse a.wait).register a.key) a.record.version = wins (s.register a.key) a.record.version := by
    exact (luaAgrees (fun e mem => stored a.key e mem) exact).trans (beatsWins _)
  rw [agrees]
  by_cases same : a.key = k
  · subst same
    rw [if_pos rfl]
    cases entry : s.register a.key with
    | none => exact update_self ..
    | some e =>
      by_cases newer : e.version < a.record.version
      · simp only [wins,Option.elim_some,newer,decide_true,if_true]
        exact (update_self ..).trans (if_pos newer).symm
      · simp only [wins,Option.elim_some,newer,decide_false,Bool.false_eq_true,if_false]
        exact entry.trans (if_neg newer).symm
  · rw [if_neg same]
    split
    · exact update_of_ne (Ne.symm same) ..
    · rfl

theorem arriveExact (loads : Loadable accepts a.record) (stored : s.Exact) (exact : Exact a.record.version) :
    (arrive accepts s a).Exact := by
  intro q e entry
  rw [arriveRegister loads stored exact] at entry
  split at entry
  · rcases absorbSource entry with rfl | before
    · exact exact
    · exact stored q e before
  · exact stored q e entry

theorem registerFold (stored : s.Exact) (exact : ∀ a ∈ as, Exact a.record.version)
    (loads : ∀ a ∈ as, Loadable accepts a.record) :
    (as.foldl (arrive accepts) s).register k =
      ((as.filter (fun a => a.key = k)).map fun a => a.record.entry).foldl (absorb Meta.version) (s.register k) := by
  induction as generalizing s with
  | nil => rfl
  | cons a as ih =>
    have ha := mem_cons_self (a := a) (l := as)
    rw [foldl_cons,ih (arriveExact (loads a ha) stored (exact a ha)) (fun b mem => exact b (mem_cons_of_mem _ mem))
      (fun b mem => loads b (mem_cons_of_mem _ mem)),arriveRegister (loads a ha) stored (exact a ha)]
    by_cases same : a.key = k
    · rw [if_pos same,filter_cons_of_pos (by simpa using same),map_cons,foldl_cons]
    · rw [if_neg same,filter_cons_of_neg (by simpa using same)]

theorem unexpiredLater {t u : Int} (later : t ≤ u) (d : Option (Data C)) : unexpired u (unexpired t d) = unexpired u d := by
  unfold unexpired
  rw [Option.filter_filter]
  congr 1
  funext d
  cases d.expiry with
  | none => rfl
  | some at_ =>
    simp only [Option.all_some]
    rw [Bool.eq_iff_iff,Bool.and_eq_true,decide_eq_true_iff,decide_eq_true_iff]
    omega

theorem arriveCases (accepts : Value C → Bool) (s : Store K N C) (a : Arrival K N C) (k : K) :
    ((arrive accepts s a).register k = s.register k ∧ (arrive accepts s a).data k = unexpired (s.time+a.wait) (s.data k)) ∨
    (a.key = k ∧ luaWins (s.register k) a.record.version = true ∧ (arrive accepts s a).register k = some a.record.entry ∧
      (arrive accepts s a).data k = a.record.body.bind (RedisMesh.restore (s.time+a.wait) a.record)) := by
  rcases scriptTogether accepts (s.elapse a.wait) a.key a.record k with kept | ⟨rfl,put⟩
  · exact .inl kept
  · exact .inr ⟨rfl,put⟩

theorem readFold (accepts : Value C → Bool) (s : Store K N C) (as : List (Arrival K N C)) (k : K) :
    ((as.foldl (arrive accepts) s).register k = s.register k ∧
      (as.foldl (arrive accepts) s).read k = unexpired (as.foldl (arrive accepts) s).time (s.data k)) ∨
    ∃ b ∈ as, b.key = k ∧ (as.foldl (arrive accepts) s).register k = some b.record.entry ∧
      ∃ t, s.time ≤ t ∧ t ≤ (as.foldl (arrive accepts) s).time ∧ (as.foldl (arrive accepts) s).read k =
        unexpired (as.foldl (arrive accepts) s).time (b.record.body.bind (RedisMesh.restore t b.record)) := by
  induction as generalizing s with
  | nil => exact .inl ⟨rfl,rfl⟩
  | cons a as ih =>
    have now := arriveTime accepts s a
    have later := foldTime accepts (arrive accepts s a) as
    rw [foldl_cons]
    rcases ih (arrive accepts s a) with ⟨entry,value⟩ | ⟨b,mem,key,entry,t,first,last,value⟩
    · rcases arriveCases accepts s a k with ⟨before,data⟩ | ⟨key,_,written,data⟩
      · rw [data,unexpiredLater (now ▸ later)] at value
        exact .inl ⟨entry.trans before,value⟩
      · rw [data] at value
        exact .inr ⟨a,mem_cons_self,key,entry.trans written,s.time+a.wait,by omega,now ▸ later,value⟩
    · exact .inr ⟨b,mem_cons_of_mem _ mem,key,entry,t,by omega,last,value⟩

theorem unbeatenFold (lose : ∀ a ∈ as, a.key = k → luaWins (s.register k) a.record.version = false) :
    (as.foldl (arrive accepts) s).register k = s.register k ∧
      (as.foldl (arrive accepts) s).read k = unexpired (as.foldl (arrive accepts) s).time (s.data k) := by
  induction as generalizing s with
  | nil => exact ⟨rfl,rfl⟩
  | cons a as ih =>
    have now := arriveTime accepts s a
    have later := foldTime accepts (arrive accepts s a) as
    rw [foldl_cons]
    rcases arriveCases accepts s a k with ⟨before,data⟩ | ⟨key,won,_⟩
    · obtain ⟨entry,value⟩ := @ih (arrive accepts s a) fun b mem key => before ▸ lose b (mem_cons_of_mem _ mem) key
      rw [data,unexpiredLater (now ▸ later)] at value
      exact ⟨entry.trans before,value⟩
    · rw [lose a mem_cons_self key] at won
      exact absurd won Bool.false_ne_true

theorem newestFold (stored : s.Exact) (exact : ∀ a ∈ as, Exact a.record.version)
    (loads : ∀ a ∈ as, Loadable accepts a.record) (mem : a ∈ as)
    (newest : ∀ b ∈ as, b.key = a.key → b.record.version ≤ a.record.version)
    (newer : ∀ e, s.register a.key = some e → e.version < a.record.version) :
    ∃ b ∈ as, b.key = a.key ∧ b.record.version = a.record.version ∧
      (as.foldl (arrive accepts) s).register a.key = some b.record.entry := by
  have fold := registerFold (k := a.key) stored exact loads
  have offered : a.record.entry ∈ (as.filter fun b => b.key = a.key).map fun b => b.record.entry :=
    mem_map.mpr ⟨a,mem_filter.mpr ⟨mem,by simp⟩,rfl⟩
  cases kept : (as.foldl (arrive accepts) s).register a.key with
  | none =>
    rw [kept] at fold
    rw [(foldNone.mp fold.symm).2] at offered
    exact absurd offered not_mem_nil
  | some e =>
    rw [kept] at fold
    obtain ⟨source,top⟩ := foldNewest fold.symm
    have above : a.record.version ≤ e.version := top _ (mem_append_right _ offered)
    rcases mem_append.mp source with old | new
    · exact absurd (newer e (Option.mem_toList.mp old)) (not_lt.mpr above)
    · obtain ⟨b,chosen,rfl⟩ := mem_map.mp new
      obtain ⟨inside,key⟩ := mem_filter.mp chosen
      have key : b.key = a.key := of_decide_eq_true key
      exact ⟨b,inside,key,le_antisymm (newest b inside key) above,rfl⟩

end Deliveries

def Agree (as : List (Arrival K N C)) : Prop :=
  ∀ a ∈ as, ∀ b ∈ as, a.key = b.key → a.record.version = b.record.version →
    a.record.body = b.record.body ∧ a.record.vhash = b.record.vhash

theorem guardedJoin {accepts : Value C → Bool} {start : Store K N C} {calls : List (List (Arrival K N C))}
    (stored : start.Exact) (exact : ∀ a ∈ calls.flatten, Exact a.record.version)
    (loads : ∀ a ∈ calls.flatten, Loadable accepts a.record) (agree : Agree calls.flatten) :
    -- a newest record that beats what was there is what the key ends with
    (∀ a ∈ calls.flatten, (∀ b ∈ calls.flatten, b.key = a.key → beats b.record.version (some a.record.version) = false) →
      beats a.record.version ((start.register a.key).map Meta.version) = true →
      (deliver accepts start calls).register a.key = some a.record.entry ∧
      ∃ b ∈ calls.flatten, b.key = a.key ∧ b.record.version = a.record.version ∧
        ∃ t, start.time ≤ t ∧ t ≤ (deliver accepts start calls).time ∧ (deliver accepts start calls).read a.key =
          unexpired (deliver accepts start calls).time (a.record.body.bind (RedisMesh.restore t b.record))) ∧
    -- a key that no record beats is as it was
    (∀ k, (∀ a ∈ calls.flatten, a.key = k → beats a.record.version ((start.register k).map Meta.version) = false) →
      (deliver accepts start calls).register k = start.register k ∧
      (deliver accepts start calls).read k = unexpired (deliver accepts start calls).time (start.data k)) ∧
    -- every script changes the value and the entry together or not at all
    (∀ (s : Store K N C) k r q,
      ((meshApplyScript accepts s k r).1.register q = s.register q ∧ (meshApplyScript accepts s k r).1.data q = s.data q) ∨
      (q = k ∧ luaWins (s.register k) r.version = true ∧ (meshApplyScript accepts s k r).1.register q = some r.entry ∧
        (meshApplyScript accepts s k r).1.data q = r.body.bind (RedisMesh.restore s.time r))) ∧
    -- the script orders versions as the daemon does
    (∀ (entry : Option (Meta N)) (v : Version N), (∀ e ∈ entry, Exact e.version) → Exact v →
      luaWins entry v = beats v (entry.map Meta.version)) := by
  have lua : ∀ k v, Exact v → luaWins (start.register k) v = beats v ((start.register k).map Meta.version) :=
    fun k v small => luaAgrees (fun e mem => stored k e mem) small
  rw [deliverFlat loads]
  refine ⟨?_,?_,scriptTogether accepts,fun _ _ => luaAgrees⟩
  · intro a mem newest wins
    have top : ∀ b ∈ calls.flatten, b.key = a.key → b.record.version ≤ a.record.version := by
      intro b inside key
      have not := newest b inside key
      rw [← Bool.not_eq_true,beatsLt] at not
      exact not_lt.mp not
    have newer : ∀ e, start.register a.key = some e → e.version < a.record.version := by
      intro e entry
      rw [entry] at wins
      exact beatsLt.mp wins
    obtain ⟨b,inside,key,version,entry⟩ := newestFold stored exact loads mem top newer
    have same : ∀ c ∈ calls.flatten, c.key = a.key → c.record.version = a.record.version →
        c.record.entry = a.record.entry ∧ c.record.body = a.record.body := by
      intro c hc key version
      obtain ⟨body,vhash⟩ := agree c hc a mem key version
      exact ⟨by simp only [Record.entry,version,body,vhash],body⟩
    rw [(same b inside key version).1] at entry
    refine ⟨entry,?_⟩
    rcases readFold accepts start calls.flatten a.key with ⟨before,_⟩ | ⟨c,hc,ckey,centry,t,first,last,value⟩
    · exact absurd (newer _ (before.symm.trans entry)) (lt_irrefl _)
    · have cversion : c.record.version = a.record.version :=
        congrArg Meta.version (Option.some.inj (centry.symm.trans entry))
      rw [(same c hc ckey cversion).2] at value
      exact ⟨c,hc,ckey,cversion,t,first,last,value⟩
  · intro k lose
    exact unbeatenFold fun a mem key => (lua k _ (exact a mem)).trans (lose a mem key)

theorem guardedJoinTombstone : (deliver (fun _ => true) (⟨100,fun _ => none,fun _ => none⟩ : Store Nat Nat Nat)
      [[⟨0,0,⟨⟨5,0,1⟩,9,some ⟨.string,3⟩,0,false⟩⟩],
       [⟨4,0,⟨⟨5,0,2⟩,0,none,0,false⟩⟩,⟨0,0,⟨⟨5,0,1⟩,9,some ⟨.string,3⟩,0,false⟩⟩]]).register 0 =
      some ⟨⟨5,0,2⟩,true,0⟩ := by
  have join := @guardedJoin Nat Nat Nat _ _ (fun _ => true) ⟨100,fun _ => none,fun _ => none⟩
    [[⟨0,0,⟨⟨5,0,1⟩,9,some ⟨.string,3⟩,0,false⟩⟩],
     [⟨4,0,⟨⟨5,0,2⟩,0,none,0,false⟩⟩,⟨0,0,⟨⟨5,0,1⟩,9,some ⟨.string,3⟩,0,false⟩⟩]]
    (fun _ _ none => by cases none) (by simp [Exact,InRange]) (by simp [Loadable]) (by simp [Agree])
  exact (join.1 ⟨4,0,⟨⟨5,0,2⟩,0,none,0,false⟩⟩ (by simp) (by simp [beats]) rfl).1

theorem restoreExpired :
    ∃ (start : Store Nat Nat Nat) (a : Arrival Nat Nat Nat), start.register a.key = none ∧ a.record.body.isSome = true ∧
      (deliver (fun _ => true) start [[a]]).register a.key = some a.record.entry ∧
      (deliver (fun _ => true) start [[a]]).read a.key = none :=
  ⟨⟨100,fun _ => none,fun _ => none⟩,⟨0,0,⟨⟨5,0,1⟩,9,some ⟨.string,3⟩,50,true⟩⟩,rfl,rfl,by decide,by decide⟩

end Replicare.RedisJoin
