import Replicare.FkAtomic
import Replicare.RedisStream

/-! Draining to convergence: drain passes until one of them consumes nothing or fails. A
relational pass confirms what it counts, so its queues bound the number of passes. -/
namespace Replicare.DrainConverges
open Engine Relations Stored Consume Coalesce Rounds FkDrain FkProgress FkAtomic RedisKeys RedisScan List

section Loop
variable {σ ε : Type*}

structure Pass (σ ε : Type*) where
  state : σ
  consumed : Nat
  error : Option ε

def drainToConvergence (drain : σ → Pass σ ε) : Nat → Nat → σ → Option (Nat × Option ε)
  | 0, _, _ => none
  | fuel+1, total, s =>
    if (drain s).error.isSome then some (total,(drain s).error)
    else if (drain s).consumed = 0 then some (total,none)
    else drainToConvergence drain fuel (total+(drain s).consumed) (drain s).state

def Returns (drain : σ → Pass σ ε) (s : σ) : Prop := ∃ fuel out, drainToConvergence drain fuel 0 s = some out

def Stops (p : Pass σ ε) : Prop := p.error.isSome = true ∨ p.consumed = 0

inductive Ends (drain : σ → Pass σ ε) : σ → Prop where
  | stop {s : σ} (stops : Stops (drain s)) : Ends drain s
  | onward {s : σ} (going : ¬Stops (drain s)) (later : Ends drain (drain s).state) : Ends drain s

variable {drain : σ → Pass σ ε} {s : σ}

theorem endsOf (later : Ends drain (drain s).state) : Ends drain s := by
  by_cases stops : Stops (drain s)
  · exact .stop stops
  · exact .onward stops later

theorem endsIff : Returns drain s ↔ Ends drain s := by
  have within : ∀ fuel total s out, drainToConvergence drain fuel total s = some out → Ends drain s := by
    intro fuel
    induction fuel with
    | zero => intro total s out done; cases done
    | succ fuel ih =>
      intro total s out done
      rw [drainToConvergence] at done
      split at done
      · exact .stop (.inl ‹_›)
      · split at done
        · exact .stop (.inr ‹_›)
        · exact endsOf (ih _ _ _ done)
  constructor
  · rintro ⟨fuel,out,done⟩
    exact within fuel 0 s out done
  · intro ends
    suffices ∀ total, ∃ fuel out, drainToConvergence drain fuel total s = some out from this 0
    induction ends with
    | @stop s stops =>
      intro total
      refine ⟨1,?_⟩
      rw [drainToConvergence]
      split
      · exact ⟨_,rfl⟩
      · exact ⟨_,if_pos (stops.resolve_left ‹_›)⟩
    | @onward s going _ ih =>
      intro total
      obtain ⟨fuel,out,done⟩ := ih (total+(drain s).consumed)
      rw [Stops,not_or] at going
      exact ⟨fuel+1,out,by rw [drainToConvergence,if_neg going.1,if_neg going.2,done]⟩

theorem endsOfMeasure (size : σ → Nat) (falls : ∀ s, ¬Stops (drain s) → size (drain s).state < size s) (s : σ) : Ends drain s := by
  induction bound : size s using Nat.strong_induction_on generalizing s with
  | _ m ih =>
    by_cases stops : Stops (drain s)
    · exact .stop stops
    · exact .onward stops (ih _ (bound ▸ falls s stops) _ rfl)

end Loop

section Relational
variable {job : Job} {s : State}

def relationalPass (dialect : Dialect) (cyclic : Bool) (job : Job) (s : State) : Pass State Fault :=
  let r := drainComponentRetrying dialect cyclic job topoOrder s
  ⟨r.state,r.total,r.fault⟩

def backlog (job : Job) (s : State) : Nat := (job.tables.map fun r => (unconsumed (s.queue r) job.id).length).sum

theorem confirmSublist (q : Queue KeyValues) (id : TargetID) (ids : List DeltaID) :
    (unconsumed (confirmConsumed q id ids) id).Sublist (unconsumed q id) := by
  refine monotone_filter_right _ fun d kept => ?_
  simp only [Bool.not_eq_true',decide_eq_false_iff_not,confirmedIff,not_or] at kept ⊢
  exact kept.1

theorem confirmConsumes {q : Queue KeyValues} {id : TargetID} {ids : List DeltaID} {d : Delta KeyValues} (waiting : d ∈ unconsumed q id)
    (named : d.id ∈ ids) : (unconsumed (confirmConsumed q id ids) id).length < (unconsumed q id).length := by
  refine Nat.lt_of_le_of_ne (confirmSublist q id ids).length_le fun same => ?_
  rw [←(confirmSublist q id ids).eq_of_length same,memUnconsumed,confirmedIff,not_or] at waiting
  exact waiting.2.2 ⟨rfl,named⟩

theorem gatherRead {w} (mem : w ∈ gatherWork job s.queue) : w = workOf job s.queue w.ref ∧ w.ref ∈ job.tables ∧ w.ids ≠ [] := by
  rw [gatherWork,mem_map] at mem
  obtain ⟨r,listed,rfl⟩ := mem
  rw [mem_filter] at listed
  refine ⟨rfl,listed.1,?_⟩
  simpa [workOf,coalesceIds,List.isEmpty_iff] using listed.2

theorem workOpen {w id} (mem : w ∈ gatherWork job s.queue) (named : id ∈ w.ids) :
    ∃ d ∈ unconsumed (s.queue w.ref) job.id, d.id = id := by
  rw [(gatherRead mem).1,workOf,coalesceIds,mem_map] at named
  obtain ⟨x,read,rfl⟩ := named
  obtain ⟨d,waiting,rfl⟩ := readDirtySource read
  exact ⟨d,waiting,rfl⟩

theorem confirmBacklog {ws : List Work} (work : ∀ w ∈ ws, w ∈ gatherWork job s.queue) (target : Base) :
    backlog job ⟨target,ws.foldl (confirmWork job) s.queue⟩ ≤ backlog job s ∧
    (ws ≠ [] → backlog job ⟨target,ws.foldl (confirmWork job) s.queue⟩ < backlog job s) := by
  have after := fun r => @confirmFold job s.queue ws (fun w mem => (gatherRead (work w mem)).1) s.queue r (.inl rfl)
  have each : ∀ r, (unconsumed (ws.foldl (confirmWork job) s.queue r) job.id).length ≤ (unconsumed (s.queue r) job.id).length := by
    intro r
    rw [after]
    split
    · exact (confirmSublist _ _ _).length_le
    · exact Nat.le_refl _
  refine ⟨sum_le_sum fun r _ => each r,fun some => ?_⟩
  obtain ⟨w,mem⟩ := exists_mem_of_ne_nil ws some
  obtain ⟨read,known,nonempty⟩ := gatherRead (work w mem)
  obtain ⟨id,named⟩ := exists_mem_of_ne_nil w.ids nonempty
  obtain ⟨d,waiting,rfl⟩ := workOpen (work w mem) named
  refine sum_lt_sum _ _ (fun r _ => each r) ⟨w.ref,known,?_⟩
  dsimp only
  rw [after,if_pos (mem_map_of_mem mem),←read]
  exact confirmConsumes waiting named

def Falls (job : Job) (s : State) (t : State) (total : Nat) : Prop := backlog job t ≤ backlog job s ∧ (total ≠ 0 → backlog job t < backlog job s)

theorem confirmFalls {ws : List Work} (work : ∀ w ∈ ws, w ∈ gatherWork job s.queue) (target : Base) :
    Falls job s ⟨target,ws.foldl (confirmWork job) s.queue⟩ (ws.map fun w => w.ids.length).sum := by
  obtain ⟨least,less⟩ := confirmBacklog work target
  refine ⟨least,fun counted => less ?_⟩
  rintro rfl
  exact counted rfl

theorem phasesFall (phases : Nat) (arrange : Nat → Nat → List Nat) :
    Falls job s (drainPhases job phases arrange s).state (drainPhases job phases arrange s).total :=
  confirmFalls (fun _ took => passMem (fun _ _ _ mem => arrangedMem mem) took) _

theorem poolFalls (dialect : Dialect) (cyclic : Bool) (arrange : Nat → Nat → List Nat) :
    Falls job s (drainComponentPool dialect cyclic job arrange s).state (drainComponentPool dialect cyclic job arrange s).total := by
  unfold drainComponentPool
  split
  · rw [drainAcyclicPhases]
    exact @phasesFall job.plain s 2 arrange
  · split
    · exact phasesFall 3 arrange
    · unfold drainAtomic
      dsimp only
      split
      · exact ⟨Nat.le_refl _,fun counted => absurd rfl counted⟩
      · split
        · exact ⟨Nat.le_refl _,fun counted => absurd rfl counted⟩
        · exact confirmFalls (fun _ mem => mem) _

theorem retryingFalls {drain} (falls : ∀ s, Falls job s (drain s).state (drain s).total) (attempts) (s) :
    Falls job s (retrying drain attempts s).state (retrying drain attempts s).total := by
  induction attempts generalizing s with
  | zero => exact ⟨Nat.le_refl _,fun counted => absurd rfl counted⟩
  | succ attempts ih =>
    rw [retrying]
    split
    · have first := falls s
      have rest := ih (drain s).state
      refine ⟨rest.1.trans first.1,fun counted => ?_⟩
      by_cases none : (drain s).total = 0
      · have later : (retrying drain attempts (drain s).state).total ≠ 0 := fun idle => counted (by dsimp only; omega)
        exact (rest.2 later).trans_le first.1
      · exact rest.1.trans_lt (first.2 none)
    · exact falls s

theorem relationalEnds (dialect) (cyclic) (job) (s) : Ends (relationalPass dialect cyclic job) s := by
  refine endsOfMeasure (backlog job) (fun s going => ?_) s
  rw [Stops,not_or] at going
  have falls := retryingFalls (fun s => @poolFalls job s dialect cyclic topoOrder) maxAttempts s
  exact falls.2 going.2

end Relational

section Redis
variable {n : Nat}

structure Rolling (n : Nat) where
  start : Recon n
  feed : Nat → List Page
  first : ∃ s, Reads start (feed 0) s ∧ s.allDone = true
  later : ∀ j, ∃ s, Reads (newRecon : Recon n) (feed (j+1)) s ∧ s.allDone = true

structure Position (n : Nat) where
  recon : Recon n
  coming : List Answer
  number : Nat

def redisPass (sel : Option Selection) (batch : Int) (feed : Nat → List Page) (p : Position n) : Pass (Position n) RedisScan.Outcome :=
  match scanBatch sel (RedisStream.limit batch) p.recon p.coming with
  | (r,.batch keys true,_) => ⟨⟨r,(feed (p.number+1)).map some,p.number+1⟩,keys.length,none⟩
  | (r,.batch keys false,rest) => ⟨⟨r,rest,p.number⟩,keys.length,none⟩
  | (r,out,rest) => ⟨⟨r,rest,p.number⟩,0,some out⟩

def Rolling.position (roll : Rolling n) : Position n := ⟨roll.start,(roll.feed 0).map some,0⟩

inductive Cuts (max : Nat) : List Nat → Prop where
  | idle {counts : List Nat} (none : ∀ c ∈ counts, c = 0) : Cuts max counts
  | full {group : List Nat} {last : Nat} {rest : List Nat} (few : group.sum < max) (many : max ≤ group.sum+last)
      (later : Cuts max rest) : Cuts max (group++last::rest)

def counts (sel : Option Selection) (pages : List Page) : List Nat := pages.map fun p => (p.keys.filter (chosen sel)).length

theorem cutAgrees {max acc last last' : Nat} {group group' rest rest' : List Nat} (few : acc+group.sum < max)
    (many : max ≤ acc+group.sum+last) (few' : acc+group'.sum < max) (many' : max ≤ acc+group'.sum+last')
    (same : group++last::rest = group'++last'::rest') : rest = rest' := by
  induction group generalizing acc group' with
  | nil =>
    cases group' with
    | nil => exact (List.cons.inj same).2
    | cons x group' =>
      obtain ⟨rfl,_⟩ := List.cons.inj same
      simp only [sum_cons,sum_nil] at few' many
      omega
  | cons x group ih =>
    cases group' with
    | nil =>
      obtain ⟨rfl,_⟩ := List.cons.inj same
      simp only [sum_cons,sum_nil] at few many'
      omega
    | cons y group' =>
      obtain ⟨rfl,tails⟩ := List.cons.inj same
      simp only [sum_cons,←Nat.add_assoc] at few many few' many'
      exact ih few many few' many' tails

theorem cutsFull {max last : Nat} {group rest : List Nat} (few : group.sum < max) (many : max ≤ group.sum+last)
    (cuts : Cuts max (group++last::rest)) : Cuts max rest := by
  generalize whole : group++last::rest = all at cuts
  cases cuts with
  | idle none =>
    refine .idle fun c mem => none c ?_
    rw [←whole]
    exact mem_append_right _ (.tail _ mem)
  | full few' many' later =>
    have same := @cutAgrees max 0 _ _ _ _ _ _ (by omega) (by omega) (by omega) (by omega) whole
    rwa [same]

variable {sel : Option Selection} {max : Nat} {pages : List Page} {r s : Recon n}

theorem countsSum : (collected (chosen sel) pages).length = (counts sel pages).sum := by
  induction pages with
  | nil => rfl
  | cons p pages ih =>
    rw [collectedCons,length_append,ih]
    rfl

theorem scanCuts {keys : List Bytes} (reads : Reads r pages s) (all : s.allDone = true) (room : keys.length < max) :
    (∃ front last rest t, pages = front++last::rest ∧ keys.length+(counts sel front).sum < max ∧
      max ≤ keys.length+(counts sel front).sum+(last.keys.filter (chosen sel)).length ∧ Reads t rest s ∧
      scanBatchFiltered (chosen sel) max r keys (pages.map some) = (t,.batch (keys++collected (chosen sel) (front++[last])) false,rest.map some)) ∨
    keys.length+(counts sel pages).sum < max ∧
      scanBatchFiltered (chosen sel) max r keys (pages.map some) = (newRecon,.batch (keys++collected (chosen sel) pages) true,[]) := by
  induction reads generalizing keys with
  | nil r =>
    refine .inr ⟨by simpa [counts] using room,?_⟩
    unfold scanBatchFiltered
    rw [if_neg (Nat.not_le.mpr room),if_pos all]
    simp [collected,Recon.reset,newRecon]
  | @page r s p rest going later ih =>
    rw [map_cons,scanBatchFiltered,if_neg (Nat.not_le.mpr room),if_neg (by rw [going]; exact Bool.false_ne_true)]
    by_cases filled : max ≤ (keys++p.keys.filter (chosen sel)).length
    · refine .inl ⟨[],p,rest,_,rfl,by simpa [counts] using room,by simpa [counts] using filled,later,?_⟩
      unfold scanBatchFiltered
      rw [if_pos filled]
      simp [collected]
    · rcases ih all (Nat.not_le.mp filled) with ⟨front,last,after,t,rfl,few,many,reads,ran⟩ | ⟨few,ran⟩
      · refine .inl ⟨p::front,last,after,t,rfl,?_,?_,reads,?_⟩
        · simpa [counts,Nat.add_assoc] using few
        · simpa [counts,Nat.add_assoc] using many
        · rw [ran,cons_append,collectedCons,append_assoc]
      · refine .inr ⟨by simpa [counts,Nat.add_assoc] using few,?_⟩
        rw [ran,collectedCons,append_assoc]

theorem limitPositive (batch) : 0 < RedisStream.limit batch := by
  rw [RedisStream.limit]
  split
  · decide
  · omega

variable {batch : Int} {feed : Nat → List Page} {j : Nat}

theorem passCuts (reads : Reads r pages s) (all : s.allDone = true) :
    (∃ front last rest t, pages = front++last::rest ∧ (counts sel front).sum < RedisStream.limit batch ∧
      RedisStream.limit batch ≤ (counts sel front).sum+(last.keys.filter (chosen sel)).length ∧ Reads t rest s ∧
      ¬Stops (redisPass sel batch feed ⟨r,pages.map some,j⟩) ∧ (redisPass sel batch feed ⟨r,pages.map some,j⟩).state = ⟨t,rest.map some,j⟩) ∨
    (counts sel pages).sum < RedisStream.limit batch ∧
      (Stops (redisPass sel batch feed ⟨r,pages.map some,j⟩) ↔ (counts sel pages).sum = 0) ∧
      (redisPass sel batch feed ⟨r,pages.map some,j⟩).state = ⟨newRecon,(feed (j+1)).map some,j+1⟩ := by
  have room := limitPositive batch
  rcases @scanCuts n sel (RedisStream.limit batch) pages r s [] reads all room with ⟨front,last,rest,t,split,few,many,onward,ran⟩ | ⟨few,ran⟩
  · rw [length_nil,Nat.zero_add] at few many
    have passed : redisPass sel batch feed ⟨r,pages.map some,j⟩ = ⟨⟨t,rest.map some,j⟩,(collected (chosen sel) (front++[last])).length,none⟩ := by
      simp only [redisPass,scanBatch,ran,nil_append]
    refine .inl ⟨front,last,rest,t,split,few,many,onward,?_,by rw [passed]⟩
    rw [passed,Stops,countsSum]
    simp only [counts,map_append,sum_append,map_cons,map_nil,sum_cons,sum_nil] at few many ⊢
    simp only [Option.isSome_none,Bool.false_eq_true,false_or]
    omega
  · rw [length_nil,Nat.zero_add] at few
    have passed : redisPass sel batch feed ⟨r,pages.map some,j⟩ =
      ⟨⟨newRecon,(feed (j+1)).map some,j+1⟩,(collected (chosen sel) pages).length,none⟩ := by
      simp only [redisPass,scanBatch,ran,nil_append]
    refine .inr ⟨few,?_,by rw [passed]⟩
    rw [passed,Stops,countsSum]
    simp

theorem endsWithin (reads : Reads r pages s) (all : s.allDone = true)
    (ends : Cuts (RedisStream.limit batch) (counts sel pages) ∨ Ends (redisPass sel batch feed) ⟨(newRecon : Recon n),(feed (j+1)).map some,j+1⟩) :
    Ends (redisPass sel batch feed) ⟨r,pages.map some,j⟩ := by
  induction size : pages.length using Nat.strong_induction_on generalizing r pages with
  | _ m ih =>
    rcases @passCuts n sel pages r s batch feed j reads all with ⟨front,last,rest,t,rfl,few,many,onward,going,next⟩ | ⟨few,stops,next⟩
    · refine endsOf (next ▸ ih rest.length ?_ onward (ends.imp_left fun cuts => ?_) rfl)
      · simp only [length_append,length_cons] at size
        omega
      · rw [counts,map_append,map_cons] at cuts
        exact cutsFull few many cuts
    · rcases ends with cuts | ends
      · refine .stop (stops.mpr ?_)
        generalize counts sel pages = numbers at few cuts
        cases cuts with
        | idle none => exact sum_eq_zero none
        | full few' many' later =>
          simp only [sum_append,sum_cons] at few
          omega
      · exact endsOf (next ▸ ends)

theorem rollingReads (roll : Rolling n) (j : Nat) : ∃ s, Reads (if j = 0 then roll.start else newRecon) (roll.feed j) s ∧ s.allDone = true := by
  cases j with
  | zero => exact roll.first
  | succ j => exact roll.later j

theorem endsOfCuts (roll : Rolling n) (k j : Nat) (cuts : Cuts (RedisStream.limit batch) (counts sel (roll.feed (j+k)))) :
    Ends (redisPass sel batch roll.feed) ⟨if j = 0 then roll.start else newRecon,(roll.feed j).map some,j⟩ := by
  obtain ⟨s,reads,all⟩ := rollingReads roll j
  induction k generalizing j s with
  | zero => exact endsWithin reads all (.inl cuts)
  | succ k ih =>
    obtain ⟨t,onward,done⟩ := rollingReads roll (j+1)
    have later := ih (j+1) (by rwa [Nat.add_right_comm]) t onward done
    exact endsWithin reads all (.inr later)

theorem cutsOfEnds (roll : Rolling n) {p : Position n} (ends : Ends (redisPass sel batch roll.feed) p) (reads : Reads r pages s)
    (all : s.allDone = true) (here : p = ⟨r,pages.map some,j⟩) :
    Cuts (RedisStream.limit batch) (counts sel pages) ∨ ∃ i, Cuts (RedisStream.limit batch) (counts sel (roll.feed i)) := by
  induction ends generalizing r s pages j with
  | stop stops =>
    subst here
    rcases @passCuts n sel pages r s batch roll.feed j reads all with ⟨_,_,_,_,_,_,_,_,going,_⟩ | ⟨few,stopsIff,next⟩
    · exact absurd stops going
    · exact .inl (.idle fun c mem => sum_eq_zero_iff.mp (stopsIff.mp stops) c mem)
  | onward going later ih =>
    subst here
    rcases @passCuts n sel pages r s batch roll.feed j reads all with ⟨front,last,rest,t,rfl,few,many,onward,_,next⟩ | ⟨few,stopsIff,next⟩
    · refine (ih onward all next).imp_left fun cuts => ?_
      rw [counts,map_append,map_cons]
      exact .full few many cuts
    · obtain ⟨t,onward,done⟩ := roll.later j
      rcases ih onward done next with cuts | found
      · exact .inr ⟨j+1,cuts⟩
      · exact .inr found

theorem convergenceReturnsIff (dialect : Dialect) (cyclic : Bool) (job : Job) (s : State) (sel : Option Selection) (batch : Int)
    (roll : Rolling n) :
    Returns (relationalPass dialect cyclic job) s ∧
    (Returns (redisPass sel batch roll.feed) roll.position ↔ ∃ j, Cuts (RedisStream.limit batch) (counts sel (roll.feed j))) := by
  refine ⟨endsIff.mpr (relationalEnds dialect cyclic job s),?_⟩
  rw [endsIff]
  constructor
  · intro ends
    obtain ⟨s,reads,all⟩ := roll.first
    rcases cutsOfEnds roll ends reads all rfl with cuts | found
    · exact ⟨0,cuts⟩
    · exact found
  · rintro ⟨j,cuts⟩
    exact endsOfCuts roll j 0 (by rwa [Nat.zero_add])

def onlyKey : Bytes := [107]

theorem onePageReads (keys) : ∃ s, Reads (newRecon : Recon 0) [⟨keys,0⟩] s ∧ s.allDone = true := by
  refine ⟨_,.page rfl (.nil _),?_⟩
  rw [Recon.allDone,decide_eq_true_eq]
  intro i
  obtain rfl : i = 0 := Fin.eq_zero i
  rfl

def oneKeyRolling : Rolling 0 where
  start := newRecon
  feed := fun _ => [⟨[onlyKey],0⟩]
  first := onePageReads [onlyKey]
  later := fun _ => onePageReads [onlyKey]

theorem oneKeyForever :
    (∀ j, Honest (fun _ => 0) (· = onlyKey) (newRecon : Recon 0) (fun _ => False) (oneKeyRolling.feed j)) ∧
    ¬Returns (redisPass none 2 oneKeyRolling.feed) oneKeyRolling.position := by
  refine ⟨fun j => honestWhole fun k here => by rw [here]; exact .head _,?_⟩
  rw [endsIff]
  intro ends
  obtain ⟨s,reads,all⟩ := oneKeyRolling.first
  have single : ¬Cuts (RedisStream.limit 2) [1] := by
    intro cuts
    generalize whole : [1] = numbers at cuts
    cases cuts with
    | idle none => exact absurd (none 1 (whole ▸ .head _)) (by decide)
    | full few many later =>
      have total := congrArg List.sum whole
      simp only [sum_append,sum_cons,sum_nil] at total
      have two : RedisStream.limit 2 = 2 := rfl
      omega
  rcases cutsOfEnds oneKeyRolling ends reads all rfl with cuts | ⟨i,cuts⟩
  · exact single cuts
  · exact single cuts

end Redis

end Replicare.DrainConverges
