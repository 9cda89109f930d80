import Mathlib.Data.List.Infix
import Replicare.Runs
import Replicare.Hlc

/-! The hybrid logical clock as each engine encodes it: an UPDATE whose right-hand sides read
the old row in Postgres, assignments from left to right in MySQL, plain arithmetic on an int64
and an int32 in the Redis daemon. -/
namespace Replicare.HlcEngines
open Hlc Runs List

def InRange (x : Int) : Prop := -2^31 ≤ x ∧ x < 2^31

instance (x) : Decidable (InRange x) := inferInstanceAs (Decidable (_ ∧ _))

/- An `int` value in the databases; out of range is an error. -/
def int4 (x : Int) : Option Int := if InRange x then some x else none

/- An `int32` value in Go. -/
def int32 (x : Int) : Int := (x+2^31)%2^32-2^31

namespace Postgres

def update (physical : Clock → Int) (logical : Clock → Option Int) (row : Clock) : Option Clock :=
  (logical row).map fun l => ⟨physical row,l⟩

def hlcTick (row : Clock) (pt : Int) : Option Clock :=
  update (fun old => if pt > old.physical then pt else old.physical)
    (fun old => if pt > old.physical then some 0 else int4 (old.logical+1)) row

def hlcObserve (row : Clock) (pt inPhys inLog : Int) : Option Clock :=
  let newPhys := max (max pt inPhys) row.physical
  update (fun _ => newPhys)
    (fun old =>
      if newPhys = old.physical ∧ newPhys = inPhys then int4 (max old.logical inLog+1)
      else if newPhys = old.physical then int4 (old.logical+1)
      else if newPhys = inPhys then int4 (inLog+1)
      else some 0) row

end Postgres

namespace MySQL

inductive Assignment where
  | logical (value : Clock → Int)
  | physical (value : Clock → Int)

def Assignment.assign (row : Clock) : Assignment → Option Clock
  | .logical value => (int4 (value row)).map fun l => { row with logical := l }
  | .physical value => some { row with physical := value row }

def update (sets : List Assignment) (row : Clock) : Option Clock := sets.foldlM Assignment.assign row

def hlcTickBody (row : Clock) (ts : Int) : Option Clock :=
  update [.logical fun r => if ts > r.physical then 0 else r.logical+1,
    .physical fun r => if ts > r.physical then ts else r.physical] row

def hlcObserveSQL (row : Clock) (now phys log : Int) : Option Clock :=
  let g := fun r : Clock => max (max now r.physical) phys
  update [.logical fun r =>
      if g r = r.physical ∧ r.physical = phys then max r.logical log+1
      else if g r = r.physical then r.logical+1
      else if g r = phys then log+1
      else 0,
    .physical g] row

end MySQL

namespace Redis

def hlcTick (stored : Clock) (nowMillis : Int) : Clock :=
  if nowMillis > stored.physical then ⟨nowMillis,0⟩ else ⟨stored.physical,int32 (stored.logical+1)⟩

def hlcObserve (stored : Clock) (nowMillis inPhys inLog : Int) : Clock :=
  let first := if nowMillis > stored.physical then nowMillis else stored.physical
  let newPhys := if inPhys > first then inPhys else first
  if newPhys = stored.physical ∧ newPhys = inPhys then
    ⟨newPhys,int32 ((if inLog > stored.logical then inLog else stored.logical)+1)⟩
  else if newPhys = stored.physical then ⟨newPhys,int32 (stored.logical+1)⟩
  else if newPhys = inPhys then ⟨newPhys,int32 (inLog+1)⟩
  else ⟨newPhys,0⟩

end Redis

/- A local tick or an observed pair, each with the wall clock read for it. -/
inductive Call where
  | tick (pt : Int)
  | observe (pt inPhys inLog : Int)
  deriving DecidableEq, Repr

structure Encoding where
  tick : Clock → Int → Option Clock
  observe : Clock → Int → Int → Int → Option Clock

def postgres : Encoding := ⟨Postgres.hlcTick,Postgres.hlcObserve⟩
def mysql : Encoding := ⟨MySQL.hlcTickBody,MySQL.hlcObserveSQL⟩
def redis : Encoding :=
  ⟨fun c pt => some (Redis.hlcTick c pt),fun c pt inPhys inLog => some (Redis.hlcObserve c pt inPhys inLog)⟩

def unbounded : Encoding :=
  ⟨fun c pt => some (tick c pt),fun c pt inPhys inLog => some (observe c pt inPhys inLog)⟩

def Encoding.step (e : Encoding) (c : Clock) : Call → Option Clock
  | .tick pt => e.tick c pt
  | .observe pt inPhys inLog => e.observe c pt inPhys inLog

def Call.pair (after : Clock) : Call → Clock
  | .tick _ => after
  | .observe _ inPhys inLog => ⟨inPhys,inLog⟩

def Encoding.pairs (e : Encoding) : Clock → List Call → List Clock
  | _, [] => []
  | c, op::ops =>
      match e.step c op with
      | none => []
      | some d => op.pair d::e.pairs d ops

def Call.next (c : Clock) : Call → Clock
  | .tick pt => Hlc.tick c pt
  | .observe pt inPhys inLog => Hlc.observe c pt inPhys inLog

def Small (c : Clock) (op : Call) : Prop :=
  InRange c.logical ∧ InRange (op.pair c).logical ∧ InRange (op.next c).logical

instance (c op) : Decidable (Small c op) := inferInstanceAs (Decidable (_ ∧ _ ∧ _))

theorem int4Small {x} (small : InRange x) : int4 x = some x := if_pos small

theorem int32Small {x} (small : InRange x) : int32 x = x := by
  unfold InRange at small
  unfold int32
  omega

theorem tickParts (c : Clock) (pt) : Hlc.tick c pt =
    ⟨if pt > c.physical then pt else c.physical,if pt > c.physical then 0 else c.logical+1⟩ := by
  unfold Hlc.tick
  simp only [gt_iff_lt]
  split <;> rfl

theorem nextAdvances (c : Clock) (op : Call) : c < op.next c ∧ op.pair (op.next c) ≤ op.next c := by
  cases op with
  | tick pt => exact ⟨tickAdvances c pt,le_refl _⟩
  | observe pt inPhys inLog =>
    have both := observeAdvances c pt inPhys inLog
    exact ⟨both.1,le_of_lt both.2⟩

def Computes (e : Encoding) : Prop := ∀ c op, Small c op → e.step c op = some (op.next c)

theorem unboundedComputes : Computes unbounded := by
  intro c op _
  cases op <;> rfl

theorem postgresUpdate {physical chosen c logical} (fits : InRange logical) (same : chosen c = int4 logical) :
    Postgres.update physical chosen c = some ⟨physical c,logical⟩ := by
  simp only [Postgres.update,same,int4Small fits,Option.map_some]

theorem postgresComputes : Computes postgres := by
  intro c op small
  obtain ⟨_,_,fits⟩ := small
  cases op with
  | tick pt =>
    simp only [Call.next,tickParts] at fits
    simp only [Encoding.step,postgres,Postgres.hlcTick,Call.next,tickParts]
    refine postgresUpdate fits ?_
    split <;> rfl
  | observe pt inPhys inLog =>
    have same : max (max pt inPhys) c.physical = max pt (max inPhys c.physical) := max_assoc ..
    simp only [Call.next,Hlc.observe] at fits
    simp only [Encoding.step,postgres,Postgres.hlcObserve,same,Call.next,Hlc.observe]
    refine postgresUpdate fits ?_
    split_ifs <;> rfl

theorem mysqlUpdate {logical physical c} (fits : InRange (logical c))
    (blind : ∀ l, physical { c with logical := l } = physical c) :
    MySQL.update [.logical logical,.physical physical] c = some ⟨physical c,logical c⟩ := by
  simp only [MySQL.update,foldlM_cons,foldlM_nil,MySQL.Assignment.assign,int4Small fits,
    Option.map_some,Option.bind_eq_bind,Option.bind_some,blind]
  rfl

theorem mysqlComputes : Computes mysql := by
  intro c op small
  obtain ⟨_,_,fits⟩ := small
  cases op with
  | tick pt =>
    rw [Call.next,tickParts] at fits ⊢
    exact mysqlUpdate fits fun _ => rfl
  | observe pt inPhys inLog =>
    have same : max (max pt c.physical) inPhys = max pt (max inPhys c.physical) := by
      rw [max_assoc,max_comm c.physical]
    have parts : Hlc.observe c pt inPhys inLog = ⟨max (max pt c.physical) inPhys,
        if max (max pt c.physical) inPhys = c.physical ∧ c.physical = inPhys then max c.logical inLog+1
        else if max (max pt c.physical) inPhys = c.physical then c.logical+1
        else if max (max pt c.physical) inPhys = inPhys then inLog+1
        else 0⟩ := by
      have test : max pt (max inPhys c.physical) = c.physical ∧ max pt (max inPhys c.physical) = inPhys ↔
          max pt (max inPhys c.physical) = c.physical ∧ c.physical = inPhys :=
        and_congr_right fun top => by rw [top]
      simp only [Hlc.observe,same,test]
    simp only [Call.next,parts] at fits ⊢
    exact mysqlUpdate fits fun _ => rfl

theorem int4Exact {x l} (ok : int4 x = some l) : l = x := by
  unfold int4 at ok
  split at ok <;> try contradiction
  exact (Option.some.inj ok).symm

theorem postgresTick {c d pt} (ok : Postgres.hlcTick c pt = some d) : d = Hlc.tick c pt := by
  obtain ⟨l,chosen,rfl⟩ := Option.map_eq_some_iff.mp ok
  rw [tickParts]
  dsimp only at chosen
  split at chosen
  · cases chosen
    simp only [if_pos (by assumption : pt > c.physical)]
  · simp only [int4Exact chosen,if_neg (by assumption : ¬pt > c.physical)]

theorem mysqlTick {c d pt} (ok : MySQL.hlcTickBody c pt = some d) : d = Hlc.tick c pt := by
  simp only [MySQL.hlcTickBody,MySQL.update,foldlM_cons,foldlM_nil,MySQL.Assignment.assign,
    bind,Option.bind_eq_some_iff,Option.map_eq_some_iff] at ok
  obtain ⟨_,⟨l,chosen,rfl⟩,_,same,last⟩ := ok
  cases same
  cases last
  rw [tickParts,int4Exact chosen]

theorem redisComputes : Computes redis := by
  intro c op small
  obtain ⟨_,_,fits⟩ := small
  cases op with
  | tick pt =>
    have chosen : Redis.hlcTick c pt = ⟨(Hlc.tick c pt).physical,int32 (Hlc.tick c pt).logical⟩ := by
      rw [tickParts]
      unfold Redis.hlcTick
      dsimp only
      split <;> rfl
    rw [Call.next] at fits ⊢
    simp only [Encoding.step,redis,chosen,int32Small fits]
  | observe pt inPhys inLog =>
    have greatest : (if inPhys > (if pt > c.physical then pt else c.physical) then inPhys
        else if pt > c.physical then pt else c.physical) = max pt (max inPhys c.physical) := by
      split <;> split <;> omega
    have larger : (if inLog > c.logical then inLog else c.logical) = max c.logical inLog := by
      split <;> omega
    have chosen : Redis.hlcObserve c pt inPhys inLog =
        ⟨(Hlc.observe c pt inPhys inLog).physical,int32 (Hlc.observe c pt inPhys inLog).logical⟩ := by
      simp only [Redis.hlcObserve,Hlc.observe,greatest,larger]
      split_ifs <;> rfl
    rw [Call.next] at fits ⊢
    simp only [Encoding.step,redis,chosen,int32Small fits]

section Sequences
variable {e : Encoding} {start : Clock} {ops : List Call}

def after (c : Clock) (ops : List Call) : Clock := ops.foldl Call.next c

theorem computesRun (computes : Computes e) (small : Along unbounded.step Small start ops) :
    run e.step start ops = some (after start ops) := by
  induction ops generalizing start with
  | nil => rfl
  | cons op ops ih =>
    obtain ⟨here,rest⟩ := small
    have next := unboundedComputes start op here
    simp only [run,computes start op here,Option.bind_some]
    exact ih (rest _ next)

theorem smallPart {before} (small : Along unbounded.step Small start ops) (part : before <+: ops) :
    Along unbounded.step Small start before := by
  obtain ⟨tail,rfl⟩ := part
  induction before generalizing start with
  | nil => trivial
  | cons op before ih => exact ⟨small.1,fun t ok => ih (small.2 t ok)⟩

theorem afterGrows (c : Clock) (ops : List Call) : c ≤ after c ops := by
  induction ops generalizing c with
  | nil => exact le_refl c
  | cons op ops ih => exact le_trans (le_of_lt (nextAdvances c op).1) (ih (op.next c))

theorem pairsCovered (computes : Computes e) (small : Along unbounded.step Small start ops) :
    ∀ p ∈ e.pairs start ops, p ≤ after start ops := by
  induction ops generalizing start with
  | nil => intro p mem; cases mem
  | cons op ops ih =>
    obtain ⟨here,rest⟩ := small
    have next := unboundedComputes start op here
    intro p mem
    simp only [Encoding.pairs,computes start op here,mem_cons] at mem
    rcases mem with rfl | later
    · exact le_trans (nextAdvances start op).2 (afterGrows (op.next start) ops)
    · exact ih (rest _ next) p later

end Sequences

theorem clocksAgreeAndAdvance (start : Clock) (ops : List Call) (small : Along unbounded.step Small start ops) :
    (∀ before, before <+: ops → ∃ c, (∀ e ∈ [postgres,mysql,redis], run e.step start before = some c) ∧
      (∀ earlier b, earlier <+: before → run postgres.step start earlier = some b → b ≤ c)) ∧
    ∀ e ∈ [postgres,mysql,redis], ∀ before pt, before++[.tick pt] <+: ops →
      ∃ c d, run e.step start before = some c ∧ e.tick c pt = some d ∧ ∀ p ∈ e.pairs start before, p < d := by
  have computes : ∀ e ∈ [postgres,mysql,redis], Computes e := by
    intro e mem
    simp only [mem_cons,not_mem_nil,or_false] at mem
    rcases mem with rfl | rfl | rfl
    · exact postgresComputes
    · exact mysqlComputes
    · exact redisComputes
  refine ⟨?_,?_⟩
  · intro before part
    refine ⟨after start before,fun e mem => computesRun (computes e mem) (smallPart small part),?_⟩
    rintro earlier b ⟨tail,rfl⟩ ran
    have here := computesRun postgresComputes (smallPart small ((prefix_append earlier tail).trans part))
    cases ran.symm.trans here
    rw [after,after,foldl_append]
    exact afterGrows _ tail
  · intro e mem before pt part
    have whole := smallPart small part
    have first := smallPart whole (prefix_append before [Call.tick pt])
    have ran := computesRun (computes e mem) first
    have both := computesRun (computes e mem) whole
    obtain ⟨c,left,last⟩ := runSplit both
    cases ran.symm.trans left
    obtain ⟨d,ticked,done⟩ := runCons last
    cases done
    refine ⟨_,_,ran,ticked,fun p seen => ?_⟩
    rw [after,foldl_append]
    exact lt_of_le_of_lt (pairsCovered (computes e mem) first p seen) (nextAdvances _ (.tick pt)).1

/- One tick past the range takes the Redis clock back; the databases refuse it. -/
example : Redis.hlcTick ⟨7,2^31-1⟩ 7 = ⟨7,-2^31⟩ ∧ Postgres.hlcTick ⟨7,2^31-1⟩ 7 = none ∧
    MySQL.hlcTickBody ⟨7,2^31-1⟩ 7 = none := by decide

/- A wall clock that goes backwards between an observe and the ticks around it. -/
theorem clocksAgreeAndAdvanceBackwards : run redis.step ⟨0,0⟩ [.tick 5,.observe 3 7 2,.tick 4] = some ⟨7,4⟩ ∧
    ∀ p ∈ mysql.pairs ⟨0,0⟩ [.tick 5,.observe 3 7 2], p < ⟨7,4⟩ := by
  have holds := clocksAgreeAndAdvance ⟨0,0⟩ [.tick 5,.observe 3 7 2,.tick 4] (by decide)
  obtain ⟨c,d,ran,ticked,above⟩ := holds.2 mysql (by simp) [.tick 5,.observe 3 7 2] 4 (prefix_refl _)
  obtain ⟨whole,same,_⟩ := holds.1 _ (prefix_refl _)
  have found : run mysql.step ⟨0,0⟩ [.tick 5,.observe 3 7 2,.tick 4] = some ⟨7,4⟩ := by decide
  have value : d = ⟨7,4⟩ := by
    have joined := runSnoc ran (show mysql.step c (.tick 4) = some d from ticked)
    exact Option.some.inj (joined.symm.trans found)
  refine ⟨?_,value ▸ above⟩
  rw [same redis (by simp),← same mysql (by simp),found]

end Replicare.HlcEngines
