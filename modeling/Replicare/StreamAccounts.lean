import Replicare.StreamIsolation

/-! What becomes of a captured change while its daemon drains, enforces the retention, reseeds,
fails and is restarted. -/
namespace Replicare.StreamAccounts
open Engine hiding Component
open Relations Consume Stored Purge Enforce Runs CopyRun CopyCovers Reseed StreamPass StreamIsolation

section Run
variable (set : Setting)

/- What is drained is drained by a pass over the components. -/
def Drains (w : World) (a : Act) : Prop :=
  ∀ target queue, a = .drained target queue → ∃ turn, (drainPass set ⟨turn,w,[]⟩).1 = ⟨target,queue⟩

def Held (w : World) (r : TableRef) (d : Delta KeyValues) : Prop := d ∈ (w.control.queue r).deltas

/- One of the drains has confirmed the change for the target. -/
def Applied (acts : List Act) (r : TableRef) (d : Delta KeyValues) : Prop :=
  ∃ target queue, .drained target queue ∈ acts ∧ Consumed (queue r) set.sync.id d.id

/- The table is flagged, so that the next pass whose drain succeeds copies all again. -/
def Flagged (w : World) (r : TableRef) : Prop :=
  flagged set.sync w r = true ∧
    ∀ turn, (drainPass set ⟨turn,w,[]⟩).2 = none → (streamOnce set ⟨turn,w,[]⟩).todo = set.sync.components

def Unflags (v : World) (r : TableRef) : Prop := ∃ rest, v.mode = .busy .reseed none (.unflag r::rest)

/- A reseed that started after the change had left the log has copied the table to its end:
a key that then differs has a delta to consume. -/
def Recopied (w : World) (acts : List Act) (r : TableRef) (d : Delta KeyValues) : Prop :=
  ∃ early during late u v v', acts = early++(during++.exec::late) ∧ run (step set.sync) w early = some u ∧ ¬Held u r d ∧
    (∃ order ∈ set.sync.components, r ∈ order ∧ Unbroken set.sync u during v order) ∧ Unflags v r ∧
    step set.sync v .exec = some v' ∧ ∀ k, view v'.target r k ≠ view v'.source r k → Pending set.sync v' r k

end Run

section Steps
variable {set : Setting} {w w' : World} {a : Act} {r : TableRef} {d : Delta KeyValues}

theorem drainKeeps (set x r) : ((drainPass set x).1.queue r).deltas = (x.world.control.queue r).deltas :=
  (drainAllConfined (l := loopOf set x.world.source fun _ y => (y.target,y.control.cursor)) (fun _ mem => mem) x.turn x.drained).deltas r

theorem waitsMoves (moves : Moves set.sync w a w') (apart : a.pass = false) (waits : d ∈ unconsumed (w.control.queue r) set.sync.id) :
    d ∈ unconsumed (w'.control.queue r) set.sync.id := by
  by_cases still : quiet a = true
  · rw [quietMoves moves still]
    exact waits
  · cases moves with
    | commit _ captures =>
      rcases captures with ⟨_,captures⟩ | ⟨_,same⟩
      · exact (commitAwaits set.sync.id captures w.source r).1 waits
      · exact same ▸ waits
    | drained => cases apart
    | enforced => cases apart
    | _ => exact absurd rfl still

theorem enforcedWaits {dialect ret obs} (waits : d ∈ unconsumed (w.control.queue r) set.sync.id) :
    let after := (enforce dialect [set.sync.id] ret set.sync.tables obs w.control).1
    d ∈ unconsumed (after.queue r) set.sync.id ∨
      d ∉ (after.queue r).deltas ∧ r ∈ set.sync.tables.tables ∧ (after.cursor set.sync.id r).needsReseed = true := by
  intro after
  obtain ⟨held,open_⟩ := memUnconsumed.mp waits
  by_cases own : r ∈ set.sync.tables.tables
  · by_cases stays : d ∈ (after.queue r).deltas
    · refine .inl (memUnconsumed.mpr ⟨stays,fun consumed => open_ ?_⟩)
      rw [show after.queue r = _ from (enforceQueue set.sync.tables w.control).1 r own] at consumed
      exact (purgeConsumedIff.mp consumed).1
    · have detected := enforceLost (List.mem_singleton_self _) ⟨r,own,d,held,stays,open_⟩
      exact .inr ⟨stays,own,enforceMarked.mpr (.inr detected) r own⟩
  · have same : after.queue r = w.control.queue r := (enforceQueue set.sync.tables w.control).2 r own
    exact .inl (same ▸ waits)

/- A step leaves the change unread in the log, or drains it, or loses it and flags its table. -/
theorem waitsStep (ok : step set.sync w a = some w') (drains : Drains set w a) (waits : d ∈ unconsumed (w.control.queue r) set.sync.id) :
    d ∈ unconsumed (w'.control.queue r) set.sync.id ∨ Applied set [a] r d ∨
      ¬Held w' r d ∧ r ∈ set.sync.tables.tables ∧ flagged set.sync w' r = true ∧ w'.mode = .streaming := by
  have moves := stepMoves ok
  by_cases apart : a.pass = false
  · exact .inl (waitsMoves moves apart waits)
  · cases moves with
    | drained =>
      rename_i target queue _
      obtain ⟨turn,drained⟩ := drains target queue rfl
      by_cases done : Consumed (queue r) set.sync.id d.id
      · exact .inr (.inl ⟨target,queue,List.mem_singleton_self _,done⟩)
      · have same := drainKeeps set ⟨turn,w,[]⟩ r
        rw [drained] at same
        exact .inl (memUnconsumed.mpr ⟨same ▸ (memUnconsumed.mp waits).1,done⟩)
    | enforced idle =>
      rcases enforcedWaits waits with still | ⟨gone,own,flag⟩
      · exact .inl still
      · exact .inr (.inr ⟨gone,own,flag,idle⟩)
    | _ => exact absurd rfl apart

theorem flaggedPass (own : r ∈ set.sync.tables.tables) (flag : flagged set.sync w r = true) : Flagged set w r := by
  refine ⟨flag,fun turn whole => if_pos ⟨whole,.inr ⟨r,own,?_⟩⟩⟩
  exact (enforceCursor set.sync.tables _ set.sync.id r).mpr (.inl flag)

theorem flaggedRun {acts} (flag : flagged set.sync w r = true) (ran : run (step set.sync) w acts = some w') :
    flagged set.sync w' r = true ∨ ∃ during late v v' kind rest, acts = during++.exec::late ∧ run (step set.sync) w during = some v ∧
      v.mode = .busy kind none (.unflag r::rest) ∧ step set.sync v .exec = some v' := by
  induction acts generalizing w with
  | nil =>
    cases ran
    exact .inl flag
  | cons a acts ih =>
    obtain ⟨m,first,rest⟩ := runCons ran
    by_cases stays : flagged set.sync m r = true
    · rcases ih stays rest with last | ⟨during,late,v,v',kind,tail,rfl,reached,at_,ok⟩
      · exact .inl last
      · refine .inr ⟨a::during,late,v,v',kind,tail,rfl,?_,at_,ok⟩
        simp only [run,first,Option.bind_some,reached]
    · obtain ⟨rfl,kind,tail,at_⟩ := flagMoves (stepMoves first) flag (Bool.eq_false_iff.mpr stays)
      exact .inr ⟨[],acts,w,m,kind,tail,rfl,rfl,at_,first⟩

end Steps

section Orders
open Bringup (ordersSync order)

def ordersOnly : Setting := ⟨ordersSync,.postgres,100,⟨1,0⟩,fun _ _ => ⟨2*second,0⟩,fun _ _ _ _ _ => []⟩

def updated : List Act := [.restart,.exec,.plan true,.exec,.commit [⟨orders,[some [1]],some (order 1 7).2,1,.update,5⟩]]

def agedOut : List Act :=
  [.enforced .postgres ⟨1,0⟩ fun _ => ⟨2*second,0⟩,.reseed [orders],.exec,.exec,.plan true,.read 0,.land 0,.mark 0,
    .read 1,.land 1,.mark 1,.finish,.exec]

end Orders

end Replicare.StreamAccounts
