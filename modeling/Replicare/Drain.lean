import Replicare.Runs
import Replicare.Consume
import Replicare.Coalesce

/-! One-way replication of the captured tables of a source to one target, at the granularity of
committed transactions. -/
namespace Replicare.Drain
open Engine Consume Coalesce List Function

variable {K V S : Type*} [DecidableEq K] [DecidableEq S]

/- A committed change of one source row, with the delta its trigger inserts. -/
structure Change (K V : Type*) where
  table : TableRef
  row : Option V
  delta : Delta K

structure Work (K V : Type*) where
  distinct : List K
  ids : List DeltaID
  staged : Option (K → Option V)
  applied : Bool

abbrev Db (K V : Type*) := TableRef → K → Option V

structure World (K V : Type*) where
  source : Db K V
  target : Db K V
  queue : TableRef → Queue K
  applying : Bool
  work : TableRef → Option (Work K V)

inductive Action (K V : Type*) where
  | commit (changes : List (Change K V))
  | gather (table : TableRef) (batch : Int)
  | gathered
  | reread (table : TableRef)
  | upsert (table : TableRef)
  | apply (table : TableRef)
  | confirm (table : TableRef)
  | stop

abbrev Cascade (K V : Type*) := Db K V → TableRef → List K → TableRef → K → Bool

def noCascade : Cascade K V := fun _ _ _ _ _ => false

def change (s : World K V) (c : Change K V) : Option (World K V) :=
  if fresh : Fresh (s.queue c.table) c.delta.id then
    some { s with
      source := update s.source c.table (update (s.source c.table) c.delta.key c.row)
      queue := update s.queue c.table (capture (s.queue c.table) c.delta fresh) }
  else none

def rereadCurrent (rows : K → Option V) (keys : List K) : K → Option V :=
  fun k => if k ∈ keys then rows k else none

def stageUpsert (rows : K → Option V) (keys : List K) (staged : K → Option V) : K → Option V :=
  fun k => if k ∈ keys then (staged k).or (rows k) else rows k

def absent (keys : List K) (staged : K → Option V) : List K := keys.filter fun k => (staged k).isNone

def deleteAbsent (cascade : Cascade K V) (db : Db K V) (table : TableRef) (gone : List K) : Db K V :=
  fun r k => if (r = table ∧ k ∈ gone) ∨ cascade db table gone r k = true then none else db r k

def hold (s : World K V) (table : TableRef) (w : Option (Work K V)) : World K V :=
  { s with work := update s.work table w }

section Step
variable (cascade : Cascade K V) (sig : K → S) (target : TargetID)

def gather (s : World K V) (table : TableRef) (batch : Int) : Option (World K V) :=
  if s.applying then none else
    match s.work table with
    | some _ => none
    | none =>
        let dirty := readDirtyKeys (s.queue table) target batch
        if dirty.isEmpty then some s else
          let read := coalesce sig dirty
          some (hold s table (some ⟨read.1,read.2,none,false⟩))

def step (s : World K V) : Action K V → Option (World K V)
  | .commit changes => changes.foldlM change s
  | .gather table batch => gather sig target s table batch
  | .gathered => some { s with applying := true }
  | .reread table => do
      let w ← s.work table
      if s.applying then
        some (hold s table (some { w with staged := some (rereadCurrent (s.source table) w.distinct) }))
      else none
  | .upsert table => do
      let w ← s.work table
      let staged ← w.staged
      some { hold s table (some { w with staged := none }) with
        target := update s.target table (stageUpsert (s.target table) w.distinct staged) }
  | .apply table => do
      let w ← s.work table
      let staged ← w.staged
      let upserted := update s.target table (stageUpsert (s.target table) w.distinct staged)
      some { hold s table (some { w with staged := none, applied := true }) with
        target := deleteAbsent cascade upserted table (absent w.distinct staged) }
  | .confirm table => do
      let w ← s.work table
      if w.applied then
        some { hold s table none with
          queue := update s.queue table (confirmConsumed (s.queue table) target w.ids) }
      else none
  | .stop => some { s with applying := false, work := fun _ => none }

inductive Taken (s : World K V) : Action K V → World K V → Prop where
  | commit {changes t} (ok : changes.foldlM change s = some t) : Taken s (.commit changes) t
  | nothing {table batch} : Taken s (.gather table batch) s
  | gather {table batch} (idle : s.applying = false) : Taken s (.gather table batch)
      (hold s table (some ⟨(coalesce sig (readDirtyKeys (s.queue table) target batch)).1,
        (coalesce sig (readDirtyKeys (s.queue table) target batch)).2,none,false⟩))
  | gathered : Taken s .gathered { s with applying := true }
  | reread {table w} (held : s.work table = some w) (applying : s.applying = true) : Taken s (.reread table)
      (hold s table (some { w with staged := some (rereadCurrent (s.source table) w.distinct) }))
  | upsert {table w rows} (held : s.work table = some w) (open_ : w.staged = some rows) : Taken s (.upsert table)
      { hold s table (some { w with staged := none }) with
        target := update s.target table (stageUpsert (s.target table) w.distinct rows) }
  | apply {table w rows} (held : s.work table = some w) (open_ : w.staged = some rows) : Taken s (.apply table)
      { hold s table (some { w with staged := none, applied := true }) with
        target := deleteAbsent cascade
          (update s.target table (stageUpsert (s.target table) w.distinct rows)) table (absent w.distinct rows) }
  | confirm {table w} (held : s.work table = some w) (done : w.applied = true) : Taken s (.confirm table)
      { hold s table none with
        queue := update s.queue table (confirmConsumed (s.queue table) target w.ids) }
  | stop : Taken s .stop { s with applying := false, work := fun _ => none }

end Step

def Pending (s : World K V) (target : TargetID) (r : TableRef) (ids : List DeltaID) (k : K) : Prop :=
  ∃ d ∈ (s.queue r).deltas, d.key = k ∧ ¬Consumed (s.queue r) target d.id ∧ d.id ∉ ids

structure WorkInv (target : TargetID) (s : World K V) (r : TableRef) (w : Work K V) : Prop where
  known : ∀ id ∈ w.ids, ∃ d ∈ (s.queue r).deltas, d.id = id
  gathered : ∀ d ∈ (s.queue r).deltas, d.id ∈ w.ids → d.key ∈ w.distinct
  staged : ∀ rows, w.staged = some rows →
    ∀ k ∈ w.distinct, rows k ≠ s.source r k → Pending s target r w.ids k
  applied : w.applied = true → ∀ k ∈ w.distinct, s.target r k ≠ s.source r k → Pending s target r w.ids k

structure Inv (target : TargetID) (s : World K V) : Prop where
  covered : ∀ r k, s.target r k ≠ s.source r k → Pending s target r [] k
  held : ∀ r w, s.work r = some w → WorkInv target s r w

def drainPass (table : TableRef) (maxBatch : Int) : List (Action K V) :=
  [.gather table maxBatch,.gathered,.reread table,.apply table,.confirm table,.stop]

def drainAcyclicSeq (work : List TableRef) (batch : Int) : List (Action K V) :=
  work.map (.gather · batch)++[.gathered]++work.flatMap (fun t => [.reread t,.upsert t])++
    work.reverse.flatMap (fun t => [.reread t,.apply t,.confirm t])++[.stop]

section Invariant
variable {cascade : Cascade K V} {sig : K → S} {target : TargetID} {s t : World K V}

omit [DecidableEq K] in
theorem pendingWeaken {r ids k} (pending : Pending s target r ids k) : Pending s target r [] k := by
  obtain ⟨d,mem,key,open_,_⟩ := pending
  exact ⟨d,mem,key,open_,not_mem_nil⟩

theorem changeCases {c} (ok : change s c = some t) : ∃ fresh : Fresh (s.queue c.table) c.delta.id, t = { s with
      source := update s.source c.table (update (s.source c.table) c.delta.key c.row)
      queue := update s.queue c.table (capture (s.queue c.table) c.delta fresh) } := by
  unfold change at ok
  split at ok <;> try contradiction
  rename_i fresh
  exact ⟨fresh,(Option.some.inj ok).symm⟩

theorem changeDeltas {c} (ok : change s c = some t) (r) :
    (t.queue r).deltas = (if r = c.table then [c.delta] else [])++(s.queue r).deltas ∧
    (t.queue r).track = (s.queue r).track := by
  obtain ⟨fresh,rfl⟩ := changeCases ok
  by_cases same : r = c.table
  · subst same
    simp [capture]
  · simp [same]

theorem changeSource {c} (ok : change s c = some t) {r k}
    (other : ¬(r = c.table ∧ k = c.delta.key)) : t.source r k = s.source r k := by
  obtain ⟨_,rfl⟩ := changeCases ok
  by_cases same : r = c.table
  · subst same
    have key : k ≠ c.delta.key := fun eq => other ⟨rfl,eq⟩
    simp [key]
  · simp [same]

theorem changePending {c} (ok : change s c = some t) {r ids k}
    (pending : Pending s target r ids k) : Pending t target r ids k := by
  obtain ⟨d,mem,key,open_,out⟩ := pending
  obtain ⟨deltas,track⟩ := changeDeltas ok r
  refine ⟨d,by rw [deltas]; exact mem_append_right _ mem,key,?_,out⟩
  unfold Consumed at open_ ⊢
  rwa [track]

theorem changeRecorded {c} (ok : change s c = some t) {ids}
    (out : c.delta.id ∉ ids) : Pending t target c.table ids c.delta.key := by
  obtain ⟨deltas,track⟩ := changeDeltas ok c.table
  obtain ⟨fresh,_⟩ := changeCases ok
  refine ⟨c.delta,by rw [deltas]; simp,rfl,?_,out⟩
  unfold Consumed
  rw [track]
  exact fun mem => fresh.2 _ mem rfl

theorem changeOutside {c} (inv : Inv target s) (ok : change s c = some t) {w}
    (held : s.work c.table = some w) : c.delta.id ∉ w.ids := by
  intro mem
  obtain ⟨fresh,_⟩ := changeCases ok
  obtain ⟨d,hd,same⟩ := (inv.held c.table w held).known _ mem
  exact fresh.1 d hd same

theorem changeCovers {c} (ok : change s c = some t) {r ids k x}
    (out : r = c.table → c.delta.id ∉ ids) (old : x ≠ s.source r k → Pending s target r ids k)
    (differs : x ≠ t.source r k) : Pending t target r ids k := by
  by_cases here : r = c.table ∧ k = c.delta.key
  · obtain ⟨rfl,rfl⟩ := here
    exact changeRecorded ok (out rfl)
  · rw [changeSource ok here] at differs
    exact changePending ok (old differs)

theorem changeKeeps {c} (inv : Inv target s) (ok : change s c = some t) : Inv target t := by
  have work : t.work = s.work := by obtain ⟨_,rfl⟩ := changeCases ok; rfl
  have rows : t.target = s.target := by obtain ⟨_,rfl⟩ := changeCases ok; rfl
  refine ⟨?_,?_⟩
  · intro r k differs
    rw [rows] at differs
    exact changeCovers ok (fun _ => not_mem_nil) (inv.covered r k) differs
  · intro r w held
    rw [work] at held
    have old := inv.held r w held
    have out : r = c.table → c.delta.id ∉ w.ids := by
      intro here
      subst here
      exact changeOutside inv ok held
    refine ⟨?_,?_,?_,?_⟩
    · intro id mem
      obtain ⟨d,hd,same⟩ := old.known id mem
      exact ⟨d,by rw [(changeDeltas ok r).1]; exact mem_append_right _ hd,same⟩
    · intro d mem read
      rw [(changeDeltas ok r).1] at mem
      rcases mem_append.mp mem with new | before
      · split at new
        · rename_i here
          rw [mem_singleton.mp new] at read
          exact absurd read (out here)
        · exact absurd new not_mem_nil
      · exact old.gathered d before read
    · intro rows open_ k mem differs
      exact changeCovers ok out (old.staged rows open_ k mem) differs
    · intro done k mem differs
      rw [rows] at differs
      exact changeCovers ok out (old.applied done k mem) differs

theorem commitKeeps {changes : List (Change K V)} (inv : Inv target s)
    (ok : changes.foldlM change s = some t) : Inv target t := by
  induction changes generalizing s with
  | nil => cases ok; exact inv
  | cons c rest ih =>
    simp only [foldlM_cons,bind,Option.bind_eq_some_iff] at ok
    obtain ⟨m,first,last⟩ := ok
    exact ih (changeKeeps inv first) last

omit [DecidableEq K] in
theorem holdKeeps {table w} (inv : Inv target s) (new : WorkInv target s table w) : Inv target (hold s table (some w)) := by
  refine ⟨inv.covered,?_⟩
  intro r v held
  simp only [hold,update_apply] at held
  have kept : WorkInv target s r v := by
    split at held
    · rename_i here
      subst here
      cases held
      exact new
    · exact inv.held r v held
  exact ⟨kept.known,kept.gathered,kept.staged,kept.applied⟩

def KeepsKeys (sig : K → S) (target : TargetID) (s : World K V) (table : TableRef) (batch : Int) : Prop :=
  ∀ x ∈ readDirtyKeys (s.queue table) target batch,
    x.key ∈ (coalesce sig (readDirtyKeys (s.queue table) target batch)).1

omit [DecidableEq K] in
theorem singleKeeps (sig : K → S) (target : TargetID) (s : World K V) (table) : KeepsKeys sig target s table 1 := by
  refine (coalesceKeepsIff sig _).mpr fun d hd e he _ => ?_
  have short : (readDirtyKeys (s.queue table) target 1).length ≤ 1 := length_take_le ..
  rw [mem_iff_getElem] at hd he
  obtain ⟨i,hi,rfl⟩ := hd
  obtain ⟨j,hj,rfl⟩ := he
  have same : i = j := by omega
  subst same
  rfl

omit [DecidableEq K] in
theorem gatherKeeps {table batch} (inv : Inv target s) (whole : KeepsKeys sig target s table batch) :
    Inv target (hold s table (some ⟨(coalesce sig (readDirtyKeys (s.queue table) target batch)).1,
      (coalesce sig (readDirtyKeys (s.queue table) target batch)).2,none,false⟩)) := by
  apply holdKeeps inv
  refine ⟨?_,?_,?_,?_⟩
  · intro id mem
    rw [coalesceIds] at mem
    obtain ⟨x,hx,rfl⟩ := mem_map.mp mem
    obtain ⟨d,hd,rfl⟩ := readDirtySource hx
    exact ⟨d,(memUnconsumed.mp hd).1,rfl⟩
  · intro d mem read
    rw [coalesceIds] at read
    obtain ⟨x,hx,same⟩ := mem_map.mp read
    obtain ⟨e,he,rfl⟩ := readDirtySource hx
    have eq : e = d := idDetermines (memUnconsumed.mp he).1 mem same
    rw [← eq]
    exact whole e.dirty hx
  · intro rows open_
    cases open_
  · intro done
    cases done

theorem rereadKeeps {table w} (inv : Inv target s) (held : s.work table = some w) :
    Inv target (hold s table (some { w with staged := some (rereadCurrent (s.source table) w.distinct) })) := by
  have old := inv.held table w held
  refine holdKeeps inv ⟨old.known,old.gathered,?_,old.applied⟩
  intro rows open_ k mem differs
  cases open_
  exact absurd (by simp only [rereadCurrent,if_pos mem]) differs

theorem upsertCovers {table w rows} (inv : Inv target s) (held : s.work table = some w)
    (open_ : w.staged = some rows) {ids k} (within : ∀ id ∈ ids, id ∈ w.ids)
    (old : s.target table k ≠ s.source table k → Pending s target table ids k)
    (differs : stageUpsert (s.target table) w.distinct rows k ≠ s.source table k) :
    Pending s target table ids k := by
  unfold stageUpsert at differs
  split at differs
  · rename_i mem
    cases present : rows k with
    | none =>
      rw [present] at differs
      exact old differs
    | some row =>
      rw [present] at differs
      have stale : rows k ≠ s.source table k := by rw [present]; exact differs
      obtain ⟨d,hd,key,consumed,out⟩ := (inv.held table w held).staged rows open_ k mem stale
      exact ⟨d,hd,key,consumed,fun read => out (within _ read)⟩
  · exact old differs

omit [DecidableEq K] in
theorem writeKeeps {table w} (done) {rows} (inv : Inv target s) (held : s.work table = some w)
    (covered : ∀ r k, rows r k ≠ s.source r k → Pending s target r [] k)
    (others : ∀ r v, r ≠ table → s.work r = some v → v.applied = true →
      ∀ k ∈ v.distinct, rows r k ≠ s.source r k → Pending s target r v.ids k)
    (own : done = true → ∀ k ∈ w.distinct, rows table k ≠ s.source table k → Pending s target table w.ids k) :
    Inv target { hold s table (some { w with staged := none, applied := done }) with target := rows } := by
  refine ⟨covered,?_⟩
  intro r v holds
  simp only [hold] at holds
  by_cases here : r = table
  · subst here
    rw [update_self] at holds
    cases holds
    have old := inv.held r w held
    refine ⟨old.known,old.gathered,?_,own⟩
    intro _ closed
    cases closed
  · rw [update_of_ne here] at holds
    have old := inv.held r v holds
    exact ⟨old.known,old.gathered,old.staged,others r v here holds⟩

theorem upsertKeeps {table w rows} (inv : Inv target s) (held : s.work table = some w) (open_ : w.staged = some rows) :
    Inv target { hold s table (some { w with staged := none }) with
      target := update s.target table (stageUpsert (s.target table) w.distinct rows) } := by
  refine writeKeeps w.applied inv held ?_ ?_ ?_
  · intro r k differs
    by_cases here : r = table
    · subst here
      rw [update_self] at differs
      exact upsertCovers inv held open_ (fun _ mem => absurd mem not_mem_nil) (inv.covered r k) differs
    · rw [update_of_ne here] at differs
      exact inv.covered r k differs
  · intro r v other holds done k mem differs
    rw [update_of_ne other] at differs
    exact (inv.held r v holds).applied done k mem differs
  · intro done k mem differs
    rw [update_self] at differs
    exact upsertCovers inv held open_ (fun _ read => read) ((inv.held table w held).applied done k mem) differs

def Harmless (cascade : Cascade K V) (target : TargetID) (s : World K V) (table : TableRef) : Prop :=
  ∀ w rows, s.work table = some w → w.staged = some rows → ∀ r k,
    cascade (update s.target table (stageUpsert (s.target table) w.distinct rows)) table
      (absent w.distinct rows) r k = true →
    r ≠ table ∧ (s.source r k ≠ none → Pending s target r [] k ∧
      ∀ v, s.work r = some v → v.applied = true → k ∈ v.distinct → Pending s target r v.ids k)

theorem applyKeeps {table w rows} (inv : Inv target s) (held : s.work table = some w)
    (open_ : w.staged = some rows) (harmless : Harmless cascade target s table) :
    Inv target { hold s table (some { w with staged := none, applied := true }) with
      target := deleteAbsent cascade
        (update s.target table (stageUpsert (s.target table) w.distinct rows)) table
        (absent w.distinct rows) } := by
  have fallen := harmless w rows held open_
  -- a deleted key was absent when it was re-read
  have dropped : ∀ k ∈ absent w.distinct rows, none ≠ s.source table k → Pending s target table w.ids k := by
    intro k mem differs
    obtain ⟨read,gone⟩ := mem_filter.mp mem
    apply (inv.held table w held).staged rows open_ k read
    rw [Option.isNone_iff_eq_none.mp gone]
    exact differs
  refine writeKeeps true inv held ?_ ?_ ?_
  · intro r k differs
    unfold deleteAbsent at differs
    split at differs
    · rename_i removed
      rcases removed with own | other
      · obtain ⟨rfl,mem⟩ := own
        exact pendingWeaken (dropped k mem differs)
      · exact ((fallen r k other).2 differs.symm).1
    · by_cases here : r = table
      · subst here
        rw [update_self] at differs
        exact upsertCovers inv held open_ (fun _ mem => absurd mem not_mem_nil) (inv.covered r k) differs
      · rw [update_of_ne here] at differs
        exact inv.covered r k differs
  · intro r v other holds done k mem differs
    unfold deleteAbsent at differs
    split at differs
    · rename_i removed
      rcases removed with own | lost
      · exact absurd own.1 other
      · exact ((fallen r k lost).2 differs.symm).2 v holds done mem
    · rw [update_of_ne other] at differs
      exact (inv.held r v holds).applied done k mem differs
  · intro _ k mem differs
    unfold deleteAbsent at differs
    split at differs
    · rename_i removed
      rcases removed with own | lost
      · exact dropped k own.2 differs
      · exact absurd rfl (fallen table k lost).1
    · rename_i stays
      rw [update_self] at differs
      have present : rows k ≠ none := by
        intro gone
        exact stays (.inl ⟨rfl,mem_filter.mpr ⟨mem,by simp [gone]⟩⟩)
      apply (inv.held table w held).staged rows open_ k mem
      unfold stageUpsert at differs
      rw [if_pos mem] at differs
      cases row : rows k with
      | none => exact absurd row present
      | some v => rw [row] at differs; exact differs

omit [DecidableEq K] in
theorem confirmKeeps {table w} (inv : Inv target s) (held : s.work table = some w) (done : w.applied = true) :
    Inv target { hold s table none with
      queue := update s.queue table (confirmConsumed (s.queue table) target w.ids) } := by
  have old := inv.held table w held
  have spared : ∀ {k}, Pending s target table w.ids k →
      Pending { hold s table none with
        queue := update s.queue table (confirmConsumed (s.queue table) target w.ids) }
        target table [] k := by
    intro k pending
    obtain ⟨d,hd,key,open_,out⟩ := pending
    refine ⟨d,by simpa [confirmConsumed] using hd,key,?_,not_mem_nil⟩
    simp only [update_self,confirmedIff]
    intro consumed
    rcases consumed with before | now
    · exact open_ before
    · exact out now.2
  refine ⟨?_,?_⟩
  · intro r k differs
    by_cases here : r = table
    · subst here
      apply spared
      -- the delta that covered the difference may be among the confirmed ids
      obtain ⟨d,hd,key,open_,_⟩ := inv.covered r k differs
      by_cases read : d.id ∈ w.ids
      · have mem := old.gathered d hd read
        rw [key] at mem
        exact old.applied done k mem differs
      · exact ⟨d,hd,key,open_,read⟩
    · obtain ⟨d,hd,rest⟩ := inv.covered r k differs
      refine ⟨d,?_,?_⟩ <;> simp only [update_of_ne here]
      · exact hd
      · exact rest
  · intro r v holds
    simp only [hold] at holds
    by_cases here : r = table
    · subst here
      rw [update_self] at holds
      cases holds
    · rw [update_of_ne here] at holds
      have kept := inv.held r v holds
      refine ⟨?_,?_,?_,?_⟩ <;> simp only [Pending,hold,update_of_ne here]
      · exact kept.known
      · exact kept.gathered
      · exact kept.staged
      · exact kept.applied

def HarmlessStep (cascade : Cascade K V) (sig : K → S) (target : TargetID) (s : World K V) : Action K V → Prop
  | .gather table batch => KeepsKeys sig target s table batch
  | .apply table => Harmless cascade target s table
  | _ => True

theorem stepTaken {a} (ok : step cascade sig target s a = some t) : Taken cascade sig target s a t := by
  cases a with
  | commit changes => exact .commit ok
  | gather table batch =>
    simp only [step,gather] at ok
    split at ok <;> try contradiction
    rename_i idle
    split at ok <;> try contradiction
    split at ok <;> cases ok
    · exact .nothing
    · exact .gather (Bool.eq_false_iff.mpr idle)
  | gathered => cases ok; exact .gathered
  | reread table =>
    simp only [step,bind,Option.bind_eq_some_iff] at ok
    obtain ⟨w,held,ok⟩ := ok
    split at ok <;> try contradiction
    rename_i applying
    cases ok
    exact .reread held applying
  | upsert table =>
    simp only [step,bind,Option.bind_eq_some_iff] at ok
    obtain ⟨w,held,rows,open_,ok⟩ := ok
    cases ok
    exact .upsert held open_
  | apply table =>
    simp only [step,bind,Option.bind_eq_some_iff] at ok
    obtain ⟨w,held,rows,open_,ok⟩ := ok
    cases ok
    exact .apply held open_
  | confirm table =>
    simp only [step,bind,Option.bind_eq_some_iff] at ok
    obtain ⟨w,held,ok⟩ := ok
    split at ok <;> try contradiction
    rename_i done
    cases ok
    exact .confirm held done
  | stop => cases ok; exact .stop

theorem stepKeeps {a} (inv : Inv target s) (harmless : HarmlessStep cascade sig target s a)
    (ok : step cascade sig target s a = some t) : Inv target t := by
  cases stepTaken ok with
  | commit ok => exact commitKeeps inv ok
  | nothing => exact inv
  | gather => exact gatherKeeps inv harmless
  | gathered => exact ⟨inv.covered,fun r w held => ⟨(inv.held r w held).known,(inv.held r w held).gathered,
      (inv.held r w held).staged,(inv.held r w held).applied⟩⟩
  | reread held => exact rereadKeeps inv held
  | upsert held open_ => exact upsertKeeps inv held open_
  | apply held open_ => exact applyKeeps inv held open_ harmless
  | confirm held done => exact confirmKeeps inv held done
  | stop => exact ⟨inv.covered,fun r w held => nomatch held⟩

theorem stepSource {a} (other : ∀ changes, a ≠ .commit changes) (ok : step cascade sig target s a = some t) :
    t.source = s.source := by
  cases stepTaken ok with
  | commit => exact absurd rfl (other _)
  | _ => rfl

omit [DecidableEq K]

theorem invInitial (agree : s.target = s.source) (idle : ∀ r, s.work r = none) : Inv target s := by
  refine ⟨?_,?_⟩
  · intro r k differs
    exact absurd (congrFun (congrFun agree r) k) differs
  · intro r w held
    rw [idle r] at held
    cases held

theorem pendingUnconsumed {r k} (pending : Pending s target r [] k) : ∃ d ∈ unconsumed (s.queue r) target, d.key = k := by
  obtain ⟨d,hd,key,open_,_⟩ := pending
  exact ⟨d,memUnconsumed.mpr ⟨hd,open_⟩,key⟩

theorem drainedAgrees (inv : Inv target s) (drained : ∀ r, unconsumed (s.queue r) target = []) : s.target = s.source := by
  funext r k
  by_contra differs
  obtain ⟨d,hd,_⟩ := pendingUnconsumed (inv.covered r k differs)
  rw [drained r] at hd
  exact absurd hd not_mem_nil

end Invariant

theorem noLostUpdate {sig : K → S} {target : TargetID} (mapped : MapsReadKeys sig)
    {s t : World K V} {actions} (agree : s.target = s.source) (idle : ∀ r, s.work r = none)
    (ok : Runs.run (step noCascade sig target) s actions = some t) :
    (∀ r k, t.target r k ≠ t.source r k → ∃ d ∈ unconsumed (t.queue r) target, d.key = k) ∧
    ((∀ r, unconsumed (t.queue r) target = []) → t.target = t.source) := by
  have harmless : ∀ (s : World K V) a, HarmlessStep noCascade sig target s a := by
    intro s a
    cases a with
    | gather table batch => exact fun x mem => (mapped _ _).mpr ⟨x,mem,rfl⟩
    | apply table => exact fun w rows _ _ r k lost => absurd lost Bool.false_ne_true
    | _ => trivial
  have inv : Inv target t := Runs.runInvariant (P := Inv target)
    (fun s a t inv ok => stepKeeps inv (harmless s a) ok) ok (invInitial agree idle)
  exact ⟨fun r k differs => pendingUnconsumed (inv.covered r k differs),drainedAgrees inv⟩

def oneColumn (key : Bytes) : Bytes := keySignature [some key]

theorem oneColumnMapped : MapsReadKeys oneColumn := by
  apply mapsReadKeysOfInjective
  intro a b same
  simpa [oneColumn,keySignature,part] using same

def blank : World K V := ⟨fun _ _ => none,fun _ _ => none,fun _ => .empty,false,fun _ => none⟩

def deleteRace : List (Action Bytes Nat) :=
  [.commit [⟨orders,some 5,⟨2,.insert,[97],0⟩⟩],.gather orders 10,.gathered,
    .commit [⟨orders,none,⟨1,.delete,[97],0⟩⟩],.reread orders,.apply orders,.confirm orders,.stop]

theorem noLostUpdateDeleteRace : ∃ t, Runs.run (step noCascade oneColumn "t") blank deleteRace = some t ∧
      (unconsumed (t.queue orders) "t").map Delta.id = [1] ∧
      (∀ r k, t.target r k ≠ t.source r k → ∃ d ∈ unconsumed (t.queue r) "t", d.key = k) ∧
      ((∀ r, unconsumed (t.queue r) "t" = []) → t.target = t.source) := by
  have ok := (rfl : Runs.run (step noCascade oneColumn "t") blank deleteRace = _)
  exact ⟨_,ok,by decide,noLostUpdate oneColumnMapped rfl (fun _ => rfl) ok⟩

end Replicare.Drain
