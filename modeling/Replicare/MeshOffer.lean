import Replicare.MeshInvariant

/-! Records written at one member: a captured row event and the version-guarded
apply of a batch are two ways of offering records to its last-writer registers. -/
namespace Replicare.Mesh
open Engine Consume Purge Hlc MeshApply LastWriter List Function

variable {K V N : Type*} {name : N ↪ TargetID} {base : K → Option V} {loads : Prop} {s : World K V N} {i j : N}

theorem captureAllSpec {now} {stamps : List (Stamped K V)} {q q' : Queue K} (ok : captureAll now stamps q = some q') :
    q'.track = q.track ∧ (∀ d, d ∈ q'.deltas ↔ d ∈ q.deltas ∨ ∃ c ∈ stamps, d = ⟨c.id,c.op,c.key,now⟩) ∧
    ∀ c ∈ stamps, Fresh q c.id := by
  induction stamps generalizing q with
  | nil =>
    cases ok
    exact ⟨rfl,fun d => by simp,fun c mem => absurd mem not_mem_nil⟩
  | cons c rest ih =>
    simp only [captureAll,foldlM_cons,bind,Option.bind_eq_some_iff] at ok
    obtain ⟨mid,first,later⟩ := ok
    split at first <;> try contradiction
    rename_i fresh
    cases first
    obtain ⟨track,deltas,free⟩ := ih later
    refine ⟨track,fun d => ?_,fun x mem => ?_⟩
    · rw [deltas d]
      simp only [capture,mem_cons,exists_eq_or_imp]
      tauto
    · rcases mem_cons.mp mem with rfl | mem
      · exact fresh
      · exact ⟨fun d hd => (free x mem).1 d (mem_cons_of_mem _ hd),(free x mem).2⟩

structure Captures (s : World K V N) (i : N) (v : Version N) (stamps : List (Stamped K V)) (q : Queue K) : Prop where
  node : v.node = i
  later : (s.member i).clock < v.stamp
  distinct : (stamps.map Stamped.key).Nodup
  track : q.track = (s.member i).queue.track
  old : ∀ d ∈ (s.member i).queue.deltas, d ∈ q.deltas
  new : ∀ c ∈ stamps, ∃ d ∈ q.deltas, d.key = c.key ∧ (∀ l, ¬Consumed q l d.id) ∧
    ∀ e ∈ (s.member i).queue.deltas, e.id ≠ d.id
  source : ∀ d ∈ q.deltas, d ∈ (s.member i).queue.deltas ∨
    (∃ c ∈ stamps, d.key = c.key) ∧ ∀ e ∈ (s.member i).queue.deltas, e.id ≠ d.id

theorem capturesOf {pt now} {stamps : List (Stamped K V)} {q} (distinct : (stamps.map Stamped.key).Nodup)
    (ok : captureAll now stamps (s.member i).queue = some q) :
    Captures s i ⟨(tick (s.member i).clock pt).physical,(tick (s.member i).clock pt).logical,i⟩ stamps q := by
  obtain ⟨track,deltas,fresh⟩ := captureAllSpec ok
  refine ⟨rfl,tickAdvances _ pt,distinct,track,fun d mem => (deltas d).mpr (.inl mem),fun c mem => ?_,fun d mem => ?_⟩
  · refine ⟨⟨c.id,c.op,c.key,now⟩,(deltas _).mpr (.inr ⟨c,mem,rfl⟩),rfl,fun l held => ?_,(fresh c mem).1⟩
    unfold Consumed at held
    rw [track] at held
    exact (fresh c mem).2 _ held rfl
  · rcases (deltas d).mp mem with old | ⟨c,hc,rfl⟩
    · exact .inl old
    · exact .inr ⟨⟨c,hc,rfl⟩,(fresh c hc).1⟩

theorem recordKeys (v : Version N) (stamps : List (Stamped K V)) :
    (stamps.map (Stamped.record v)).map Record.key = stamps.map Stamped.key := by
  simp [Stamped.record,comp_def]

section Capture
variable {v : Version N} {stamps : List (Stamped K V)} {q : Queue K} (captures : Captures s i v stamps q)
include captures

theorem capturePending {t : World K V N} (queue : (t.member i).queue = q) {l except k} (held : Pending name s i l except k) :
    Pending name t i l except k := by
  obtain ⟨d,hd,key,left,out⟩ := held
  refine ⟨d,?_,key,?_,out⟩
  · rw [queue]
    exact captures.old d hd
  · unfold Consumed at left ⊢
    rw [queue,captures.track]
    exact left

theorem captureOutside {t : World K V N} (queue : (t.member i).queue = q) {c} (mem : c ∈ stamps) (l) {ids}
    (held : ∀ id ∈ ids, ∃ d ∈ (s.member i).queue.deltas, d.id = id) : Pending name t i l ids c.key := by
  obtain ⟨d,hd,key,left,apart⟩ := captures.new c mem
  refine ⟨d,?_,key,?_,fun listed => ?_⟩
  · rw [queue]
    exact hd
  · rw [queue]
    exact left (name l)
  · obtain ⟨e,he,same⟩ := held _ listed
    exact apart e he same

variable [LinearOrder N]

theorem capturePass {t} (queue : (t.member i).queue = q)
    (log : t.log = s.log++stamps.map (Stamped.record v)) {l p} (more : ∀ x ∈ s.accepted l, x ∈ t.accepted l)
    (pass : PassInv name s i l p) : PassInv name t i l p := by
  have carried : ∀ k, Pending name s i l p.ids k → Pending name t i l p.ids k := fun k => capturePending captures queue
  have outside : ∀ r ∈ stamps.map (Stamped.record v), Pending name t i l p.ids r.key := by
    intro r mem
    obtain ⟨c,hc,rfl⟩ := mem_map.mp mem
    exact captureOutside captures queue hc l pass.queued
  refine ⟨pass.apart,fun id mem => ?_,fun id mem => ?_,fun k mem => ?_,fun d mem listed => ?_,pass.distinct,
    pass.separate,fun recs staged r mem => ?_,fun recs staged r mem node key => ?_,fun done r mem node key => ?_⟩
  · have left := pass.unconsumed id mem
    unfold Consumed at left ⊢
    rw [queue,captures.track]
    exact left
  · obtain ⟨d,hd,same⟩ := pass.queued id mem
    rw [queue]
    exact ⟨d,captures.old d hd,same⟩
  · obtain ⟨d,hd,key,listed⟩ := pass.keys k mem
    rw [queue]
    exact ⟨d,captures.old d hd,key,listed⟩
  · rw [queue] at mem
    rcases captures.source d mem with old | ⟨_,apart⟩
    · exact pass.covered d old listed
    · obtain ⟨e,he,same⟩ := pass.queued _ listed
      exact absurd same (apart e he)
  · rw [log]
    exact ⟨mem_append_left _ (pass.source recs staged r mem).1,(pass.source recs staged r mem).2⟩
  · rw [log] at mem
    rcases mem_append.mp mem with old | new
    · exact (pass.fresh recs staged r old node key).imp id (carried _)
    · exact .inr (outside r new)
  · rw [log] at mem
    rcases mem_append.mp mem with old | new
    · exact (pass.shipped done r old node key).imp (seenMono more) (carried _)
    · exact .inr (outside r new)

end Capture

variable [LinearOrder N]

def World.offer (s : World K V N) (j : N) (m : Member K V N) (rs log : List (Record K V N)) : World K V N :=
  { (s.set j m).accept j rs with log := log }

section Offer
variable {m : Member K V N} {rs log : List (Record K V N)}

theorem offerSelf (s : World K V N) (j m rs log) :
    (s.offer j m rs log).member j = m ∧ (s.offer j m rs log).accepted j = s.accepted j++rs :=
  ⟨setSelf s j m,update_self ..⟩

theorem offerOther (s : World K V N) {j x : N} (m rs log) (apart : x ≠ j) :
    (s.offer j m rs log).member x = s.member x ∧ (s.offer j m rs log).accepted x = s.accepted x :=
  ⟨setOther s m apart,update_of_ne apart ..⟩

theorem offerCases {x r} (mem : r ∈ (s.offer j m rs log).accepted x) : r ∈ s.accepted x ∨ x = j ∧ r ∈ rs := by
  by_cases same : x = j
  · subst same
    rw [(offerSelf s x m rs log).2] at mem
    exact (mem_append.mp mem).imp id fun new => ⟨rfl,new⟩
  · rw [(offerOther s m rs log same).2] at mem
    exact .inl mem

theorem offerMore (s : World K V N) (j m rs log x) : ∀ r ∈ s.accepted x, r ∈ (s.offer j m rs log).accepted x := by
  intro r mem
  by_cases same : x = j
  · subst same
    rw [(offerSelf s x m rs log).2]
    exact mem_append_left _ mem
  · rw [(offerOther s m rs log same).2]
    exact mem

variable [DecidableEq K]

theorem guardAdmits (inv : Inv name base loads s) {x} (flying : InFlight s i j x) (mem : x ∈ s.log)
    (wins : meshVersionGreater (s.member j).replica.register x = true) :
    absorb Record.version (winner (s.accepted j) x.key) x = some x ∨
    ∃ m, winner (s.accepted j) x.key = some m ∧ absorb Record.version (winner (s.accepted j) x.key) x = some m ∧
      m.row = none ∧ x.row = none ∧ Outlived s x.key m.version ∧ x.version ≤ m.version := by
  cases won : winner (s.accepted j) x.key with
  | none => exact .inl rfl
  | some m =>
    by_cases newer : m.version < x.version
    · exact .inl (if_pos newer)
    · rcases inv.settled j x.key with settled | ⟨w,same,gone,outlived,_⟩
      · rw [won] at settled
        simp only [meshVersionGreater,settled,Option.map_some,decide_eq_true_eq] at wins
        exact absurd wins newer
      · rw [won] at same
        cases same
        refine .inr ⟨m,rfl,if_neg newer,gone,?_,outlived,not_lt.mp newer⟩
        by_contra alive
        have above := outlived.flying i j x flying rfl (Option.isNone_eq_false_iff.mpr (Option.isSome_iff_ne_none.mpr alive))
        obtain ⟨inside,key,_⟩ := winnerTop won
        have equal := inv.coherent m (inv.logged j m inside) x mem key (le_antisymm above (not_lt.mp newer))
        exact alive (equal ▸ gone)

/- Records that are written at one member, as an apply or as a captured row event. -/
structure Offers (s : World K V N) (j : N) (m : Member K V N) (rs log : List (Record K V N)) : Prop where
  separate : (rs.map Record.key).Nodup
  effect : ∀ k, (∃ r ∈ rs, r.key = k ∧ m.replica.rows k = r.row ∧ m.replica.register k = some r.entry) ∨
    (∀ r ∈ rs, r.key ≠ k) ∧ m.replica.rows k = (s.member j).replica.rows k ∧
      m.replica.register k = (s.member j).replica.register k
  admitted : ∀ r ∈ rs, absorb Record.version (winner (s.accepted j) r.key) r = some r ∨
    ∃ w, winner (s.accepted j) r.key = some w ∧ absorb Record.version (winner (s.accepted j) r.key) r = some w ∧
      w.row = none ∧ r.row = none ∧ Outlived s r.key w.version ∧ r.version ≤ w.version
  guarded : ∀ r ∈ rs, ∀ e, (s.member j).replica.register r.key = some e → e.version < r.version
  outlives : ∀ r ∈ rs, ∀ v, Outlived s r.key v → r.deleted = false → v ≤ r.version
  clock : (s.member j).clock ≤ m.clock
  observed : ∀ r ∈ rs, r.version.stamp ≤ m.clock
  logged : ∀ r ∈ rs, r ∈ log
  grows : ∀ r ∈ s.log, r ∈ log
  own : ∀ r ∈ log, r ∈ s.log ∨ r ∈ rs ∧ r.version.node = j
  coherent : ∀ r ∈ log, ∀ x ∈ log, r.key = x.key → r.version = x.version → r = x
  deltas : ∀ d ∈ m.queue.deltas, d ∈ (s.member j).queue.deltas ∨ ∃ r ∈ rs, r.key = d.key ∧
    absorb Record.version (winner (s.accepted j) r.key) r = some r

variable (offers : Offers s j m rs log)
include offers

theorem offerOutlived {k v} (old : Outlived s k v) : Outlived (s.offer j m rs log) k v := by
  refine ⟨fun x => ?_,fun x e held alive => ?_,old.flying⟩
  · exact setEach (P := fun _ n => v.stamp ≤ n.clock) ((old.clocks j).trans offers.clock) (fun x _ => old.clocks x) x
  · by_cases same : x = j
    · subst same
      rw [(offerSelf s x m rs log).1] at held
      rcases offers.effect k with ⟨r,mem,rfl,_,entry⟩ | ⟨_,_,register⟩
      · rw [entry] at held
        cases held
        exact offers.outlives r mem v old alive
      · rw [register] at held
        exact old.registers x e held alive
    · rw [(offerOther s m rs log same).1] at held
      exact old.registers x e held alive

section
variable (inv : Inv name base loads s)
include inv

theorem offerSettled (x k) : Settled (s.offer j m rs log) x k := by
  have lasting := fun v => offerOutlived offers (k := k) (v := v)
  unfold Settled Collected
  by_cases same : x = j
  · subst same
    rw [(offerSelf s x m rs log).1,(offerSelf s x m rs log).2]
    rcases offers.effect k with ⟨r,mem,rfl,_,entry⟩ | ⟨none,_,register⟩
    · rw [winnerOffer offers.separate mem]
      rcases offers.admitted r mem with newest | ⟨w,_,stays,gone,empty,past,below⟩
      · rw [newest]
        exact .inl entry
      · rw [stays]
        refine .inr ⟨w,rfl,gone,lasting _ past,fun e held => ?_⟩
        rw [entry] at held
        cases held
        exact ⟨Option.isNone_iff_eq_none.mpr empty,below⟩
    · rw [winnerFrame none,register]
      exact (inv.settled x k).imp id fun ⟨w,top,gone,past,older⟩ => ⟨w,top,gone,lasting _ past,older⟩
  · rw [(offerOther s m rs log same).1,(offerOther s m rs log same).2]
    exact (inv.settled x k).imp id fun ⟨w,top,gone,past,older⟩ => ⟨w,top,gone,lasting _ past,older⟩

theorem offerCurrent (x) : ∀ d ∈ ((s.offer j m rs log).member x).queue.deltas, Current (s.offer j m rs log) x d.key := by
  intro d mem
  unfold Current
  by_cases same : x = j
  · subst same
    rw [(offerSelf s x m rs log).1] at mem ⊢
    rw [(offerSelf s x m rs log).2]
    rcases offers.effect d.key with ⟨r,taken,key,_,entry⟩ | ⟨none,_,register⟩
    · have newest : absorb Record.version (winner (s.accepted x) r.key) r = some r := by
        rcases offers.deltas d mem with old | ⟨y,hy,same,newest⟩
        · obtain ⟨w,top,held⟩ := inv.current x d old
          rw [← key] at top held
          rw [top]
          exact if_pos (offers.guarded r taken _ held)
        · rw [inj_on_of_nodup_map offers.separate taken hy (key.trans same.symm)]
          exact newest
      rw [← key] at entry ⊢
      rw [winnerOffer offers.separate taken]
      exact ⟨r,newest,entry⟩
    · rw [winnerFrame none,register]
      rcases offers.deltas d mem with old | ⟨y,hy,same,_⟩
      · exact inv.current x d old
      · exact absurd same (none y hy)
  · rw [(offerOther s m rs log same).1] at mem ⊢
    rw [(offerOther s m rs log same).2]
    exact inv.current x d mem

theorem offerRows (x k) : RowShown base (s.offer j m rs log) x k := by
  -- an unseen change of a key nothing was offered for stays unseen
  have unseen : (x = j → ∀ r ∈ rs, r.key ≠ k) → (∃ r ∈ s.log, r.key = k ∧ ¬Seen s x r) →
      ∃ r ∈ log, r.key = k ∧ ¬Seen (s.offer j m rs log) x r := by
    rintro none ⟨r,mem,key,unseen⟩
    refine ⟨r,offers.grows r mem,key,fun ⟨y,hy,same,above⟩ => ?_⟩
    rcases offerCases hy with old | ⟨here,taken⟩
    · exact unseen ⟨y,old,same,above⟩
    · exact none here y taken (same.trans key)
  unfold RowShown
  by_cases same : x = j
  · subst same
    rw [(offerSelf s x m rs log).1,(offerSelf s x m rs log).2]
    rcases offers.effect k with ⟨r,mem,rfl,row,_⟩ | ⟨none,row,register⟩
    · rw [winnerOffer offers.separate mem]
      rcases offers.admitted r mem with newest | ⟨w,_,stays,gone,empty,_⟩
      · rw [newest]
        exact .inl row
      · rw [stays]
        exact .inl (row.trans (empty.trans gone.symm))
    · rw [winnerFrame none,row,register]
      exact (inv.rows x k).imp id fun ⟨deleted,left⟩ => ⟨deleted,unseen (fun _ => none) left⟩
  · rw [(offerOther s m rs log same).1,(offerOther s m rs log same).2]
    exact (inv.rows x k).imp id fun ⟨deleted,left⟩ => ⟨deleted,unseen (fun here => absurd here same) left⟩

theorem offerOrdered (x) : ((s.offer j m rs log).accepted x).Pairwise NoResurrection := by
  by_cases same : x = j
  · subst same
    rw [(offerSelf s x m rs log).2]
    refine pairwise_append.mpr ⟨inv.ordered x,?_,fun e he y hy key gone alive => ?_⟩
    · exact (pairwise_map.mp offers.separate).imp fun apart key => absurd key apart
    · have newest : absorb Record.version (winner (s.accepted x) y.key) y = some y := by
        rcases offers.admitted y hy with newest | ⟨w,_,_,_,empty,_⟩
        · exact newest
        · rw [Record.deleted,empty] at alive
          cases alive
      cases top : winner (s.accepted x) y.key with
      | none => exact absurd key (winnerNone.mp top e he)
      | some w =>
        have below := ((winnerTop top).2.2 e he key).trans ((absorbBound newest).2 w top)
        refine lt_of_le_of_ne below fun equal => ?_
        have inLog := offers.grows e (inv.logged x e he)
        rw [offers.coherent e inLog y (offers.logged y hy) key equal,alive] at gone
        cases gone
  · rw [(offerOther s m rs log same).2]
    exact inv.ordered x

theorem offerKeeps (passes : ∀ a b p, s.edge a b = some p → PassInv name (s.offer j m rs log) a b p)
    (missed : ∀ a b r, Missed name (s.offer j m rs log) a b r → Missed name s a b r)
    (pending : ∀ a b r, Open s a b r.key → Missed name s a b r → Pending name (s.offer j m rs log) j b [] r.key →
      Pending name s j b [] r.key ∨ ∃ y ∈ rs, y.key = r.key ∧ r.version < y.version)
    (beats : ∀ a r, Open s a j r.key → Missed name s a j r → ∀ y ∈ rs, y.key = r.key → r.version < y.version) :
    Inv name base loads (s.offer j m rs log) := by
  refine ⟨offers.coherent,?_,fun r mem => offers.grows r (inv.written r mem),?_,?_,
    offerSettled offers inv,offerCurrent offers inv,offerRows offers inv,passes,?_,
    offerOrdered offers inv⟩
  · intro x r mem
    rcases offerCases mem with old | ⟨_,taken⟩
    · exact offers.grows r (inv.logged x r old)
    · exact offers.logged r taken
  · intro r mem
    rcases offers.own r mem with old | ⟨taken,rfl⟩
    · exact offerMore s j m rs log _ r (inv.own r old)
    · rw [(offerSelf s _ m rs log).2]
      exact mem_append_right _ taken
  · intro x r mem
    by_cases same : x = j
    · subst same
      rw [(offerSelf s x m rs log).1]
      rcases offerCases mem with old | ⟨_,taken⟩
      · exact (inv.clocks x r old).trans offers.clock
      · exact offers.observed r taken
    · rw [(offerOther s m rs log same).1]
      rw [(offerOther s m rs log same).2] at mem
      exact inv.clocks x r mem
  · intro a b r opened now
    have before := missed a b r now
    obtain ⟨loads,repaired⟩ := inv.repaired a b r opened before
    refine ⟨loads,⟨fun x held => ?_,repaired.flying⟩,fun newest => ?_⟩
    · by_cases same : x = j
      · subst same
        rw [(offerSelf s x m rs log).1]
        rcases offers.effect r.key with ⟨y,taken,key,_,entry⟩ | ⟨none,_,register⟩
        · refine ⟨y.entry,entry,?_⟩
          rcases pending a b r opened before held with old | ⟨z,hz,same,newer⟩
          · obtain ⟨e,had,newer⟩ := repaired.pending x old
            rw [← key] at had
            exact newer.trans (offers.guarded y taken e had)
          · rw [inj_on_of_nodup_map offers.separate taken hz (key.trans same.symm)]
            exact newer
        · rw [register]
          rcases pending a b r opened before held with old | ⟨z,hz,same,_⟩
          · exact repaired.pending x old
          · exact absurd same (none z hz)
      · have old := (pendingSame (congrArg Member.queue (offerOther s m rs log same).1)).mp held
        rw [(offerOther s m rs log same).1]
        exact repaired.pending x old
    · have first := repaired.row fun y hy => newest y (offers.grows y hy)
      by_cases same : b = j
      · subst same
        rw [(offerSelf s b m rs log).1]
        rcases offers.effect r.key with ⟨y,taken,key,_⟩ | ⟨_,row,_⟩
        · exact absurd (newest y (offers.logged y taken) key) (not_le.mpr (beats a r opened before y taken key))
        · rw [row]
          exact first
      · rw [(offerOther s m rs log same).1]
        exact first

end

end Offer

variable [DecidableEq K]

theorem applyOffers (dialect phase) {recs c} (inv : Inv name base loads s) (flying : ∀ r ∈ recs, InFlight s i j r)
    (distinct : (recs.map Record.key).Nodup) (logged : ∀ r ∈ recs, r ∈ s.log) (later : (s.member j).clock ≤ c)
    (observed : ∀ r ∈ recs, r.version.stamp ≤ c) :
    Offers s j { s.member j with replica := applyBatch dialect phase (s.member j).replica recs, clock := c }
      (accepts phase (s.member j).replica recs) s.log := by
  have inside : ∀ r ∈ accepts phase (s.member j).replica recs, r ∈ recs := fun r mem =>
    (acceptsSublist phase _ recs).subset mem
  have wins : ∀ r ∈ accepts phase (s.member j).replica recs, meshVersionGreater (s.member j).replica.register r = true :=
    fun r mem => (mem_filter.mp mem).2
  refine ⟨distinct.sublist ((acceptsSublist phase _ recs).map Record.key),applyBatchKey dialect phase distinct,?_,?_,
    ?_,later,?_,?_,fun _ mem => mem,fun _ mem => .inl mem,inv.coherent,fun _ mem => .inl mem⟩
  · exact fun r mem => guardAdmits inv (flying r (inside r mem)) (logged r (inside r mem)) (wins r mem)
  · intro r mem e held
    have newer := wins r mem
    simpa only [meshVersionGreater,held,decide_eq_true_eq] using newer
  · exact fun r mem v past alive => past.flying i j r (flying r (inside r mem)) rfl alive
  · exact fun r mem => observed r (inside r mem)
  · exact fun r mem => logged r (inside r mem)

theorem applyKeeps (dialect phase) {recs c} (inv : Inv name base loads s) (flying : ∀ r ∈ recs, InFlight s i j r)
    (distinct : (recs.map Record.key).Nodup) (logged : ∀ r ∈ recs, r ∈ s.log) (later : (s.member j).clock ≤ c)
    (observed : ∀ r ∈ recs, r.version.stamp ≤ c) :
    Inv name base loads (s.offer j { s.member j with
      replica := applyBatch dialect phase (s.member j).replica recs, clock := c }
        (accepts phase (s.member j).replica recs) s.log) := by
  have offers := applyOffers dialect phase inv flying distinct logged later observed
  have queues : ∀ x, ((s.offer j { s.member j with replica := applyBatch dialect phase (s.member j).replica recs, clock := c }
      (accepts phase (s.member j).replica recs) s.log).member x).queue = (s.member x).queue := setPart Member.queue rfl
  refine offerKeeps offers inv ?_ ?_ ?_ ?_
  · exact fun a b p busy => passMono (inv.passes a b p busy) (queues a) (fun _ mem => mem) (fun _ mem _ => mem)
      (offerMore s j _ _ _ b)
  · exact fun a b r missed => missedBefore missed (queues a) rfl (offerMore s j _ _ _ b)
  · exact fun a b r _ _ held => .inl ((pendingSame (queues j)).mp held)
  · intro a r opened missed y mem key
    exact (inv.repaired a j r opened missed).2.flying i y (flying y ((acceptsSublist phase _ recs).subset mem)) key

section Capture
variable {v : Version N} {stamps : List (Stamped K V)} {q : Queue K}

omit [LinearOrder N] in
theorem stampAllKey (v : Version N) (distinct : (stamps.map Stamped.key).Nodup) (n : Replica K V N) (k) :
    (∃ r ∈ stamps.map (Stamped.record v), r.key = k ∧ (stampAll v stamps n).rows k = r.row ∧
      (stampAll v stamps n).register k = some r.entry) ∨
    (∀ r ∈ stamps.map (Stamped.record v), r.key ≠ k) ∧ (stampAll v stamps n).rows k = n.rows k ∧
      (stampAll v stamps n).register k = n.register k := by
  by_cases present : ∃ c ∈ stamps, c.key = k
  · obtain ⟨c,mem,rfl⟩ := present
    exact .inl ⟨c.record v,mem_map.mpr ⟨c,mem,rfl⟩,rfl,writeAllAt distinct mem,writeAllAt distinct mem⟩
  · have apart : ∀ c ∈ stamps, c.key ≠ k := fun c mem same => present ⟨c,mem,same⟩
    refine .inr ⟨fun r mem => ?_,writeAllFrame apart,writeAllFrame apart⟩
    obtain ⟨c,hc,rfl⟩ := mem_map.mp mem
    exact apart c hc

variable {m : Member K V N} (captures : Captures s i v stamps q)
include captures

theorem capturedAbove (inv : Inv name base loads s) {r} (mem : r ∈ s.accepted i) : r.version < v :=
  stampLt ((inv.clocks i r mem).trans_lt captures.later)

theorem captureOffers (inv : Inv name base loads s) (replica : m.replica = stampAll v stamps (s.member i).replica)
    (clock : m.clock = v.stamp) (queue : m.queue = q) :
    Offers s i m (stamps.map (Stamped.record v)) (s.log++stamps.map (Stamped.record v)) := by
  have version : ∀ r ∈ stamps.map (Stamped.record v), r.version = v := by
    intro r mem
    obtain ⟨c,_,rfl⟩ := mem_map.mp mem
    rfl
  have keys := (recordKeys v stamps).symm ▸ captures.distinct
  have newest : ∀ r ∈ stamps.map (Stamped.record v), absorb Record.version (winner (s.accepted i) r.key) r = some r := by
    intro r mem
    cases top : winner (s.accepted i) r.key with
    | none => rfl
    | some w => exact if_pos ((version r mem).symm ▸ capturedAbove captures inv (winnerTop top).1)
  -- an old version of this member lies below the new one
  have apart : ∀ r ∈ s.log, r.version ≠ v := by
    intro r mem same
    have own := inv.own r mem
    rw [same,captures.node] at own
    exact absurd same (capturedAbove captures inv own).ne
  refine ⟨keys,?_,fun r mem => .inl (newest r mem),?_,?_,?_,?_,?_,?_,?_,?_,?_⟩
  · rw [replica]
    exact stampAllKey v captures.distinct _
  · intro r mem e held
    obtain ⟨w,top,below⟩ := entrySeen (inv.settled i r.key) held
    rw [version r mem]
    exact below.trans_lt (capturedAbove captures inv (winnerTop top).1)
  · intro r mem u past _
    rw [version r mem]
    exact (stampLt ((past.clocks i).trans_lt captures.later)).le
  · rw [clock]
    exact captures.later.le
  · intro r mem
    rw [version r mem,clock]
  · exact fun r mem => mem_append_right _ mem
  · exact fun r mem => mem_append_left _ mem
  · intro r mem
    refine (mem_append.mp mem).imp id fun new => ⟨new,?_⟩
    rw [version r new]
    exact captures.node
  · intro r hr x hx key same
    rcases mem_append.mp hr with oldR | newR
    · rcases mem_append.mp hx with oldX | newX
      · exact inv.coherent r oldR x oldX key same
      · exact absurd (same.trans (version x newX)) (apart r oldR)
    · rcases mem_append.mp hx with oldX | newX
      · exact absurd (same.symm.trans (version r newR)) (apart x oldX)
      · exact inj_on_of_nodup_map keys newR newX key
  · intro d mem
    rw [queue] at mem
    rcases captures.source d mem with old | ⟨⟨c,hc,key⟩,_⟩
    · exact .inl old
    · have taken : c.record v ∈ stamps.map (Stamped.record v) := mem_map.mpr ⟨c,hc,rfl⟩
      exact .inr ⟨c.record v,taken,key.symm,newest _ taken⟩

theorem captureKeeps (inv : Inv name base loads s)
    (careful : ∀ c ∈ stamps, ∀ a b r, Open s a b r.key → Missed name s a b r → r.key = c.key →
      r.version.stamp ≤ (s.member i).clock) :
    Inv name base loads (s.offer i ⟨stampAll v stamps (s.member i).replica,v.stamp,q⟩ (stamps.map (Stamped.record v))
      (s.log++stamps.map (Stamped.record v))) := by
  have offers := captureOffers captures inv (m := ⟨stampAll v stamps (s.member i).replica,v.stamp,q⟩) rfl rfl rfl
  have self := offerSelf s i ⟨stampAll v stamps (s.member i).replica,v.stamp,q⟩ (stamps.map (Stamped.record v))
    (s.log++stamps.map (Stamped.record v))
  have other : ∀ {x}, x ≠ i → _ := fun {x} => offerOther s (x := x) ⟨stampAll v stamps (s.member i).replica,v.stamp,q⟩
    (stamps.map (Stamped.record v)) (s.log++stamps.map (Stamped.record v))
  have queue := congrArg Member.queue self.1
  have newer : ∀ a b r, Open s a b r.key → Missed name s a b r → ∀ y ∈ stamps.map (Stamped.record v),
      y.key = r.key → r.version < y.version := by
    intro a b r opened missed y mem key
    obtain ⟨c,hc,rfl⟩ := mem_map.mp mem
    exact stampLt ((careful c hc a b r opened missed key.symm).trans_lt captures.later)
  refine offerKeeps offers inv (fun a b p busy => ?_) (fun a b r missed => ?_) (fun a b r opened missed held => ?_)
    fun a r opened missed => newer a i r opened missed
  · by_cases same : a = i
    · subst same
      exact capturePass captures queue rfl (offerMore s a _ _ _ b) (inv.passes a b p busy)
    · refine passMono (inv.passes a b p busy) (congrArg Member.queue (other same).1)
        (fun r mem => mem_append_left _ mem) (fun r mem node => ?_) (offerMore s i _ _ _ b)
      rcases mem_append.mp mem with old | new
      · exact old
      · obtain ⟨c,_,rfl⟩ := mem_map.mp new
        exact absurd (node.symm.trans captures.node) same
  · have unseen : ¬Seen s b r := fun seen => missed.unseen (seenMono (offerMore s i _ _ _ b) seen)
    rcases mem_append.mp missed.logged with old | new
    · refine ⟨old,missed.origin,unseen,fun held => missed.dropped ?_⟩
      by_cases same : a = i
      · subst same
        exact capturePending captures queue held
      · exact (pendingSame (congrArg Member.queue (other same).1)).mpr held
    · obtain ⟨c,hc,rfl⟩ := mem_map.mp new
      have here : a = i := missed.origin.symm.trans captures.node
      subst here
      exact absurd (captureOutside captures queue hc b fun id mem => absurd mem not_mem_nil) missed.dropped
  · obtain ⟨d,hd,key,left,_⟩ := held
    rw [queue] at hd left
    rcases captures.source d hd with old | ⟨⟨c,hc,same⟩,_⟩
    · refine .inl ⟨d,old,key,?_,not_mem_nil⟩
      unfold Consumed at left ⊢
      rw [captures.track] at left
      exact left
    · have taken : c.record v ∈ stamps.map (Stamped.record v) := mem_map.mpr ⟨c,hc,rfl⟩
      have named : (c.record v).key = r.key := same.symm.trans key
      exact .inr ⟨_,taken,named,newer a b r opened missed _ taken named⟩

end Capture

end Replicare.Mesh
