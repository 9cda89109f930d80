import Replicare.Drain
import Replicare.Relations

/-! Drain of a component whose target foreign keys may delete referencing rows. -/
namespace Replicare.Cascade
open Engine Consume Coalesce Drain Relations List Function

variable {S : Type*} [DecidableEq S]

/- The foreign keys the target declares ON DELETE CASCADE, and the key columns. -/
structure Schema where
  cascading : List ForeignKey
  keyCols : TableRef → List String

inductive Removed (schema : Schema) (db : Tables) (table : TableRef) (gone : List KeyValues) : TableRef → KeyValues → Prop where
  | direct {fk p parent k x} : fk ∈ schema.cascading → fk.parent = table → p ∈ gone → db table p = some parent →
      db fk.child k = some x → references fk x parent → Removed schema db table gone fk.child k
  | further {fk p parent k x} : fk ∈ schema.cascading → Removed schema db table gone fk.parent p →
      db fk.parent p = some parent → db fk.child k = some x → references fk x parent →
      Removed schema db table gone fk.child k

theorem removedSome {db table gone r k} (removed : Removed schema db table gone r k) : gone ≠ [] := by
  induction removed with
  | direct _ _ listed _ _ _ => exact ne_nil_of_mem listed
  | further _ _ _ _ _ ih => exact ih

open Classical in
noncomputable def cascadeOf (schema : Schema) : Cascade KeyValues Row :=
  fun db table gone r k => !gone.isEmpty && decide (Removed schema db table gone r k)

theorem cascadeOfIff {db table gone r k} :
    cascadeOf schema db table gone r k = true ↔ Removed schema db table gone r k := by
  simp only [cascadeOf,Bool.and_eq_true,Bool.not_eq_true',isEmpty_eq_false_iff,decide_eq_true_eq]
  exact ⟨And.right,fun removed => ⟨removedSome removed,removed⟩⟩

structure Shallow (schema : Schema) : Prop where
  flat : ∀ fk ∈ schema.cascading, ∀ g ∈ schema.cascading, fk.child ≠ g.parent
  whole : ∀ fk ∈ schema.cascading, ∀ c ∈ schema.keyCols fk.parent, c ∈ fk.parentCols

theorem removedChild {db table gone r k} (removed : Removed schema db table gone r k) :
    ∃ fk ∈ schema.cascading, fk.child = r := by
  cases removed with
  | direct mem _ _ _ _ _ => exact ⟨_,mem,rfl⟩
  | further mem _ _ _ _ => exact ⟨_,mem,rfl⟩

theorem removedDirect (shallow : Shallow schema) {db table gone r k}
    (removed : Removed schema db table gone r k) : ∃ fk ∈ schema.cascading, fk.parent = table ∧ fk.child = r ∧
      ∃ p parent x, p ∈ gone ∧ db table p = some parent ∧ db r k = some x ∧ references fk x parent := by
  cases removed with
  | direct mem same listed held row refers => exact ⟨_,mem,same,rfl,_,_,_,listed,held,row,refers⟩
  | further mem inner _ _ _ =>
    obtain ⟨g,other,same⟩ := removedChild inner
    exact absurd same (shallow.flat g other _ mem)

def heldIds (s : World KeyValues Row) (r : TableRef) : List DeltaID :=
  match s.work r with
  | some w => w.ids
  | none => []

structure Shielded (schema : Schema) (target : TargetID) (s : World KeyValues Row) : Prop where
  inv : Drain.Inv target s
  source : Keyed schema.keyCols s.source
  consistent : Consistent schema.cascading s.source
  rows : Keyed schema.keyCols s.target
  applying : ∀ r w rows, s.work r = some w → w.staged = some rows → s.applying = true
  staged : ∀ r w rows, s.work r = some w → w.staged = some rows →
    ∀ k x, rows k = some x → keyOf (schema.keyCols r) x = k
  shield : ∀ r w rows, s.work r = some w → w.staged = some rows → ∀ p ∈ w.distinct, rows p = none →
    ∀ fk ∈ schema.cascading, fk.parent = r → ∀ k x parent, s.source fk.child k = some x → references fk x parent →
      keyOf (schema.keyCols r) parent = p → Pending s target fk.child (heldIds s fk.child) k

variable {schema : Schema} {sig : KeyValues → S} {target : TargetID} {s t : World KeyValues Row}

theorem shieldedHarmless (shallow : Shallow schema) (held : Shielded schema target s) (table) :
    Harmless (cascadeOf schema) target s table := by
  intro w rows busy staged r k removed
  obtain ⟨fk,mem,parentTable,rfl,p,parent,x,listed,found,row,refers⟩ := removedDirect shallow (cascadeOfIff.mp removed)
  have apart : fk.child ≠ table := fun same => shallow.flat fk mem fk mem (same.trans parentTable.symm)
  rw [update_of_ne apart] at row
  obtain ⟨distinct,absent⟩ := mem_filter.mp listed
  have none := Option.isNone_iff_eq_none.mp absent
  rw [update_self,stageUpsert,if_pos distinct,none,Option.none_or] at found
  refine ⟨apart,fun present => ?_⟩
  by_cases same : s.target fk.child k = s.source fk.child k
  · -- the source row refers to the key staged as absent
    have pending := held.shield table w rows busy staged p distinct none fk mem parentTable k x parent
      (same ▸ row) refers (held.rows table p parent found)
    refine ⟨pendingWeaken pending,fun v holds _ _ => ?_⟩
    simpa only [heldIds,holds] using pending
  · refine ⟨held.inv.covered _ k same,fun v holds done inside => ?_⟩
    exact (held.inv.held fk.child v holds).applied done k inside same

theorem shieldedUnstaged (inv : Drain.Inv target s) (source : Keyed schema.keyCols s.source)
    (consistent : Consistent schema.cascading s.source) (rows : Keyed schema.keyCols s.target)
    (unstaged : ∀ r w, s.work r = some w → w.staged = none) : Shielded schema target s := by
  have never : ∀ r w open_, s.work r = some w → w.staged ≠ some open_ := by
    intro r w open_ holds staged
    rw [unstaged r w holds] at staged
    cases staged
  exact ⟨inv,source,consistent,rows,fun r w open_ holds staged => absurd staged (never r w open_ holds),
    fun r w open_ holds staged => absurd staged (never r w open_ holds),
    fun r w open_ holds staged => absurd staged (never r w open_ holds)⟩

theorem heldSame (work : t.work = s.work) (r) : heldIds t r = heldIds s r := by
  unfold heldIds
  rw [work]

theorem heldReplaced {table w} (v) (busy : s.work table = some w) (same : v.ids = w.ids)
    (work : t.work = update s.work table (some v)) (r) : heldIds t r = heldIds s r := by
  unfold heldIds
  rw [work]
  by_cases here : r = table
  · subst here
    simp only [update_self,busy,same]
  · simp only [update_of_ne here]

theorem changeShield {c} (inv : Drain.Inv target s) (ok : change s c = some t)
    {r k x} (row : t.source r k = some x) (old : s.source r k = some x → Pending s target r (heldIds s r) k) :
    Pending t target r (heldIds t r) k := by
  have work : t.work = s.work := by obtain ⟨_,rfl⟩ := changeCases ok; rfl
  rw [heldSame work]
  by_cases here : r = c.table ∧ k = c.delta.key
  · obtain ⟨rfl,rfl⟩ := here
    apply changeRecorded ok
    unfold heldIds
    split
    · rename_i w held
      exact changeOutside inv ok held
    · exact not_mem_nil
  · rw [changeSource ok here] at row
    exact changePending ok (old row)

theorem commitShield {changes : List (Change KeyValues Row)} (inv : Drain.Inv target s)
    (ok : changes.foldlM change s = some t) : t.work = s.work ∧ t.target = s.target ∧ t.applying = s.applying ∧
    ∀ r k x, t.source r k = some x → (s.source r k = some x → Pending s target r (heldIds s r) k) →
      Pending t target r (heldIds t r) k := by
  induction changes generalizing s with
  | nil =>
    cases ok
    exact ⟨rfl,rfl,rfl,fun r k x row old => old row⟩
  | cons c rest ih =>
    simp only [foldlM_cons,bind,Option.bind_eq_some_iff] at ok
    obtain ⟨m,first,last⟩ := ok
    obtain ⟨work,rows,applying,shield⟩ := ih (changeKeeps inv first) last
    have frame : m.work = s.work ∧ m.target = s.target ∧ m.applying = s.applying := by
      obtain ⟨_,rfl⟩ := changeCases first
      exact ⟨rfl,rfl,rfl⟩
    refine ⟨work.trans frame.1,rows.trans frame.2.1,applying.trans frame.2.2,fun r k x row old => ?_⟩
    exact shield r k x row fun before => changeShield inv first before old

def Orderly (schema : Schema) (sig : KeyValues → S) (target : TargetID) (s : World KeyValues Row) :
    Action KeyValues Row → Prop
  | .commit changes => ∀ t, changes.foldlM change s = some t →
      Keyed schema.keyCols t.source ∧ Consistent schema.cascading t.source
  | .gather table batch => KeepsKeys sig target s table batch
  | _ => True

theorem shieldedCommit {changes : List (Change KeyValues Row)} (held : Shielded schema target s)
    (orderly : ∀ t, changes.foldlM change s = some t → Keyed schema.keyCols t.source ∧ Consistent schema.cascading t.source)
    (ok : changes.foldlM change s = some t) : Shielded schema target t := by
  obtain ⟨work,rows,applying,shield⟩ := commitShield held.inv ok
  refine ⟨commitKeeps held.inv ok,(orderly t ok).1,(orderly t ok).2,?_,?_,?_,?_⟩
  · rw [rows]; exact held.rows
  · rw [work,applying]; exact held.applying
  · rw [work]; exact held.staged
  · rw [work]
    intro r w rows busy staged p mem none fk cascades parentTable k x parent row refers key
    exact shield fk.child k x row fun before =>
      held.shield r w rows busy staged p mem none fk cascades parentTable k x parent before refers key

theorem shieldedReread (shallow : Shallow schema) {table w} (held : Shielded schema target s) (busy : s.work table = some w)
    (applying : s.applying = true) : Shielded schema target
      (hold s table (some { w with staged := some (rereadCurrent (s.source table) w.distinct) })) := by
  have cases : ∀ r v, (hold s table (some { w with staged := some (rereadCurrent (s.source table) w.distinct) })).work r =
      some v → r = table ∧ v = { w with staged := some (rereadCurrent (s.source table) w.distinct) } ∨
        s.work r = some v := by
    intro r v holds
    simp only [hold,update_apply] at holds
    split at holds
    · rename_i here
      exact .inl ⟨here,(Option.some.inj holds).symm⟩
    · exact .inr holds
  refine ⟨rereadKeeps held.inv busy,held.source,held.consistent,held.rows,fun _ _ _ _ _ => applying,?_,?_⟩
  · intro r v rows holds staged k x row
    rcases cases r v holds with ⟨rfl,rfl⟩ | old
    · cases staged
      unfold rereadCurrent at row
      split at row
      · exact held.source r k x row
      · cases row
    · exact held.staged r v rows old staged k x row
  · intro r v rows holds staged p mem none fk cascades parentTable k x parent row refers key
    rw [heldReplaced { w with staged := some (rereadCurrent (s.source table) w.distinct) } busy rfl rfl]
    rcases cases r v holds with ⟨rfl,rfl⟩ | old
    · cases staged
      unfold rereadCurrent at none
      rw [if_pos mem] at none
      obtain ⟨kp,other,found,again⟩ := held.consistent fk cascades k x row refers.1
      rw [parentTable] at found
      have whole : ∀ c ∈ schema.keyCols r, c ∈ fk.parentCols := fun c hc => shallow.whole fk cascades c (parentTable ▸ hc)
      have there : kp = p := (held.source r kp other found).symm.trans ((referencesKey whole again refers).trans key)
      rw [there,none] at found
      cases found
    · exact held.shield r v rows old staged p mem none fk cascades parentTable k x parent row refers key

theorem shieldedWrite {table w done rows} (held : Shielded schema target s) (busy : s.work table = some w)
    (inv : Drain.Inv target { hold s table (some { w with staged := none, applied := done }) with target := rows })
    (keyed : Keyed schema.keyCols rows) :
    Shielded schema target { hold s table (some { w with staged := none, applied := done }) with target := rows } := by
  have before : ∀ r v open_, (hold s table (some { w with staged := none, applied := done })).work r = some v →
      v.staged = some open_ → s.work r = some v := by
    intro r v open_ holds staged
    simp only [hold,update_apply] at holds
    split at holds
    · cases holds
      cases staged
    · exact holds
  refine ⟨inv,held.source,held.consistent,keyed,?_,?_,?_⟩
  · exact fun r v open_ holds staged => held.applying r v open_ (before r v open_ holds staged) staged
  · exact fun r v open_ holds staged => held.staged r v open_ (before r v open_ holds staged) staged
  · intro r v open_ holds staged p mem none fk cascades parentTable k x parent row refers key
    rw [heldReplaced { w with staged := Option.none, applied := done } busy rfl rfl]
    exact held.shield r v open_ (before r v open_ holds staged) staged p mem none fk cascades parentTable k x parent row
      refers key

theorem upsertKeyed {table w rows} (held : Shielded schema target s) (busy : s.work table = some w)
    (staged : w.staged = some rows) :
    Keyed schema.keyCols (update s.target table (stageUpsert (s.target table) w.distinct rows)) := by
  intro r k x row
  by_cases here : r = table
  · subst here
    rw [update_self] at row
    unfold stageUpsert at row
    split at row
    · rcases Option.or_eq_some_iff.mp row with new | ⟨_,old⟩
      · exact held.staged r w rows busy staged k x new
      · exact held.rows r k x old
    · exact held.rows r k x row
  · rw [update_of_ne here] at row
    exact held.rows r k x row

theorem deletedKeyed {cascade db table gone} (keyed : Keyed schema.keyCols db) :
    Keyed schema.keyCols (deleteAbsent cascade db table gone) := by
  intro r k x row
  unfold deleteAbsent at row
  split at row
  · cases row
  · exact keyed r k x row

theorem shieldedConfirm {table w} (held : Shielded schema target s) (busy : s.work table = some w)
    (done : w.applied = true) : Shielded schema target { hold s table none with
      queue := update s.queue table (confirmConsumed (s.queue table) target w.ids) } := by
  have before : ∀ r v, (hold s table none).work r = some v → r ≠ table ∧ s.work r = some v := by
    intro r v holds
    simp only [hold,update_apply] at holds
    split at holds
    · cases holds
    · rename_i apart
      exact ⟨apart,holds⟩
  refine ⟨confirmKeeps held.inv busy done,held.source,held.consistent,held.rows,?_,?_,?_⟩
  · exact fun r v rows holds => held.applying r v rows (before r v holds).2
  · exact fun r v rows holds => held.staged r v rows (before r v holds).2
  · intro r v rows holds staged p mem none fk cascades parentTable k x parent row refers key
    have pending := held.shield r v rows (before r v holds).2 staged p mem none fk cascades parentTable k x parent row
      refers key
    by_cases here : fk.child = table
    · -- the pending delta is not among the confirmed ids
      obtain ⟨d,hd,dkey,open_,out⟩ := pending
      rw [here] at hd open_ out ⊢
      simp only [heldIds,busy] at out
      refine ⟨d,?_,dkey,?_,?_⟩
      · simpa [confirmConsumed] using hd
      · simp only [update_self,confirmedIff]
        rintro (old | ⟨_,read⟩)
        · exact open_ old
        · exact out read
      · simp [heldIds,hold]
    · simpa only [Pending,heldIds,hold,update_of_ne here] using pending

theorem shieldedStep (shallow : Shallow schema) {a} (held : Shielded schema target s)
    (orderly : Orderly schema sig target s a) (ok : step (cascadeOf schema) sig target s a = some t) :
    Shielded schema target t := by
  have harmless : HarmlessStep (cascadeOf schema) sig target s a := by
    cases a with
    | gather => exact orderly
    | apply table => exact shieldedHarmless shallow held table
    | _ => trivial
  have inv := stepKeeps held.inv harmless ok
  cases stepTaken ok with
  | commit ok => exact shieldedCommit held orderly ok
  | nothing => exact held
  | gather idle =>
    -- nothing is staged before the pass starts to apply
    refine shieldedUnstaged inv held.source held.consistent held.rows fun r w holds => ?_
    simp only [hold,update_apply] at holds
    split at holds
    · cases holds
      rfl
    · cases staged : w.staged with
      | none => rfl
      | some rows => exact absurd (held.applying r w rows holds staged) (Bool.eq_false_iff.mp idle)
  | gathered => exact ⟨inv,held.source,held.consistent,held.rows,fun _ _ _ _ _ => rfl,held.staged,held.shield⟩
  | reread busy applying => exact shieldedReread shallow held busy applying
  | upsert busy staged => exact shieldedWrite held busy inv (upsertKeyed held busy staged)
  | apply busy staged => exact shieldedWrite held busy inv (deletedKeyed (upsertKeyed held busy staged))
  | confirm busy done => exact shieldedConfirm held busy done
  | stop =>
    refine shieldedUnstaged inv held.source held.consistent held.rows fun r w holds => ?_
    cases holds

theorem shallowCascadesLoseNothing (shallow : Shallow schema) {actions} (agree : s.target = s.source)
    (idle : ∀ r, s.work r = none) (keyed : Keyed schema.keyCols s.source) (consistent : Consistent schema.cascading s.source)
    (orderly : Runs.Along (step (cascadeOf schema) sig target) (Orderly schema sig target) s actions)
    (ok : Runs.run (step (cascadeOf schema) sig target) s actions = some t) (r k) (differs : t.target r k ≠ t.source r k) :
    ∃ d ∈ unconsumed (t.queue r) target, d.key = k := by
  have start : Shielded schema target s := by
    refine shieldedUnstaged (invInitial agree idle) keyed consistent (agree ▸ keyed) fun r w holds => ?_
    rw [idle r] at holds
    cases holds
  have held := Runs.runKeeps (P := Shielded schema target) (fun s a t held orderly ok => shieldedStep shallow held orderly ok)
    orderly ok start
  exact pendingUnconsumed (held.inv.covered r k differs)

def accounts : TableRef := ⟨"public","accounts"⟩
def lines : TableRef := ⟨"public","lines"⟩

def key (n : UInt8) : KeyValues := [some [n]]
def row (n : UInt8) (ref : Option Bytes) : Row := fun c => if c = "id" then some [n] else if c = "ref" then ref else none

def byRef (child parent : TableRef) : ForeignKey := ⟨"fk",child,["ref"],parent,["id"],false⟩

def chain : Schema := ⟨[byRef orders accounts,byRef lines orders],fun _ => ["id"]⟩
def ordersOnly : Schema := ⟨[byRef orders accounts],fun _ => ["id"]⟩

def ofRows (rows : List (TableRef × KeyValues × Row)) : Tables :=
  fun r k => (rows.find? fun c => c.1 = r ∧ c.2.1 = k).map fun c => c.2.2

def before : List (TableRef × KeyValues × Row) :=
  [(accounts,key 1,row 1 none),(accounts,key 2,row 2 none),(orders,key 1,row 1 (some [1])),
    (orders,key 2,row 2 (some [2])),(lines,key 1,row 1 (some [1]))]

def after : List (TableRef × KeyValues × Row) :=
  [(accounts,key 2,row 2 none),(orders,key 1,row 1 (some [2])),(orders,key 2,row 2 (some [2])),
    (lines,key 1,row 1 (some [1]))]

theorem ofRowsSource {rows r k x} (held : ofRows rows r k = some x) : (r,k,x) ∈ rows := by
  obtain ⟨⟨r',k',x'⟩,found,rfl⟩ := Option.map_eq_some_iff.mp held
  have same := find?_some found
  simp only [decide_eq_true_eq] at same
  obtain ⟨rfl,rfl⟩ := same
  exact mem_of_find?_eq_some found

theorem ofRowsKeyed {keyCols rows} (own : ∀ c ∈ rows, keyOf (keyCols c.1) c.2.2 = c.2.1) : Keyed keyCols (ofRows rows) :=
  fun _ _ _ held => own _ (ofRowsSource held)

theorem ofRowsConsistent {fks rows} (found : ∀ fk ∈ fks, ∀ c ∈ rows, c.1 = fk.child → (∀ n ∈ fk.childCols, c.2.2 n ≠ none) →
    ∃ d ∈ rows, ∃ p ∈ ofRows rows fk.parent d.2.1, references fk c.2.2 p) :
    Consistent fks (ofRows rows) := by
  intro fk mem k x held full
  obtain ⟨d,_,p,there,refers⟩ := found fk mem _ (ofRowsSource held) rfl full
  exact ⟨d.2.1,p,there,refers⟩

def seeded : World KeyValues Row := ⟨ofRows before,ofRows before,fun _ => .empty,false,fun _ => none⟩

def moved : List (Change KeyValues Row) :=
  [⟨orders,some (row 2 (some [2])),⟨1,.update,key 2,0⟩⟩,⟨orders,some (row 1 (some [2])),⟨2,.update,key 1,0⟩⟩,
    ⟨accounts,none,⟨1,.delete,key 1,0⟩⟩]

def movedPass : List (Action KeyValues Row) := .commit moved::drainAcyclicSeq [accounts,orders] 1

theorem movedSource {t} (ok : moved.foldlM change seeded = some t) : t.source = ofRows after := by
  cases Option.some.inj ok
  clear ok
  have apart : accounts ≠ orders ∧ accounts ≠ lines ∧ orders ≠ lines := by decide
  have keys : key 1 ≠ key 2 := by decide
  funext r k
  by_cases first : r = accounts
  · subst first
    by_cases one : k = key 1 <;> by_cases two : k = key 2 <;> simp_all [seeded,ofRows,before,after,eq_comm]
  · by_cases second : r = orders
    · subst second
      by_cases one : k = key 1 <;> by_cases two : k = key 2 <;> simp_all [seeded,ofRows,before,after,eq_comm]
    · simp [update_apply,seeded,ofRows,before,after,first,second,Ne.symm first,Ne.symm second]

theorem seededConsistent : Keyed chain.keyCols seeded.source ∧ Consistent chain.cascading seeded.source :=
  ⟨ofRowsKeyed (by decide),ofRowsConsistent (by decide)⟩

theorem afterConsistent : Keyed chain.keyCols (ofRows after) ∧ Consistent chain.cascading (ofRows after) :=
  ⟨ofRowsKeyed (by decide),ofRowsConsistent (by decide)⟩

theorem movedOrderly (schema) (within : ∀ fk ∈ schema.cascading, fk ∈ chain.cascading)
    (cols : schema.keyCols = chain.keyCols) :
    Runs.Along (step (cascadeOf schema) keySignature "t") (Orderly schema keySignature "t") seeded movedPass := by
  refine ⟨fun t ok => ?_,fun t _ => Runs.alongOfAll fun a mem s => ?_⟩
  · rw [movedSource ok,cols]
    exact ⟨afterConsistent.1,fun fk mem => afterConsistent.2 fk (within fk mem)⟩
  · simp only [drainAcyclicSeq,map_cons,map_nil,flatMap_cons,flatMap_nil,reverse_cons,
      reverse_nil,nil_append,append_nil,cons_append,mem_cons,not_mem_nil,or_false] at mem
    rcases mem with rfl | rfl | rfl | rfl | rfl | rfl | rfl | rfl | rfl | rfl | rfl | rfl | rfl | rfl
    · exact singleKeeps keySignature "t" s accounts
    · exact singleKeeps keySignature "t" s orders
    all_goals trivial

theorem shallowOrdersOnly : Shallow ordersOnly := ⟨by decide,by decide⟩

theorem shallowCascadesLoseNothingMoved :
    ∃ t, Runs.run (step (cascadeOf ordersOnly) keySignature "t") seeded movedPass = some t ∧
      t.target orders (key 1) = none ∧
      ∀ r k, t.target r k ≠ t.source r k → ∃ d ∈ unconsumed (t.queue r) "t", d.key = k := by
  have ok := (rfl : Runs.run (step (cascadeOf ordersOnly) keySignature "t") seeded movedPass = _)
  have within : ∀ fk ∈ ordersOnly.cascading, fk ∈ chain.cascading := by decide
  refine ⟨_,ok,if_pos (.inr (cascadeOfIff.mpr ?_)),shallowCascadesLoseNothing shallowOrdersOnly rfl (fun _ => rfl)
    seededConsistent.1 (fun fk mem => seededConsistent.2 fk (within fk mem)) (movedOrderly ordersOnly within rfl) ok⟩
  exact @Removed.direct _ _ _ _ (byRef orders accounts) (key 1) (row 1 none) (key 1) (row 1 (some [1]))
    (by decide) rfl (by decide) rfl rfl (by decide)

theorem grandchildLost : seeded.target = seeded.source ∧ (∀ r, seeded.work r = none) ∧
    Keyed chain.keyCols seeded.source ∧ Consistent chain.cascading seeded.source ∧
    Runs.Along (step (cascadeOf chain) keySignature "t") (Orderly chain keySignature "t") seeded movedPass ∧
    ∃ t, Runs.run (step (cascadeOf chain) keySignature "t") seeded movedPass = some t ∧
      t.source lines (key 1) = some (row 1 (some [1])) ∧ t.target lines (key 1) = none ∧
      unconsumed (t.queue lines) "t" = [] := by
  have ok := (rfl : Runs.run (step (cascadeOf chain) keySignature "t") seeded movedPass = _)
  refine ⟨rfl,fun _ => rfl,seededConsistent.1,seededConsistent.2,movedOrderly chain (fun _ mem => mem) rfl,_,ok,rfl,
    if_pos (.inr (cascadeOfIff.mpr ?_)),rfl⟩
  refine @Removed.further _ _ _ _ (byRef lines orders) (key 1) (row 1 (some [1])) (key 1) (row 1 (some [1]))
    (by decide) ?_ rfl rfl (by decide)
  exact @Removed.direct _ _ _ _ (byRef orders accounts) (key 1) (row 1 none) (key 1) (row 1 (some [1]))
    (by decide) rfl (by decide) rfl rfl (by decide)

end Replicare.Cascade
