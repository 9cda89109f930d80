import Replicare.FkAtomic
import Replicare.PgPreflight

/-! The drain of one Postgres table with unique constraints beside its replication key. -/
namespace Replicare.UniqueDrain
open Engine Relations Consume Stored Rounds FkDrain FkAtomic PgPreflight List

/- Two rows have one value under a constraint; a NULL is equal to nothing. -/
def sameValue (u : List String) (x y : Row) : Prop := (∀ c ∈ u, x c ≠ none) ∧ u.map x = u.map y
instance (u x y) : Decidable (sameValue u x y) := inferInstanceAs (Decidable (_ ∧ _))

def uniques (t : Table) : List (List String) := t.uniqueKeys.map Key.columns

def Satisfied (t : Table) (db : Tables) : Prop :=
  ∀ u ∈ uniques t, ∀ k k' x y, k ≠ k' → db t.ref k = some x → db t.ref k' = some y → ¬sameValue u x y

def Violated (t : Table) (b : Base) (e : KeyValues × Row) : Prop :=
  ∃ f ∈ b t.ref, f.1 ≠ e.1 ∧ ∃ y ∈ view b t.ref f.1, ∃ u ∈ uniques t, sameValue u e.2 y
instance (t b e) : Decidable (Violated t b e) :=
  inferInstanceAs (Decidable (∃ f ∈ b t.ref, f.1 ≠ e.1 ∧ ∃ y ∈ view b t.ref f.1, ∃ u ∈ uniques t, sameValue u e.2 y))

def writeRow (t : Table) (b : Base) (e : KeyValues × Row) : Option Base :=
  if Violated t b e then none else some (upsert b t.ref [e])

def stageRows (t : Table) (job : Job) (order : Nat → List Nat) (b : Base) (w : Work) : Option Base :=
  (pick (order (rereadCurrent job w).length) (rereadCurrent job w)).foldlM (writeRow t) b

def deleteRows (job : Job) (b : Base) (w : Work) : Base :=
  erase b w.ref fun k => decide (k ∈ w.distinct) && !decide (k ∈ (rereadCurrent job w).map Prod.fst)

def drainUnique (t : Table) (job : Job) (arrive : Nat → Nat → List Nat) (s : State) : Result :=
  match gatherWork job s.queue with
  | w::_ =>
      match stageRows t job (arrive 0) s.target w with
      | none => ⟨s,0,some .halt⟩
      | some b =>
          match stageRows t job (arrive 1) b w with
          | none => ⟨⟨b,s.queue⟩,0,some .halt⟩
          | some b => ⟨⟨deleteRows job b w,confirmWork job s.queue w⟩,w.ids.length,none⟩
  | [] => ⟨s,0,none⟩

section Writes
variable {t : Table} {job : Job} {target : Tables} {b : Base}

def Holds (t : Table) (job : Job) (target : Tables) (b : Base) (written : KeyValues → Prop) : Prop :=
  ∀ k, (written k → view b t.ref k = view job.source t.ref k) ∧ (¬written k → view b t.ref k = target t.ref k)

def Free (t : Table) (target : Tables) (e : KeyValues × Row) : Prop :=
  ∀ k y, k ≠ e.1 → target t.ref k = some y → ∀ u ∈ uniques t, ¬sameValue u e.2 y

theorem viewWrite (b) (r e k) : view (upsert b r [e]) r k = if k = e.1 then some e.2 else view b r k := by
  obtain ⟨key,x⟩ := e
  rw [viewUpsert,if_pos rfl]
  by_cases same : k = key
  · subst same
    simp
  · have other : (k == key) = false := beq_false_of_ne same
    simp [lookup_cons,other,same]

theorem writeFree {written e} (source : Satisfied t (view job.source))
    (held : Holds t job target b written) (row : view job.source t.ref e.1 = some e.2) (free : Free t target e) :
    writeRow t b e = some (upsert b t.ref [e]) := by
  refine if_neg ?_
  rintro ⟨f,_,other,y,there,u,known,same⟩
  by_cases done : written f.1
  · have new := ((held f.1).1 done).symm.trans there
    exact source u known e.1 f.1 e.2 y (Ne.symm other) row new same
  · exact free f.1 y other (((held f.1).2 done).symm.trans there) u known same

theorem writeHolds {written e} (held : Holds t job target b written)
    (row : view job.source t.ref e.1 = some e.2) : Holds t job target (upsert b t.ref [e]) fun k => written k ∨ k = e.1 := by
  intro k
  rw [viewWrite]
  by_cases same : k = e.1
  · subst same
    simp [row]
  · simp only [same,if_false,or_false]
    exact held k

theorem writesHold {written : KeyValues → Prop} {l : Rows} (source : Satisfied t (view job.source))
    (rows : ∀ e ∈ l, view job.source t.ref e.1 = some e.2 ∧ Free t target e) (held : Holds t job target b written) :
    ∃ c, l.foldlM (writeRow t) b = some c ∧ Holds t job target c fun k => written k ∨ k ∈ l.map Prod.fst := by
  induction l generalizing b written with
  | nil => exact ⟨b,rfl,by simpa using held⟩
  | cons e l ih =>
    obtain ⟨row,free⟩ := rows e mem_cons_self
    obtain ⟨c,made,after⟩ := ih (fun f mem => rows f (mem_cons_of_mem _ mem)) (writeHolds held row)
    refine ⟨c,?_,?_⟩
    · rw [foldlM_cons,writeFree source held row free]
      exact made
    · intro k
      have same : (written k ∨ k ∈ (e::l).map Prod.fst) ↔ (written k ∨ k = e.1) ∨ k ∈ l.map Prod.fst := by
        rw [map_cons,mem_cons,or_assoc]
      exact ⟨fun done => (after k).1 (same.mp done),fun open_ => (after k).2 fun done => open_ (same.mpr done)⟩

theorem writesFrame {l : Rows} {c k} (made : l.foldlM (writeRow t) b = some c) (out : k ∉ l.map Prod.fst) :
    view c t.ref k = view b t.ref k := by
  induction l generalizing b with
  | nil => cases made; rfl
  | cons e l ih =>
    rw [map_cons,mem_cons,not_or] at out
    rw [foldlM_cons] at made
    obtain ⟨d,first,rest⟩ := Option.bind_eq_some_iff.mp made
    unfold writeRow at first
    split at first
    · cases first
    · cases first
      rw [ih rest out.2,viewWrite,if_neg out.1]

end Writes

section Passes
variable {t : Table} {job : Job} {s : State}

theorem lookupOwn {rows : Rows} (distinct : (rows.map Prod.fst).Nodup) {e} (mem : e ∈ rows) : rows.lookup e.1 = some e.2 := by
  cases found : rows.lookup e.1 with
  | none => exact absurd (mem_map_of_mem mem) (lookupNone.mp found)
  | some x =>
    rw [inj_on_of_nodup_map distinct mem (lookupEntry found) rfl]

theorem stagedKeys {order : Nat → List Nat} {w : Work} {k}
    (mem : k ∈ (pick (order (rereadCurrent job w).length) (rereadCurrent job w)).map Prod.fst) : k ∈ w.distinct := by
  obtain ⟨e,picked,rfl⟩ := mem_map.mp mem
  obtain ⟨i,_,found⟩ := mem_filterMap.mp picked
  have inside := mem_of_getElem? found
  exact of_decide_eq_true (mem_filter.mp inside).2

theorem deleteFrame {b w r k} (out : k ∉ w.distinct) : view (deleteRows job b w) r k = view b r k := by
  rw [deleteRows,viewErase,if_neg]
  rintro ⟨_,gone⟩
  exact out (of_decide_eq_true (Bool.and_eq_true_iff.mp gone).1)

def NoClash (t : Table) (job : Job) (s : State) : Prop :=
  ∀ k ∈ (workOf job s.queue t.ref).distinct, ∀ x, view job.source t.ref k = some x → Free t (view s.target) (k,x)

def AllRead (t : Table) (job : Job) (s : State) : Prop :=
  ∀ k, view s.target t.ref k ≠ view job.source t.ref k → k ∈ (workOf job s.queue t.ref).distinct

variable (one : job.tables = [t.ref]) (limited : 0 < job.batch)
  (covers : ((unconsumed (s.queue t.ref) job.id).length : Int) ≤ job.batch)

include one in
theorem gatherOne (queue) : gatherWork job queue =
    if readDirtyKeys (queue t.ref) job.id job.batch = [] then [] else [workOf job queue t.ref] := by
  unfold gatherWork
  rw [one]
  by_cases none : readDirtyKeys (queue t.ref) job.id job.batch = [] <;> simp [none]

include limited covers in
theorem readWhole : readDirtyKeys (s.queue t.ref) job.id job.batch = readDirtyKeys (s.queue t.ref) job.id 0 := by
  rw [readTake _ _ limited,take_of_length_le]
  have count : (readDirtyKeys (s.queue t.ref) job.id 0).length = (unconsumed (s.queue t.ref) job.id).length := by
    simp [readDirtyKeys]
  omega

include limited covers in
theorem confirmedEmpty : readDirtyKeys (confirmWork job s.queue (workOf job s.queue t.ref) t.ref) job.id 0 = [] := by
  have ids : (workOf job s.queue t.ref).ids =
      ((readDirtyKeys (s.queue t.ref) job.id 0).take (readDirtyKeys (s.queue t.ref) job.id 0).length).map DirtyKey.deltaID := by
    rw [take_length,← readWhole limited covers]
    exact Coalesce.coalesceIds _ _
  rw [confirmWork]
  rw [show (workOf job s.queue t.ref).ref = t.ref from rfl,Function.update_self,ids,readConfirmed,drop_length]

include one limited covers in
theorem cleanPass (rows : ((job.source t.ref).map Prod.fst).Nodup) (source : Satisfied t (view job.source))
    {arrive : Nat → Nat → List Nat} (whole : Whole arrive) (clear : NoClash t job s) (read : AllRead t job s)
    (work : readDirtyKeys (s.queue t.ref) job.id job.batch ≠ []) : Drained job (drainUnique t job arrive s).state := by
  have staged : ∀ j, ∀ e ∈ pick (arrive j (rereadCurrent job (workOf job s.queue t.ref)).length)
      (rereadCurrent job (workOf job s.queue t.ref)), view job.source t.ref e.1 = some e.2 ∧ Free t (view s.target) e := by
    intro j e mem
    obtain ⟨inside,key⟩ := mem_filter.mp ((memPick (whole j _)).mp mem)
    have row := lookupOwn rows inside
    exact ⟨row,clear e.1 (of_decide_eq_true key) e.2 row⟩
  have unwritten : Holds t job (view s.target) s.target fun _ => False := fun _ => ⟨fun none => none.elim,fun _ => rfl⟩
  obtain ⟨b,first,held⟩ := writesHold source (staged 0) unwritten
  obtain ⟨c,second,after⟩ := writesHold source (staged 1) held
  have state : (drainUnique t job arrive s).state =
      ⟨deleteRows job c (workOf job s.queue t.ref),confirmWork job s.queue (workOf job s.queue t.ref)⟩ := by
    unfold drainUnique
    rw [gatherOne one,if_neg work]
    dsimp only
    rw [show stageRows t job (arrive 0) s.target (workOf job s.queue t.ref) = some b from first]
    dsimp only
    rw [show stageRows t job (arrive 1) b (workOf job s.queue t.ref) = some c from second]
  rw [state]
  intro r known
  rw [one,mem_singleton] at known
  subst known
  refine ⟨readAllNone.mp (confirmedEmpty limited covers),fun k => ?_⟩
  by_cases dirty : k ∈ (workOf job s.queue t.ref).distinct
  · rw [deleteRows,viewErase]
    by_cases there : k ∈ (rereadCurrent job (workOf job s.queue t.ref)).map Prod.fst
    · rw [if_neg (by simp [there])]
      obtain ⟨e,mem,rfl⟩ := mem_map.mp there
      exact (after e.1).1 (.inr (mem_map_of_mem ((memPick (whole 1 _)).mpr mem)))
    · rw [if_pos ⟨rfl,by simp [there,dirty]⟩]
      cases row : view job.source t.ref k with
      | none => rfl
      | some x =>
        obtain ⟨e,mem,rfl⟩ := lookupMem row
        exact absurd (mem_map_of_mem (mem_filter.mpr ⟨mem,decide_eq_true dirty⟩)) there
  · rw [deleteFrame dirty,(after k).2]
    · exact not_not.mp fun differs => dirty (read k differs)
    · rintro ((none | mem) | mem)
      · exact none
      · exact dirty (stagedKeys mem)
      · exact dirty (stagedKeys mem)

def Untouched (t : Table) (job : Job) (s : State) (k : KeyValues) (st : State) : Prop :=
  view st.target t.ref k = view s.target t.ref k ∧
    (st.queue t.ref = s.queue t.ref ∨ readDirtyKeys (st.queue t.ref) job.id job.batch = [])

include one limited covers in
theorem passUntouched {k} (out : k ∉ (workOf job s.queue t.ref).distinct) {arrive : Nat → Nat → List Nat} {st : State}
    (kept : Untouched t job s k st) : Untouched t job s k (drainUnique t job arrive st).state := by
  obtain ⟨row,queue⟩ := kept
  unfold drainUnique
  rw [gatherOne one]
  by_cases work : readDirtyKeys (st.queue t.ref) job.id job.batch = []
  · rw [if_pos work]
    exact ⟨row,queue⟩
  have same := queue.resolve_right work
  have reads : workOf job st.queue t.ref = workOf job s.queue t.ref := by
    unfold workOf
    rw [same]
  rw [if_neg work,reads]
  dsimp only
  split
  · exact ⟨row,queue⟩
  · next b first =>
    have frame : view b t.ref k = view s.target t.ref k :=
      (writesFrame first fun mem => out (stagedKeys mem)).trans row
    split
    · exact ⟨frame,queue⟩
    · next c second =>
      refine ⟨?_,.inr ?_⟩
      · rw [deleteFrame out,writesFrame second fun mem => out (stagedKeys mem),frame]
      · have here : confirmWork job st.queue (workOf job s.queue t.ref) t.ref =
            confirmWork job s.queue (workOf job s.queue t.ref) t.ref := by
          simp [confirmWork,workOf,same]
        dsimp only
        rw [here,readTake _ _ limited,confirmedEmpty limited covers,take_nil]

include one limited covers in
theorem passesUntouched {k} (out : k ∉ (workOf job s.queue t.ref).distinct) (arrive : Nat → Nat → Nat → List Nat) (n) :
    Untouched t job s k (passes (fun n st => (drainUnique t job (arrive n) st).state) s n) := by
  induction n with
  | zero => exact ⟨rfl,.inl rfl⟩
  | succ n ih => exact passUntouched one limited covers out ih

def startingAt (i _j n : Nat) : List Nat := (List.range n).rotate i

theorem startingAtWhole (i) : Whole (startingAt i) := fun _ _ => rotate_perm _ _

theorem violatedOf {b e} (clash : ¬Free t (view b) e) : Violated t b e := by
  simp only [Free,not_forall,not_not] at clash
  obtain ⟨k,y,other,there,u,known,same⟩ := clash
  obtain ⟨f,mem,rfl⟩ := lookupMem there
  exact ⟨f,mem,other,y,there,u,known,same⟩

include one in
theorem clashStays {e i} (work : readDirtyKeys (s.queue t.ref) job.id job.batch ≠ [])
    (place : (rereadCurrent job (workOf job s.queue t.ref))[i]? = some e) (clash : ¬Free t (view s.target) e) :
    (drainUnique t job (startingAt i) s).state = s := by
  have short : i < (List.range (rereadCurrent job (workOf job s.queue t.ref)).length).length := by
    rw [length_range]
    exact (List.getElem?_eq_some_iff.mp place).1
  have refused : stageRows t job (startingAt i 0) s.target (workOf job s.queue t.ref) = none := by
    unfold stageRows startingAt
    rw [rotate_eq_drop_append_take short.le,drop_eq_getElem_cons short,getElem_range,cons_append,pick,
      filterMap_cons_some place,foldlM_cons,writeRow,if_pos (violatedOf clash)]
    rfl
  unfold drainUnique
  rw [gatherOne one,if_neg work]
  dsimp only
  rw [refused]

theorem uniqueDrainsIff (one : job.tables = [t.ref]) (limited : 0 < job.batch)
    (covers : ((unconsumed (s.queue t.ref) job.id).length : Int) ≤ job.batch)
    (rows : ((job.source t.ref).map Prod.fst).Nodup) (source : Satisfied t (view job.source)) :
    (∀ arrive : Nat → Nat → Nat → List Nat, (∀ n, Whole (arrive n)) →
      ∃ n, Drained job (passes (fun n st => (drainUnique t job (arrive n) st).state) s n)) ↔
        NoClash t job s ∧ AllRead t job s := by
  have known : t.ref ∈ job.tables := by simp [one]
  constructor
  · intro drains
    refine ⟨fun k dirty x row => ?_,fun k differs => ?_⟩
    · by_contra clash
      obtain ⟨e,mem,rfl⟩ := lookupMem row
      have staged : (e.1,x) ∈ rereadCurrent job (workOf job s.queue t.ref) := by
        have own : e = (e.1,x) := Prod.ext rfl (Option.some.inj ((lookupOwn rows mem).symm.trans row))
        rw [← own]
        exact mem_filter.mpr ⟨mem,decide_eq_true dirty⟩
      obtain ⟨i,place⟩ := mem_iff_getElem?.mp staged
      have work : readDirtyKeys (s.queue t.ref) job.id job.batch ≠ [] := by
        intro none
        rw [workOf,none] at dirty
        exact absurd dirty not_mem_nil
      obtain ⟨n,done⟩ := drains (fun _ => startingAt i) fun _ => startingAtWhole i
      rw [passesStay fun _ => clashStays one work place clash] at done
      refine clash fun k' y other there u unique => ?_
      rw [(done t.ref known).2] at there
      exact source u unique e.1 k' x y (Ne.symm other) row there
    · by_contra out
      obtain ⟨n,done⟩ := drains (fun _ => startingAt 0) fun _ => startingAtWhole 0
      have kept := (passesUntouched one limited covers out (fun _ => startingAt 0) n).1
      exact differs (kept.symm.trans ((done t.ref known).2 k))
  · rintro ⟨clear,read⟩ arrive whole
    by_cases work : readDirtyKeys (s.queue t.ref) job.id job.batch = []
    · refine ⟨0,fun r mem => ?_⟩
      rw [one,mem_singleton] at mem
      subst mem
      refine ⟨readAllNone.mp ((readWhole limited covers).symm.trans work),fun k => not_not.mp fun differs => ?_⟩
      have dirty := read k differs
      rw [workOf,work] at dirty
      exact absurd dirty not_mem_nil
    · exact ⟨1,cleanPass one limited covers rows source (whole 0) clear read work⟩

end Passes

def usersTable : Table where
  ref := users
  columns := [⟨"id","bigint",false,false,""⟩,⟨"email","text",false,false,""⟩]
  primaryKey := some ⟨"users_pkey",["id"],true⟩
  uniqueKeys := [⟨"users_email_key",["email"],false⟩]
  foreignKeys := []
  storageEngine := ""

def user (id email : UInt8) : KeyValues × Row := ([some [id]],rowOf [("id",[id]),("email",[email])])

def usersJob (source : Rows) : Job where
  fks := []
  cyclicCols := fun _ => []
  source := listed [(users,source)]
  tables := [users]
  id := "replica"
  batch := 1000

theorem satisfiedOf {t rows} (own : ∀ e ∈ rows, ∀ f ∈ rows, e.1 ≠ f.1 → ∀ u ∈ uniques t, ¬sameValue u e.2 f.2) :
    Satisfied t (view (listed [(t.ref,rows)])) := by
  intro u known k k' x y other row row'
  have here : listed [(t.ref,rows)] t.ref = rows := by simp [listed]
  unfold view at row row'
  rw [here] at row row'
  exact own _ (lookupEntry row) _ (lookupEntry row') other u known

def signedUp : State where
  target := listed [(users,[user 1 97])]
  queue := fun _ => ⟨[⟨1,.update,[some [1]],0⟩,⟨2,.insert,[some [2]],0⟩],∅,by decide⟩

theorem signedUpFree : NoClash usersTable (usersJob [user 1 99,user 2 98]) signedUp := by
  intro k _ x row l y other old u known
  have fresh : ∀ e ∈ [user 1 99,user 2 98], ∀ f ∈ [user 1 97], ∀ u ∈ uniques usersTable, f.1 ≠ e.1 → ¬sameValue u e.2 f.2 := by
    decide
  exact fresh (k,x) (lookupEntry row) (l,y) (lookupEntry old) u known other

theorem signedUpRead : AllRead usersTable (usersJob [user 1 99,user 2 98]) signedUp := by
  intro k differs
  have keys : (workOf (usersJob [user 1 99,user 2 98]) signedUp.queue users).distinct = [[some [1]],[some [2]]] := by
    decide
  have covered : Covered (usersJob [user 1 99,user 2 98]) signedUp := coveredOfListed (by decide)
  obtain ⟨d,mem,rfl⟩ := covered users mem_cons_self k differs
  have queued : ∀ d ∈ unconsumed (signedUp.queue users) "replica", d.key ∈ [[some [1]],[some [2]]] := by decide
  exact keys ▸ queued d mem

theorem uniqueDrainsIffInserted : (NoClash usersTable (usersJob [user 1 99,user 2 98]) signedUp ∧
      AllRead usersTable (usersJob [user 1 99,user 2 98]) signedUp) ∧
    ∀ arrive : Nat → Nat → Nat → List Nat, (∀ n, Whole (arrive n)) → ∃ n, Drained (usersJob [user 1 99,user 2 98])
      (passes (fun n st => (drainUnique usersTable (usersJob [user 1 99,user 2 98]) (arrive n) st).state) signedUp n) :=
  ⟨⟨signedUpFree,signedUpRead⟩,(uniqueDrainsIff rfl (by decide) (by decide) (by decide) (satisfiedOf (by decide))).mpr
    ⟨signedUpFree,signedUpRead⟩⟩

def reused : State where
  target := listed [(users,[user 1 97])]
  queue := fun _ => ⟨[⟨1,.delete,[some [1]],0⟩,⟨2,.insert,[some [2]],0⟩],∅,by decide⟩

theorem reusedStays {arrive} (whole : Whole arrive) :
    (drainUnique usersTable (usersJob [user 2 97]) arrive reused).state = reused := by
  have gathered : gatherWork (usersJob [user 2 97]) reused.queue = [⟨users,[[some [1]],[some [2]]],[1,2]⟩] := by decide
  have only : arrive 0 1 = [0] := perm_singleton.mp (whole 0 1)
  have refused : stageRows usersTable (usersJob [user 2 97]) (arrive 0) reused.target ⟨users,[[some [1]],[some [2]]],[1,2]⟩ = none := by
    have staged : rereadCurrent (usersJob [user 2 97]) ⟨users,[[some [1]],[some [2]]],[1,2]⟩ = [user 2 97] := by
      simp [rereadCurrent,usersJob,listed,user]
    have clash : Violated usersTable reused.target (user 2 97) := by decide
    unfold stageRows
    rw [staged,length_singleton,only,show pick [0] [user 2 97] = [user 2 97] from rfl,foldlM_cons,writeRow,
      if_pos clash]
    rfl
  unfold drainUnique
  rw [gathered]
  dsimp only
  rw [refused]

/- The email is never free: each pass fails at the upsert, before any delete. -/
theorem reusedEmailBlocks :
    (∀ components, (buildPreflight components "users" 160000 160000 [usersTable] [usersTable]).blocked = false) ∧
      Satisfied usersTable (view (usersJob [user 2 97]).source) ∧ Satisfied usersTable (view reused.target) ∧
        ((unconsumed (reused.queue users) (usersJob [user 2 97]).id).length : Int) ≤ (usersJob [user 2 97]).batch ∧
          Covered (usersJob [user 2 97]) reused ∧
            ∀ arrive : Nat → Nat → Nat → List Nat, (∀ n, Whole (arrive n)) → ∀ n, ¬Drained (usersJob [user 2 97])
              (passes (fun n st => (drainUnique usersTable (usersJob [user 2 97]) (arrive n) st).state) reused n) := by
  refine ⟨fun components => ?_,satisfiedOf (by decide),satisfiedOf (by decide),by decide,coveredOfListed (by decide),
    fun arrive whole n drained => ?_⟩
  · rw [Bool.eq_false_iff,Ne,blockedIff]
    decide
  · rw [passesStay fun n => reusedStays (whole n)] at drained
    have queue := (drained users (by decide)).1
    revert queue
    decide

end Replicare.UniqueDrain
