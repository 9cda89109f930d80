import Replicare.CopyEnds

/-! Does a bring-up come to an end once the source is quiet? A load that the target refuses
ends the daemon, the next one plans the rest of the same table again, and a table that is done
is not read again. -/
namespace Replicare.BringupEnds
open Engine hiding Component
open Relations Consume Stored Enforce Runs Chunks CopyRun CopyCovers CopyProgram Bringup QuietCopy CopyEnds List

def BroughtUp (sync : Sync) (w : World) : Prop :=
  w.mode = .streaming ∧ ∀ r ∈ sync.components.flatten, (w.progress r).done = true ∧ (w.control.cursor sync.id r).phase = .streaming

section Steps
variable {sync : Sync} {w w' : World} {a : Act}

structure Behind (sync : Sync) (w : World) (before : List Instr) : Prop where
  copied : ∀ r, .copy r ∈ before → (w.progress r).done = true
  cut : ∀ r, .cut r ∈ before → (w.control.cursor sync.id r).phase = .streaming

structure Quiet (sync : Sync) (w : World) : Prop where
  position : Position sync w
  kind : OnlyBringup w
  ordered : Ordered sync w
  fetching : ∀ kind c rest, w.mode = .busy kind (some c) rest → ∃ start bs, Fetching sync w c start bs
  behind : ∀ kind current rest before, w.mode = .busy kind current rest → bringup sync = before++rest → Behind sync w before
  ended : w.mode = .streaming → BroughtUp sync w

theorem healthyBringup (alive : healthy a = true) : ofBringup a = true := by
  cases a <;> first | rfl | cases alive

theorem cutMem {r} (mem : r ∈ sync.components.flatten) : .cut r ∈ bringup sync := by
  obtain ⟨order,known,own⟩ := mem_flatten.mp mem
  refine mem_cons_of_mem _ (mem_flatMap.mpr ⟨order,known,?_⟩)
  exact mem_append_right _ (mem_map_of_mem own)

theorem Behind.next {v before i rest} (behind : Behind sync v (before++[i])) (program : bringup sync = before++i::rest) :
    (∀ kind current rest' before', (v.next .bringup rest).mode = .busy kind current rest' → bringup sync = before'++rest' →
      Behind sync (v.next .bringup rest) before') ∧ ((v.next .bringup rest).mode = .streaming → BroughtUp sync (v.next .bringup rest)) := by
  have split : bringup sync = (before++[i])++rest := by rw [program,append_assoc]; rfl
  refine ⟨fun kind current rest' before' at_ again => ?_,fun at_ => ⟨at_,fun r mem => ?_⟩⟩
  · obtain ⟨_,_,rfl⟩ := nextBusy at_
    rw [append_cancel_right (again.symm.trans split)]
    exact ⟨behind.copied,behind.cut⟩
  · have last : rest = [] := by
      unfold World.next at at_
      split at at_
      · assumption
      · cases at_
    rw [last,append_nil] at split
    have copy : .copy r ∈ before++[i] := split ▸ memCopies.mp (copiesOf ▸ mem)
    exact ⟨behind.copied r copy,behind.cut r (split ▸ cutMem mem)⟩

theorem agreesMoves (order : KeyOrder sync.le) (parents : ParentsFirst sync) (quiet : Quiet sync w) (moves : Moves sync w a w')
    (alive : healthy a = true) : Agrees sync w w' := by
  cases moves with
  | restart | skip | plan | read => exact agreesSame rfl rfl rfl
  | land at_ part loaded =>
    cases quiet.kind _ _ _ at_
    obtain ⟨start,bs,held⟩ := quiet.fetching _ _ _ at_
    cases loadedRows loaded
    exact held.agrees order part (atCopy quiet.position at_).2
  | refused | failed => exact agreesSame (failSource _) (failSame _).1 (failSame _).2
  | mark at_ part =>
    rename_i i kind c rest chunk
    cases quiet.kind _ _ _ at_
    obtain ⟨start,bs,held⟩ := quiet.fetching _ _ _ at_
    obtain ⟨earlier,undone⟩ := atCopy quiet.position at_
    cases saved : checkpoint c.parts (c.parts.set i (chunk,.done)) with
    | none => exact agreesSame rfl rfl rfl
    | some p =>
      refine agreesProgress parents quiet.ordered.accepted rfl rfl (fun s other => Function.update_of_ne other _ _) earlier fun k => ?_
      exact ((held.count part).passes order saved undone k).imp_left fun same => leftSaved.trans same
  | finish at_ all =>
    rename_i kind c i rest
    cases quiet.kind _ _ _ at_
    obtain ⟨start,bs,held⟩ := quiet.fetching _ _ _ at_
    obtain ⟨earlier,undone⟩ := atCopy quiet.position at_
    refine agreesProgress parents quiet.ordered.accepted rfl rfl (fun s other => Function.update_of_ne other _ _) earlier fun k => ?_
    by_cases left : Left sync w c.ref k
    · exact .inr fun x row => held.finished all left row
    · refine .inl ⟨fun now => ?_,fun now => absurd now left⟩
      cases (leftSaved.mp now).1
  | exec at_ did =>
    cases quiet.kind _ _ _ at_
    obtain ⟨source,target,progress⟩ := instructBringup quiet.position at_ did
    exact agreesSame source target progress
  | _ => cases alive

theorem fetchingMoves (order : KeyOrder sync.le) (quiet : Quiet sync w) (moves : Moves sync w a w') (alive : healthy a = true) :
    ∀ kind c rest, w'.mode = .busy kind (some c) rest → ∃ start bs, Fetching sync w' c start bs := by
  intro kind d rest now
  have onward : ∀ {kind' c rest'}, w.mode = .busy kind' (some c) rest' → ∃ start bs, Fetching sync w' d start bs := by
    intro kind' c rest' at_
    obtain ⟨start,bs,held⟩ := quiet.fetching _ _ _ at_
    exact ⟨start,bs,(fetchingStep order held at_ moves alive now).1⟩
  cases moves with
  | restart => cases now
  | skip | finish | exec => exact absurd now nextMode
  | plan =>
    rename_i probed kind r rest at_ copied
    cases now
    exact ⟨_,_,(Fetching.planned order w r probed).same rfl rfl rfl⟩
  | read at_ _ | land at_ _ _ | mark at_ _ => exact onward at_
  | refused | failed => exact absurd now failMode
  | _ => cases alive

theorem Behind.same {before} (behind : Behind sync w before) (progress : ∀ r, (w.progress r).done = true → (w'.progress r).done = true)
    (cursor : w'.control.cursor = w.control.cursor) : Behind sync w' before :=
  ⟨fun r mem => progress r (behind.copied r mem),fun r mem => by rw [cursor]; exact behind.cut r mem⟩

theorem Behind.snoc {before i} (behind : Behind sync w before) (copied : ∀ r, i = .copy r → (w.progress r).done = true)
    (cut : ∀ r, i = .cut r → (w.control.cursor sync.id r).phase = .streaming) : Behind sync w (before++[i]) := by
  refine ⟨fun r mem => ?_,fun r mem => ?_⟩
  · rcases mem_append.mp mem with passed | own
    · exact behind.copied r passed
    · exact copied r (mem_singleton.mp own).symm
  · rcases mem_append.mp mem with passed | own
    · exact behind.cut r passed
    · exact cut r (mem_singleton.mp own).symm

theorem Quiet.placed {current rest} (quiet : Quiet sync w) (at_ : w.mode = .busy .bringup current rest) :
    ∃ before, bringup sync = before++rest ∧ Behind sync w before := by
  obtain ⟨before,placed⟩ := quiet.position _ _ _ at_
  have program : bringup sync = before++rest := Eq.symm placed.known
  exact ⟨before,program,quiet.behind _ _ _ before at_ program⟩

theorem instructBehind {i after rest before} (quiet : Quiet sync w) (at_ : w.mode = .busy .bringup none (i::rest))
    (did : instruct sync w i = some after) (behind : Behind sync w before) : Behind sync after (before++[i]) := by
  rcases bringupAt quiet.position at_ with rfl | ⟨t,rfl⟩ | ⟨t,rfl⟩
  · cases did
    refine Behind.snoc (behind.same (fun _ done => done) rfl) (fun _ none => ?_) fun _ none => ?_
    · cases none
    · cases none
  · cases did
  · cases did
    have streams : ∀ r, r = t ∨ (w.control.cursor sync.id r).phase = .streaming →
        ((w.saveCursor sync t { w.control.cursor sync.id t with phase := .streaming }).control.cursor sync.id r).phase = .streaming := by
      intro r either
      by_cases here : r = t
      · subst here
        simp [World.saveCursor]
      · simpa [World.saveCursor,here] using either
    have kept : Behind sync (w.saveCursor sync t { w.control.cursor sync.id t with phase := .streaming }) before :=
      ⟨behind.copied,fun r mem => streams r (.inr (behind.cut r mem))⟩
    exact kept.snoc (fun _ none => by cases none) fun r same => streams r (.inl (by cases same; rfl))

theorem behindMoves (quiet : Quiet sync w) (moves : Moves sync w a w') (alive : healthy a = true) :
    (∀ kind current rest before, w'.mode = .busy kind current rest → bringup sync = before++rest → Behind sync w' before) ∧
      (w'.mode = .streaming → BroughtUp sync w') := by
  cases moves with
  | commit | crash | reseed | drained | enforced | retry => cases alive
  | restart =>
    refine ⟨fun kind current rest before now program => ?_,fun none => by cases none⟩
    cases now
    cases self_eq_append_left.mp program
    exact ⟨fun r none => absurd none not_mem_nil,fun r none => absurd none not_mem_nil⟩
  | skip at_ copied =>
    cases quiet.kind _ _ _ at_
    obtain ⟨before,program,behind⟩ := quiet.placed at_
    refine (behind.snoc (fun r same => ?_) fun r none => by cases none).next program
    cases same
    exact copied
  | plan at_ _ | read at_ _ | land at_ _ _ =>
    refine ⟨fun kind current rest before now program => ?_,fun none => by cases none⟩
    cases now
    exact (quiet.behind _ _ _ before at_ program).same (fun _ done => done) rfl
  | refused at_ _ _ | failed at_ _ _ =>
    cases quiet.kind _ _ _ at_
    exact ⟨fun _ _ _ _ now => absurd now failMode,fun none => by cases none⟩
  | mark at_ part =>
    rename_i i kind c rest chunk
    obtain ⟨_,placed⟩ := quiet.position _ _ _ at_
    refine ⟨fun kind' current rest' before now program => ?_,fun none => ?_⟩
    · rw [recordMode] at now
      cases now
      have behind := quiet.behind _ _ _ before at_ program
      cases saved : checkpoint c.parts (c.parts.set i (chunk,.done)) with
      | none => exact behind.same (fun _ done => done) rfl
      | some p => exact behind.same (fun r done => (placed.mark (checkpointOpen saved) r).trans done) rfl
    · rw [recordMode] at none
      cases none
  | finish at_ all =>
    rename_i kind c i rest
    cases quiet.kind _ _ _ at_
    obtain ⟨before,program,behind⟩ := quiet.placed at_
    obtain ⟨_,placed⟩ := quiet.position _ _ _ at_
    obtain ⟨⟨tail,head⟩,_⟩ := placed.current c rfl
    cases head
    have done : ∀ r, (w.progress r).done = true ∨ r = c.ref → ((w.saveProgress c.ref ⟨none,true⟩).progress r).done = true := by
      intro r either
      by_cases here : r = c.ref
      · subst here
        simp [World.saveProgress]
      · simpa [World.saveProgress,here] using either
    refine Behind.next (Behind.snoc (behind.same (fun r was => done r (.inl was)) rfl) (fun r same => ?_) fun r none => by cases none) program
    cases same
    exact done _ (.inr rfl)
  | exec at_ did =>
    cases quiet.kind _ _ _ at_
    obtain ⟨before,program,behind⟩ := quiet.placed at_
    exact (instructBehind quiet at_ did behind).next program

theorem quietMoves (order : KeyOrder sync.le) (quiet : Quiet sync w) (moves : Moves sync w a w') (alive : healthy a = true) :
    Quiet sync w' := by
  have only := healthyBringup alive
  obtain ⟨behind,ended⟩ := behindMoves quiet moves alive
  exact ⟨positionMoves moves quiet.position,kindMoves moves only quiet.kind,orderedMoves moves only quiet.position quiet.kind quiet.ordered,
    fetchingMoves order quiet moves alive,behind,ended⟩

end Steps

section Ends
variable {sync : Sync} {w w' : World} {a : Act} {c : Copying} {rest : List Instr}

theorem Quiet.takes {start bs} (quiet : Quiet sync w) (parents : ParentsFirst sync) (rooted : Rooted sync w)
    (at_ : w.mode = .busy .bringup (some c) rest) (held : Fetching sync w c start bs) : Takes sync w c.ref start := by
  obtain ⟨earlier,undone⟩ := atCopy quiet.position at_
  refine ⟨quiet.ordered.accepted,fun fk listed => precedesApart (parents fk listed).2,fun fk listed child k x floor row whole => ?_,
    fun fk listed parent => (quiet.ordered.behind c.ref fk.child (parent ▸ (parents fk listed).2) undone).1⟩
  by_cases left : Left sync w c.ref k
  · obtain ⟨kp,p,found,refers⟩ := rooted fk listed k x (child ▸ left) (child ▸ row) whole
    have past : ¬Left sync w fk.parent kp := by
      rintro ⟨none,_⟩
      rw [earlier _ (child ▸ (parents fk listed).2)] at none
      cases none
    rw [settled,if_neg past] at found
    exact ⟨kp,p,found,refers⟩
  · have below : above sync.le (w.progress c.ref).watermark k = false := Bool.eq_false_iff.mpr fun beyond => left ⟨undone,beyond⟩
    have there := held.passed k x floor below row
    rw [← child] at there
    exact quiet.ordered.accepted fk listed k x there whole

theorem quietFalls (order : KeyOrder sync.le) (parents : ParentsFirst sync) (quiet : Quiet sync w) (rooted : Rooted sync w)
    (moves : Moves sync w a w') (alive : healthy a = true) : rank sync w' < rank sync w := by
  refine rankFalls moves alive (fun _ _ _ _ _ _ _ at_ part => ?_) fun _ _ _ at_ other did => ?_
  · cases quiet.kind _ _ _ at_
    obtain ⟨start,bs,held⟩ := quiet.fetching _ _ _ at_
    exact landAccepts order (quiet.takes parents rooted at_ held) held part
  · cases quiet.kind _ _ _ at_
    rcases bringupAt quiet.position at_ with rfl | ⟨t,rfl⟩ | ⟨t,rfl⟩
    · cases did
    · exact absurd rfl (other t)
    · cases did

theorem procGoes (quiet : Quiet sync w) (short : ¬BroughtUp sync w) : ∃ w', Proc sync w w' := by
  cases mode : w.mode with
  | down =>
    refine procOf (a := .restart) rfl ?_
    simp only [step,mode]
    rfl
  | streaming => exact absurd (quiet.ended mode) short
  | busy kind current rest =>
    obtain ⟨before,placed⟩ := quiet.position _ _ _ mode
    cases current with
    | none =>
      cases rest with
      | nil => exact absurd rfl placed.more
      | cons j rest =>
        by_cases copy : ∃ r, j = .copy r
        · obtain ⟨r,rfl⟩ := copy
          exact planGoes mode
        · exact execGoes mode fun r same => copy ⟨r,same⟩
    | some c =>
      obtain ⟨⟨tail,rfl⟩,_⟩ := placed.current c rfl
      exact copyGoes mode

theorem quietDown (position : Position sync w) (kind : OnlyBringup w) (ordered : Ordered sync w) (down : w.mode = .down) : Quiet sync w := by
  refine ⟨position,kind,ordered,fun _ _ _ none => ?_,fun _ _ _ _ none => ?_,fun none => ?_⟩
  · cases down.symm.trans none
  · cases down.symm.trans none
  · cases down.symm.trans none

theorem rootedEnds (order : KeyOrder sync.le) (parents : ParentsFirst sync) (quiet : Quiet sync w) (rooted : Rooted sync w) :
    Inevitably (Proc sync) (BroughtUp sync) w := by
  refine inevitableRank (P := fun w => Quiet sync w ∧ Rooted sync w) (rank sync) ?_ (fun w held short => procGoes held.1 short) ?_ ⟨quiet,rooted⟩
  · rintro w w' ⟨quiet,rooted⟩ _ ⟨a,alive,ok⟩
    have moves := stepMoves ok
    exact ⟨quietMoves order quiet moves alive,(agreesMoves order parents quiet moves alive).rooted.mpr rooted⟩
  · rintro w w' ⟨quiet,rooted⟩ _ ⟨a,alive,ok⟩
    exact quietFalls order parents quiet rooted (stepMoves ok) alive

theorem broughtUpRooted (parents : ParentsFirst sync) (up : BroughtUp sync w) : Rooted sync w := by
  intro fk mem k x left
  have copied := (up.2 fk.child (parents fk mem).1).1
  rw [left.1] at copied
  cases copied

theorem unrootedNever (order : KeyOrder sync.le) (parents : ParentsFirst sync) (quiet : Quiet sync w) (stuck : ¬Rooted sync w) :
    ¬Inevitably (Proc sync) (BroughtUp sync) w := by
  refine notInevitable (P := fun w => Quiet sync w ∧ ¬Rooted sync w) ?_ (fun w held up => held.2 (broughtUpRooted parents up)) ⟨quiet,stuck⟩
  rintro w w' ⟨quiet,stuck⟩ ⟨a,alive,ok⟩
  have moves := stepMoves ok
  exact ⟨quietMoves order quiet moves alive,fun rooted => stuck ((agreesMoves order parents quiet moves alive).rooted.mp rooted)⟩

end Ends

theorem bringupEndsIff {sync : Sync} {w₀ w : World} {acts : List Act} (order : KeyOrder sync.le) (parents : ParentsFirst sync)
    (initial : Initial w₀) (only : ∀ a ∈ acts, ofBringup a = true) (ran : run (step sync) w₀ acts = some w)
    (down : w.mode = .down) : Inevitably (Proc sync) (BroughtUp sync) w ↔ Rooted sync w := by
  obtain ⟨position,kind,ordered⟩ := orderedRun initial only ran
  have quiet := quietDown position kind ordered down
  refine ⟨fun ends => ?_,rootedEnds order parents quiet⟩
  by_contra stuck
  exact unrootedNever order parents quiet stuck ends

section Shop

def ordersUser : ForeignKey := ⟨"orders_user_fk",orders,["user_id"],users,["id"],false⟩
def shop : Sync := ⟨[ordersUser],[[users,orders]],by decide,"copy",byNumber,1000⟩
def user (id : UInt8) : KeyValues × Row := ([some [id]],fun c => if c = "id" then some [id] else none)
def order (id owner : UInt8) : KeyValues × Row :=
  ([some [id]],fun c => if c = "id" then some [id] else if c = "user_id" then some [owner] else none)
def shopEmpty (source : Base) : World where
  source := source
  target := fun _ => []
  control := ⟨fun _ => .empty,fun _ _ => ⟨.initialCopy,false⟩,[]⟩
  progress := fun _ => ⟨none,false⟩
  captured := false
  mode := .down
def someUser : Base := fun r => if r = users then [user 1] else if r = orders then [order 5 1] else []

theorem byNumberOrder : KeyOrder byNumber :=
  ⟨fun a b => by simp only [byNumber,decide_eq_true_eq]; exact Nat.le_total _ _,
    fun one two => by simp only [byNumber,decide_eq_true_eq] at one two ⊢; exact Nat.le_trans one two⟩

theorem shopParents : ParentsFirst shop := by
  intro fk mem
  cases mem_singleton.mp mem
  exact ⟨by decide,[users],[],rfl,mem_cons_self⟩

theorem shopInitial (source) : Initial (shopEmpty source) := ⟨rfl,fun _ => rfl,fun _ => rfl,rfl⟩

def stopped : List Act :=
  [.restart,.exec,.plan true,.read 0,.land 0,.mark 0,.finish,.commit [⟨orders,[some [6]],some (order 6 1).2,1,.insert,5⟩],.crash]

theorem bringupEndsIffStopped : ∃ w, run (step shop) (shopEmpty someUser) stopped = some w ∧ w.mode = .down ∧
    Inevitably (Proc shop) (BroughtUp shop) w := by
  have owners : (run (step shop) (shopEmpty someUser) stopped).map (fun w => (w.source orders).map fun e => e.2 "user_id") =
      some [some [1],some [1]] := by decide +kernel
  have copied : (run (step shop) (shopEmpty someUser) stopped).map (fun w => (settled shop w users [some [1]]).map fun x => x "id") =
      some (some (some [1])) := by decide +kernel
  obtain ⟨w,ran,owners⟩ := Option.map_eq_some_iff.mp owners
  rw [ran,Option.map_some,Option.some.injEq] at copied
  obtain ⟨parent,there,id⟩ := Option.map_eq_some_iff.mp copied
  have down : w.mode = .down := by
    have split : run (step shop) (shopEmpty someUser) (stopped.dropLast++[.crash]) = some w := ran
    obtain ⟨_,_,last⟩ := runSplit split
    cases last
    rfl
  refine ⟨w,ran,down,(bringupEndsIff byNumberOrder shopParents (shopInitial _) (by decide) ran down).mpr ?_⟩
  intro fk mem k x _ row whole
  cases mem_singleton.mp mem
  have owner : x "user_id" = some [1] := by
    have listed : x "user_id" ∈ (w.source orders).map fun e => e.2 "user_id" := mem_map_of_mem (lookupEntry row)
    rw [owners] at listed
    simpa using listed
  exact ⟨[some [1]],parent,there,whole,by rw [ordersUser,map_singleton,map_singleton,owner,id]⟩

def orphaned : List Act :=
  [.restart,.exec,.plan true,.read 0,.land 0,.mark 0,.finish,
    .commit [⟨users,[some [2]],some (user 2).2,1,.insert,5⟩,⟨orders,[some [6]],some (order 6 2).2,2,.insert,5⟩],
    .plan true,.read 0,.land 0]

def isDown : Mode → Bool
  | .down => true
  | _ => false

theorem downOf {m} (down : isDown m = true) : m = .down := by
  cases m <;> first | rfl | cases down

theorem lateParentBlocks : KeyOrder shop.le ∧ ParentsFirst shop ∧ Initial (shopEmpty someUser) ∧
    (∀ a ∈ orphaned, ofBringup a = true) ∧ ∃ w, run (step shop) (shopEmpty someUser) orphaned = some w ∧ w.mode = .down ∧
      ¬Inevitably (Proc shop) (BroughtUp shop) w := by
  have only : ∀ a ∈ orphaned, ofBringup a = true := by decide
  refine ⟨byNumberOrder,shopParents,shopInitial _,only,?_⟩
  have copied : (run (step shop) (shopEmpty someUser) orphaned).map (fun w => (w.target users).map fun e => e.2 "id") =
      some [some [1]] := by decide +kernel
  have progress : (run (step shop) (shopEmpty someUser) orphaned).map (fun w => (w.progress users,w.progress orders)) =
      some (⟨none,true⟩,⟨none,false⟩) := by decide +kernel
  have child : (run (step shop) (shopEmpty someUser) orphaned).map (fun w => (view w.source orders [some [6]]).map fun x => x "user_id") =
      some (some (some [2])) := by decide +kernel
  have stopped : (run (step shop) (shopEmpty someUser) orphaned).map (fun w => isDown w.mode) = some true := by decide +kernel
  obtain ⟨w,ran,copied⟩ := Option.map_eq_some_iff.mp copied
  rw [ran,Option.map_some,Option.some.injEq] at progress child stopped
  obtain ⟨done,left⟩ := Prod.mk.inj progress
  obtain ⟨x,row,owner⟩ := Option.map_eq_some_iff.mp child
  have down : w.mode = .down := downOf stopped
  obtain ⟨position,kind,ordered⟩ := orderedRun (shopInitial _) only ran
  refine ⟨w,ran,down,unrootedNever byNumberOrder shopParents (quietDown position kind ordered down) fun rooted => ?_⟩
  have remains : Left shop w orders [some [6]] := by
    unfold Left
    rw [left]
    exact ⟨rfl,rfl⟩
  obtain ⟨k,parent,there,refers⟩ := rooted ordersUser mem_cons_self _ x remains row (by simp [ordersUser,owner])
  have past : ¬Left shop w users k := by
    unfold Left
    rw [done]
    simp
  rw [settled,show ordersUser.parent = users from rfl,if_neg past] at there
  have listed : parent "id" ∈ (w.target users).map fun e => e.2 "id" := mem_map_of_mem (lookupEntry there)
  rw [copied,mem_singleton] at listed
  have same := refers.2
  rw [ordersUser,map_singleton,map_singleton,owner,listed] at same
  revert same
  decide

end Shop

end Replicare.BringupEnds
