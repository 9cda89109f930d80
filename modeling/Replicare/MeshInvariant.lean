import Replicare.Mesh

/-! What a mesh keeps along every run whose steps are careful. -/
namespace Replicare.Mesh
open Engine Consume Coalesce Purge Hlc MeshApply LastWriter List Function

variable {K V N : Type*} [LinearOrder N]

def Seen (s : World K V N) (i : N) (r : Record K V N) : Prop :=
  ∃ x ∈ s.accepted i, x.key = r.key ∧ r.version ≤ x.version

def Pending (name : N ↪ TargetID) (s : World K V N) (i j : N) (except : List DeltaID) (k : K) : Prop :=
  ∃ d ∈ (s.member i).queue.deltas, d.key = k ∧ ¬Consumed (s.member i).queue (name j) d.id ∧ d.id ∉ except

/- What `j` gets of `k` from `i` are deltas: the edge is not flagged, or the chunk of `k` is loaded. -/
def Open (s : World K V N) (i j : N) (k : K) : Prop :=
  s.needsReseed i j = false ∨ ∃ x, s.copy i j = some x ∧ x.loaded (x.chunk k) = true

/- A change that `j` has not seen and the queue of its origin no longer holds for `j`. -/
structure Missed (name : N ↪ TargetID) (s : World K V N) (i j : N) (r : Record K V N) : Prop where
  logged : r ∈ s.log
  origin : r.version.node = i
  unseen : ¬Seen s j r
  dropped : ¬Pending name s i j [] r.key

def InFlight (s : World K V N) (i j : N) (r : Record K V N) : Prop :=
  ∃ p recs, s.edge i j = some p ∧ p.staged = some recs ∧ r ∈ recs

/- No row of `k` older than `v` is left in a register or a batch, and none can be written. -/
structure Outlived (s : World K V N) (k : K) (v : Version N) : Prop where
  clocks : ∀ i, v.stamp ≤ (s.member i).clock
  registers : ∀ i e, (s.member i).replica.register k = some e → e.deleted = false → v ≤ e.version
  flying : ∀ i j r, InFlight s i j r → r.key = k → r.deleted = false → v ≤ r.version

structure PassInv (name : N ↪ TargetID) (s : World K V N) (i j : N) (p : Pass K V N) : Prop where
  apart : i ≠ j
  unconsumed : ∀ id ∈ p.ids, ¬Consumed (s.member i).queue (name j) id
  queued : ∀ id ∈ p.ids, ∃ d ∈ (s.member i).queue.deltas, d.id = id
  keys : ∀ k ∈ p.keys, ∃ d ∈ (s.member i).queue.deltas, d.key = k ∧ d.id ∈ p.ids
  covered : ∀ d ∈ (s.member i).queue.deltas, d.id ∈ p.ids → d.key ∈ p.keys
  distinct : p.keys.Nodup
  separate : ∀ recs, p.staged = some recs → (recs.map Record.key).Nodup
  source : ∀ recs, p.staged = some recs → ∀ r ∈ recs, r ∈ s.log ∧ r.key ∈ p.keys
  fresh : ∀ recs, p.staged = some recs → ∀ r ∈ s.log, r.version.node = i → r.key ∈ p.keys →
    (∃ x ∈ recs, x.key = r.key ∧ r.version ≤ x.version) ∨ Pending name s i j p.ids r.key
  shipped : p.shipped = true → ∀ r ∈ s.log, r.version.node = i → r.key ∈ p.keys →
    Seen s j r ∨ Pending name s i j p.ids r.key

/- What is still on its way to `j` for the key of a missed change is newer. -/
structure Superseded (name : N ↪ TargetID) (s : World K V N) (j : N) (r : Record K V N) : Prop where
  pending : ∀ x, Pending name s x j [] r.key →
    ∃ e, (s.member x).replica.register r.key = some e ∧ r.version < e.version
  flying : ∀ x y, InFlight s x j y → y.key = r.key → r.version < y.version

structure Repaired (name : N ↪ TargetID) (s : World K V N) (j : N) (r : Record K V N) : Prop
    extends Superseded name s j r where
  row : (∀ y ∈ s.log, y.key = r.key → y.version ≤ r.version) → (s.member j).replica.rows r.key = r.row

def NoResurrection (x y : Record K V N) : Prop :=
  x.key = y.key → x.deleted = true → y.deleted = false → x.version < y.version

variable {name : N ↪ TargetID} {base : K → Option V} {loads : Prop} {s t : World K V N} {i j : N}

theorem setSelf (s : World K V N) (i : N) (m) : (s.set i m).member i = m := update_self ..

theorem setOther (s : World K V N) {i x : N} (m) (apart : x ≠ i) : (s.set i m).member x = s.member x :=
  update_of_ne apart ..

theorem setEach {P : N → Member K V N → Prop} {m} (new : P i m) (old : ∀ x, x ≠ i → P x (s.member x)) (x) :
    P x ((s.set i m).member x) := by
  by_cases same : x = i
  · subst same
    rw [setSelf]
    exact new
  · rw [setOther _ _ same]
    exact old x same

theorem setPart {α : Type*} (part : Member K V N → α) {m} (kept : part m = part (s.member i)) (x) :
    part ((s.set i m).member x) = part (s.member x) :=
  setEach (P := fun x n => part n = part (s.member x)) kept (fun _ _ => rfl) x

theorem putCases {α : Type*} (f : N → N → α) (i j x a b) :
    a = i ∧ b = j ∧ put f i j x a b = x ∨ (a ≠ i ∨ b ≠ j) ∧ put f i j x a b = f a b := by
  unfold put
  by_cases first : a = i
  · subst first
    by_cases second : b = j
    · subst second
      exact .inl ⟨rfl,rfl,by simp⟩
    · exact .inr ⟨.inr second,by simp [second]⟩
  · exact .inr ⟨.inl first,by simp [first]⟩

theorem setEdgeCases {p a b x} (busy : (s.setEdge i j p).edge a b = some x) :
    a = i ∧ b = j ∧ p = some x ∨ s.edge a b = some x := by
  rcases putCases s.edge i j p a b with ⟨rfl,rfl,new⟩ | ⟨_,old⟩
  · exact .inl ⟨rfl,rfl,new.symm.trans busy⟩
  · exact .inr (old.symm.trans busy)

theorem flyingCases {p a b r} (flying : InFlight (s.setEdge i j p) a b r) :
    (a = i ∧ b = j ∧ ∃ x recs, p = some x ∧ x.staged = some recs ∧ r ∈ recs) ∨ InFlight s a b r := by
  obtain ⟨x,recs,busy,staged,mem⟩ := flying
  rcases setEdgeCases busy with ⟨rfl,rfl,same⟩ | old
  · exact .inl ⟨rfl,rfl,x,recs,same,staged,mem⟩
  · exact .inr ⟨x,recs,old,staged,mem⟩

theorem seenMono (more : ∀ x ∈ s.accepted i, x ∈ t.accepted i) {r} (seen : Seen s i r) : Seen t i r := by
  obtain ⟨x,mem,same,above⟩ := seen
  exact ⟨x,more x mem,same,above⟩

theorem seenOlder {r y} (seen : Seen s i r) (same : y.key = r.key) (below : y.version ≤ r.version) : Seen s i y := by
  obtain ⟨x,mem,key,above⟩ := seen
  exact ⟨x,mem,key.trans same.symm,below.trans above⟩

omit [LinearOrder N] in
theorem pendingSame {k except} (queue : (t.member i).queue = (s.member i).queue) :
    Pending name t i j except k ↔ Pending name s i j except k := by
  unfold Pending
  rw [queue]

theorem passMono {p} (pass : PassInv name s i j p) (queue : (t.member i).queue = (s.member i).queue)
    (grows : ∀ r ∈ s.log, r ∈ t.log) (foreign : ∀ r ∈ t.log, r.version.node = i → r ∈ s.log)
    (more : ∀ x ∈ s.accepted j, x ∈ t.accepted j) : PassInv name t i j p := by
  refine ⟨pass.apart,?_,?_,?_,?_,pass.distinct,pass.separate,fun recs staged r mem => ?_,
    fun recs staged r mem node key => ?_,fun done r mem node key => ?_⟩
  · rw [queue]; exact pass.unconsumed
  · rw [queue]; exact pass.queued
  · rw [queue]; exact pass.keys
  · rw [queue]; exact pass.covered
  · exact ⟨grows r (pass.source recs staged r mem).1,(pass.source recs staged r mem).2⟩
  · exact (pass.fresh recs staged r (foreign r mem node) node key).imp id (pendingSame queue).mpr
  · exact (pass.shipped done r (foreign r mem node) node key).imp (seenMono more) (pendingSame queue).mpr

theorem missedBefore {r} (missed : Missed name t i j r) (queue : (t.member i).queue = (s.member i).queue)
    (log : t.log = s.log) (more : ∀ x ∈ s.accepted j, x ∈ t.accepted j) : Missed name s i j r :=
  ⟨log ▸ missed.logged,missed.origin,fun seen => missed.unseen (seenMono more seen),
    fun held => missed.dropped ((pendingSame queue).mpr held)⟩

theorem passShortened {p q} (old : PassInv name s i j p) (fewer : ∀ d ∈ q.deltas, d ∈ (s.member i).queue.deltas)
    (kept : ∀ d ∈ (s.member i).queue.deltas, ¬Consumed (s.member i).queue (name j) d.id →
      d ∈ q.deltas ∧ ¬Consumed q (name j) d.id) :
    PassInv name (s.set i { s.member i with queue := q }) i j p := by
  have outside : ∀ k, Pending name s i j p.ids k → Pending name (s.set i { s.member i with queue := q }) i j p.ids k := by
    intro k ⟨d,hd,key,left,out⟩
    unfold Pending
    rw [setSelf]
    exact ⟨d,(kept d hd left).1,key,(kept d hd left).2,out⟩
  refine ⟨old.apart,?_,?_,?_,?_,old.distinct,old.separate,old.source,?_,?_⟩
  · intro id mem
    obtain ⟨d,hd,rfl⟩ := old.queued id mem
    rw [setSelf]
    exact (kept d hd (old.unconsumed _ mem)).2
  · intro id mem
    obtain ⟨d,hd,rfl⟩ := old.queued id mem
    rw [setSelf]
    exact ⟨d,(kept d hd (old.unconsumed _ mem)).1,rfl⟩
  · intro k mem
    obtain ⟨d,hd,key,listed⟩ := old.keys k mem
    rw [setSelf]
    exact ⟨d,(kept d hd (old.unconsumed _ listed)).1,key,listed⟩
  · intro d mem listed
    rw [setSelf] at mem
    exact old.covered d (fewer d mem) listed
  · exact fun recs staged r mem node key => (old.fresh recs staged r mem node key).imp id (outside _)
  · exact fun done r mem node key => (old.shipped done r mem node key).imp id (outside _)

theorem flagOpens {flagged a b k} (opened : Open (s.setFlag i j flagged) a b k) (raised : flagged = false → Open s i j k) :
    Open s a b k := by
  rcases opened with clear | copied
  · rcases putCases s.needsReseed i j flagged a b with ⟨rfl,rfl,new⟩ | ⟨_,old⟩
    · exact raised (new.symm.trans clear)
    · exact .inl (old.symm.trans clear)
  · exact .inr copied

theorem copyOpens {x a b k} (opened : Open (s.setCopy i j x) a b k) :
    Open s a b k ∨ a = i ∧ b = j ∧ ∃ y, x = some y ∧ y.loaded (y.chunk k) = true := by
  rcases opened with clear | ⟨y,held,done⟩
  · exact .inl (.inl clear)
  · rcases putCases s.copy i j x a b with ⟨rfl,rfl,new⟩ | ⟨_,old⟩
    · exact .inr ⟨rfl,rfl,y,new.symm.trans held,done⟩
    · exact .inl (.inr ⟨y,old.symm.trans held,done⟩)

/- One chunk is marked as loaded, or as read anew. -/
theorem chunkOpens {x c read done a b k} (busy : s.copy i j = some x)
    (opened : Open (s.setCopy i j (some { x with read := read, loaded := update x.loaded c done })) a b k) :
    Open s a b k ∨ a = i ∧ b = j ∧ x.chunk k = c ∧ done = true := by
  rcases copyOpens opened with before | ⟨rfl,rfl,y,new,loaded⟩
  · exact .inl before
  · cases new
    by_cases here : x.chunk k = c
    · rw [here] at loaded
      exact .inr ⟨rfl,rfl,here,(update_self ..).symm.trans loaded⟩
    · exact .inl (.inr ⟨x,busy,(update_of_ne here _ _).symm.trans loaded⟩)

variable [DecidableEq K]

def Current (s : World K V N) (i : N) (k : K) : Prop :=
  ∃ m, winner (s.accepted i) k = some m ∧ (s.member i).replica.register k = some m.entry

def Collected (s : World K V N) (i : N) (k : K) : Prop :=
  ∃ m, winner (s.accepted i) k = some m ∧ m.row = none ∧ Outlived s k m.version ∧
    ∀ e, (s.member i).replica.register k = some e → e.deleted = true ∧ e.version ≤ m.version

def Settled (s : World K V N) (i : N) (k : K) : Prop :=
  (s.member i).replica.register k = (winner (s.accepted i) k).map Record.entry ∨ Collected s i k

def RowShown (base : K → Option V) (s : World K V N) (i : N) (k : K) : Prop :=
  (s.member i).replica.rows k = shown base k (winner (s.accepted i) k) ∨
  (∀ e, (s.member i).replica.register k = some e → e.deleted = true) ∧ ∃ r ∈ s.log, r.key = k ∧ ¬Seen s i r

/- `loads` says whether edges may be reseeded; without loads no change is missed where an
edge is open. -/
structure Inv (name : N ↪ TargetID) (base : K → Option V) (loads : Prop) (s : World K V N) : Prop where
  coherent : ∀ r ∈ s.log, ∀ x ∈ s.log, r.key = x.key → r.version = x.version → r = x
  logged : ∀ i, ∀ r ∈ s.accepted i, r ∈ s.log
  written : ∀ r ∈ s.writes, r ∈ s.log
  own : ∀ r ∈ s.log, r ∈ s.accepted r.version.node
  clocks : ∀ i, ∀ r ∈ s.accepted i, r.version.stamp ≤ (s.member i).clock
  settled : ∀ i k, Settled s i k
  current : ∀ i, ∀ d ∈ (s.member i).queue.deltas, Current s i d.key
  rows : ∀ i k, RowShown base s i k
  passes : ∀ i j p, s.edge i j = some p → PassInv name s i j p
  repaired : ∀ i j r, Open s i j r.key → Missed name s i j r → loads ∧ Repaired name s j r
  ordered : ∀ i, (s.accepted i).Pairwise NoResurrection

theorem invStart {name} (base : K → Option V) (loads : Prop) (clock : N → Clock) : Inv name base loads (start base clock) where
  coherent := fun r mem => absurd mem not_mem_nil
  logged := fun i r mem => absurd mem not_mem_nil
  written := fun r mem => absurd mem not_mem_nil
  own := fun r mem => absurd mem not_mem_nil
  clocks := fun i r mem => absurd mem not_mem_nil
  settled := fun i k => .inl rfl
  current := fun i d mem => absurd mem not_mem_nil
  rows := fun i k => .inl rfl
  passes := fun i j p busy => by cases busy
  repaired := fun i j r _ missed => absurd missed.logged not_mem_nil
  ordered := fun i => List.Pairwise.nil

theorem entrySeen {k e} (settled : Settled s i k) (held : (s.member i).replica.register k = some e) :
    ∃ m, winner (s.accepted i) k = some m ∧ e.version ≤ m.version := by
  rcases settled with same | ⟨m,won,_,_,older⟩
  · rw [held] at same
    obtain ⟨m,won,rfl⟩ := Option.map_eq_some_iff.mp same.symm
    exact ⟨m,won,le_refl _⟩
  · exact ⟨m,won,(older e held).2⟩

theorem collectedMono {k} (stays : ∀ v, Outlived s k v → Outlived t k v) (same : t.accepted i = s.accepted i)
    (fewer : ∀ e, (t.member i).replica.register k = some e → (s.member i).replica.register k = some e)
    (collected : Collected s i k) : Collected t i k := by
  obtain ⟨m,won,gone,outlived,older⟩ := collected
  exact ⟨m,by rw [same]; exact won,gone,stays _ outlived,fun e held => older e (fewer e held)⟩

/- What was read of the chunk is still the source's, and the source knows all that has
reached `j` or no longer will. -/
structure Loadable (name : N ↪ TargetID) (s : World K V N) (i j : N) (x : Copying K V) (c : Nat) : Prop where
  fresh : ∀ rows, x.read c = some rows → ∀ k, x.chunk k = c → rows k = (s.member i).replica.rows k
  empty : ∀ k, x.chunk k = c → (s.member j).replica.rows k = none
  known : ∀ r ∈ s.log, x.chunk r.key = c → Seen s j r ∨ ¬Pending name s r.version.node j [] r.key → Seen s i r
  newer : ∀ r, Missed name s i j r → x.chunk r.key = c → Superseded name s j r

section
variable (inv : Inv name base loads s)
include inv

theorem bookKeeps {flags copies writes} (written : ∀ r ∈ writes, r ∈ s.log)
    (repaired : ∀ a b r, Open { s with needsReseed := flags, copy := copies } a b r.key → Missed name s a b r →
      loads ∧ Repaired name s b r) :
    Inv name base loads { s with needsReseed := flags, copy := copies, writes := writes } := by
  refine ⟨inv.coherent,inv.logged,written,inv.own,inv.clocks,fun x k => ?_,inv.current,inv.rows,fun a b p busy => ?_,
    fun a b r opened missed => ?_,inv.ordered⟩
  · exact (inv.settled x k).imp id
      (collectedMono (s := s) (fun _ old => ⟨old.clocks,old.registers,old.flying⟩) rfl fun _ held => held)
  · exact passMono (inv.passes a b p busy) rfl (fun _ mem => mem) (fun _ mem _ => mem) fun _ mem => mem
  · obtain ⟨allowed,repaired⟩ := repaired a b r opened (missedBefore missed rfl rfl fun _ mem => mem)
    exact ⟨allowed,⟨repaired.pending,repaired.flying⟩,repaired.row⟩

theorem edgeKeeps {p} (pass : ∀ x, p = some x → PassInv name s i j x)
    (sourced : ∀ x recs, p = some x → x.staged = some recs → ∀ r ∈ recs,
      (s.member i).replica.register r.key = some r.entry) : Inv name base loads (s.setEdge i j p) := by
  have outlived : ∀ k v, Outlived s k v → Outlived (s.setEdge i j p) k v := by
    intro k v old
    refine ⟨old.clocks,old.registers,?_⟩
    intro a b r flying same alive
    rcases flyingCases flying with ⟨rfl,rfl,x,recs,new,staged,mem⟩ | before
    · have held := sourced x recs new staged r mem
      rw [same] at held
      exact old.registers a _ held alive
    · exact old.flying a b r before same alive
  refine ⟨inv.coherent,inv.logged,inv.written,inv.own,inv.clocks,?_,inv.current,inv.rows,?_,?_,inv.ordered⟩
  · intro x k
    exact (inv.settled x k).imp id (collectedMono (outlived k) rfl fun _ held => held)
  · intro a b x busy
    rcases setEdgeCases busy with ⟨rfl,rfl,new⟩ | before
    · exact passMono (pass x new) rfl (fun _ mem => mem) (fun _ mem _ => mem) fun _ mem => mem
    · exact passMono (inv.passes a b x before) rfl (fun _ mem => mem) (fun _ mem _ => mem) fun _ mem => mem
  · intro a b r clear missed
    obtain ⟨loads,repaired⟩ := inv.repaired a b r clear (missedBefore missed rfl rfl fun _ mem => mem)
    refine ⟨loads,⟨repaired.pending,?_⟩,repaired.row⟩
    intro x y flying same
    rcases flyingCases flying with ⟨rfl,rfl,z,recs,new,staged,mem⟩ | before
    · -- the batch was read from a register that has a delta pending for the destination
      have valid := pass z new
      obtain ⟨d,hd,key,listed⟩ := valid.keys _ (valid.source recs staged y mem).2
      obtain ⟨e,held,newer⟩ := repaired.pending x
        ⟨d,hd,key.trans same,valid.unconsumed _ listed,not_mem_nil⟩
      rw [← same,sourced z recs new staged y mem] at held
      cases held
      exact newer
    · exact repaired.flying x y before same

theorem queueKeeps {q} (fewer : ∀ d ∈ q.deltas, d ∈ (s.member i).queue.deltas)
    (open_ : ∀ d ∈ q.deltas, ∀ l, ¬Consumed q (name l) d.id → ¬Consumed (s.member i).queue (name l) d.id)
    (kept : ∀ l p, s.edge i l = some p → ∀ d ∈ (s.member i).queue.deltas,
      ¬Consumed (s.member i).queue (name l) d.id → d ∈ q.deltas ∧ ¬Consumed q (name l) d.id)
    (lost : ∀ l r, Open s i l r.key → r ∈ s.log → r.version.node = i → ¬Seen s l r → Pending name s i l [] r.key →
      ∃ d ∈ q.deltas, d.key = r.key ∧ ¬Consumed q (name l) d.id) :
    Inv name base loads (s.set i { s.member i with queue := q }) := by
  have replica := fun x => setPart (s := s) (m := { s.member i with queue := q }) Member.replica rfl x
  have clock := fun x => setPart (s := s) (m := { s.member i with queue := q }) Member.clock rfl x
  have deltas : ∀ x, ∀ d ∈ ((s.set i { s.member i with queue := q }).member x).queue.deltas, d ∈ (s.member x).queue.deltas :=
    setEach (P := fun x n => ∀ d ∈ n.queue.deltas, d ∈ (s.member x).queue.deltas) fewer fun _ _ _ mem => mem
  have pending : ∀ x l k, Pending name (s.set i { s.member i with queue := q }) x l [] k → Pending name s x l [] k := by
    intro x l k ⟨d,hd,key,left,_⟩
    refine ⟨d,deltas x d hd,key,?_,not_mem_nil⟩
    exact setEach (P := fun x n => ∀ d ∈ n.queue.deltas, ¬Consumed n.queue (name l) d.id → ¬Consumed (s.member x).queue (name l) d.id)
      (fun d mem => open_ d mem l) (fun _ _ _ _ open' => open') x d hd left
  have outlived : ∀ k v, Outlived s k v → Outlived (s.set i { s.member i with queue := q }) k v := by
    intro k v old
    refine ⟨fun x => ?_,fun x e held alive => ?_,old.flying⟩
    · rw [clock x]
      exact old.clocks x
    · rw [replica x] at held
      exact old.registers x e held alive
  refine ⟨inv.coherent,inv.logged,inv.written,inv.own,?_,?_,?_,?_,?_,?_,inv.ordered⟩
  · intro x r mem
    rw [clock x]
    exact inv.clocks x r mem
  · intro x k
    unfold Settled
    rw [replica x]
    refine (inv.settled x k).imp id (collectedMono (outlived k) rfl fun e held => ?_)
    rw [replica x] at held
    exact held
  · intro x d mem
    unfold Current
    rw [replica x]
    exact inv.current x d (deltas x d mem)
  · intro x k
    unfold RowShown
    rw [replica x]
    exact inv.rows x k
  · intro a b p busy
    have old := inv.passes a b p busy
    by_cases same : a = i
    · subst same
      exact passShortened old fewer (kept b p busy)
    · exact passMono old (congrArg Member.queue (setOther s _ same)) (fun _ mem => mem) (fun _ mem _ => mem) fun _ mem => mem
  · intro a b r opened missed
    have before : Missed name s a b r := by
      refine ⟨missed.logged,missed.origin,missed.unseen,?_⟩
      intro held
      apply missed.dropped
      unfold Pending
      by_cases same : a = i
      · subst same
        obtain ⟨d,hd,key,left⟩ := lost b r opened missed.logged missed.origin missed.unseen held
        rw [setSelf]
        exact ⟨d,hd,key,left,not_mem_nil⟩
      · rw [setOther _ _ same]
        exact held
    obtain ⟨loads,repaired⟩ := inv.repaired a b r opened before
    refine ⟨loads,⟨fun x held => ?_,repaired.flying⟩,fun newest => ?_⟩
    · rw [replica x]
      exact repaired.pending x (pending x b _ held)
    · rw [replica b]
      exact repaired.row newest

theorem memberKeeps {m} (copies) (clock : (s.member i).clock ≤ m.clock)
    (queue : m.queue = (s.member i).queue)
    (register : ∀ k, m.replica.register k = (s.member i).replica.register k ∨
      m.replica.register k = none ∧ (∀ d ∈ (s.member i).queue.deltas, d.key ≠ k) ∧
      ∃ e, (s.member i).replica.register k = some e ∧ e.deleted = true ∧ Outlived s k e.version)
    (rows : ∀ k, RowShown base (s.set i m) i k)
    (repaired : ∀ a b r, Open { s with copy := copies } a b r.key → Missed name s a b r → loads ∧ Superseded name s b r ∧
      ((∀ y ∈ s.log, y.key = r.key → y.version ≤ r.version) → ((s.set i m).member b).replica.rows r.key = r.row)) :
    Inv name base loads { s.set i m with copy := copies } := by
  have queues : ∀ x, ((s.set i m).member x).queue = (s.member x).queue := setPart Member.queue queue
  have clocks : ∀ x, (s.member x).clock ≤ ((s.set i m).member x).clock :=
    setEach (P := fun x n => (s.member x).clock ≤ n.clock) clock fun _ _ => le_refl _
  have fewer : ∀ x k e, ((s.set i m).member x).replica.register k = some e →
      (s.member x).replica.register k = some e := by
    refine setEach (P := fun x n => ∀ k e, n.replica.register k = some e → (s.member x).replica.register k = some e)
      (fun k e held => ?_) fun _ _ _ _ held => held
    rcases register k with unchanged | ⟨none,_⟩
    · rw [← unchanged]
      exact held
    · rw [none] at held
      cases held
  have outlived : ∀ k v, Outlived s k v → Outlived { s.set i m with copy := copies } k v := fun k v old =>
    ⟨fun x => (old.clocks x).trans (clocks x),fun x e held alive => old.registers x e (fewer x k e held) alive,
      old.flying⟩
  have collected : ∀ x k, Collected s x k → Collected { s.set i m with copy := copies } x k := fun x k =>
    collectedMono (outlived k) rfl (fewer x k)
  -- a key with a delta keeps its register entry
  have held : ∀ x, ∀ d ∈ (s.member x).queue.deltas,
      ((s.set i m).member x).replica.register d.key = (s.member x).replica.register d.key := by
    refine setEach (P := fun x n => ∀ d ∈ (s.member x).queue.deltas,
      n.replica.register d.key = (s.member x).replica.register d.key) (fun d mem => ?_) fun _ _ _ _ => rfl
    rcases register d.key with unchanged | ⟨_,none,_⟩
    · exact unchanged
    · exact absurd rfl (none d mem)
  refine ⟨inv.coherent,inv.logged,inv.written,inv.own,?_,?_,?_,?_,?_,?_,inv.ordered⟩
  · exact fun x r mem => (inv.clocks x r mem).trans (clocks x)
  · intro x k
    rcases inv.settled x k with settled | gone
    · by_cases same : x = i
      · subst same
        rcases register k with unchanged | ⟨none,_,e,before,deleted,past⟩
        · refine .inl ?_
          rw [setSelf,unchanged]
          exact settled
        · rw [before] at settled
          obtain ⟨w,won,rfl⟩ := Option.map_eq_some_iff.mp settled.symm
          refine .inr ⟨w,won,Option.isNone_iff_eq_none.mp deleted,outlived k _ past,fun e now => ?_⟩
          rw [setSelf,none] at now
          cases now
      · refine .inl ?_
        rw [setOther _ _ same]
        exact settled
    · exact .inr (collected x k gone)
  · intro x d mem
    rw [queues] at mem
    obtain ⟨w,won,entry⟩ := inv.current x d mem
    exact ⟨w,won,(held x d mem).trans entry⟩
  · intro x k
    by_cases same : x = i
    · subst same
      exact rows k
    · unfold RowShown
      rw [setOther _ _ same]
      exact inv.rows x k
  · exact fun a b p busy => passMono (inv.passes a b p busy) (queues a) (fun _ mem => mem) (fun _ mem _ => mem) fun _ mem => mem
  · intro a b r clear missed
    obtain ⟨loads,superseded,row⟩ := repaired a b r clear (missedBefore missed (queues a) rfl fun _ mem => mem)
    refine ⟨loads,⟨fun x pending => ?_,superseded.flying⟩,row⟩
    have before := (pendingSame (t := { s.set i m with copy := copies }) (queues x)).mp pending
    obtain ⟨e,entry,newer⟩ := superseded.pending x before
    obtain ⟨d,hd,key,_⟩ := before
    have unchanged := held x d hd
    rw [key,entry] at unchanged
    exact ⟨e,unchanged,newer⟩

theorem clockKeeps {c} (later : (s.member i).clock ≤ c) : Inv name base loads (s.set i { s.member i with clock := c }) := by
  have unchanged : ∀ x, ((s.set i { s.member i with clock := c }).member x).replica = (s.member x).replica :=
    setPart Member.replica rfl
  refine memberKeeps inv s.copy later rfl (fun k => .inl rfl) (fun k => ?_) fun a b r clear missed => ?_
  · unfold RowShown
    rw [unchanged]
    exact inv.rows i k
  · obtain ⟨loads,repaired⟩ := inv.repaired a b r clear missed
    refine ⟨loads,repaired.toSuperseded,fun newest => ?_⟩
    rw [unchanged]
    exact repaired.row newest

theorem gcKeeps (past : ∀ k e, (s.member i).replica.register k = some e → collectable (s.member i).queue k e = true →
      Outlived s k e.version) : Inv name base loads (s.set i (gcTombstones (s.member i))) := by
  have rows : ∀ x, ((s.set i (gcTombstones (s.member i))).member x).replica.rows = (s.member x).replica.rows :=
    setPart (fun n => n.replica.rows) rfl
  refine memberKeeps inv s.copy (le_refl _) rfl (fun k => ?_) (fun k => ?_) fun a b r clear missed => ?_
  · cases held : (s.member i).replica.register k with
    | none => exact .inl (by simp [gcTombstones,held])
    | some e =>
      cases gone : collectable (s.member i).queue k e with
      | false => exact .inl (by simp [gcTombstones,held,gone])
      | true =>
        have outlived := past k e held gone
        simp only [collectable,Bool.and_eq_true,all_eq_true,Bool.not_eq_true',decide_eq_false_iff_not] at gone
        refine .inr ⟨?_,gone.2,e,rfl,gone.1,outlived⟩
        simpa [gcTombstones,held,collectable,gone.1] using gone.2
  · rcases inv.rows i k with same | ⟨deleted,unseen⟩
    · refine .inl ?_
      rw [rows]
      exact same
    · refine .inr ⟨fun e held => ?_,unseen⟩
      rw [setSelf] at held
      exact deleted e (Option.filter_eq_some_iff.mp held).1
  · obtain ⟨loads,repaired⟩ := inv.repaired a b r clear missed
    refine ⟨loads,repaired.toSuperseded,fun newest => ?_⟩
    rw [rows]
    exact repaired.row newest

theorem seenAllWinner {k} (all : ∀ r ∈ s.log, r.key = k → Seen s i r) : winner (s.accepted i) k = winner s.log k := by
  cases top : winner s.log k with
  | none => exact winnerNone.mpr fun r mem => winnerNone.mp top r (inv.logged i r mem)
  | some m =>
    obtain ⟨mem,key,newest⟩ := winnerTop top
    obtain ⟨x,hx,same,above⟩ := all m mem key
    cases won : winner (s.accepted i) k with
    | none => exact absurd (same.trans key) (winnerNone.mp won x hx)
    | some y =>
      obtain ⟨hy,ykey,high⟩ := winnerTop won
      have version : y.version = m.version :=
        le_antisymm (newest y (inv.logged i y hy) ykey) (above.trans (high x hx (same.trans key)))
      rw [inv.coherent y (inv.logged i y hy) m mem (ykey.trans key.symm) version]

theorem seenAllRow {k} (all : ∀ r ∈ s.log, r.key = k → Seen s i r) :
    (s.member i).replica.rows k = shown base k (winner s.log k) := by
  rw [← seenAllWinner inv all]
  rcases inv.rows i k with same | ⟨_,r,mem,key,unseen⟩
  · exact same
  · exact absurd (all r mem key) unseen

theorem newestWinner {r} (mem : r ∈ s.log)
    (newest : ∀ y ∈ s.log, y.key = r.key → y.version ≤ r.version) : winner s.log r.key = some r := by
  cases top : winner s.log r.key with
  | none => exact absurd rfl (winnerNone.mp top r mem)
  | some m =>
    obtain ⟨hm,key,high⟩ := winnerTop top
    rw [inv.coherent m hm r mem key (le_antisymm (newest m hm key) (high r mem rfl))]

theorem newestRow {r} (mem : r ∈ s.log) (newest : ∀ y ∈ s.log, y.key = r.key → y.version ≤ r.version) (seen : Seen s i r) :
    (s.member i).replica.rows r.key = r.row := by
  rw [seenAllRow inv fun y hy key => seenOlder seen key (newest y hy key),newestWinner inv mem newest]
  rfl

theorem bareEntry {k e} (empty : (s.member j).replica.rows k = none)
    (held : (s.member j).replica.register k = some e) : e.deleted = true := by
  rcases inv.rows j k with same | ⟨deleted,_⟩
  · rcases inv.settled j k with settled | ⟨m,_,_,_,older⟩
    · rw [held] at settled
      obtain ⟨m,won,rfl⟩ := Option.map_eq_some_iff.mp settled.symm
      rw [empty,won] at same
      exact Option.isNone_iff_eq_none.mpr same.symm
    · exact (older e held).1
  · exact deleted e held

theorem loadKeeps {x c rows} (allowed : loads) (busy : s.copy i j = some x) (read : x.read c = some rows)
    (loadable : Loadable name s i j x c) : Inv name base loads (bulkLoad s i j x c rows) := by
  have loaded : ∀ k, x.chunk k = c → (if x.chunk k = c then (rows k).or ((s.member j).replica.rows k) else
      (s.member j).replica.rows k) = (s.member i).replica.rows k := by
    intro k here
    rw [if_pos here,loadable.empty k here,Option.or_none,loadable.fresh rows read k here]
  refine memberKeeps inv _ (le_refl _) rfl (fun k => .inl rfl) (fun k => ?_) fun a b r opened missed => ?_
  · unfold RowShown
    rw [setSelf]
    dsimp only
    by_cases here : x.chunk k = c
    · by_cases all : ∀ r ∈ s.log, r.key = k → Seen s j r
      · have source : ∀ r ∈ s.log, r.key = k → Seen s i r :=
          fun r mem key => loadable.known r mem (key ▸ here) (.inl (all r mem key))
        rw [loaded k here,seenAllRow inv source]
        exact .inl (congrArg (shown base k) (seenAllWinner inv all).symm)
      · push Not at all
        exact .inr ⟨fun e => bareEntry inv (loadable.empty k here),all⟩
    · rw [if_neg here]
      exact inv.rows j k
  · have row : ∀ newest : ∀ y ∈ s.log, y.key = r.key → y.version ≤ r.version, x.chunk r.key = c → b = j →
        (s.member i).replica.rows r.key = r.row := by
      rintro newest here rfl
      refine newestRow inv missed.logged newest (loadable.known r missed.logged here (.inr ?_))
      rw [missed.origin]
      exact missed.dropped
    rcases chunkOpens busy opened with before | ⟨rfl,rfl,here,_⟩
    · obtain ⟨_,repaired⟩ := inv.repaired a b r before missed
      refine ⟨allowed,repaired.toSuperseded,fun newest => ?_⟩
      by_cases same : b = j
      · subst same
        rw [setSelf]
        dsimp only
        by_cases here : x.chunk r.key = c
        · rw [loaded r.key here,row newest here rfl]
        · rw [if_neg here]
          exact repaired.row newest
      · rw [setOther _ _ same]
        exact repaired.row newest
    · refine ⟨allowed,loadable.newer r missed here,fun newest => ?_⟩
      rw [setSelf]
      dsimp only
      rw [loaded r.key here,row newest here rfl]

end

end Replicare.Mesh
