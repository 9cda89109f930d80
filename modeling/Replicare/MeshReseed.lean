import Replicare.MeshGc

/-! Reseed of a mesh edge, interleaved with what the other edges do. The clear of the
destination is captured there as fresh deletes of this member, and the rows are loaded
without versions. -/
namespace Replicare.Mesh
open Engine Consume Coalesce Purge Hlc MeshApply Runs

variable {K V N S : Type*} [DecidableEq K] [Inhabited V] [LinearOrder N] [DecidableEq S]

section Decide
variable [Fintype N] [Fintype K] (name : N ↪ TargetID) (s : World K V N)

instance (i r) : Decidable (Seen s i r) :=
  inferInstanceAs (Decidable (∃ x ∈ s.accepted i, x.key = r.key ∧ r.version ≤ x.version))

instance (i j except k) : Decidable (Pending name s i j except k) :=
  inferInstanceAs (Decidable (∃ d ∈ (s.member i).queue.deltas,
    d.key = k ∧ ¬Consumed (s.member i).queue (name j) d.id ∧ d.id ∉ except))

instance (i j k) : Decidable (Open s i j k) :=
  decidable_of_iff (s.needsReseed i j = false ∨ ∃ x ∈ s.copy i j, x.loaded (x.chunk k) = true) Iff.rfl

instance (i j sacrificed) : Decidable (Shared name s i j sacrificed) := by
  unfold Shared
  infer_instance

instance (i op) : Decidable (Aware name s i op) :=
  decidable_of_iff (∀ c ∈ op.stamps, ∀ a b, ∀ r ∈ s.log, Open s a b r.key → r.version.node = a ∧ ¬Seen s b r ∧
      ¬Pending name s a b [] r.key → r.key = c.key → r.version.stamp ≤ (s.member i).clock)
    ⟨fun all c mem a b r opened missed => all c mem a b r missed.logged opened ⟨missed.origin,missed.unseen,missed.dropped⟩,
      fun all c mem a b r logged opened ⟨origin,unseen,dropped⟩ => all c mem a b r opened ⟨logged,origin,unseen,dropped⟩⟩

instance (j r) : Decidable (Superseded name s j r) :=
  decidable_of_iff ((∀ x, Pending name s x j [] r.key → ∃ e ∈ (s.member x).replica.register r.key, r.version < e.version) ∧
      ∀ x, ∀ p ∈ s.edge x j, ∀ recs ∈ p.staged, ∀ y ∈ recs, y.key = r.key → r.version < y.version)
    ⟨fun ⟨pending,flying⟩ => ⟨pending,fun x y ⟨p,recs,busy,staged,mem⟩ => flying x p busy recs staged y mem⟩,
      fun both => ⟨both.pending,fun x p busy recs staged y mem => both.flying x y ⟨p,recs,busy,staged,mem⟩⟩⟩

instance [DecidableEq V] (i j) (x : Copying K V) (c) : Decidable (Loadable name s i j x c) :=
  decidable_of_iff ((∀ rows ∈ x.read c, ∀ k, x.chunk k = c → rows k = (s.member i).replica.rows k) ∧
      (∀ k, x.chunk k = c → (s.member j).replica.rows k = none) ∧
      (∀ r ∈ s.log, x.chunk r.key = c → Seen s j r ∨ ¬Pending name s r.version.node j [] r.key → Seen s i r) ∧
      ∀ r ∈ s.log, r.version.node = i ∧ ¬Seen s j r ∧ ¬Pending name s i j [] r.key → x.chunk r.key = c → Superseded name s j r)
    ⟨fun ⟨fresh,empty,known,newer⟩ => ⟨fresh,empty,known,
        fun r missed => newer r missed.logged ⟨missed.origin,missed.unseen,missed.dropped⟩⟩,
      fun all => ⟨all.fresh,all.empty,all.known,
        fun r logged ⟨origin,unseen,dropped⟩ => all.newer r ⟨logged,origin,unseen,dropped⟩⟩⟩

instance [DecidableEq V] (dialect ret) (sig : K → S) (loads : Prop) [Decidable loads] (a) :
    Decidable (Careful dialect ret name sig loads s a) :=
  match a with
  | .client i _ _ op => inferInstanceAs (Decidable (loads → Aware name s i op))
  | .gather i j batch => inferInstanceAs (Decidable (KeepsKeys name sig s i j batch))
  | .enforce i j _ => inferInstanceAs (Decidable (Shared name s i j _))
  | .gc i => inferInstanceAs (Decidable (CollectsOutlived s i))
  | .clear _ j now cleared _ =>
      inferInstanceAs (Decidable (Along (clearRow j now) (fun s c => loads → Aware name s j (.delete c.1 c.2.2)) s cleared))
  | .load i j c => inferInstanceAs (Decidable (loads ∧ ∀ x ∈ s.copy i j, Loadable name s i j x c))
  | .reread .. | .ship .. | .confirm .. | .stop .. | .read .. | .unflag .. | .clock .. | .flag .. => .isTrue trivial

end Decide

def Unflagged (s : World K V N) : Prop := ∀ i j, s.needsReseed i j = false
instance [Fintype N] (s : World K V N) : Decidable (Unflagged s) := by unfold Unflagged; infer_instance

def LastChange (base : K → Option V) (log : List (Record K V N)) (k : K) (row : Option V) : Prop :=
  (∀ r ∈ log, r.key ≠ k) ∧ row = base k ∨
  ∃ r ∈ log, r.key = k ∧ (∀ x ∈ log, x.key = k → x.version ≤ r.version) ∧ row = r.row
instance [DecidableEq V] (base : K → Option V) (log : List (Record K V N)) (k row) : Decidable (LastChange base log k row) := by
  unfold LastChange
  infer_instance

/- Every stamped delete of a clear has been followed by a newer client change of its key. -/
def Rewritten (s : World K V N) : Prop :=
  ∀ r ∈ s.log, r ∈ s.writes ∨ ∃ x ∈ s.writes, x.key = r.key ∧ r.version < x.version
instance [DecidableEq V] (s : World K V N) : Decidable (Rewritten s) := by unfold Rewritten; infer_instance

variable {dialect : Dialect} {ret : RetentionPolicy} {name : N ↪ TargetID} {sig : K → S} {base : K → Option V}
  {t : World K V N}

def pair : Fin 2 ↪ TargetID := ⟨fun i => match i with | 0 => "a" | 1 => "b",by decide⟩

def oneByte : RetentionPolicy := ⟨0,1⟩

def whole : Plan Unit := ⟨fun _ => 0,1,fun _ => Nat.one_pos⟩

/- The row of `b` is cleared, the delete reaches `a` before the copy, and `a` inserts it again. -/
def reseedOfDeleted : List (Action Unit Nat (Fin 2)) :=
  .client 0 1 0 (.insert () 5 1)::pass 0 1++
    [.client 0 2 0 (.update () 6 2),.enforce 0 1 ⟨0,2⟩,.clear 0 1 0 [((),3,1)] whole]++pass 1 0++
    [.read 0 1 0,.load 0 1 0,.unflag 0 1,.client 0 4 0 (.insert () 7 3)]++pass 0 1

def reseedOfRow : List (Action Unit Nat (Fin 2)) :=
  .client 0 1 0 (.insert () 5 1)::pass 0 1++
    [.client 0 2 0 (.update () 6 2),.enforce 0 1 ⟨0,2⟩,.clear 0 1 0 [((),3,1)] whole,.read 0 1 0,.load 0 1 0,.unflag 0 1]++pass 1 0

end Replicare.Mesh
