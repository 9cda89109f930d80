import Replicare.Drain

/-! The target of a one-way drain follows the source. -/
namespace Replicare.DrainOrder
open Engine Runs Drain Function

variable {K V S β : Type*} [DecidableEq K] [DecidableEq S] [Preorder β] (rank : TableRef → K → Option V → β)

def Ahead (old new : Db K V) : Prop := ∀ r k, rank r k (old r k) ≤ rank r k (new r k)

/- A committed transaction takes no source row back. -/
def Rising (s : World K V) : Action K V → Prop
  | .commit changes => ∀ t, changes.foldlM change s = some t → Ahead rank s.source t.source
  | _ => True

/- Rows that are staged are between those of the target and those of the source. -/
structure Behind (s : World K V) : Prop where
  source : Ahead rank s.target s.source
  staged : ∀ r w rows, s.work r = some w → w.staged = some rows → ∀ k ∈ w.distinct,
    rank r k (s.target r k) ≤ rank r k (rows k) ∧ rank r k (rows k) ≤ rank r k (s.source r k)

variable {rank} {sig : K → S} {target : TargetID} {s t : World K V} {table : TableRef} {w : Work K V} {rows : K → Option V}

theorem commitFrame {changes : List (Change K V)} (ok : changes.foldlM change s = some t) :
    t.target = s.target ∧ t.work = s.work := by
  induction changes generalizing s with
  | nil =>
    cases ok
    exact ⟨rfl,rfl⟩
  | cons c rest ih =>
    simp only [List.foldlM_cons,bind,Option.bind_eq_some_iff] at ok
    obtain ⟨u,first,last⟩ := ok
    obtain ⟨_,rfl⟩ := changeCases first
    have rest := ih last
    exact rest

theorem upsertRow (db : Db K V) (r k) : update db table (stageUpsert (db table) w.distinct rows) r k = db r k ∨
      r = table ∧ k ∈ w.distinct ∧ update db table (stageUpsert (db table) w.distinct rows) r k = rows k := by
  by_cases same : r = table
  · subst same
    rw [update_self]
    unfold stageUpsert
    split
    · rename_i mem
      cases staged : rows k with
      | none => exact .inl rfl
      | some v => exact .inr ⟨rfl,mem,rfl⟩
    · exact .inl rfl
  · exact .inl (by rw [update_of_ne same])

theorem applyRow (db : Db K V) (r k) :
    deleteAbsent noCascade (update db table (stageUpsert (db table) w.distinct rows)) table
      (absent w.distinct rows) r k = db r k ∨
    r = table ∧ k ∈ w.distinct ∧
      deleteAbsent noCascade (update db table (stageUpsert (db table) w.distinct rows)) table
        (absent w.distinct rows) r k = rows k := by
  unfold deleteAbsent
  split
  · rename_i gone
    obtain ⟨same,mem⟩ := gone.resolve_right Bool.false_ne_true
    obtain ⟨read,none⟩ := List.mem_filter.mp mem
    exact .inr ⟨same,read,(Option.isNone_iff_eq_none.mp none).symm⟩
  · exact upsertRow db r k

omit [DecidableEq K] in
theorem writeBehind {u} (behind : Behind rank s) (held : s.work table = some w) (open_ : w.staged = some rows)
    (target : ∀ r k, u.target r k = s.target r k ∨ r = table ∧ k ∈ w.distinct ∧ u.target r k = rows k)
    (source : u.source = s.source) (work : ∀ r, r ≠ table → u.work r = s.work r)
    (closed : ∀ v, u.work table = some v → v.staged = none) : Behind rank u ∧ Ahead rank s.target u.target := by
  have ahead : Ahead rank s.target u.target := by
    intro r k
    rcases target r k with same | ⟨rfl,mem,row⟩
    · rw [same]
    · rw [row]
      exact (behind.staged r w rows held open_ k mem).1
  refine ⟨⟨?_,?_⟩,ahead⟩
  · intro r k
    rw [source]
    rcases target r k with same | ⟨rfl,mem,row⟩
    · rw [same]
      exact behind.source r k
    · rw [row]
      exact (behind.staged r w rows held open_ k mem).2
  · intro r v staged working open_ k mem
    by_cases here : r = table
    · subst here
      cases (closed v working).symm.trans open_
    · rcases target r k with same | ⟨here',_⟩
      · rw [same,source]
        exact behind.staged r v staged (work r here ▸ working) open_ k mem
      · exact absurd here' here

omit [DecidableEq K] in
theorem holdBehind {v} (behind : Behind rank s) (staged : ∀ rows, v.staged = some rows → ∀ k ∈ v.distinct,
      rank table k (s.target table k) ≤ rank table k (rows k) ∧ rank table k (rows k) ≤ rank table k (s.source table k)) :
    Behind rank (hold s table (some v)) := by
  refine ⟨behind.source,?_⟩
  intro r x rows working open_
  simp only [hold,update_apply] at working
  split at working
  · rename_i here
    subst here
    cases working
    exact staged rows open_
  · exact behind.staged r x rows working open_

theorem behindStep {a} (behind : Behind rank s) (rising : Rising rank s a) (ok : step noCascade sig target s a = some t) :
    Behind rank t ∧ Ahead rank s.target t.target := by
  have still : Ahead rank s.target s.target := fun _ _ => le_refl _
  cases stepTaken ok with
  | commit ok =>
    obtain ⟨rows,work⟩ := commitFrame ok
    have up := rising t ok
    refine ⟨⟨?_,?_⟩,rows ▸ still⟩
    · intro r k
      rw [rows]
      exact (behind.source r k).trans (up r k)
    · intro r v staged working open_ k mem
      obtain ⟨low,high⟩ := behind.staged r v staged (work ▸ working) open_ k mem
      rw [rows]
      exact ⟨low,high.trans (up r k)⟩
  | nothing => exact ⟨behind,still⟩
  | gather _ => exact ⟨holdBehind behind (fun _ none => by cases none),still⟩
  | gathered => exact ⟨⟨behind.source,behind.staged⟩,still⟩
  | @reread table w _ _ =>
    refine ⟨holdBehind behind fun rows open_ k mem => ?_,still⟩
    cases open_
    simp only [rereadCurrent]
    rw [if_pos mem]
    exact ⟨behind.source table k,le_refl _⟩
  | upsert held open_ =>
    refine writeBehind behind held open_ (upsertRow s.target) rfl (fun r other => update_of_ne other ..) ?_
    intro v working
    cases (update_self ..).symm.trans working
    rfl
  | apply held open_ =>
    refine writeBehind behind held open_ (applyRow s.target) rfl (fun r other => update_of_ne other ..) ?_
    intro v working
    cases (update_self ..).symm.trans working
    rfl
  | @confirm table w _ _ =>
    refine ⟨⟨behind.source,fun r v rows working => ?_⟩,still⟩
    simp only [hold,update_apply] at working
    split at working
    · cases working
    · exact behind.staged r v rows working
  | stop => exact ⟨⟨behind.source,fun _ _ _ none => by cases none⟩,still⟩

theorem targetFollows (below : Ahead rank s.target s.source) (idle : ∀ r, s.work r = none) {acts : List (Action K V)}
    (rising : Along (step noCascade sig target) (Rising rank) s acts) :
    Along (step noCascade sig target) (fun s a => ∀ t, step noCascade sig target s a = some t →
      Ahead rank s.target t.target ∧ Ahead rank t.target t.source) s acts := by
  have start : Behind rank s := ⟨below,fun r w rows working => by rw [idle r] at working; cases working⟩
  refine alongUnder (P := Behind rank) ?_ ?_ rising start
  · exact fun s a t behind rising ok => (behindStep behind rising ok).1
  · intro s a behind rising t ok
    obtain ⟨after,ahead⟩ := behindStep behind rising ok
    exact ⟨ahead,after.source⟩

theorem targetFollowsInsert :
    Along (step noCascade oneColumn "t") (fun s a => ∀ t, step noCascade oneColumn "t" s a = some t →
      Ahead (fun _ _ x => x.getD 0) s.target t.target ∧ Ahead (fun _ _ x => x.getD 0) t.target t.source)
      (blank : World Bytes Nat) (.commit [⟨orders,some 5,⟨2,.insert,[97],0⟩⟩]::drainPass orders 10) := by
  refine targetFollows (fun _ _ => le_refl _) (fun _ => rfl) ⟨fun _ _ _ _ => Nat.zero_le _,fun _ _ => alongOfAll ?_⟩
  intro a mem s
  simp only [drainPass,List.mem_cons,List.not_mem_nil,or_false] at mem
  rcases mem with rfl | rfl | rfl | rfl | rfl | rfl <;> trivial

end Replicare.DrainOrder
