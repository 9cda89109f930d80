import Mathlib.Data.List.Nodup
import Mathlib.Order.Lattice

/-! Last-writer registers over an arbitrary linearly ordered rank, and lists of keyed writes
into a map. -/
namespace Replicare.LastWriter
open List Function

section Register
variable {α β : Type*} [LinearOrder β] (rank : α → β)

def absorb (held : Option α) (x : α) : Option α :=
  match held with
  | none => some x
  | some h => if rank h < rank x then some x else some h

/- `m` is among the offers and none ranks above it. -/
def Newest (xs : List α) (m : α) : Prop := m ∈ xs ∧ ∀ x ∈ xs, rank x ≤ rank m

variable {rank}

theorem absorbSome (rank : α → β) (held) (x : α) : ∃ m, absorb rank held x = some m := by
  cases held with
  | none => exact ⟨x,rfl⟩
  | some h =>
    by_cases newer : rank h < rank x
    · exact ⟨x,if_pos newer⟩
    · exact ⟨h,if_neg newer⟩

theorem absorbBound {held x m} (kept : absorb rank held x = some m) :
    rank x ≤ rank m ∧ ∀ h, held = some h → rank h ≤ rank m := by
  cases held with
  | none =>
    cases kept
    exact ⟨le_refl _,fun _ none => by cases none⟩
  | some h =>
    simp only [absorb] at kept
    split at kept
    · rename_i newer
      cases kept
      exact ⟨le_refl _,fun _ same => Option.some.inj same ▸ newer.le⟩
    · rename_i older
      cases kept
      exact ⟨not_lt.mp older,fun _ same => Option.some.inj same ▸ le_refl _⟩

theorem absorbSource {held x m} (kept : absorb rank held x = some m) : m = x ∨ held = some m := by
  cases held with
  | none => exact .inl (Option.some.inj kept).symm
  | some h =>
    simp only [absorb] at kept
    split at kept
    · exact .inl (Option.some.inj kept).symm
    · exact .inr kept

theorem foldNewest {xs held m} (kept : xs.foldl (absorb rank) held = some m) : Newest rank (held.toList++xs) m := by
  induction xs generalizing held with
  | nil =>
    rw [foldl_nil] at kept
    subst kept
    exact ⟨mem_singleton_self m,fun x mem => mem_singleton.mp mem ▸ le_refl _⟩
  | cons x rest ih =>
    obtain ⟨n,step⟩ := absorbSome rank held x
    rw [foldl_cons,step] at kept
    obtain ⟨mem,top⟩ := ih kept
    obtain ⟨own,before⟩ := absorbBound step
    have high := top n (mem_append_left _ (mem_singleton_self n))
    refine ⟨?_,?_⟩
    · rcases mem_append.mp mem with first | later
      · rw [Option.toList_some,mem_singleton] at first
        subst first
        rcases absorbSource step with rfl | same
        · exact mem_append_right _ mem_cons_self
        · rw [same]
          exact mem_append_left _ (mem_singleton_self m)
      · exact mem_append_right _ (mem_cons_of_mem _ later)
    · intro y hy
      rcases mem_append.mp hy with first | later
      · exact (before y (Option.mem_toList.mp first)).trans high
      · rcases mem_cons.mp later with rfl | later
        · exact own.trans high
        · exact top y (mem_append_right _ later)

theorem foldNone {xs held} : xs.foldl (absorb rank) held = none ↔ held = none ∧ xs = [] := by
  induction xs generalizing held with
  | nil => simp
  | cons x rest ih =>
    obtain ⟨n,step⟩ := absorbSome rank held x
    rw [foldl_cons,step,ih]
    simp

end Register

section Writes
variable {α β K : Type*} [DecidableEq K] {key : α → K} {val : α → β}

def writeAll (key : α → K) (val : α → β) (xs : List α) (f : K → β) : K → β :=
  xs.foldl (fun f x => update f (key x) (val x)) f

theorem writeAllFrame {xs} {f k} (apart : ∀ x ∈ xs, key x ≠ k) : writeAll key val xs f k = f k := by
  induction xs generalizing f with
  | nil => rfl
  | cons x rest ih =>
    have other : k ≠ key x := fun same => apart x mem_cons_self same.symm
    have tail := ih (f := update f (key x) (val x)) fun y hy => apart y (mem_cons_of_mem _ hy)
    rw [update_of_ne other] at tail
    exact tail

theorem writeAllAt {xs} {f x} (distinct : (xs.map key).Nodup) (mem : x ∈ xs) : writeAll key val xs f (key x) = val x := by
  induction xs generalizing f with
  | nil => exact absurd mem not_mem_nil
  | cons y rest ih =>
    obtain ⟨apart,distinct⟩ := nodup_cons.mp distinct
    rcases mem_cons.mp mem with rfl | later
    · have tail : writeAll key val rest (update f (key x) (val x)) (key x) =
          update f (key x) (val x) (key x) :=
        writeAllFrame fun z hz same => apart (mem_map.mpr ⟨z,hz,same⟩)
      rw [update_self] at tail
      exact tail
    · exact ih (f := update f (key y) (val y)) distinct later

theorem writeFiltered {xs : List α} {f x} {p : α → Bool} (distinct : (xs.map key).Nodup)
    (mem : x ∈ xs) : writeAll key val (xs.filter p) f (key x) = if p x then val x else f (key x) := by
  split
  · rename_i passes
    exact writeAllAt (distinct.sublist (filter_sublist.map key)) (mem_filter.mpr ⟨mem,passes⟩)
  · rename_i fails
    apply writeAllFrame
    intro y hy same
    obtain ⟨inside,passes⟩ := mem_filter.mp hy
    rw [inj_on_of_nodup_map distinct inside mem same] at passes
    exact fails passes

theorem filterKey {xs : List α} {x} (distinct : (xs.map key).Nodup) (mem : x ∈ xs) :
    xs.filter (fun y => key y = key x) = [x] := by
  induction xs with
  | nil => exact absurd mem not_mem_nil
  | cons y rest ih =>
    obtain ⟨apart,distinct⟩ := nodup_cons.mp distinct
    rcases mem_cons.mp mem with rfl | later
    · rw [filter_cons_of_pos (by simp),filter_eq_nil_iff.mpr]
      intro z hz same
      exact apart (mem_map.mpr ⟨z,hz,of_decide_eq_true same⟩)
    · rw [filter_cons_of_neg,ih distinct later]
      intro same
      exact apart (mem_map.mpr ⟨x,later,(of_decide_eq_true same).symm⟩)

end Writes

end Replicare.LastWriter
