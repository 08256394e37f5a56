import Mathlib.Algebra.Order.Ring.Rat
import Mathlib.Algebra.Order.BigOperators.Group.List
import Mathlib.Algebra.Order.Ring.Nat

/-! Taking a goal from sources, each asked for the rest of it: the order of the sources decides
how many of them are used. -/
namespace Greedy
open List

section Fill

def fill : Nat → List Nat → List Nat
  | _, [] => []
  | goal, cap :: caps => min goal cap :: fill (goal - min goal cap) caps

/-- Each source, by what it can give, with what it gives. -/
structure Shares (goal : Nat) (caps : List Nat) (z : List (Nat × Nat)) : Prop where
  sources : (z.map Prod.fst).Perm caps
  within : ∀ p ∈ z, p.2 ≤ p.1
  total : (z.map Prod.snd).sum = min goal caps.sum

def used (z : List (Nat × Nat)) : Nat :=
  z.countP fun p => 0 < p.2

def filled (goal : Nat) (caps : List Nat) : List (Nat × Nat) :=
  caps.zip (fill goal caps)

variable {goal : Nat} {caps : List Nat} {z : List (Nat × Nat)}

theorem filled_cons (goal cap : Nat) (caps : List Nat) :
    filled goal (cap :: caps) = (cap, min goal cap) :: filled (goal - min goal cap) caps := rfl

theorem filled_shares (goal : Nat) (caps : List Nat) : Shares goal caps (filled goal caps) := by
  induction caps generalizing goal with
  | nil => exact ⟨List.Perm.refl _, by simp [filled], by simp [filled]⟩
  | cons cap caps ih =>
    have rest := ih (goal - min goal cap)
    have total := rest.total
    rw [filled_cons]
    refine ⟨rest.sources.cons cap, ?_, ?_⟩
    · exact forall_mem_cons.mpr ⟨Nat.min_le_right goal cap, rest.within⟩
    · rw [map_cons, sum_cons, sum_cons]
      omega

theorem Shares.perm {caps' : List Nat} (shares : Shares goal caps z) (same : caps.Perm caps') :
    Shares goal caps' z :=
  ⟨shares.sources.trans same, shares.within, shares.total.trans (by rw [same.sum_eq])⟩

theorem used_eq_zero : used z = 0 ↔ (z.map Prod.snd).sum = 0 := by
  rw [used, sum_eq_zero_iff, forall_mem_map]
  simp

/-- Sources that have something are used in their order, until the goal is reached. -/
theorem used_filled_le_iff {goal k : Nat} (caps : List Nat) :
    used (filled goal caps) ≤ k ↔ min goal caps.sum ≤ ((caps.filter (0 < ·)).take k).sum := by
  induction caps generalizing goal k with
  | nil => simp [filled, used]
  | cons cap caps ih =>
    rw [filled_cons, used, countP_cons, sum_cons]
    have rest := @ih (goal - min goal cap) k
    rw [used] at rest
    by_cases empty : cap = 0
    · subst empty
      simpa using rest
    · rw [filter_cons_of_pos (by simpa using Nat.pos_of_ne_zero empty)]
      by_cases reached : goal = 0
      · subst reached
        simpa using rest
      · rw [if_pos (by simpa using by omega)]
        cases k with
        | zero =>
          rw [take_zero, sum_nil]
          omega
        | succ k =>
          have later := @ih (goal - min goal cap) k
          rw [used] at later
          rw [take_succ_cons, sum_cons, Nat.add_le_add_iff_right, later]
          omega

theorem sum_used (z : List (Nat × Nat)) (within : ∀ p ∈ z, p.2 ≤ p.1) :
    (z.map Prod.snd).sum ≤ ((z.filter fun p => 0 < p.2).map Prod.fst).sum := by
  induction z with
  | nil => exact Nat.le_refl 0
  | cons p z ih =>
    obtain ⟨first, rest⟩ := forall_mem_cons.mp within
    have later := ih rest
    rw [filter_cons]
    split
    case isTrue => exact Nat.add_le_add first later
    case isFalse none_ =>
      have zero : p.2 = 0 := by simpa using none_
      simpa [zero] using later

theorem sum_filter_pos (caps : List Nat) : (caps.filter (0 < ·)).sum = caps.sum := by
  induction caps with
  | nil => rfl
  | cons cap caps ih =>
    rw [filter_cons]
    split
    case isTrue => rw [sum_cons, sum_cons, ih]
    case isFalse empty =>
      have zero : cap = 0 := by simpa using empty
      rw [ih, sum_cons, zero, Nat.zero_add]

/-- As few sources as possible are used iff, whenever some of them reach the goal, as many of the
first ones that have something do. -/
theorem used_filled_least_iff {order : List Nat} (same : order.Perm caps) :
    (∀ z, Shares goal caps z → used (filled goal order) ≤ used z) ↔
      ∀ some_ : List Nat, some_.Sublist caps → min goal caps.sum ≤ some_.sum →
        min goal caps.sum ≤ ((order.filter (0 < ·)).take some_.length).sum := by
  constructor
  · intro least some_ sub enough
    obtain ⟨others, perm⟩ := sub.exists_perm_append
    have first : used (filled goal (some_ ++ others)) ≤ some_.length := by
      refine (used_filled_le_iff _).mpr ?_
      rw [← perm.sum_eq, filter_append, take_append, take_of_length_le (length_filter_le _ _),
        sum_append, sum_filter_pos]
      omega
    have few := (least _ ((filled_shares goal _).perm perm.symm)).trans first
    rw [← same.sum_eq]
    exact (used_filled_le_iff order).mp few
  · intro whenever z shares
    have chosen : ((z.filter fun p => 0 < p.2).map Prod.fst).Subperm caps :=
      (((filter_sublist).map Prod.fst).subperm).trans shares.sources.subperm
    obtain ⟨t, perm, sub⟩ := chosen
    have enough : min goal caps.sum ≤ t.sum := by
      calc min goal caps.sum = (z.map Prod.snd).sum := shares.total.symm
        _ ≤ ((z.filter fun p => 0 < p.2).map Prod.fst).sum := sum_used z shares.within
        _ = t.sum := perm.sum_eq.symm
    have count : t.length = used z := by
      rw [perm.length_eq, length_map, used, countP_eq_length_filter]
    rw [← count, used_filled_le_iff, same.sum_eq]
    exact whenever t sub enough

end Fill

end Greedy
