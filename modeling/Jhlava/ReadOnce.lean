import Mathlib.Data.List.Nodup
import Mathlib.Algebra.Order.Ring.Rat

/-! Boolean formulas whose leaves are all different: the values of several of
them can be chosen freely. -/
namespace ReadOnce
open List

/-- A formula; `gate true` is a conjunction and `gate false` a disjunction. -/
inductive Formula (α : Type*) where
  | leaf (a : α)
  | neg (f : Formula α)
  | gate (c : Bool) (f g : Formula α)

def gateOp : Bool → Bool → Bool → Bool
  | true, x, y => x && y
  | false, x, y => x || y

@[simp] theorem gateOp_neutral_right (c x : Bool) : gateOp c x c = x := by
  cases c <;> cases x <;> rfl

@[simp] theorem gateOp_not_right (c x : Bool) : gateOp c x (!c) = !c := by
  cases c <;> cases x <;> rfl

namespace Formula

variable {α : Type*}

def eval (σ : α → Bool) : Formula α → Bool
  | leaf a => σ a
  | neg f => !f.eval σ
  | gate c f g => gateOp c (f.eval σ) (g.eval σ)

def leaves : Formula α → List α
  | leaf a => [a]
  | neg f => f.leaves
  | gate _ f g => f.leaves ++ g.leaves

theorem eval_congr {σ τ : α → Bool} (f : Formula α) (h : ∀ a ∈ f.leaves, σ a = τ a) :
    f.eval σ = f.eval τ := by
  induction f with
  | leaf a => exact h a (by simp [leaves])
  | neg f ih => simp only [eval, ih h]
  | gate c f g ihf ihg =>
    simp only [eval, ihf fun a ha => h a (mem_append_left _ ha),
      ihg fun a ha => h a (mem_append_right _ ha)]

theorem exists_mem_leaves (f : Formula α) : ∃ a, a ∈ f.leaves := by
  induction f with
  | leaf a => exact ⟨a, by simp [leaves]⟩
  | neg f ih => exact ih
  | gate c f g ihf _ =>
    obtain ⟨a, ha⟩ := ihf
    exact ⟨a, mem_append_left _ ha⟩

variable [DecidableEq α]

def join (as : List α) (σ τ : α → Bool) : α → Bool := fun a => if a ∈ as then σ a else τ a

theorem join_of_mem {as bs : List α} (h : ∀ a ∈ bs, a ∈ as) (σ τ : α → Bool) :
    ∀ a ∈ bs, join as σ τ a = σ a := fun a ha => if_pos (h a ha)

theorem join_of_notMem {as bs : List α} (h : ∀ a ∈ bs, a ∉ as) (σ τ : α → Bool) :
    ∀ a ∈ bs, join as σ τ a = τ a := fun a ha => if_neg (h a ha)

theorem attains {f : Formula α} (nodup : f.leaves.Nodup) (x : Bool) : ∃ σ, f.eval σ = x := by
  induction f generalizing x with
  | leaf a => exact ⟨fun _ => x, rfl⟩
  | neg f ih =>
    obtain ⟨σ, h⟩ := ih nodup (!x)
    exact ⟨σ, by simp [eval, h]⟩
  | gate c f g ihf ihg =>
    obtain ⟨hf, hg, apart⟩ := nodup_append.mp nodup
    obtain ⟨σ, hσ⟩ := ihf hf x
    obtain ⟨τ, hτ⟩ := ihg hg c
    refine ⟨join f.leaves σ τ, ?_⟩
    rw [eval, eval_congr f (join_of_mem (fun _ => id) σ τ),
      eval_congr g (join_of_notMem (fun a ha ha' => apart a ha' a ha rfl) σ τ), hσ, hτ]
    exact gateOp_neutral_right c x

theorem attains_all {ι : Type*} {f : ι → Formula α} {is : List ι}
    (nodup : (is.flatMap fun i => (f i).leaves).Nodup) (v : ι → Bool) :
    ∃ σ, ∀ i ∈ is, (f i).eval σ = v i := by
  induction is with
  | nil => exact ⟨fun _ => true, forall_mem_nil _⟩
  | cons i is ih =>
    obtain ⟨own, others, apart⟩ := nodup_append.mp nodup
    obtain ⟨σ, hσ⟩ := attains own (v i)
    obtain ⟨τ, hτ⟩ := ih others
    refine ⟨join (f i).leaves σ τ, forall_mem_cons.mpr ⟨?_, fun j hj => ?_⟩⟩
    · rw [eval_congr (f i) (join_of_mem (fun _ => id) σ τ), hσ]
    · rw [eval_congr (f j) (join_of_notMem (fun a ha ha' => ?_) σ τ), hτ j hj]
      exact apart a ha' a (mem_flatMap.mpr ⟨j, hj, ha⟩) rfl

end Formula

end ReadOnce
