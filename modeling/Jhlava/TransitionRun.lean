import Mathlib.Algebra.Order.Ring.Rat

/-! Runs of a deterministic machine: a state, a list of inputs, one step for
each input. A property of runs is stated with `Along`, which holds when a
relation between a state and the input taken there holds at every step. -/
namespace TransitionRun
open List

variable {σ ι : Type*}

def run (step : σ → ι → σ) : σ → List ι → σ
  | s, [] => s
  | s, i :: is => run step (step s i) is

/-- `P` holds of the state before and the input, at every step of the run. -/
def Along (step : σ → ι → σ) (P : σ → ι → Prop) : σ → List ι → Prop
  | _, [] => True
  | s, i :: is => P s i ∧ Along step P (step s i) is

instance decidableAlong (step : σ → ι → σ) (P : σ → ι → Prop) [∀ s i, Decidable (P s i)] :
    ∀ s is, Decidable (Along step P s is)
  | _, [] => isTrue trivial
  | s, i :: is =>
    have := decidableAlong step P (step s i) is
    inferInstanceAs (Decidable (P s i ∧ Along step P (step s i) is))

variable {step : σ → ι → σ} {P Q : σ → ι → Prop} {Inv : σ → Prop}

theorem run_append (s : σ) (is js : List ι) :
    run step s (is ++ js) = run step (run step s is) js := by
  induction is generalizing s with
  | nil => rfl
  | cons i is ih => exact ih (step s i)

variable {is : List ι} {s : σ}

theorem run_invariant (keeps : ∀ s i, Inv s → P s i → Inv (step s i)) (start : Inv s)
    (allowed : Along step P s is) : Inv (run step s is) := by
  induction is generalizing s with
  | nil => exact start
  | cons i is ih => exact ih (keeps s i start allowed.1) allowed.2

theorem run_keeps (Inv : σ → Prop) (keeps : ∀ s i, Inv s → Inv (step s i)) (start : Inv s)
    (is : List ι) : Inv (run step s is) := by
  induction is generalizing s with
  | nil => exact start
  | cons i is ih => exact ih (keeps s i start)

theorem along_congr (Inv : σ → Prop) (keeps : ∀ s i, Inv s → P s i → Inv (step s i))
    (same : ∀ s i, Inv s → (P s i ↔ Q s i)) (start : Inv s) (is : List ι) :
    Along step P s is ↔ Along step Q s is := by
  induction is generalizing s with
  | nil => exact Iff.rfl
  | cons i is ih =>
    constructor
    · intro h
      exact ⟨(same s i start).mp h.1, (ih (keeps s i start h.1)).mp h.2⟩
    · intro h
      have hP := (same s i start).mpr h.1
      exact ⟨hP, (ih (keeps s i start hP)).mpr h.2⟩

theorem along_and :
    Along step (fun s i => P s i ∧ Q s i) s is ↔ Along step P s is ∧ Along step Q s is := by
  induction is generalizing s with
  | nil => exact ⟨fun _ => ⟨trivial, trivial⟩, fun _ => trivial⟩
  | cons i is ih =>
    constructor
    · rintro ⟨⟨p, q⟩, rest⟩
      obtain ⟨ps, qs⟩ := ih.mp rest
      exact ⟨⟨p, ps⟩, q, qs⟩
    · rintro ⟨⟨p, ps⟩, q, qs⟩
      exact ⟨⟨p, q⟩, ih.mpr ⟨ps, qs⟩⟩

theorem along_invariant (Inv : σ → Prop) (keeps : ∀ s i, Inv s → P s i → Inv (step s i))
    (gives : ∀ s i, Inv s → P s i → Q s i) (start : Inv s) (allowed : Along step P s is) :
    Along step Q s is := by
  induction is generalizing s with
  | nil => trivial
  | cons i is ih =>
    exact ⟨gives s i start allowed.1, ih (keeps s i start allowed.1) allowed.2⟩

theorem forall_prefix_iff (Inv : σ → Prop) :
    (∀ before, before <+: is → Inv (run step s before)) ↔
      Inv s ∧ Along step (fun s i => Inv (step s i)) s is := by
  induction is generalizing s with
  | nil =>
    constructor
    · intro all
      exact ⟨all [] nil_prefix, trivial⟩
    · rintro ⟨here, -⟩ before pre
      rw [prefix_nil.mp pre]
      exact here
  | cons i is ih =>
    constructor
    · intro all
      have rest := ih.mp fun before pre => all (i :: before) (cons_prefix_cons.mpr ⟨rfl, pre⟩)
      exact ⟨all [] nil_prefix, rest⟩
    · rintro ⟨here, rest⟩ before pre
      cases before with
      | nil => exact here
      | cons j before =>
        obtain ⟨eq, tail⟩ := cons_prefix_cons.mp pre
        rw [eq]
        exact ih.mpr rest before tail

theorem foldl_view {β : Type*} (view : σ → β) (keeps : ∀ s i, view (step s i) = view s)
    (is : List ι) (s : σ) : view (is.foldl step s) = view s := by
  induction is generalizing s with
  | nil => rfl
  | cons i is ih => exact (ih (step s i)).trans (keeps s i)

end TransitionRun
