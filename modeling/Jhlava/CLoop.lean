import Jhlava.CValues

/-! The loop `for (i = start; i <= end; i += step)` of a C program with an `int`
variable. Where the variable stays an `int` it is a fold over the values
`start, start + step, …`; where it does not it goes on from a negative value. -/
namespace CLoop
open CValues

variable {σ : Type*} {body : σ → Int → Option σ} {end_ step : Int}

/-- The loop from `i` on; `none` if the body does not return or the loop has not
ended in time. -/
def forLoop (body : σ → Int → Option σ) (end_ step : Int) : Nat → Int → σ → Option σ
  | 0, i, s => if i ≤ end_ then none else some s
  | fuel + 1, i, s =>
    if i ≤ end_ then (body s i).bind (forLoop body end_ step fuel (toInt32 (i + step))) else some s

/-- The first `n` values of the variable. -/
def steps (start step : Int) (n : Nat) : List Int :=
  (List.range n).map fun (k : Nat) => start + k * step

theorem add_step (start step : Int) (k : Nat) :
    start + step + k * step = start + ((k + 1 : Nat) : Int) * step := by
  rw [Int.natCast_add, Int.add_mul]
  omega

theorem steps_succ (start step : Int) (n : Nat) :
    steps start step (n + 1) = start :: steps (start + step) step n := by
  unfold steps
  rw [List.range_succ_eq_map, List.map_cons, List.map_map]
  congr 1
  · simp
  · refine List.map_congr_left fun k _ => ?_
    exact (add_step start step k).symm

variable {fuel n : Nat} {i : Int}

theorem mem_steps {start step : Int} :
    i ∈ steps start step n ↔ ∃ k : Nat, k < n ∧ i = start + k * step := by
  simp [steps, eq_comm]

theorem forLoop_eq_foldlM (low : -(2 ^ 31) ≤ i) (pos : 0 ≤ step)
    (upto : ∀ k < n, i + (k : Nat) * step ≤ end_) (past : end_ < i + n * step)
    (fits : i + n * step < 2 ^ 31) (enough : n ≤ fuel) (s : σ) :
    forLoop body end_ step fuel i s = (steps i step n).foldlM body s := by
  induction n generalizing i fuel s with
  | zero =>
    have out : ¬ i ≤ end_ := by simpa using past
    cases fuel <;> exact if_neg out
  | succ n ih =>
    obtain ⟨fuel, rfl⟩ := Nat.exists_eq_add_of_le' enough
    have first : i ≤ end_ := by simpa using upto 0 (Nat.succ_pos n)
    have rest : 0 ≤ n * step := Int.mul_nonneg (Int.natCast_nonneg n) pos
    have next : toInt32 (i + step) = i + step := by
      refine toInt32_of_bounds (by omega) ?_
      rw [← add_step i step n] at fits
      omega
    rw [← Nat.add_assoc, forLoop, if_pos first, next, steps_succ]
    congr 1
    funext s'
    refine ih (by omega) (fun k hk => ?_) ?_ ?_ (by omega) s'
    · rw [add_step]
      exact upto (k + 1) (by omega)
    · rw [add_step]
      exact past
    · rw [add_step]
      exact fits

theorem forLoop_keeps {P : σ → Prop} (keeps : ∀ s i s', P s → body s i = some s' → P s') {s s' : σ}
    (start : P s) (done : forLoop body end_ step fuel i s = some s') : P s' := by
  induction fuel generalizing i s with
  | zero =>
    rw [forLoop] at done
    split at done
    · cases done
    · cases done
      exact start
  | succ fuel ih =>
    rw [forLoop] at done
    split at done
    · obtain ⟨s₁, first, rest⟩ := Option.bind_eq_some_iff.mp done
      exact ih (keeps s i s₁ start first) rest
    · cases done
      exact start

/-- Where the value after the last is no `int`, a loop that ends has run its body
at the value taken modulo 2^32. -/
theorem forLoop_overflow {P : σ → Prop} (keeps : ∀ s i s', P s → body s i = some s' → P s')
    (low : -(2 ^ 31) ≤ i) (pos : 0 ≤ step) (small : step < 2 ^ 31) (end_lt : end_ < 2 ^ 31)
    (zero_le : 0 ≤ end_) (upto : ∀ k ≤ n, i + (k : Nat) * step ≤ end_)
    (out : 2 ^ 31 ≤ i + (n + 1 : Nat) * step)
    (holds : ∀ s s', body s (i + (n + 1 : Nat) * step - 2 ^ 32) = some s' → P s') {s s' : σ}
    (done : forLoop body end_ step fuel i s = some s') : P s' := by
  induction n generalizing i fuel s with
  | zero =>
    have first : i ≤ end_ := by simpa using upto 0 (Nat.le_refl 0)
    simp only [Nat.zero_add, Int.cast_ofNat_Int, Int.one_mul] at out holds
    have next : toInt32 (i + step) = i + step - 2 ^ 32 := by
      unfold toInt32
      rw [Int.bmod_def]
      split <;> omega
    cases fuel with
    | zero =>
      rw [forLoop, if_pos first] at done
      cases done
    | succ fuel =>
      rw [forLoop, if_pos first, next] at done
      obtain ⟨s₁, -, rest⟩ := Option.bind_eq_some_iff.mp done
      cases fuel with
      | zero =>
        rw [forLoop, if_pos (by omega)] at rest
        cases rest
      | succ fuel =>
        rw [forLoop, if_pos (by omega)] at rest
        obtain ⟨s₂, wrapped, rest⟩ := Option.bind_eq_some_iff.mp rest
        exact forLoop_keeps keeps (holds s₁ s₂ wrapped) rest
  | succ n ih =>
    have first : i ≤ end_ := by simpa using upto 0 (Nat.zero_le _)
    have second : i + step ≤ end_ := by simpa using upto 1 (by omega)
    have next : toInt32 (i + step) = i + step := toInt32_of_bounds (by omega) (by omega)
    cases fuel with
    | zero =>
      rw [forLoop, if_pos first] at done
      cases done
    | succ fuel =>
      rw [forLoop, if_pos first, next] at done
      obtain ⟨s₁, -, rest⟩ := Option.bind_eq_some_iff.mp done
      refine ih (by omega) (fun k hk => ?_) ?_ (fun s s' => ?_) rest
      · rw [add_step]
        exact upto (k + 1) (by omega)
      · rw [add_step]
        exact out
      · rw [add_step]
        exact holds s s'

end CLoop
