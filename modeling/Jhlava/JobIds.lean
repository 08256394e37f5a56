import Mathlib.Algebra.Order.Ring.Rat

/-! The choice of the next job id: a search that goes round the ids below `maxJobId`. -/
namespace Jhlava.JobIds

variable (maxJobId : Int) (jobIdHT : Int → Bool)

/-- `getJobData (jobId) != NULL`. -/
def getJobData (jobId : Int) : Bool := 0 < jobId && jobIdHT jobId

/-- `nextJobId++` with the wrap to the first id. -/
def advance (nextJobId : Int) : Int := if nextJobId + 1 ≥ maxJobId then 1 else nextJobId + 1

/-- The loop of `getNextJobId`. -/
def search (nextJobId i : Int) : Int × Int :=
  if h : getJobData jobIdHT nextJobId ∧ i ≤ maxJobId then
    search (advance maxJobId nextJobId) (i + 1)
  else (nextJobId, i)
termination_by (maxJobId + 1 - i).toNat
decreasing_by omega

/-- The id that is given out and the new `nextJobId`. -/
def getNextJobId (nextJobId : Int) : Int × Int :=
  let (nextJobId, i) := search maxJobId jobIdHT (if nextJobId < maxJobId then nextJobId else 1) 0
  if i ≥ maxJobId then (-1, nextJobId) else (nextJobId, advance maxJobId nextJobId)

variable {maxJobId jobIdHT} {nextJobId i : Int}

theorem search_stops :
    getJobData jobIdHT (search maxJobId jobIdHT nextJobId i).1 = false ∨
      maxJobId < (search maxJobId jobIdHT nextJobId i).2 := by
  fun_induction search maxJobId jobIdHT nextJobId i with
  | case1 _ _ _ ih => exact ih
  | case2 nextJobId i stop =>
    by_cases used : getJobData jobIdHT nextJobId
    · exact .inr (by simpa [used] using stop)
    · exact .inl (eq_false_of_ne_true used)

theorem search_inRange (first : 1 ≤ nextJobId) (last : nextJobId < maxJobId) :
    1 ≤ (search maxJobId jobIdHT nextJobId i).1 ∧
      (search maxJobId jobIdHT nextJobId i).1 < maxJobId := by
  fun_induction search maxJobId jobIdHT nextJobId i with
  | case1 nextJobId _ _ ih =>
    apply ih
    all_goals
      unfold advance
      split <;> omega
  | case2 => exact ⟨first, last⟩

/-- How many turns of the loop lead from one id to another. -/
def turns (maxJobId nextJobId id : Int) : Int :=
  if nextJobId ≤ id then id - nextJobId else id - nextJobId + (maxJobId - 1)

theorem search_finds {id : Int} (free : getJobData jobIdHT id = false) (low : 1 ≤ id)
    (high : id < maxJobId) (first : 1 ≤ nextJobId) (last : nextJobId < maxJobId)
    (soon : i + turns maxJobId nextJobId id < maxJobId) :
    (search maxJobId jobIdHT nextJobId i).2 < maxJobId := by
  -- The turns to the free id go down by one, as the loop counter goes up.
  fun_induction search maxJobId jobIdHT nextJobId i with
  | case1 nextJobId i more ih =>
    have other : nextJobId ≠ id := by
      rintro rfl
      simp [free] at more
    apply ih
    all_goals
      unfold turns at soon
      simp only [turns, advance]
      split_ifs at soon ⊢ <;> omega
  | case2 =>
    unfold turns at soon
    split at soon <;> omega

theorem getNextJobId_exact (bound : 2 ≤ maxJobId) (first : 1 ≤ nextJobId) :
    ((∃ id, 1 ≤ id ∧ id < maxJobId ∧ getJobData jobIdHT id = false) →
      ∃ id, (getNextJobId maxJobId jobIdHT nextJobId).1 = id ∧ 1 ≤ id ∧ id < maxJobId ∧
        getJobData jobIdHT id = false) ∧
    ((∀ id, 1 ≤ id → id < maxJobId → getJobData jobIdHT id = true) →
      (getNextJobId maxJobId jobIdHT nextJobId).1 = -1) := by
  unfold getNextJobId
  generalize start : (if nextJobId < maxJobId then nextJobId else 1) = n
  have range : 1 ≤ n ∧ n < maxJobId := by
    subst start
    split <;> omega
  have found : 1 ≤ (search maxJobId jobIdHT n 0).1 ∧ (search maxJobId jobIdHT n 0).1 < maxJobId :=
    search_inRange range.1 range.2
  have stops : getJobData jobIdHT (search maxJobId jobIdHT n 0).1 = false ∨
      maxJobId < (search maxJobId jobIdHT n 0).2 := search_stops
  constructor
  · rintro ⟨id, low, high, free⟩
    have soon : 0 + turns maxJobId n id < maxJobId := by
      unfold turns
      split <;> omega
    have few := search_finds free low high range.1 range.2 soon
    simp only [ge_iff_le, not_le.2 few, if_false]
    exact ⟨_, rfl, found.1, found.2, stops.resolve_right (by omega)⟩
  · intro full
    have used := full _ found.1 found.2
    have many := stops.resolve_left (by simp [used])
    simp [many.le]

theorem getNextJobId_exact_two :
    ∃ id, (getNextJobId 3 (fun id => id == 2) 2).1 = id ∧ 1 ≤ id ∧ id < 3 ∧
      getJobData (fun id => id == 2) id = false :=
  (getNextJobId_exact (by decide) (by decide)).1 ⟨1, by decide⟩

end Jhlava.JobIds
