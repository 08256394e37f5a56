import Jhlava.JobArray
import Mathlib.Data.List.TakeWhile

/-! When the elements of a job array are those of its index list. -/
namespace Jhlava.JobArray
open CValues CLoop List

variable {fuel : Nat} {i id : Int}

theorem lsbJobId_eq {arrayJobId : Nat} (id_lt : arrayJobId < 2 ^ 32) (int : IsInt32 i) :
    lsbJobId arrayJobId i = i * 2 ^ 32 + arrayJobId := by
  obtain ⟨low, high⟩ := int
  unfold lsbJobId
  rw [← Nat.shiftLeft_add_eq_or_of_lt id_lt, Int.bmod_def]
  split <;> omega

theorem lsbArrayIdx_lsbJobId {arrayJobId : Nat} (id_lt : arrayJobId < 2 ^ 31) (int : IsInt32 i) :
    lsbArrayIdx (lsbJobId arrayJobId i) = i % 65536 := by
  have eq := lsbJobId_eq (Nat.lt_trans id_lt (by decide)) int
  have half : ∀ n : Nat, n >>> 32 &&& 0xFFFF = n / 2 ^ 32 % 65536 := by
    intro n
    rw [Nat.shiftRight_eq_div_pow]
    exact Nat.and_two_pow_sub_one_eq_mod _ 16
  rw [lsbArrayIdx, half]
  omega

/-- A range of `int`s with a positive step. -/
structure IdxRange.Usable (r : IdxRange) : Prop where
  start_pos : 1 ≤ r.start
  step_pos : 1 ≤ r.step
  ordered : r.start ≤ r.end_
  end_lt : r.end_ < 2 ^ 31
  step_lt : r.step < 2 ^ 31

def IdxRange.last (r : IdxRange) : Int := r.start + (r.end_ - r.start) / r.step * r.step

theorem usable_of_accepted {env : MbdStage} {token jobName : List Char} {limit : Int}
    {parsed : ParsedIndex} (done : parseJobArrayIndex env fuel token jobName limit = some parsed)
    (accepted : parsed.idxList ≠ []) : ∀ r ∈ parsed.idxList, r.Usable := by
  obtain ⟨ranges, listed, eq, none, -⟩ := parsed_cases done accepted
  have all := (accepted_of_checkRanges none).2
  intro r hr
  have good := all r hr
  rw [eq] at hr
  obtain ⟨r₀, hr₀, rfl⟩ := mem_map.mp hr
  have fits := (listed.1 r₀ hr₀).2
  have fits' : (closeRange env r₀).Fits := by
    unfold closeRange
    split
    · exact ⟨fits.1, isInt32_toInt32 _, fits.2.2⟩
    · exact fits
  exact ⟨good.start_pos, good.step_pos, good.ordered, fits'.2.1.2, fits'.2.2.2⟩

namespace IdxRange.Usable

variable {r : IdxRange}

variable (h : r.Usable)
include h

theorem count :
    (((r.end_ - r.start) / r.step + 1).toNat : Int) = (r.end_ - r.start) / r.step + 1 := by
  have step := h.step_pos
  have ordered := h.ordered
  have quot : 0 ≤ (r.end_ - r.start) / r.step := Int.ediv_nonneg (by omega) (by omega)
  omega

theorem turns :
    (∀ k < ((r.end_ - r.start) / r.step + 1).toNat, r.start + (k : Nat) * r.step ≤ r.end_) ∧
      r.end_ < r.start + ((r.end_ - r.start) / r.step + 1).toNat * r.step ∧
      r.start + ((r.end_ - r.start) / r.step + 1).toNat * r.step = r.last + r.step := by
  have step := h.step_pos
  have split := Int.mul_ediv_add_emod (r.end_ - r.start) r.step
  have rem := Int.emod_nonneg (r.end_ - r.start) (show r.step ≠ 0 by omega)
  have small := Int.emod_lt_of_pos (r.end_ - r.start) (show 0 < r.step by omega)
  rw [Int.mul_comm] at split
  rw [h.count, Int.add_mul, IdxRange.last]
  refine ⟨fun k hk => ?_, by omega, by omega⟩
  have le : (k : Int) ≤ (r.end_ - r.start) / r.step := by
    omega
  have := Int.mul_le_mul_of_nonneg_right le (show 0 ≤ r.step by omega)
  omega

theorem last_le : r.last ≤ r.end_ := by
  have := Int.ediv_mul_le (r.end_ - r.start) (show r.step ≠ 0 by have := h.step_pos; omega)
  unfold IdxRange.last
  omega

theorem mem_indices : i ∈ r.indices ↔ (r.start ≤ i ∧ i ≤ r.end_) ∧ (i - r.start) % r.step = 0 := by
  have step := h.step_pos
  rw [IdxRange.indices, mem_steps]
  constructor
  · rintro ⟨k, hk, rfl⟩
    have nonneg : 0 ≤ (k : Int) * r.step := Int.mul_nonneg (Int.natCast_nonneg k) (by omega)
    refine ⟨⟨by omega, h.turns.1 k hk⟩, ?_⟩
    have diff : r.start + k * r.step - r.start = k * r.step := by omega
    rw [diff, Int.mul_emod_left]
  · rintro ⟨⟨low, high⟩, dvd⟩
    have quot : (i - r.start) / r.step * r.step = i - r.start :=
      Int.ediv_mul_cancel (Int.dvd_of_emod_eq_zero dvd)
    have pos : 0 ≤ (i - r.start) / r.step := Int.ediv_nonneg (by omega) (by omega)
    have le : (i - r.start) / r.step ≤ (r.end_ - r.start) / r.step :=
      Int.ediv_le_ediv (by omega) (by omega)
    refine ⟨((i - r.start) / r.step).toNat, by omega, ?_⟩
    rw [Int.toNat_of_nonneg pos]
    omega

theorem int_of_mem (hi : i ∈ r.indices) : 1 ≤ i ∧ IsInt32 i := by
  have start := h.start_pos
  have last := h.end_lt
  have inside := (h.mem_indices.mp hi).1
  exact ⟨by omega, by unfold IsInt32; omega⟩

end IdxRange.Usable

def allIndices (idxList : List IdxRange) : List Int := idxList.flatMap IdxRange.indices

section Ranges

variable {σ : Type} {body : σ → Int → Option σ} {idxList : List IdxRange}

theorem forRanges_eq_foldlM (body : σ → Int → Option σ) (usable : ∀ r ∈ idxList, r.Usable)
    (inside : ∀ r ∈ idxList, r.last + r.step < 2 ^ 31) :
    ∃ least, ∀ fuel ≥ least, ∀ s, forRanges body fuel idxList s =
      (allIndices idxList).foldlM body s := by
  induction idxList with
  | nil => exact ⟨0, fun _ _ _ => rfl⟩
  | cons r idxList ih =>
    have first := usable r mem_cons_self
    obtain ⟨least, rest⟩ := ih (fun r' hr => usable r' (mem_cons_of_mem _ hr))
      fun r' hr => inside r' (mem_cons_of_mem _ hr)
    refine ⟨max ((r.end_ - r.start) / r.step + 1).toNat least, fun fuel enough s => ?_⟩
    obtain ⟨upto, past, last⟩ := first.turns
    have start := first.start_pos
    have step := first.step_pos
    have loop : forLoop body r.end_ r.step fuel r.start s = r.indices.foldlM body s :=
      forLoop_eq_foldlM (by omega) (by omega) upto past
        (by rw [last]; exact inside r mem_cons_self) (le_trans (le_max_left _ _) enough) s
    rw [forRanges, allIndices, flatMap_cons, foldlM_append]
    congr 1
    funext s'
    exact rest fuel (le_trans (le_max_right _ _) enough) s'

theorem forRanges_keeps {P : σ → Prop} (keeps : ∀ s i s', P s → body s i = some s' → P s')
    {s s' : σ} (start : P s) (done : forRanges body fuel idxList s = some s') : P s' := by
  induction idxList generalizing s with
  | nil =>
    cases done
    exact start
  | cons r idxList ih =>
    obtain ⟨s₁, first, rest⟩ := Option.bind_eq_some_iff.mp done
    exact ih (forLoop_keeps keeps start first) rest

theorem forRanges_overflow {P : σ → Prop} (keeps : ∀ s i s', P s → body s i = some s' → P s')
    {r : IdxRange} (hr : r ∈ idxList) (usable : r.Usable) (out : 2 ^ 31 ≤ r.last + r.step)
    (holds : ∀ s s', body s (r.last + r.step - 2 ^ 32) = some s' → P s') {s s' : σ}
    (done : forRanges body fuel idxList s = some s') : P s' := by
  induction idxList generalizing s with
  | nil => exact absurd hr not_mem_nil
  | cons r' idxList ih =>
    obtain ⟨s₁, first, rest⟩ := Option.bind_eq_some_iff.mp done
    rcases mem_cons.mp hr with rfl | hr
    · refine forRanges_keeps keeps ?_ rest
      obtain ⟨upto, -, last⟩ := usable.turns
      have start := usable.start_pos
      have step := usable.step_pos
      have ordered := usable.ordered
      have quot : 0 ≤ (r.end_ - r.start) / r.step := Int.ediv_nonneg (by omega) (by omega)
      obtain ⟨n, turns⟩ : ∃ n, ((r.end_ - r.start) / r.step + 1).toNat = n + 1 :=
        ⟨((r.end_ - r.start) / r.step).toNat, by omega⟩
      rw [turns] at upto last
      rw [← last] at out holds
      exact forLoop_overflow keeps (by omega) (by omega) usable.step_lt usable.end_lt (by omega)
        (fun k hk => upto k (by omega)) out holds first
    · exact ih hr rest

end Ranges

section Table

variable {jobIdHT jobIdHT' : JobIdHT} {jobId : Int} {nodeType : NodeType}

theorem lookup_filter_ne (ne : id ≠ jobId) :
    (jobIdHT.filter fun job => job.1 ≠ jobId).lookup id = jobIdHT.lookup id := by
  induction jobIdHT with
  | nil => rfl
  | cons job rest ih =>
    obtain ⟨key, node⟩ := job
    by_cases kept : key ≠ jobId
    · rw [filter_cons_of_pos (by simpa using kept), lookup_cons, lookup_cons, ih]
    · rw [filter_cons_of_neg (by simpa using kept), ih, lookup_cons]
      have other : (id == key) = false := by
        simp only [not_not] at kept
        simpa [kept] using ne
      rw [other]

theorem addJobIdHT_lookup (added : addJobIdHT jobIdHT jobId nodeType = some jobIdHT') :
    jobIdHT'.lookup jobId = some nodeType ∧
      ∀ id ≠ jobId, jobIdHT'.lookup id = jobIdHT.lookup id := by
  have other : ∀ id ≠ jobId, (id == jobId) = false := fun id ne => by simpa using ne
  unfold addJobIdHT at added
  split at added
  · cases added
    exact ⟨lookup_cons_self, fun id ne => by rw [lookup_cons, other id ne]⟩
  · split at added
    · cases added
      refine ⟨lookup_cons_self, fun id ne => ?_⟩
      rw [lookup_cons, other id ne]
      exact lookup_filter_ne ne
    · cases added

theorem getJobData_addJobIdHT (added : addJobIdHT jobIdHT jobId nodeType = some jobIdHT')
    (ne : id ≠ jobId) : getJobData jobIdHT' id = getJobData jobIdHT id := by
  unfold getJobData
  rw [(addJobIdHT_lookup added).2 id ne]

end Table

def ArrayState.ids (s : ArrayState) : List Int := s.elements.map Element.jobId

section Elements

variable {jobId : Nat} {hold : Bool} {s s' : ArrayState} {i : Int}

section

variable (done : newElement jobId hold s i = some s')
include done

theorem newElement_cases :
    (getJobData s.jobIdHT (lsbJobId jobId i) ≠ none ∧ s' = s) ∨
      (getJobData s.jobIdHT (lsbJobId jobId i) = none ∧ s'.ids = s.ids ++ [lsbJobId jobId i] ∧
        addJobIdHT s.jobIdHT (lsbJobId jobId i) .job = some s'.jobIdHT) := by
  unfold newElement at done
  split at done
  · rename_i there
    cases done
    exact Or.inl ⟨there, rfl⟩
  · rename_i absent
    obtain ⟨ht, added, rfl⟩ := Option.map_eq_some_iff.mp done
    exact Or.inr ⟨not_not.mp absent, by simp [ArrayState.ids], added⟩

theorem newElement_keeps_ids (mem : id ∈ s.ids) : id ∈ s'.ids := by
  rcases newElement_cases done with ⟨-, rfl⟩ | ⟨-, ids, -⟩
  · exact mem
  · rw [ids]
    exact mem_append_left _ mem

theorem newElement_negative (neg : lsbJobId jobId i ≤ 0) : lsbJobId jobId i ∈ s'.ids := by
  rcases newElement_cases done with ⟨there, -⟩ | ⟨-, ids, -⟩
  · exact absurd (if_pos neg) there
  · rw [ids]
    exact mem_append_right _ mem_cons_self

theorem newElement_taken (taken : getJobData s.jobIdHT id ≠ none ∧ id ∉ s.ids) :
    getJobData s'.jobIdHT id ≠ none ∧ id ∉ s'.ids := by
  rcases newElement_cases done with ⟨-, rfl⟩ | ⟨absent, ids, added⟩
  · exact taken
  · have ne : id ≠ lsbJobId jobId i := fun eq => taken.1 (eq ▸ absent)
    rw [getJobData_addJobIdHT added ne, ids]
    refine ⟨taken.1, fun mem => ?_⟩
    rcases mem_append.mp mem with mem | mem
    · exact taken.2 mem
    · exact ne (mem_singleton.mp mem)

end

/-- The elements are those of the indices seen so far, and `getJobData` finds
the ids of just these. -/
structure Built (jobId : Nat) (jobIdHT : JobIdHT) (seen : List Int) (s : ArrayState) : Prop where
  nodup : s.ids.Nodup
  mem_ids : ∀ id, id ∈ s.ids ↔ ∃ i ∈ seen, id = lsbJobId jobId i
  found : ∀ id, id ∉ s.ids → getJobData s.jobIdHT id = getJobData jobIdHT id
  known : ∀ id ∈ s.ids, getJobData s.jobIdHT id ≠ none

theorem Built.step {jobIdHT : JobIdHT} {seen : List Int} (built : Built jobId jobIdHT seen s)
    (hold : Bool) (pos : 0 < lsbJobId jobId i)
    (free : getJobData jobIdHT (lsbJobId jobId i) = none) :
    ∃ s', newElement jobId hold s i = some s' ∧ Built jobId jobIdHT (seen ++ [i]) s' := by
  have mem_seen : ∀ id, (∃ j ∈ seen ++ [i], id = lsbJobId jobId j) ↔
      id ∈ s.ids ∨ id = lsbJobId jobId i := by
    intro id
    rw [built.mem_ids id]
    simp [or_and_right, exists_or]
  by_cases there : lsbJobId jobId i ∈ s.ids
  · refine ⟨s, ?_, built.nodup, fun id => ?_, built.found, built.known⟩
    · rw [newElement, if_pos (built.known _ there)]
    · rw [mem_seen id]
      exact ⟨Or.inl, fun h => h.elim (fun mem => mem) fun eq => eq ▸ there⟩
  · have absent : getJobData s.jobIdHT (lsbJobId jobId i) = none :=
      (built.found _ there).trans free
    have empty : s.jobIdHT.lookup (lsbJobId jobId i) = none := by
      rwa [getJobData, if_neg (by omega)] at absent
    have added : addJobIdHT s.jobIdHT (lsbJobId jobId i) .job =
        some ((lsbJobId jobId i, .job) :: s.jobIdHT) := by
      rw [addJobIdHT, if_pos empty]
    refine ⟨_, by rw [newElement, if_neg (not_not.mpr absent), added]; rfl, ?_, ?_, ?_, ?_⟩
    · simp only [ArrayState.ids, map_append, map_cons, map_nil]
      exact nodup_append.mpr ⟨built.nodup, nodup_singleton _,
        fun x hx y hy eq => there (by rwa [← mem_singleton.mp hy, ← eq])⟩
    · intro id
      rw [mem_seen id]
      simp [ArrayState.ids]
    · intro id out
      have ne : id ≠ lsbJobId jobId i := fun eq => out (by simp [ArrayState.ids, eq])
      rw [getJobData_addJobIdHT added ne]
      exact built.found id fun mem => out (by simp [ArrayState.ids] at mem ⊢; exact Or.inl mem)
    · intro id mem
      by_cases eq : id = lsbJobId jobId i
      · rw [eq, getJobData, if_neg (by omega), (addJobIdHT_lookup added).1]
        exact Option.some_ne_none _
      · rw [getJobData_addJobIdHT added eq]
        exact built.known id (by simpa [ArrayState.ids, eq] using mem)

theorem Built.run {jobIdHT : JobIdHT} {seen : List Int} (built : Built jobId jobIdHT seen s)
    (hold : Bool) (rest : List Int)
    (free : ∀ i ∈ rest, 0 < lsbJobId jobId i ∧ getJobData jobIdHT (lsbJobId jobId i) = none) :
    ∃ s', rest.foldlM (newElement jobId hold) s = some s' ∧
      Built jobId jobIdHT (seen ++ rest) s' := by
  induction rest generalizing s seen with
  | nil => exact ⟨s, rfl, by rwa [append_nil]⟩
  | cons i rest ih =>
    obtain ⟨pos, absent⟩ := free i mem_cons_self
    obtain ⟨s₁, first, built₁⟩ := built.step hold pos absent
    obtain ⟨s₂, last, built₂⟩ := ih built₁ fun j hj => free j (mem_cons_of_mem _ hj)
    refine ⟨s₂, ?_, by rwa [append_assoc] at built₂⟩
    rw [foldlM_cons, first]
    exact last

end Elements

theorem listId_run (jobId : Nat) (seen rest : List Int) {ids : List Int} (nodup : ids.Nodup)
    (mem : ∀ id, id ∈ ids ↔ ∃ i ∈ seen, id = lsbJobId jobId i) :
    ∃ ids', rest.foldlM (listId jobId) ids = some ids' ∧ ids'.Nodup ∧
      ∀ id, id ∈ ids' ↔ ∃ i ∈ seen ++ rest, id = lsbJobId jobId i := by
  induction rest generalizing ids seen with
  | nil => exact ⟨ids, rfl, nodup, by simpa using mem⟩
  | cons i rest ih =>
    have mem_seen : ∀ id, (∃ j ∈ seen ++ [i], id = lsbJobId jobId j) ↔
        id ∈ ids ∨ id = lsbJobId jobId i := by
      intro id
      rw [mem id]
      simp [or_and_right, exists_or]
    rw [append_cons, foldlM_cons]
    by_cases there : lsbJobId jobId i ∈ ids
    · have step : listId jobId ids i = some ids := by rw [listId, if_pos there]
      rw [step]
      refine ih (seen ++ [i]) nodup fun id => ?_
      rw [mem_seen id]
      exact ⟨Or.inl, fun h => h.elim (fun mem => mem) fun eq => eq ▸ there⟩
    · have step : listId jobId ids i = some (ids ++ [lsbJobId jobId i]) := by
        rw [listId, if_neg there]
      rw [step]
      refine ih (seen ++ [i]) ?_ fun id => ?_
      · exact nodup_append.mpr ⟨nodup, nodup_singleton _,
          fun x hx y hy eq => there (by rwa [← mem_singleton.mp hy, ← eq])⟩
      · rw [mem_seen id]
        simp

variable {idxList : List IdxRange}

theorem inIdxList_iff (usable : ∀ r ∈ idxList, r.Usable) (ne : idxList ≠ []) {jobId : Int} :
    inIdxList jobId idxList = true ↔ lsbArrayIdx jobId ∈ allIndices idxList := by
  have empty : idxList.isEmpty = false := by simpa using ne
  rw [inIdxList, empty, Bool.false_or, any_eq_true, allIndices, mem_flatMap]
  refine exists_congr fun r => and_congr_right fun hr => ?_
  rw [(usable r hr).mem_indices]
  simp only [Bool.and_eq_true, Bool.not_eq_true', Bool.or_eq_false_iff, decide_eq_false_iff_not,
    beq_iff_eq, not_lt]
  refine and_congr_right fun inside => ?_
  rw [Int.tmod_eq_emod_of_nonneg (by omega)]

theorem allIndices_int (usable : ∀ r ∈ idxList, r.Usable) (hi : i ∈ allIndices idxList) :
    1 ≤ i ∧ IsInt32 i := by
  obtain ⟨r, hr, mem⟩ := mem_flatMap.mp hi
  exact (usable r hr).int_of_mem mem

section Elements

variable (env : MbdStage) (token : List Char) (jobIdHT : JobIdHT) (jobId : Nat) (hold : Bool)
  (idxList : List IdxRange)

/-- `handleNewJobArray` returns with one element for each index of the list, and
no other. -/
def CreatesElements : Prop :=
  ∃ fuel s, handleNewJobArray fuel jobIdHT jobId hold idxList = some s ∧ s.ids.Nodup ∧
    ∀ id, id ∈ s.ids ↔ ∃ i ∈ allIndices idxList, id = lsbJobId jobId i

/-- `getJobIdList` of any text with this id and this list returns the same ids. -/
def ListsIds : Prop :=
  ∀ fuel jobIdStr, getJobIdIndexList env fuel token jobIdStr = some (.ok (jobId, idxList)) →
    ∃ turns ids, getJobIdList env fuel turns token jobIdStr = some (.ok ids) ∧ ids.Nodup ∧
      ∀ id, id ∈ ids ↔ ∃ i ∈ allIndices idxList, id = lsbJobId jobId i

/-- `inIdxList` is true of the ids of the indices of the list, and of no other
index that an id can have. -/
def TestsIds : Prop :=
  ∀ i, (0 ≤ i ∧ i < 65536) ∨ i ∈ allIndices idxList →
    (inIdxList (lsbJobId jobId i) idxList = true ↔ i ∈ allIndices idxList)

end Elements

section Agreement

variable {env : MbdStage} {token : List Char} {jobIdHT : JobIdHT} {jobId : Nat} {hold : Bool}
  {idxList : List IdxRange}

theorem lsbJobId_pos (int : jobId < 2 ^ 31) (hi : 1 ≤ i ∧ IsInt32 i) :
    0 < lsbJobId jobId i ∧ lsbJobId jobId i ≠ jobId := by
  rw [lsbJobId_eq (Nat.lt_trans int (by decide)) hi.2]
  omega

variable (usable : ∀ r ∈ idxList, r.Usable)
include usable

theorem createsElements_of (pos : 0 < jobId) (int : jobId < 2 ^ 31)
    (inside : ∀ r ∈ idxList, r.last + r.step < 2 ^ 31)
    (free : ∀ i ∈ allIndices idxList, getJobData jobIdHT (lsbJobId jobId i) = none)
    (noArray : getJobData jobIdHT jobId ≠ some .array) :
    CreatesElements jobIdHT jobId hold idxList := by
  obtain ⟨ht, added⟩ : ∃ ht, addJobIdHT jobIdHT jobId .array = some ht := by
    unfold addJobIdHT
    split
    · exact ⟨_, rfl⟩
    · rename_i there
      have job : getJobData jobIdHT jobId = some .job := by
        rw [getJobData, if_neg (by omega)] at noArray ⊢
        cases found : jobIdHT.lookup (jobId : Int) with
        | none => exact absurd found there
        | some node =>
          cases node with
          | job => rfl
          | array => exact absurd found noArray
      rw [if_pos job]
      exact ⟨_, rfl⟩
  obtain ⟨least, loop⟩ := forRanges_eq_foldlM (newElement jobId hold) usable inside
  have start : Built jobId ht [] ⟨ht, []⟩ :=
    ⟨nodup_nil, by simp [ArrayState.ids], fun _ _ => rfl, fun id mem => absurd mem not_mem_nil⟩
  obtain ⟨s, run, built⟩ := start.run hold (allIndices idxList) fun i hi => by
    have := lsbJobId_pos int (allIndices_int usable hi)
    exact ⟨this.1, (getJobData_addJobIdHT added this.2).trans (free i hi)⟩
  refine ⟨least, s, ?_, built.nodup, built.mem_ids⟩
  rw [handleNewJobArray, added, Option.bind_some, loop least le_rfl, run]

theorem listsIds_of (ne : idxList ≠ []) (pos : 0 < jobId)
    (inside : ∀ r ∈ idxList, r.last + r.step < 2 ^ 31) : ListsIds env token jobId idxList := by
  intro fuel jobIdStr read
  obtain ⟨least, loop⟩ := forRanges_eq_foldlM (listId jobId) usable inside
  obtain ⟨ids, run, nodup, mem⟩ := listId_run jobId [] (allIndices idxList) nodup_nil (by simp)
  refine ⟨least, ids, ?_, nodup, mem⟩
  have list : forRanges (listId jobId) least idxList [] = some ids :=
    (loop least le_rfl []).trans run
  rw [getJobIdList, read, Option.bind_some]
  dsimp only
  rw [if_neg (by omega), if_neg ne, Int.toNat_natCast, list]
  rfl

theorem testsIds_iff (ne : idxList ≠ []) (int : jobId < 2 ^ 31) :
    TestsIds jobId idxList ↔ ∀ i ∈ allIndices idxList, i % 65536 ∈ allIndices idxList := by
  refine ⟨fun tests i hi => ?_, fun low i hi => ?_⟩
  · have test := (tests i (Or.inr hi)).mpr hi
    rwa [inIdxList_iff usable ne, lsbArrayIdx_lsbJobId int (allIndices_int usable hi).2] at test
  · rcases hi with hi | hi
    · have i32 : IsInt32 i := by unfold IsInt32; omega
      rw [inIdxList_iff usable ne, lsbArrayIdx_lsbJobId int i32, Int.emod_eq_of_lt hi.1 hi.2]
    · rw [inIdxList_iff usable ne, lsbArrayIdx_lsbJobId int (allIndices_int usable hi).2]
      exact iff_of_true (low i hi) hi

/-- Elements made beyond the end of a range, or found in the table already, are
not those of the list. -/
theorem of_createsElements (int : jobId < 2 ^ 31) (pos : 0 < jobId)
    (creates : CreatesElements jobIdHT jobId hold idxList) :
    (∀ r ∈ idxList, r.last + r.step < 2 ^ 31) ∧
      (∀ i ∈ allIndices idxList, getJobData jobIdHT (lsbJobId jobId i) = none) ∧
      getJobData jobIdHT jobId ≠ some .array := by
  obtain ⟨fuel, s, done, -, mem⟩ := creates
  obtain ⟨ht, added, rest⟩ := Option.bind_eq_some_iff.mp done
  have loop : forRanges (newElement jobId hold) fuel idxList ⟨ht, []⟩ = some s := rest
  have id_lt : jobId < 2 ^ 32 := Nat.lt_trans int (by decide)
  refine ⟨fun r hr => ?_, fun i hi => ?_, fun array => ?_⟩
  · by_contra out
    have good := usable r hr
    have small := good.last_le
    have holds : lsbJobId jobId (r.last + r.step - 2 ^ 32) ≤ 0 →
        lsbJobId jobId (r.last + r.step - 2 ^ 32) ∈ s.ids := by
      intro neg
      refine forRanges_overflow (P := fun s => lsbJobId jobId (r.last + r.step - 2 ^ 32) ∈ s.ids)
        ?_ hr good ?_ ?_ loop
      · exact fun _ _ _ mem done => newElement_keeps_ids done mem
      · exact Int.not_lt.mp out
      · exact fun _ _ done => newElement_negative done neg
    have range : IsInt32 (r.last + r.step - 2 ^ 32) := by
      have := good.end_lt
      have := good.step_lt
      unfold IsInt32
      omega
    have neg : lsbJobId jobId (r.last + r.step - 2 ^ 32) ≤ 0 := by
      have := good.end_lt
      have := good.step_lt
      rw [lsbJobId_eq id_lt range]
      omega
    generalize r.last + r.step - 2 ^ 32 = w at range neg holds
    have made : lsbJobId jobId w ∈ s.ids := holds neg
    obtain ⟨i, hi, eq⟩ := (mem _).mp made
    have := (lsbJobId_pos int (allIndices_int usable hi)).1
    omega
  · by_contra taken
    have apart := lsbJobId_pos int (allIndices_int usable hi)
    have out : lsbJobId jobId i ∉ s.ids := by
      refine (forRanges_keeps (P := fun (s : ArrayState) =>
        getJobData s.jobIdHT (lsbJobId jobId i) ≠ none ∧ lsbJobId jobId i ∉ s.ids) ?_ ?_ loop).2
      · exact fun _ _ _ taken done => newElement_taken done taken
      · rw [getJobData_addJobIdHT added apart.2]
        exact ⟨taken, not_mem_nil⟩
    exact out ((mem _).mpr ⟨i, hi, rfl⟩)
  · have there : jobIdHT.lookup (jobId : Int) ≠ none := by
      rw [getJobData, if_neg (by omega)] at array
      simp [array]
    rw [addJobIdHT, if_neg there, if_neg (by simp [array])] at added
    cases added

end Agreement

/-- The three loops agree on an accepted list exactly if no range runs past an
`int` behind its last index, no element is in core already, no array has the id,
and the low half of every index is an index too. Outside replay every index is
its own low half. -/
theorem jobArray_elements_iff {env : MbdStage} {fuel : Nat} {token jobName : List Char}
    {limit : Int}
    {parsed : ParsedIndex} (done : parseJobArrayIndex env fuel token jobName limit = some parsed)
    (accepted : parsed.idxList ≠ []) {jobId : Nat} (pos : 0 < jobId) (int : jobId < 2 ^ 31)
    (hold : Bool) (jobIdHT : JobIdHT) :
    (CreatesElements jobIdHT jobId hold parsed.idxList ∧ ListsIds env token jobId parsed.idxList ∧
        TestsIds jobId parsed.idxList) ↔
      (∀ r ∈ parsed.idxList, r.last + r.step < 2 ^ 31) ∧
        (∀ i ∈ allIndices parsed.idxList, getJobData jobIdHT (lsbJobId jobId i) = none) ∧
        getJobData jobIdHT jobId ≠ some .array ∧
        ∀ i ∈ allIndices parsed.idxList, i % 65536 ∈ allIndices parsed.idxList := by
  have usable := usable_of_accepted done accepted
  refine ⟨fun ⟨creates, _, tests⟩ => ?_, fun ⟨inside, free, noArray, low⟩ => ⟨?_, ?_, ?_⟩⟩
  · obtain ⟨inside, free, noArray⟩ := of_createsElements usable int pos creates
    exact ⟨inside, free, noArray, (testsIds_iff usable accepted int).mp tests⟩
  · exact createsElements_of usable pos int inside free noArray
  · exact listsIds_of usable accepted pos inside
  · exact (testsIds_iff usable accepted int).mpr low

theorem jobArray_elements_iff_odd :
    CreatesElements [] 7 false [⟨1, 5, 2⟩] ∧ ListsIds ⟨false, 1000⟩ [] 7 [⟨1, 5, 2⟩] ∧
      TestsIds 7 [⟨1, 5, 2⟩] :=
  (@jobArray_elements_iff ⟨false, 1000⟩ 100 [] "a[1-5:2]".toList 0
    ⟨[⟨1, 5, 2⟩], .noError, INFINIT_INT⟩ (by decide +kernel) (by decide) 7 (by decide) (by decide)
    false []).mpr ⟨by decide, by decide, by decide, by decide⟩

/-- Behind the only index of the range the loop goes on from a negative one, and
makes an element of it. -/
theorem newJobArray_negative_index :
    (parseJobArrayIndex ⟨false, 1000⟩ 100 [] "a[2:2147483647]".toList 0).map ParsedIndex.idxList =
        some [⟨2, 2, 2147483647⟩] ∧
      allIndices [⟨2, 2, 2147483647⟩] = [2] ∧
      (handleNewJobArray 10 [] 7 false [⟨2, 2, 2147483647⟩]).map ArrayState.ids =
        some [lsbJobId 7 2, lsbJobId 7 (-2147483647)] := by
  decide +kernel

section InPlace

variable {jobIdStr : List Char}

theorem cut_at_bracket (mem : '[' ∈ jobIdStr) :
    jobIdStr.takeWhile (· ≠ '[') ++
      '[' :: jobIdStr.drop ((jobIdStr.takeWhile (· ≠ '[')).length + 1) = jobIdStr := by
  induction jobIdStr with
  | nil => cases mem
  | cons c cs ih =>
    by_cases found : c = '['
    · simp [found]
    · have rest : '[' ∈ cs := (List.mem_cons.mp mem).resolve_left (Ne.symm found)
      simpa [found] using ih rest

theorem takeWhile_bracket_iff : jobIdStr.takeWhile (· ≠ '[') = jobIdStr ↔ '[' ∉ jobIdStr := by
  simp [List.takeWhile_eq_self_iff, List.forall_mem_ne']

theorem getJobIdIndexListIn_answer (env : MbdStage) (fuel : Nat) (token : List Char) :
    (getJobIdIndexListIn env fuel token jobIdStr).map (·.2) =
      getJobIdIndexList env fuel token jobIdStr := by
  simp only [getJobIdIndexListIn, getJobIdIndexList, takeWhile_bracket_iff]
  split_ifs with found refused refused
  · rfl
  · rw [cut_at_bracket found, Option.map_map]
    rfl
  · rfl
  · rfl

/-- After an id that is refused the string is still cut at its bracket. -/
theorem getJobIdIndexListIn_unchanged_iff {env : MbdStage} {fuel : Nat} {token left : List Char}
    {answer : Except JobIdError (Int × List IdxRange)}
    (returns : getJobIdIndexListIn env fuel token jobIdStr = some (left, answer)) :
    left = jobIdStr ↔ '[' ∉ jobIdStr ∨
      (Dep.isint (jobIdStr.takeWhile (· ≠ '[')) = true ∧
        0 < atoi (jobIdStr.takeWhile (· ≠ '['))) := by
  simp only [getJobIdIndexListIn] at returns
  split_ifs at returns with found refused refused
  · obtain ⟨rfl, -⟩ := Prod.mk.inj (Option.some.inj returns)
    refine iff_of_false ?_ ?_
    · intro same
      have cut := List.append_cancel_left (same.trans (cut_at_bracket found).symm)
      exact absurd (List.cons.inj cut).1 (by decide)
    · rintro (absent | ⟨int, pos⟩)
      · exact absent found
      · rw [int, Bool.not_true, Bool.false_or, decide_eq_true_eq] at refused
        omega
  · obtain ⟨parsed, -, eq⟩ := Option.map_eq_some_iff.mp returns
    obtain ⟨rfl, -⟩ := Prod.mk.inj eq
    refine iff_of_true (cut_at_bracket found) (.inr ?_)
    simpa using refused
  · obtain ⟨rfl, -⟩ := Prod.mk.inj (Option.some.inj returns)
    exact iff_of_true rfl (.inl found)
  · obtain ⟨rfl, -⟩ := Prod.mk.inj (Option.some.inj returns)
    exact iff_of_true rfl (.inl found)

theorem getJobIdIndexListIn_unchanged_iff_seven :
    '[' ∉ "7[1]".toList ∨ (Dep.isint "7".toList = true ∧ 0 < atoi "7".toList) :=
  (@getJobIdIndexListIn_unchanged_iff "7[1]".toList ⟨false, 1000⟩ 100 [] "7[1]".toList
    (.ok (7, [⟨1, 1, 1⟩])) (by decide +kernel)).mp rfl

theorem refused_id_cut :
    getJobIdIndexListIn ⟨false, 1000⟩ 100 [] "x[1]".toList =
      some (['x', '\x00', '1', ']'], .error .badJobId) := by
  decide +kernel

end InPlace

end Jhlava.JobArray
