import Mathlib.Algebra.Order.Ring.Rat

/-! Selection sort in an array, largest key first, as C programs write it: for
each place the first largest entry from there on is swapped in. -/
namespace SelectionSort
open List

variable {α : Type*} (key : α → Int)

def keyAt (xs : Array α) (i : Nat) : Int := ((xs[i]?).map key).getD 0

/-- The inner loop: the first place with the largest key, from `i` on. -/
def maxIndex (xs : Array α) (i : Nat) : Nat :=
  (List.range' (i + 1) (xs.size - (i + 1))).foldl
    (fun m j => if keyAt key xs j > keyAt key xs m then j else m) i

def selectStep (xs : Array α) (i : Nat) : Array α := xs.swapIfInBounds i (maxIndex key xs i)

def selectSort (xs : Array α) : Array α := (List.range xs.size).foldl (selectStep key) xs

variable {key} {xs : Array α} {i : Nat}

theorem scan_spec (js : List Nat) (m : Nat) :
    let r := js.foldl (fun m j => if keyAt key xs j > keyAt key xs m then j else m) m
    (r = m ∨ r ∈ js) ∧ keyAt key xs m ≤ keyAt key xs r ∧
      ∀ j ∈ js, keyAt key xs j ≤ keyAt key xs r := by
  induction js generalizing m with
  | nil => exact ⟨Or.inl rfl, Int.le_refl _, fun j hj => absurd hj not_mem_nil⟩
  | cons j js ih =>
    rw [foldl_cons]
    by_cases larger : keyAt key xs j > keyAt key xs m
    · rw [if_pos larger]
      obtain ⟨place, start, all⟩ := ih j
      refine ⟨Or.inr ?_, by omega, fun k hk => ?_⟩
      · rcases place with place | place
        · rw [place]
          exact mem_cons_self
        · exact mem_cons_of_mem _ place
      · rcases mem_cons.mp hk with rfl | hk
        · exact start
        · exact all k hk
    · rw [if_neg larger]
      obtain ⟨place, start, all⟩ := ih m
      refine ⟨place.imp_right (mem_cons_of_mem _), start, fun k hk => ?_⟩
      rcases mem_cons.mp hk with rfl | hk
      · omega
      · exact all k hk

theorem maxIndex_spec (inside : i < xs.size) :
    (i ≤ maxIndex key xs i ∧ maxIndex key xs i < xs.size) ∧
      ∀ j, i ≤ j → j < xs.size → keyAt key xs j ≤ keyAt key xs (maxIndex key xs i) := by
  obtain ⟨place, start, all⟩ :=
    @scan_spec α key xs (List.range' (i + 1) (xs.size - (i + 1))) i
  refine ⟨?_, fun j le lt => ?_⟩
  · rcases place with place | place
    · unfold maxIndex
      omega
    · have := mem_range'_1.mp place
      unfold maxIndex
      omega
  · by_cases eq : j = i
    · exact eq ▸ start
    · exact all j (mem_range'_1.mpr (by omega))

theorem selectStep_perm : (selectStep key xs i).toList.Perm xs.toList := by
  unfold selectStep Array.swapIfInBounds
  split
  · split
    · exact Array.perm_iff_toList_perm.mp (Array.swap_perm _ _)
    · exact List.Perm.refl _
  · exact List.Perm.refl _

theorem selectStep_before (inside : i < xs.size) {j : Nat} (before : j < i) :
    (selectStep key xs i)[j]? = xs[j]? := by
  obtain ⟨⟨le, lt⟩, -⟩ := @maxIndex_spec α key xs i inside
  rw [selectStep, Array.swapIfInBounds, dif_pos inside, dif_pos lt, Array.getElem?_swap,
    if_neg (by omega), if_neg (by omega)]

theorem selectStep_size : (selectStep key xs i).size = xs.size := by
  exact selectStep_perm.length_eq

theorem selectStep_front (nonempty : 0 < xs.size) :
    ∃ x, (selectStep key xs 0)[0]? = some x ∧ ∀ y ∈ xs, key y ≤ key x := by
  obtain ⟨⟨-, lt⟩, all⟩ := @maxIndex_spec α key xs 0 nonempty
  refine ⟨xs[maxIndex key xs 0], ?_, fun y hy => ?_⟩
  · rw [selectStep, Array.swapIfInBounds, dif_pos nonempty, dif_pos lt, Array.getElem?_swap]
    split
    · rename_i eq
      simp [eq]
    · rw [if_pos rfl]
  · obtain ⟨j, hj, rfl⟩ := Array.mem_iff_getElem.mp hy
    have le := all j (Nat.zero_le j) hj
    simpa [keyAt, hj, lt] using le

theorem selectSort_perm (xs : Array α) : (selectSort key xs).toList.Perm xs.toList := by
  have steps : ∀ (js : List Nat) (ys : Array α),
    (js.foldl (selectStep key) ys).toList.Perm ys.toList := by
    intro js
    induction js with
    | nil => exact fun ys => List.Perm.refl _
    | cons j js ih => exact fun ys => (ih _).trans selectStep_perm
  exact steps _ xs

theorem selectSort_head (nonempty : 0 < xs.size) :
    ∃ x, (selectSort key xs)[0]? = some x ∧ ∀ y ∈ xs, key y ≤ key x := by
  have later : ∀ (js : List Nat) (ys : Array α), (∀ j ∈ js, 0 < j ∧ j < ys.size) →
      (js.foldl (selectStep key) ys)[0]? = ys[0]? := by
    intro js
    induction js with
    | nil => exact fun _ _ => rfl
    | cons j js ih =>
      intro ys places
      have here := places j mem_cons_self
      rw [foldl_cons, ih _ fun k hk => ?_, selectStep_before here.2 here.1]
      rw [selectStep_size]
      exact places k (mem_cons_of_mem _ hk)
  obtain ⟨n, size⟩ := Nat.exists_eq_add_one.mpr nonempty
  obtain ⟨x, front, all⟩ := @selectStep_front α key xs nonempty
  refine ⟨x, ?_, all⟩
  rw [selectSort, size, range_succ_eq_map, foldl_cons, later _ _ fun j hj => ?_, front]
  obtain ⟨k, hk, rfl⟩ := mem_map.mp hj
  rw [selectStep_size, size]
  exact ⟨Nat.succ_pos k, Nat.succ_lt_succ (mem_range.mp hk)⟩

theorem selectStep_getElem? (inside : i < xs.size) (k : Nat) :
    (selectStep key xs i)[k]? =
      if k = i then xs[maxIndex key xs i]? else if k = maxIndex key xs i then xs[i]?
        else xs[k]? := by
  obtain ⟨⟨-, lt⟩, -⟩ := @maxIndex_spec α key xs i inside
  rw [selectStep, Array.swapIfInBounds, dif_pos inside, dif_pos lt, Array.getElem?_swap]
  rw [← Array.getElem?_eq_getElem inside, ← Array.getElem?_eq_getElem lt]
  by_cases here : k = i
  · by_cases own : k = maxIndex key xs i
    · rw [if_pos own.symm, if_pos here, ← own, here]
    · rw [if_neg (Ne.symm own), if_pos here.symm, if_pos here]
  · rw [if_neg here]
    by_cases other : k = maxIndex key xs i
    · rw [if_pos other.symm, if_pos other]
    · rw [if_neg (Ne.symm other), if_neg (Ne.symm here), if_neg other]

/-- The places before `n` have the largest keys, in order. -/
def SortedTo (key : α → Int) (n : Nat) (xs : Array α) : Prop :=
  ∀ j k, j < n → j < k → k < xs.size → keyAt key xs k ≤ keyAt key xs j

theorem SortedTo.step (sorted : SortedTo key i xs) (inside : i < xs.size) :
    SortedTo key (i + 1) (selectStep key xs i) := by
  obtain ⟨⟨le, lt⟩, all⟩ := @maxIndex_spec α key xs i inside
  have entry : ∀ k, keyAt key (selectStep key xs i) k =
      if k = i then keyAt key xs (maxIndex key xs i)
      else if k = maxIndex key xs i then keyAt key xs i else keyAt key xs k := by
    intro k
    unfold keyAt
    rw [selectStep_getElem? inside]
    split_ifs <;> rfl
  intro j k before less bound
  rw [selectStep_size] at bound
  have front : ∀ k', j < k' → i ≤ k' → k' < xs.size →
      keyAt key xs k' ≤ keyAt key (selectStep key xs i) j := by
    intro k' later from_ bound'
    rw [entry j]
    by_cases here : j = i
    · rw [if_pos here]
      exact all k' from_ bound'
    · rw [if_neg here, if_neg (by omega : j ≠ maxIndex key xs i)]
      exact sorted j k' (by omega) later bound'
  by_cases early : k < i
  · rw [entry j, entry k, if_neg (by omega), if_neg (by omega), if_neg (by omega),
      if_neg (by omega)]
    exact sorted j k (by omega) less bound
  · rw [entry k]
    split_ifs with here other
    · exact front _ (by omega) le lt
    · by_cases same : j = i
      · rw [entry j, if_pos same]
        exact all i le_rfl inside
      · exact front i (by omega) le_rfl inside
    · exact front k less (by omega) bound

theorem selectSort_sorted (xs : Array α) (j k : Nat) (less : j < k) (bound : k < xs.size) :
    keyAt key (selectSort key xs) k ≤ keyAt key (selectSort key xs) j := by
  have steps : ∀ n ≤ xs.size, SortedTo key n ((List.range n).foldl (selectStep key) xs) ∧
      ((List.range n).foldl (selectStep key) xs).size = xs.size := by
    intro n
    induction n with
    | zero => exact fun _ => ⟨fun j k before => absurd before (Nat.not_lt_zero j), rfl⟩
    | succ n ih =>
      intro le
      obtain ⟨sorted, size⟩ := ih (by omega)
      rw [range_succ, foldl_append]
      exact ⟨sorted.step (by omega), selectStep_size.trans size⟩
  obtain ⟨sorted, size⟩ := steps xs.size le_rfl
  exact sorted j k (by omega) less (by omega)

end SelectionSort
