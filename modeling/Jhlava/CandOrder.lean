import Mathlib.Data.List.Nodup
import Jhlava.SelectionSort

/-! The candidate hosts of a job that needs one host, mbd.policy.c: `getCandHosts` orders them by
their free slots. The exchange of two entries moves the host and its slots, and leaves the other
fields at their places. -/
namespace Jhlava.Cands
open SelectionSort Array

/-- `candHost`; a host, a list of backfillees and a vector of preemptable jobs are known by
their addresses. -/
structure CandHost where
  hData : Nat
  numSlots : Int
  numAvailSlots : Int
  numNonBackfillSlots : Int
  numAvailNonBackfillSlots : Int
  backfilleeList : Option Nat
  preemptableV : Option Nat
  deriving DecidableEq, Repr

namespace CandHost

def takeSlots (c from_ : CandHost) : CandHost :=
  { c with hData := from_.hData, numSlots := from_.numSlots }

def slots (c : CandHost) : Nat × Int := (c.hData, c.numSlots)

def others (c : CandHost) : Int × Int × Int × Option Nat × Option Nat :=
  (c.numAvailSlots, c.numNonBackfillSlots, c.numAvailNonBackfillSlots, c.backfilleeList,
    c.preemptableV)

theorem ext_parts {c d : CandHost} (slots : c.slots = d.slots) (others : c.others = d.others) :
    c = d := by
  obtain ⟨⟩ := c
  simp only [CandHost.slots, CandHost.others, Prod.mk.injEq] at slots others
  simp [slots, others]

end CandHost

def exchangeSlots (candPtr : Array CandHost) (i iMax : Nat) : Array CandHost :=
  match candPtr[i]?, candPtr[iMax]? with
  | some here, some most =>
    (candPtr.modify iMax fun c => c.takeSlots here).modify i fun c => c.takeSlots most
  | _, _ => candPtr

/-- The body of the outer loop: the entry with the most slots from `i` on gives its place. -/
def orderStep (candPtr : Array CandHost) (i : Nat) : Array CandHost :=
  exchangeSlots candPtr i (maxIndex CandHost.numSlots candPtr i)

def orderBySlots (candPtr : Array CandHost) : Array CandHost :=
  (List.range candPtr.size).foldl orderStep candPtr

/-! ### The fields apart -/

/-- The array `ys` has the exchanged fields of `zs` and the other fields of `xs`. -/
structure Mixed (xs ys zs : Array CandHost) : Prop where
  slots : ∀ k : Nat, ys[k]?.map CandHost.slots = zs[k]?.map CandHost.slots
  others : ∀ k : Nat, ys[k]?.map CandHost.others = xs[k]?.map CandHost.others

variable {xs ys zs : Array CandHost}

theorem exchangeSlots_others (i iMax k : Nat) :
    (exchangeSlots xs i iMax)[k]?.map CandHost.others = xs[k]?.map CandHost.others := by
  have moved : ∀ (as : Array CandHost) (j : Nat) (d : CandHost),
      (as.modify j fun c => c.takeSlots d)[k]?.map CandHost.others =
        as[k]?.map CandHost.others := by
    intro as j d
    rw [Array.getElem?_modify]
    split
    · cases as[k]? <;> rfl
    · rfl
  unfold exchangeSlots
  split
  · rw [moved, moved]
  · rfl

theorem exchangeSlots_slots {i iMax : Nat} (inside : i < xs.size) (inside' : iMax < xs.size)
    (k : Nat) :
    (exchangeSlots xs i iMax)[k]?.map CandHost.slots =
      if k = i then xs[iMax]?.map CandHost.slots
      else if k = iMax then xs[i]?.map CandHost.slots else xs[k]?.map CandHost.slots := by
  rw [exchangeSlots, Array.getElem?_eq_getElem inside, Array.getElem?_eq_getElem inside']
  rw [Array.getElem?_modify, Array.getElem?_modify]
  by_cases here : k = i
  · subst here
    rw [if_pos rfl, if_pos rfl, Array.getElem?_eq_getElem inside]
    split <;> rfl
  · rw [if_neg (Ne.symm here), if_neg here]
    by_cases other : k = iMax
    · subst other
      rw [if_pos rfl, if_pos rfl, Array.getElem?_eq_getElem inside']
      rfl
    · rw [if_neg (Ne.symm other), if_neg other]

section

variable (mixed : Mixed xs ys zs)
include mixed

theorem Mixed.size : ys.size = zs.size := by
  have bound : ∀ {as bs : Array CandHost},
      (∀ k : Nat, as[k]?.map CandHost.slots = bs[k]?.map CandHost.slots) → bs.size ≤ as.size := by
    intro as bs same
    by_contra less
    have here := same as.size
    rw [Array.getElem?_eq_none le_rfl, Array.getElem?_eq_getElem (by omega)] at here
    cases here
  exact le_antisymm (bound fun k => (mixed.slots k).symm) (bound mixed.slots)

theorem Mixed.keyAt (k : Nat) : keyAt CandHost.numSlots ys k = keyAt CandHost.numSlots zs k := by
  have same := congrArg (Option.map Prod.snd) (mixed.slots k)
  rw [Option.map_map, Option.map_map] at same
  exact congrArg (·.getD 0) same

theorem Mixed.maxIndex (i : Nat) :
    maxIndex CandHost.numSlots ys i = maxIndex CandHost.numSlots zs i := by
  unfold SelectionSort.maxIndex
  rw [mixed.size]
  simp only [mixed.keyAt]

theorem Mixed.step {i : Nat} (inside : i < zs.size) :
    Mixed xs (orderStep ys i) (selectStep CandHost.numSlots zs i) := by
  have inside' : i < ys.size := mixed.size ▸ inside
  obtain ⟨⟨-, lt⟩, -⟩ := @maxIndex_spec _ CandHost.numSlots ys i inside'
  refine ⟨fun k => ?_, fun k => ?_⟩
  · rw [orderStep, exchangeSlots_slots inside' lt, selectStep_getElem? inside, ← mixed.maxIndex,
      mixed.slots, mixed.slots, mixed.slots]
    split_ifs <;> rfl
  · rw [orderStep, exchangeSlots_others, mixed.others]

end

theorem orderBySlots_mixed (xs : Array CandHost) :
    Mixed xs (orderBySlots xs) (selectSort CandHost.numSlots xs) := by
  have steps : ∀ (js : List Nat) (ys zs : Array CandHost), (∀ j ∈ js, j < zs.size) →
      Mixed xs ys zs →
      Mixed xs (js.foldl orderStep ys) (js.foldl (selectStep CandHost.numSlots) zs) := by
    intro js
    induction js with
    | nil => exact fun _ _ _ mixed => mixed
    | cons j js ih =>
      intro ys zs inside mixed
      obtain ⟨here, later⟩ := List.forall_mem_cons.mp inside
      refine ih _ _ (fun k mem => ?_) (mixed.step here)
      rw [selectStep_size]
      exact later k mem
  exact steps _ xs xs (fun j mem => List.mem_range.mp mem) ⟨fun _ => rfl, fun _ => rfl⟩

theorem orderBySlots_size (xs : Array CandHost) : (orderBySlots xs).size = xs.size := by
  rw [(orderBySlots_mixed xs).size, ← length_toList]
  exact (selectSort_perm xs).length_eq

theorem orderBySlots_sorted (xs : Array CandHost) :
    (orderBySlots xs).toList.Pairwise fun c d => d.numSlots ≤ c.numSlots := by
  refine List.pairwise_iff_getElem.mpr fun j k left right less => ?_
  rw [length_toList] at left right
  have sorted := @selectSort_sorted _ CandHost.numSlots xs j k less (orderBySlots_size xs ▸ right)
  rw [← (orderBySlots_mixed xs).keyAt, ← (orderBySlots_mixed xs).keyAt] at sorted
  simpa [keyAt, left, right] using sorted

/-- The candidates of a job, an entry for each host. -/
structure CandList where
  candPtr : Array CandHost
  distinct : (candPtr.toList.map CandHost.hData).Nodup

theorem CandList.unique (cands : CandList) {c d : CandHost} (first : c ∈ cands.candPtr.toList)
    (second : d ∈ cands.candPtr.toList) (same : c.hData = d.hData) : c = d :=
  List.inj_on_of_nodup_map cands.distinct first second same

/-- The loop gives whole entries, ordered by their slots, exactly if the sort of the whole entries
leaves the other fields as they stand. -/
theorem orderBySlots_iff (cands : CandList) :
    ((orderBySlots cands.candPtr).toList.Perm cands.candPtr.toList ∧
        (orderBySlots cands.candPtr).toList.Pairwise fun c d => d.numSlots ≤ c.numSlots) ↔
      (selectSort CandHost.numSlots cands.candPtr).map CandHost.others =
        cands.candPtr.map CandHost.others := by
  have mixed := orderBySlots_mixed cands.candPtr
  have perm := @selectSort_perm _ CandHost.numSlots cands.candPtr
  constructor
  · rintro ⟨whole, -⟩
    refine ext_getElem? fun k => ?_
    rw [Array.getElem?_map, Array.getElem?_map, ← mixed.others k]
    cases found : (orderBySlots cands.candPtr)[k]? with
    | none =>
      have none_ := mixed.slots k
      rw [found] at none_
      rw [Option.map_eq_none_iff.mp none_.symm]
    | some c =>
      obtain ⟨d, found', slots⟩ :=
        Option.map_eq_some_iff.mp ((mixed.slots k).symm.trans (by rw [found]; rfl))
      have first : c ∈ cands.candPtr.toList :=
        whole.mem_iff.mp (mem_toList_iff.mpr (mem_of_getElem? found))
      have second : d ∈ cands.candPtr.toList :=
        perm.mem_iff.mp (mem_toList_iff.mpr (mem_of_getElem? found'))
      rw [found', cands.unique first second (congrArg Prod.fst slots).symm]
  · intro same
    have eq : orderBySlots cands.candPtr = selectSort CandHost.numSlots cands.candPtr := by
      refine ext_getElem? fun k => ?_
      have others := congrArg (·[k]?) same
      rw [Array.getElem?_map, Array.getElem?_map, ← mixed.others k] at others
      have slots := mixed.slots k
      generalize (orderBySlots cands.candPtr)[k]? = c at slots others ⊢
      generalize (selectSort CandHost.numSlots cands.candPtr)[k]? = d at slots others ⊢
      cases c with
      | none => exact (Option.map_eq_none_iff.mp slots.symm).symm
      | some c =>
        cases d with
        | none => cases slots
        | some d =>
          exact congrArg some
            (CandHost.ext_parts (Option.some.inj slots) (Option.some.inj others).symm)
    refine ⟨?_, orderBySlots_sorted _⟩
    rw [eq]
    exact perm

def twoCands : CandList where
  candPtr := #[⟨1, 2, 0, 0, 0, none, none⟩, ⟨2, 3, 3, 3, 3, none, none⟩]
  distinct := by decide

/-- Host 2 comes first and seems to have no slot available, as host 1 seems to have three. -/
theorem orderBySlots_mixes :
    (orderBySlots twoCands.candPtr).toList =
        [⟨2, 3, 0, 0, 0, none, none⟩, ⟨1, 2, 3, 3, 3, none, none⟩] ∧
      ¬ (orderBySlots twoCands.candPtr).toList.Perm twoCands.candPtr.toList := by
  refine ⟨by decide +kernel, ?_⟩
  intro perm
  have mem := perm.mem_iff.mp (by decide +kernel : (⟨2, 3, 0, 0, 0, none, none⟩ : CandHost) ∈
    (orderBySlots twoCands.candPtr).toList)
  exact absurd mem (by decide)

end Jhlava.Cands
