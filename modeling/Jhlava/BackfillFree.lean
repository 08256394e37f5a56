import Jhlava.MbdDispatch

/-! `freeBackfillSlotsFromBackfillee` of mbd.policy.c: a backfill job takes the slots that it uses
from the jobs that had reserved them. -/
namespace Jhlava.Mbd
open List

/-- A backfillee of an exec candidate, with its host: `indexInCandHostList` is the place of the
host among the candidates. -/
structure Borrowing where
  backfilleePtr : Nat
  hData : Nat
  backfillSlots : Nat
  deriving DecidableEq, Repr

/-- `backfilleeData`: a job and the slots that are taken from it, host by host. -/
structure BackfilleeData where
  backfilleePtr : Nat
  slotsList : List (Nat × Nat)
  deriving DecidableEq, Repr

def borrowings (execCandPtr : List ExecCand) : List Borrowing :=
  execCandPtr.flatMap fun x => (x.backfilleeList.getD []).map fun b =>
    ⟨b.backfilleePtr, x.hData.getD 0, b.backfillSlots.toNat⟩

def noteBorrowing (toFree : List BackfilleeData) (b : Borrowing) : List BackfilleeData :=
  if toFree.any fun d => d.backfilleePtr = b.backfilleePtr then
    toFree.map fun d =>
      if d.backfilleePtr = b.backfilleePtr then
        { d with slotsList := d.slotsList ++ [(b.hData, b.backfillSlots)] }
      else d
  else toFree ++ [⟨b.backfilleePtr, [(b.hData, b.backfillSlots)]⟩]

def backfilleeToFreeList (bs : List Borrowing) : List BackfilleeData := bs.foldl noteBorrowing []

/-- One turn of the loop over `slotsList`, on `hPtr` and `numHostPtr`. -/
def releaseSlots (r : List Nat × Nat) (slots : Nat × Nat) : List Nat × Nat :=
  let tmpHPtr := removeNOccuranceOfHost (r.1.take r.2) slots.1 slots.2
  let numHostPtr := r.2 - slots.2
  (tmpHPtr.take numHostPtr, numHostPtr)

/-- `hPtr` and `numHostPtr` after that loop. -/
def released (hPtr : List Nat) (slotsList : List (Nat × Nat)) : List Nat × Nat :=
  slotsList.foldl releaseSlots (hPtr, hPtr.length)

def releaseSlotsOf (cf : Config) (now : Int) (acc : Accounts) (job : JData)
    (slotsList : List (Nat × Nat)) :
    Accounts × JData :=
  let (tmpHPtr, tmpNumHostPtr) := released job.hPtr slotsList
  let freed := freeReserveSlots cf acc job
  if tmpNumHostPtr ≠ 0 then reserveSlots cf now freed.1 { freed.2 with hPtr := tmpHPtr }
  else (freed.1, { freed.2 with hPtr := [], reserveTime := 0, slotHoldTime := 0 })

/-- One turn of the loop over `backfilleeToFreeList`. -/
def releaseBackfillee (cf : Config) (now : Int) (s : MbdState) (d : BackfilleeData) : MbdState :=
  s.setJob d.backfilleePtr (releaseSlotsOf cf now s.acc (s.jobs d.backfilleePtr) d.slotsList)

def freeBackfillSlotsFromBackfillee (cf : Config) (now : Int) (s : MbdState)
    (execCandPtr : List ExecCand) : MbdState :=
  (backfilleeToFreeList (borrowings execCandPtr)).foldl (releaseBackfillee cf now) s

/-! ### The list of a job -/

def slotsFrom (bs : List Borrowing) (j : Nat) : List (Nat × Nat) :=
  (bs.filter fun b => b.backfilleePtr = j).map fun b => (b.hData, b.backfillSlots)

/-- Each job that slots are taken from is on the list once, with all its slots. -/
structure Gathered (bs : List Borrowing) (toFree : List BackfilleeData) : Prop where
  distinct : (toFree.map BackfilleeData.backfilleePtr).Nodup
  slots : ∀ d ∈ toFree, d.slotsList = slotsFrom bs d.backfilleePtr
  all : ∀ b ∈ bs, b.backfilleePtr ∈ toFree.map BackfilleeData.backfilleePtr

theorem slotsFrom_append (bs : List Borrowing) (b : Borrowing) (j : Nat) :
    slotsFrom (bs ++ [b]) j =
      slotsFrom bs j ++ if b.backfilleePtr = j then [(b.hData, b.backfillSlots)] else [] := by
  unfold slotsFrom
  by_cases here : b.backfilleePtr = j <;> simp [here]

variable {toFree : List BackfilleeData}

theorem Gathered.step {bs : List Borrowing} (h : Gathered bs toFree) (b : Borrowing) :
    Gathered (bs ++ [b]) (noteBorrowing toFree b) := by
  unfold noteBorrowing
  by_cases known : b.backfilleePtr ∈ toFree.map BackfilleeData.backfilleePtr
  · obtain ⟨d, mem, eq⟩ := mem_map.mp known
    rw [if_pos (any_eq_true.mpr ⟨d, mem, decide_eq_true eq⟩)]
    have jobs : ∀ l : List BackfilleeData, (l.map fun d =>
        if d.backfilleePtr = b.backfilleePtr then
          { d with slotsList := d.slotsList ++ [(b.hData, b.backfillSlots)] }
        else d).map BackfilleeData.backfilleePtr = l.map BackfilleeData.backfilleePtr := by
      intro l
      rw [map_map]
      refine map_congr_left fun d _ => ?_
      rw [Function.comp_apply]
      split <;> rfl
    refine ⟨(jobs toFree).symm ▸ h.distinct, ?_, ?_⟩
    · intro e mapped
      obtain ⟨d, mem, rfl⟩ := mem_map.mp mapped
      rw [slotsFrom_append]
      split
      case isTrue here => rw [if_pos here.symm, ← h.slots d mem]
      case isFalse here => rw [if_neg (Ne.symm here), append_nil, h.slots d mem]
    · rw [jobs]
      intro c mem
      rcases mem_append.mp mem with mem | mem
      · exact h.all c mem
      · rw [mem_singleton.mp mem]
        exact known
  · have none_ : (toFree.any fun d => decide (d.backfilleePtr = b.backfilleePtr)) = false := by
      refine any_eq_false.mpr fun d mem => ?_
      simpa using fun eq => known (mem_map.mpr ⟨d, mem, eq⟩)
    rw [none_, if_neg Bool.false_ne_true]
    have fresh : slotsFrom bs b.backfilleePtr = [] := by
      refine map_eq_nil_iff.mpr (filter_eq_nil_iff.mpr fun c mem => ?_)
      simpa using fun eq : c.backfilleePtr = b.backfilleePtr => known (eq ▸ h.all c mem)
    refine ⟨?_, ?_, ?_⟩
    · rw [map_append]
      exact h.distinct.append (nodup_singleton _) (disjoint_singleton.mpr known)
    · intro d mem
      rw [slotsFrom_append]
      rcases mem_append.mp mem with mem | mem
      · have other : b.backfilleePtr ≠ d.backfilleePtr :=
          fun eq => known (eq ▸ mem_map_of_mem mem)
        rw [if_neg other, append_nil, h.slots d mem]
      · rw [mem_singleton.mp mem, if_pos rfl, fresh]
        rfl
    · intro c mem
      rw [map_append]
      rcases mem_append.mp mem with mem | mem
      · exact mem_append_left _ (h.all c mem)
      · rw [mem_singleton.mp mem]
        exact mem_append_right _ (mem_singleton_self _)

theorem gathered (bs : List Borrowing) : Gathered bs (backfilleeToFreeList bs) := by
  induction bs using List.reverseRecOn with
  | nil => exact ⟨nodup_nil, by simp [backfilleeToFreeList], by simp⟩
  | append_singleton bs b ih =>
    rw [backfilleeToFreeList, foldl_append]
    exact ih.step b

/-! ### The hosts of a job -/

def Contiguous (hPtr : List Nat) : Prop :=
  ∃ blocks : List (Nat × Nat), (blocks.map Prod.fst).Nodup ∧
    hPtr = blocks.flatMap fun b => List.replicate b.2 b.1

section Removed

variable {before behind : List Nat} {h n c : Nat}

theorem removeNOccuranceOfHost_block (absent : h ∉ before) (le : n ≤ c) :
    removeNOccuranceOfHost (before ++ (List.replicate c h ++ behind)) h n =
      before ++ (List.replicate (c - n) h ++ behind) := by
  have others : ∀ a ∈ before, decide (a ≠ h) = true :=
    fun a mem => decide_eq_true fun eq => absent (eq ▸ mem)
  unfold removeNOccuranceOfHost
  rw [takeWhile_append_of_pos others, dropWhile_append_of_pos others, append_assoc]
  cases c with
  | zero =>
    obtain rfl := Nat.le_zero.mp le
    simp [takeWhile_append_dropWhile]
  | succ c =>
    rw [replicate_succ, cons_append, takeWhile_cons_of_neg (by simp),
      dropWhile_cons_of_neg (by simp), nil_append, ← cons_append,
      ← replicate_succ, drop_append_of_le_length (by simpa using le), drop_replicate]

theorem diff_block (absent : h ∉ before) (le : n ≤ c) :
    (before ++ (List.replicate c h ++ behind)).diff (List.replicate n h) =
      before ++ (List.replicate (c - n) h ++ behind) := by
  induction n generalizing c with
  | zero => rfl
  | succ n ih =>
    obtain ⟨c, rfl⟩ := Nat.exists_eq_succ_of_ne_zero (by omega : c ≠ 0)
    rw [replicate_succ (n := n), diff_cons, erase_append_right _ absent,
      Nat.succ_eq_add_one, replicate_succ (n := c), cons_append, erase_cons_head,
      ih (by omega), Nat.add_sub_add_right]

/-- A removal takes the slots off the block of their host, and leaves blocks. -/
theorem removeNOccuranceOfHost_contiguous {hPtr : List Nat} (contiguous : Contiguous hPtr)
    (lent : n ≤ hPtr.count h) :
    removeNOccuranceOfHost hPtr h n = hPtr.diff (List.replicate n h) ∧
      Contiguous (removeNOccuranceOfHost hPtr h n) := by
  obtain ⟨blocks, distinct, rfl⟩ := contiguous
  have outside : ∀ {bs : List (Nat × Nat)}, h ∉ bs.map Prod.fst →
      h ∉ bs.flatMap fun b => List.replicate b.2 b.1 := by
    intro bs absent mem
    obtain ⟨b, mem, here⟩ := mem_flatMap.mp mem
    exact absent (mem_map.mpr ⟨b, mem, (eq_of_mem_replicate here).symm⟩)
  by_cases known : h ∈ blocks.map Prod.fst
  · obtain ⟨⟨k, c⟩, mem, host⟩ := mem_map.mp known
    obtain rfl : k = h := host
    obtain ⟨pre, post, rfl⟩ := append_of_mem mem
    rw [map_append] at distinct
    have notPre : k ∉ pre.map Prod.fst := fun mem =>
      disjoint_of_nodup_append distinct mem mem_cons_self
    have notPost : k ∉ post.map Prod.fst :=
      (nodup_cons.mp (List.Nodup.of_append_right distinct)).1
    rw [flatMap_append, flatMap_cons] at lent ⊢
    have le : n ≤ c := by
      rwa [count_append, count_append, count_eq_zero.mpr (outside notPre),
        count_eq_zero.mpr (outside notPost), count_replicate_self, Nat.zero_add] at lent
    rw [removeNOccuranceOfHost_block (outside notPre) le, diff_block (outside notPre) le]
    refine ⟨rfl, pre ++ (k, c - n) :: post, ?_, ?_⟩
    · rwa [map_append]
    · rw [flatMap_append, flatMap_cons]
  · have none_ := outside known
    obtain rfl : n = 0 := by
      rw [count_eq_zero.mpr none_] at lent
      exact Nat.le_zero.mp lent
    have same := @removeNOccuranceOfHost_block _ [] h 0 0 none_ le_rfl
    rw [replicate_zero, nil_append, append_nil] at same
    rw [same]
    exact ⟨rfl, blocks, distinct, rfl⟩

end Removed

def slotHosts (slotsList : List (Nat × Nat)) : List Nat :=
  slotsList.flatMap fun b => List.replicate b.2 b.1

theorem releaseSlots_foldl {hPtr : List Nat} (slotsList : List (Nat × Nat))
    (contiguous : Contiguous hPtr)
    (lent : ∀ h, (slotHosts slotsList).count h ≤ hPtr.count h) :
    slotsList.foldl releaseSlots (hPtr, hPtr.length) =
        (hPtr.diff (slotHosts slotsList), (hPtr.diff (slotHosts slotsList)).length) ∧
      Contiguous (hPtr.diff (slotHosts slotsList)) := by
  induction slotsList generalizing hPtr with
  | nil => exact ⟨rfl, contiguous⟩
  | cons b slotsList ih =>
    have whole : slotHosts (b :: slotsList) = List.replicate b.2 b.1 ++ slotHosts slotsList := rfl
    have here : b.2 ≤ hPtr.count b.1 := by
      have all := lent b.1
      rw [whole, count_append, count_replicate_self] at all
      omega
    obtain ⟨taken, contiguous'⟩ := removeNOccuranceOfHost_contiguous contiguous here
    rw [taken] at contiguous'
    have size : (hPtr.diff (List.replicate b.2 b.1)).length = hPtr.length - b.2 := by
      have within : ∀ h ∈ List.replicate b.2 b.1,
          (List.replicate b.2 b.1).count h ≤ hPtr.count h := by
        intro h mem
        rw [eq_of_mem_replicate mem, count_replicate_self]
        exact here
      have parts := (subperm_append_diff_self_of_count_le within).length_eq
      rw [length_append, length_replicate] at parts
      omega
    have step : releaseSlots (hPtr, hPtr.length) b =
        (hPtr.diff (List.replicate b.2 b.1), (hPtr.diff (List.replicate b.2 b.1)).length) := by
      unfold releaseSlots
      dsimp only
      rw [take_length, taken, ← size, take_length]
    rw [foldl_cons, step, whole, diff_append]
    refine ih contiguous' fun h => ?_
    have all := lent h
    rw [whole, count_append] at all
    rw [count_diff]
    omega

/-! ### The reservation of a job -/

variable (cf : Config) (now : Int)

theorem freeReserveSlots_reserve (acc : Accounts) (job : JData) :
    (freeReserveSlots cf acc job).2.jStatus.reserve = false := by
  unfold freeReserveSlots
  split
  · rfl
  · rename_i none_
    exact Bool.eq_false_of_not_eq_true none_

theorem reserveSlots_spec {acc : Accounts} {job : JData} (none_ : job.jStatus.reserve = false) :
    (reserveSlots cf now acc job).2.jStatus.reserve = true ∧
      (reserveSlots cf now acc job).2.hPtr = job.hPtr := by
  unfold reserveSlots
  rw [none_, if_neg Bool.false_ne_true]
  refine ⟨rfl, ?_⟩
  unfold startHold
  split <;> rfl

theorem releaseSlotsOf_spec (acc : Accounts) {job : JData} {slotsList : List (Nat × Nat)}
    (contiguous : Contiguous job.hPtr)
    (lent : ∀ h, (slotHosts slotsList).count h ≤ job.hPtr.count h) :
    (releaseSlotsOf cf now acc job slotsList).2.hPtr = job.hPtr.diff (slotHosts slotsList) ∧
      ((releaseSlotsOf cf now acc job slotsList).2.jStatus.reserve = true ↔
        job.hPtr.diff (slotHosts slotsList) ≠ []) := by
  obtain ⟨left, -⟩ := releaseSlots_foldl slotsList contiguous lent
  unfold releaseSlotsOf released
  rw [left]
  dsimp only
  by_cases none_ : job.hPtr.diff (slotHosts slotsList) = []
  · rw [none_]
    have freed := freeReserveSlots_reserve cf acc job
    simpa using freed
  · rw [if_pos (by simpa using none_)]
    obtain ⟨bit, hosts⟩ := @reserveSlots_spec cf now (freeReserveSlots cf acc job).1
      { (freeReserveSlots cf acc job).2 with hPtr := job.hPtr.diff (slotHosts slotsList) }
      (freeReserveSlots_reserve cf acc job)
    exact ⟨hosts, iff_of_true bit none_⟩

theorem releaseBackfillee_other {s : MbdState} {d : BackfilleeData} {j : Nat}
    (other : d.backfilleePtr ≠ j) : (releaseBackfillee cf now s d).jobs j = s.jobs j :=
  Function.update_of_ne (Ne.symm other) _ _

theorem releaseBackfillees_others {j : Nat} (absent : j ∉ toFree.map BackfilleeData.backfilleePtr)
    (s : MbdState) : (toFree.foldl (releaseBackfillee cf now) s).jobs j = s.jobs j := by
  induction toFree generalizing s with
  | nil => rfl
  | cons d toFree ih =>
    rw [map_cons, mem_cons, not_or] at absent
    rw [foldl_cons, ih absent.2, releaseBackfillee_other cf now (Ne.symm absent.1)]

theorem releaseBackfillees_job (distinct : (toFree.map BackfilleeData.backfilleePtr).Nodup)
    (s : MbdState) {d : BackfilleeData} (mem : d ∈ toFree) :
    ∃ acc,
      ((toFree.foldl (releaseBackfillee cf now) s).jobs d.backfilleePtr).hPtr =
          (releaseSlotsOf cf now acc (s.jobs d.backfilleePtr) d.slotsList).2.hPtr ∧
        ((toFree.foldl (releaseBackfillee cf now) s).jobs d.backfilleePtr).jStatus =
          (releaseSlotsOf cf now acc (s.jobs d.backfilleePtr) d.slotsList).2.jStatus := by
  induction toFree generalizing s with
  | nil => cases mem
  | cons e toFree ih =>
    obtain ⟨fresh, distinct⟩ := nodup_cons.mp distinct
    rw [foldl_cons]
    rcases mem_cons.mp mem with rfl | mem
    · refine ⟨s.acc, ?_⟩
      rw [releaseBackfillees_others cf now fresh]
      simp [releaseBackfillee, MbdState.setJob]
    · have other : e.backfilleePtr ≠ d.backfilleePtr :=
        fun eq => fresh (eq ▸ mem_map_of_mem mem)
      obtain ⟨acc, after⟩ := ih distinct (releaseBackfillee cf now s e) mem
      rw [releaseBackfillee_other cf now other] at after
      exact ⟨acc, after⟩

def taken (execCandPtr : List ExecCand) (j : Nat) : List (Nat × Nat) :=
  slotsFrom (borrowings execCandPtr) j

/-- A reserving job whose slots are in blocks keeps those that are not taken from it: its list is
the old one without as many entries of each host as are taken, `numHostPtr` counts them, and it
reserves as long as one is left. -/
theorem freeBackfillSlots_leaves {s : MbdState} {execCandPtr : List ExecCand} {j : Nat}
    (reserves : (s.jobs j).jStatus.reserve = true) (some_ : (s.jobs j).hPtr ≠ [])
    (contiguous : Contiguous (s.jobs j).hPtr)
    (lent : ∀ h, (slotHosts (taken execCandPtr j)).count h ≤ (s.jobs j).hPtr.count h) :
    let after := (freeBackfillSlotsFromBackfillee cf now s execCandPtr).jobs j
    after.hPtr = (s.jobs j).hPtr.diff (slotHosts (taken execCandPtr j)) ∧
      (∀ h, after.hPtr.count h =
        (s.jobs j).hPtr.count h - (slotHosts (taken execCandPtr j)).count h) ∧
      (released (s.jobs j).hPtr (taken execCandPtr j)).2 = after.hPtr.length ∧
      (after.jStatus.reserve = true ↔ after.hPtr ≠ []) ∧ Contiguous after.hPtr := by
  intro after
  obtain ⟨loop, blocks⟩ := releaseSlots_foldl (taken execCandPtr j) contiguous lent
  have gathered := gathered (borrowings execCandPtr)
  have core : after.hPtr = (s.jobs j).hPtr.diff (slotHosts (taken execCandPtr j)) ∧
      (after.jStatus.reserve = true ↔ after.hPtr ≠ []) := by
    by_cases known : j ∈ (backfilleeToFreeList (borrowings execCandPtr)).map
        BackfilleeData.backfilleePtr
    · obtain ⟨d, mem, rfl⟩ := mem_map.mp known
      obtain ⟨acc, hosts, status⟩ := releaseBackfillees_job cf now gathered.distinct s mem
      rw [gathered.slots d mem] at hosts status
      obtain ⟨left, bit⟩ := releaseSlotsOf_spec cf now acc contiguous lent
      have hosts' : after.hPtr = _ := hosts.trans left
      have status' : after.jStatus.reserve = _ := congrArg JStatus.reserve status
      refine ⟨hosts', ?_⟩
      rw [status', hosts']
      exact bit
    · have same : after = s.jobs j := releaseBackfillees_others cf now known s
      have none_ : taken execCandPtr j = [] := by
        refine map_eq_nil_iff.mpr (filter_eq_nil_iff.mpr fun b mem => ?_)
        simpa using fun eq : b.backfilleePtr = j => known (eq ▸ gathered.all b mem)
      rw [same, none_]
      exact ⟨rfl, iff_of_true reserves some_⟩
  refine ⟨core.1, fun h => ?_, ?_, core.2, core.1 ▸ blocks⟩
  · rw [core.1, count_diff]
  · rw [core.1]
    exact congrArg Prod.snd loop

def threeReserved : MbdState where
  acc := oneReservation.acc
  jobs i := { reservingJob i with hPtr := [3, 3, 5] }
  numJobs := 2
  filed _ := rfl

def oneTaken : List ExecCand := [⟨some 3, 1, 1, some [⟨1, 1⟩]⟩]

theorem threeReserved_lent (h : Nat) :
    (slotHosts (taken oneTaken 1)).count h ≤ (threeReserved.jobs 1).hPtr.count h :=
  List.Sublist.count_le h (by decide : [3].Sublist [3, 3, 5])

theorem freeBackfillSlots_leaves_two :
    ((freeBackfillSlotsFromBackfillee oneSlotConf 1000 threeReserved oneTaken).jobs 1).hPtr =
      [3, 5] ∧
      ((freeBackfillSlotsFromBackfillee oneSlotConf 1000 threeReserved
        oneTaken).jobs 1).jStatus.reserve = true := by
  obtain ⟨hosts, -, -, bit, -⟩ := freeBackfillSlots_leaves oneSlotConf 1000
    (s := threeReserved) (j := 1) rfl (by decide)
      ⟨[(3, 2), (5, 1)], by decide, rfl⟩ threeReserved_lent
  exact ⟨hosts, bit.mpr (hosts ▸ cons_ne_nil 3 [5])⟩

end Jhlava.Mbd
