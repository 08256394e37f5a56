import Jhlava.StableSort
import Jhlava.Greedy
import Mathlib.Tactic.Linarith

/-! The order of the candidates of a placement and the choice of their instances, `bsort` and
`selectBestInstances` of lim.policy.c. Loads are exact; a status is its flags. -/
namespace Jhlava.LimPolicy
open StableSort Greedy List

structure HostStatus where
  unavail : Bool
  lockedU : Bool
  lockedW : Bool
  busy : Bool
  resDown : Bool
  lockedM : Bool
  sbdDown : Bool
  deriving DecidableEq, Repr

namespace HostStatus

variable (s : HostStatus)

def isLocked : Bool := s.lockedU || s.lockedW || s.lockedM

def isOkNRes : Bool := !(s.unavail || s.busy || s.isLocked)

/-- The mask has no place for the flag of the sbatchd. -/
def isOk : Bool := s.isOkNRes && !s.resDown

end HostStatus

structure HostNode where
  status : HostStatus
  loadIndex : Nat → Rat
  uloadIndex : Nat → Rat
  hModelNo : Int
  conStatus : Bool
  availLow : Nat
  availHigh : Nat
  low_le_high : availLow ≤ availHigh

/-- The cluster's tables, `li`, `allInfo` and `shortInfo`. -/
structure Tables where
  increasing : Nat → Bool
  numIndx : Nat
  cpuFactors : Nat → Rat
  numIndx_pos : 0 < numIndx

/-- The arguments of a sort, with the bits of `flags` and `rqlOptions`. -/
structure SortArgs where
  lidx : Int
  nec : Nat
  numHosts : Nat
  threshold : Rat
  sortCut : Bool
  sortFinal : Bool
  sortSindx : Bool
  sortIncr : Bool
  ignoreRes : Bool
  normalize : Bool
  effective : Bool

inductive StatusOrder
  | exchanged | ordered | equal
  deriving DecidableEq, Repr

def orderByStatus (ignoreRes : Bool) (s₁ s₂ : HostStatus) : StatusOrder :=
  if (ignoreRes && s₂.isOkNRes && !s₁.isOkNRes) || (!ignoreRes && s₂.isOk && !s₁.isOk) ||
      (!ignoreRes && s₂.isOkNRes && (s₁.busy || s₁.isLocked)) ||
      (!s₂.unavail && s₁.unavail) || (s₂.busy && s₁.isLocked) then .exchanged
  else if ignoreRes && s₁.isOkNRes && !s₂.isOkNRes then .ordered
  else if !ignoreRes && s₁.isOk && !s₂.isOk then .ordered
  else if !ignoreRes && s₁.isOkNRes && (s₂.busy || s₂.isLocked) then .ordered
  else if !s₁.unavail && s₂.unavail then .ordered
  else if s₁.busy && s₂.isLocked then .ordered
  else if s₁.unavail && s₂.unavail then .ordered
  else .equal

def notOrdered (inc : Bool) (a b : Rat) : Bool :=
  if inc then b < a else a < b

section Sorting

variable (tables : Tables) (args : SortArgs)

/-- The place of the index in the tables; the argument counts from one. -/
def SortArgs.index : Nat := args.lidx.natAbs - 1

/-- The indices `R15S`, `R1M` and `R15M` come first, `LS` is the seventh. -/
def SortArgs.shrink : Nat :=
  if args.index < 3 ∨ args.index = 6 then 5 else 8

def SortArgs.incr : Bool :=
  if args.sortSindx then !args.sortIncr
  else tables.increasing args.index ^^ decide (args.lidx < 0)

def loadIndexValue (h : HostNode) : Rat :=
  if args.index < 3 then
    if args.normalize then h.loadIndex args.index
    else if args.effective then
      let factor := if 0 ≤ h.hModelNo then tables.cpuFactors h.hModelNo.toNat else 1
      max 0 (h.loadIndex args.index * factor - 1)
    else h.uloadIndex args.index
  else h.loadIndex args.index

def mkexld (h : HostNode) : Rat :=
  if args.sortSindx || h.conStatus then 0
  else
    let exld := h.loadIndex args.index * (5 / 100 * args.nec / args.numHosts)
    if tables.increasing args.index then exld else -exld

def swaps (h₁ h₂ : HostNode) : Bool :=
  match orderByStatus args.ignoreRes h₁.status h₂.status with
  | .exchanged => true
  | .ordered => false
  | .equal => notOrdered (args.incr tables)
      (loadIndexValue tables args h₁ + mkexld tables args h₁)
      (loadIndexValue tables args h₂ + mkexld tables args h₂)

def SortArgs.cutoffs (ncandidates : Nat) : Nat :=
  if !args.sortCut then ncandidates
  else if args.sortFinal then min args.numHosts ncandidates
  else if ncandidates - args.numHosts < 1 then 0
  else (ncandidates - args.numHosts - 1) / args.shrink + 1

def bestload : List HostNode → Rat
  | [] => 0
  | h :: rest => rest.foldl (fun best h =>
      if notOrdered (args.incr tables) best (loadIndexValue tables args h) then
        loadIndexValue tables args h else best) (loadIndexValue tables args h)

/-- The candidates in their new order, and how many of them are kept. -/
def bsort (candidates : List HostNode) : List HostNode × Nat :=
  let cutoffs := args.cutoffs candidates.length
  if args.sortFinal then (passes (swaps tables args) cutoffs candidates, cutoffs)
  else
    let sorted := passes (swaps tables args) (candidates.length - cutoffs) candidates
    (sorted, candidates.length - cutoffs +
      (sorted.drop (candidates.length - cutoffs)).findIdx fun h =>
        args.threshold ≤ |loadIndexValue tables args h - bestload tables args candidates|)

variable {tables args} {candidates : List HostNode}

theorem bsort_perm (tables : Tables) (args : SortArgs) (candidates : List HostNode) :
    (bsort tables args candidates).1.Perm candidates := by
  rw [bsort]
  split
  · exact passes_perm _ _ _
  · exact passes_perm _ _ _

/-- No candidate has a better load. -/
def IsBest (tables : Tables) (args : SortArgs) (candidates : List HostNode) (b : Rat) : Prop :=
  (∃ h ∈ candidates, loadIndexValue tables args h = b) ∧
    ∀ h ∈ candidates, notOrdered (args.incr tables) b (loadIndexValue tables args h) = false

variable {inc : Bool}

theorem notOrdered_false {a b : Rat} :
    notOrdered inc a b = false ↔ if inc then a ≤ b else b ≤ a := by
  cases inc with
  | false => exact decide_eq_false_iff_not.trans not_lt
  | true => exact decide_eq_false_iff_not.trans not_lt

theorem notOrdered_trans {a b c : Rat} (first : notOrdered inc a b = false)
    (second : notOrdered inc b c = false) : notOrdered inc a c = false := by
  rw [notOrdered_false] at *
  cases inc with
  | false => exact le_trans second first
  | true => exact le_trans first second

theorem notOrdered_self (inc : Bool) (a : Rat) : notOrdered inc a a = false := by
  rw [notOrdered_false, ite_self]

theorem notOrdered_flip {a b : Rat} (worse : notOrdered inc a b = true) :
    notOrdered inc b a = false := by
  rw [notOrdered_false]
  cases inc with
  | false => exact (of_decide_eq_true worse).le
  | true => exact (of_decide_eq_true worse).le

theorem IsBest.unique {b b' : Rat} (first : IsBest tables args candidates b)
    (second : IsBest tables args candidates b') : b = b' := by
  obtain ⟨⟨h, mem, rfl⟩, best⟩ := first
  obtain ⟨⟨h', mem', rfl⟩, best'⟩ := second
  have left := notOrdered_false.mp (best h' mem')
  have right := notOrdered_false.mp (best' h mem)
  split at left
  case isTrue up => exact le_antisymm left (by rwa [if_pos up] at right)
  case isFalse down => exact le_antisymm (by rwa [if_neg down] at right) left

theorem bestload_isBest (tables : Tables) (args : SortArgs) (h : HostNode) (rest : List HostNode) :
    IsBest tables args (h :: rest) (bestload tables args (h :: rest)) := by
  have start : IsBest tables args [h] (loadIndexValue tables args h) := by
    refine ⟨⟨h, mem_cons_self, rfl⟩, ?_⟩
    intro h' mem
    rw [mem_singleton.mp mem]
    exact notOrdered_self _ _
  -- along the loop the value is the best of the candidates that it has read
  suffices ∀ seen b, IsBest tables args seen b → IsBest tables args (seen ++ rest)
      (rest.foldl (fun best h =>
        if notOrdered (args.incr tables) best (loadIndexValue tables args h) then
          loadIndexValue tables args h else best) b) from this [h] _ start
  induction rest with
  | nil => intro seen b best; rwa [append_nil]
  | cons h' rest ih =>
    intro seen b best
    obtain ⟨⟨c, mem, eq⟩, better⟩ := best
    rw [foldl_cons, ← singleton_append, ← append_assoc]
    refine ih (seen ++ [h']) _ ⟨?_, ?_⟩
    · split
      · exact ⟨h', by simp, rfl⟩
      · exact ⟨c, mem_append_left _ mem, eq⟩
    · refine forall_mem_append.mpr ?_
      rw [forall_mem_singleton]
      split
      case isTrue worse =>
        have back := notOrdered_flip worse
        exact ⟨fun x before => notOrdered_trans back (better x before), notOrdered_self _ _⟩
      case isFalse same => exact ⟨better, Bool.eq_false_of_not_eq_true same⟩

/-- What an intermediate pass keeps to: no candidate is lost, and the ones behind the cut are
as far from the best load as the threshold. -/
structure PassOk (tables : Tables) (args : SortArgs) (candidates : List HostNode)
    (result : List HostNode × Nat) : Prop where
  perm : result.1.Perm candidates
  far : ∀ best, IsBest tables args candidates best → ∀ h ∈ result.1.drop result.2,
    args.threshold ≤ |loadIndexValue tables args h - best|

theorem forall_mem_drop_findIdx {α : Type} (p : α → Bool) (l : List α) :
    (∀ a ∈ l.drop (l.findIdx p), p a = true) ↔ behindFirst (fun a => !p a) l = 0 := by
  rw [behindFirst, countP_eq_zero]
  have behind : l.dropWhile (fun a => !p a) = l.drop (l.findIdx p) := by
    rw [dropWhile_eq_drop_findIdx_not]
    simp
  rw [behind]
  simp

theorem orderByStatus_ok {s₁ s₂ : HostStatus} (ignoreRes : Bool) (ok₁ : s₁.isOk = true)
    (ok₂ : s₂.isOk = true) : orderByStatus ignoreRes s₁ s₂ = .equal := by
  simp only [HostStatus.isOk, HostStatus.isOkNRes, HostStatus.isLocked, Bool.and_eq_true,
    Bool.not_eq_true', Bool.or_eq_false_iff] at ok₁ ok₂
  simp [orderByStatus, HostStatus.isOk, HostStatus.isOkNRes, HostStatus.isLocked, ok₁, ok₂]

/-- The key that the candidates rise by. -/
def sortKey (tables : Tables) (args : SortArgs) (h : HostNode) : Rat :=
  if args.incr tables then loadIndexValue tables args h else -loadIndexValue tables args h

theorem swaps_byKey (ok : ∀ h ∈ candidates, h.status.isOk = true)
    (plain : ∀ h ∈ candidates, mkexld tables args h = 0) :
    ByKey (swaps tables args) (sortKey tables args) candidates := by
  intro h mem h' mem'
  rw [swaps, orderByStatus_ok _ (ok h mem) (ok h' mem'), plain h mem, plain h' mem', sortKey,
    sortKey]
  dsimp only
  cases args.incr tables with
  | false => simp [notOrdered]
  | true => simp [notOrdered]

/-- `h` is nearer to the best load than the threshold. -/
def near (tables : Tables) (args : SortArgs) (best : Rat) (h : HostNode) : Bool :=
  |loadIndexValue tables args h - best| < args.threshold

theorem near_lower {best : Rat} (isBest : IsBest tables args candidates best) :
    Lower (near tables args best) (sortKey tables args) candidates := by
  intro h mem h' mem' close away
  have better := notOrdered_false.mp (isBest.2 h mem)
  have better' := notOrdered_false.mp (isBest.2 h' mem')
  have close := of_decide_eq_true close
  have away := not_lt.mp (of_decide_eq_false away)
  rw [sortKey, sortKey]
  cases up : args.incr tables with
  | true =>
    simp only [up, if_true] at better better' ⊢
    rw [abs_of_nonneg (by linarith)] at close
    rw [abs_of_nonneg (by linarith)] at away
    linarith
  | false =>
    simp only [up, Bool.false_eq_true, if_false] at better better' ⊢
    rw [abs_of_nonpos (by linarith)] at close
    rw [abs_of_nonpos (by linarith)] at away
    linarith

/-- Each of the bubble passes brings one near candidate before the first far one. So the pass
discards only far candidates iff the near ones behind the first far one are no more than the
passes. -/
theorem bsort_discards_iff (tables : Tables) (args : SortArgs) (candidates : List HostNode)
    (inter : args.sortFinal = false) (ok : ∀ h ∈ candidates, h.status.isOk = true)
    (unpreferred : args.nec = 0) :
    PassOk tables args candidates (bsort tables args candidates) ↔
      ∀ best, IsBest tables args candidates best →
        behindFirst (near tables args best) candidates ≤
          candidates.length - args.cutoffs candidates.length := by
  have perm := bsort_perm tables args candidates
  have plain : ∀ h ∈ candidates, mkexld tables args h = 0 := by
    intro h _
    simp [mkexld, unpreferred]
  suffices ∀ best, IsBest tables args candidates best →
      ((∀ h ∈ (bsort tables args candidates).1.drop (bsort tables args candidates).2,
          args.threshold ≤ |loadIndexValue tables args h - best|) ↔
        behindFirst (near tables args best) candidates ≤
          candidates.length - args.cutoffs candidates.length) by
    constructor
    · exact fun ok best isBest => (this best isBest).mp (ok.far best isBest)
    · exact fun few => ⟨perm, fun best isBest => (this best isBest).mpr (few best isBest)⟩
  intro best isBest
  have value : bestload tables args candidates = best := by
    cases candidates with
    | nil => simp [IsBest] at isBest
    | cons h rest => exact (bestload_isBest tables args h rest).unique isBest
  have passed := passes_behindFirst (candidates.length - args.cutoffs candidates.length)
    (swaps_byKey ok plain) (near_lower isBest)
  have here := forall_mem_drop_findIdx
    (fun h => decide (args.threshold ≤ |loadIndexValue tables args h - best|))
    ((passes (swaps tables args) (candidates.length - args.cutoffs candidates.length)
      candidates).drop (candidates.length - args.cutoffs candidates.length))
  have same : (fun h => !decide (args.threshold ≤ |loadIndexValue tables args h - best|)) =
      near tables args best := by
    funext h
    rw [near, ← decide_not]
    simp only [not_le]
  rw [same, passed, Nat.sub_eq_zero_iff_le] at here
  simp only [decide_eq_true_eq] at here
  rw [bsort, inter]
  rw [if_neg Bool.false_ne_true, value, ← drop_drop]
  exact here

/-- A host that reports nothing wrong. -/
def okStatus : HostStatus := ⟨false, false, false, false, false, false, false⟩

def okHost (load : Rat) (availHigh : Nat) : HostNode where
  status := okStatus
  loadIndex _ := load
  uloadIndex _ := load
  hModelNo := 0
  conStatus := true
  availLow := 0
  availHigh := availHigh
  low_le_high := Nat.zero_le availHigh

def twoIndices : Tables := ⟨fun _ => true, 2, fun _ => 1, Nat.two_pos⟩

def firstSort : SortArgs where
  lidx := 1
  nec := 0
  numHosts := 1
  threshold := 5
  sortCut := true
  sortFinal := false
  sortSindx := false
  sortIncr := false
  ignoreRes := false
  normalize := true
  effective := false

theorem bsort_discards_iff_three :
    PassOk twoIndices firstSort ([9, 0, 1].map (okHost · 0))
      (bsort twoIndices firstSort ([9, 0, 1].map (okHost · 0))) := by
  refine (bsort_discards_iff twoIndices firstSort _ rfl (by simp [okHost, okStatus]; decide)
    rfl).mpr ?_
  rintro best ⟨⟨h, mem, rfl⟩, better⟩
  have zero : loadIndexValue twoIndices firstSort h = 0 := by
    simp only [map_cons, map_nil, mem_cons, not_mem_nil, or_false] at mem
    rcases mem with rfl | rfl | rfl
    · exact absurd (better (okHost 0 0) (by simp)) (by decide)
    · rfl
    · exact absurd (better (okHost 0 0) (by simp)) (by decide)
  rw [zero]
  decide +kernel

/-- The five passes leave the last two hosts as they are, the near one behind the far one. -/
theorem nearHost_discarded :
    ¬ PassOk twoIndices firstSort ([10, 1, 0, 0, 0, 0, 0].map (okHost · 0))
      (bsort twoIndices firstSort ([10, 1, 0, 0, 0, 0, 0].map (okHost · 0))) := by
  intro ok
  have best : IsBest twoIndices firstSort ([10, 1, 0, 0, 0, 0, 0].map (okHost · 0)) 0 :=
    ⟨⟨okHost 0 0, by simp, rfl⟩, by decide⟩
  have near : ∃ h ∈ (bsort twoIndices firstSort ([10, 1, 0, 0, 0, 0, 0].map (okHost · 0))).1.drop
      (bsort twoIndices firstSort ([10, 1, 0, 0, 0, 0, 0].map (okHost · 0))).2,
        ¬ firstSort.threshold ≤ |loadIndexValue twoIndices firstSort h - 0| := by
    decide +kernel
  obtain ⟨h, mem, less⟩ := near
  exact less (ok.far 0 best h mem)

end Sorting

/-! ### The choice of the instances -/

/-- A host after the choice, with its instances and what is left of them. -/
structure Chosen where
  host : HostNode
  use : Nat
  availHigh : Nat

section Select

variable (tables : Tables) (ignoreRes : Bool)

/-- The slot behind the last index takes the instances and the place in the list. -/
def scored (ncandidates i : Nat) (h : HostNode) : HostNode :=
  let slot : Rat := h.availHigh + ((ncandidates - i : Nat) : Rat) / ncandidates
  { h with loadIndex := Function.update h.loadIndex tables.numIndx slot }

/-- The loop that looks for a host with more instances than are needed. -/
def oneHost (ncandidates needed : Nat) : Nat → List HostNode → Option (List Chosen)
  | _, [] => none
  | i, h :: rest =>
    if needed < h.availHigh then
      some (⟨h, needed, h.availHigh⟩ :: rest.map fun h => ⟨h, 0, h.availHigh⟩)
    else (oneHost ncandidates needed (i + 1) rest).map
      (⟨scored tables ncandidates i h, 0, h.availHigh⟩ :: ·)

def localArgs (ncandidates : Nat) : SortArgs where
  lidx := tables.numIndx
  nec := 0
  numHosts := ncandidates
  threshold := 0
  sortCut := false
  sortFinal := true
  sortSindx := true
  sortIncr := true
  ignoreRes := ignoreRes
  normalize := true
  effective := false

/-- The hosts as the sort leaves them. -/
def localOrder (candidates : List HostNode) : List HostNode :=
  (bsort tables (localArgs tables ignoreRes candidates.length)
    (candidates.mapIdx (scored tables candidates.length))).1

def lowFirst (ncandidates : Nat) : Nat → Nat → List HostNode → List Chosen
  | _, _, [] => []
  | i, needed, h :: rest =>
    let avail := if needed ≤ h.availHigh ∧ i < ncandidates / 2 then h.availHigh else h.availLow
    ⟨h, min needed avail, h.availHigh⟩ ::
      lowFirst ncandidates (i + 1) (needed - min needed avail) rest

def highNext : Nat → List Chosen → List Chosen
  | _, [] => []
  | needed, c :: rest =>
    let additional := min needed (c.host.availHigh - c.host.availLow)
    ⟨c.host, c.use + additional, c.availHigh - additional⟩ ::
      highNext (needed - additional) rest

def selectBestInstances (candidates : List HostNode) (needed : Nat) (locality : Bool) :
    List Chosen :=
  if locality then
    match oneHost tables candidates.length needed 0 candidates with
    | some chosen => chosen
    | none =>
      let order := localOrder tables ignoreRes candidates
      order.zipWith (fun h use => ⟨h, use, h.availHigh⟩)
        (fill needed (order.map HostNode.availHigh))
  else
    let chosen := lowFirst candidates.length 0 needed candidates
    highNext (needed - (chosen.map (·.use)).sum) chosen

variable {tables ignoreRes} {candidates : List HostNode} {needed : Nat}

/-- What the hosts could run, with what they are to run. -/
def uses (chosen : List Chosen) : List (Nat × Nat) :=
  chosen.map fun c => (c.host.availHigh, c.use)

variable {chosen : List Chosen}

theorem oneHost_spec {n i : Nat} (eq : oneHost tables n needed i candidates = some chosen) :
    Shares needed (candidates.map HostNode.availHigh) (uses chosen) ∧ used (uses chosen) ≤ 1 ∧
      ∃ h ∈ candidates, needed < h.availHigh := by
  induction candidates generalizing i chosen with
  | nil => cases eq
  | cons h rest ih =>
    rw [oneHost] at eq
    split at eq
    case isTrue more =>
      cases eq
      refine ⟨⟨?_, ?_, ?_⟩, ?_, h, mem_cons_self, more⟩
      · simp [uses, Function.comp_def]
      · simp [uses, more.le]
      · simp [uses, Function.comp_def]
        omega
      · simp [uses, used, countP_cons, Function.comp_def]
        split <;> omega
    case isFalse less =>
      obtain ⟨later, found, rfl⟩ := Option.map_eq_some_iff.mp eq
      obtain ⟨shares, one, h', mem, more⟩ := ih found
      have total := shares.total
      have most := le_sum_of_mem (mem_map_of_mem (f := HostNode.availHigh) mem)
      refine ⟨⟨shares.sources.cons _, ?_, ?_⟩, one, h', mem_cons_of_mem h mem, more⟩
      · exact forall_mem_cons.mpr ⟨Nat.zero_le _, shares.within⟩
      · simp only [uses, map_cons, sum_cons] at total ⊢
        omega

theorem oneHost_none {n i : Nat} (eq : oneHost tables n needed i candidates = none) :
    ∀ h ∈ candidates, h.availHigh ≤ needed := by
  induction candidates generalizing i with
  | nil => intro h mem; cases mem
  | cons h rest ih =>
    rw [oneHost] at eq
    split at eq
    case isTrue => cases eq
    case isFalse less =>
      exact forall_mem_cons.mpr ⟨not_lt.mp less, ih (Option.map_eq_none_iff.mp eq)⟩

theorem uses_zipWith (order : List HostNode) (needed : Nat) :
    uses (order.zipWith (fun h use => ⟨h, use, h.availHigh⟩)
      (fill needed (order.map HostNode.availHigh))) =
    filled needed (order.map HostNode.availHigh) := by
  induction order generalizing needed with
  | nil => rfl
  | cons h order ih =>
    rw [map_cons, filled_cons, ← ih]
    rfl

/-- In the first pass either all that is needed is found, or each host runs its low number. -/
theorem lowFirst_spec (n i needed : Nat) (candidates : List HostNode) :
    (lowFirst n i needed candidates).map Chosen.host = candidates ∧
      (∀ c ∈ lowFirst n i needed candidates, c.use ≤ c.host.availHigh) ∧
      (((lowFirst n i needed candidates).map Chosen.use).sum = needed ∨
        ((lowFirst n i needed candidates).map Chosen.use).sum ≤ needed ∧
        ∀ c ∈ lowFirst n i needed candidates, c.use = c.host.availLow) := by
  induction candidates generalizing i needed with
  | nil => simp [lowFirst]
  | cons h rest ih =>
    rw [lowFirst]
    generalize eq : (if needed ≤ h.availHigh ∧ i < n / 2 then h.availHigh else h.availLow) = avail
    have least := h.low_le_high
    obtain ⟨hosts, within, sum⟩ := ih (i + 1) (needed - min needed avail)
    have most : min needed avail ≤ h.availHigh := by
      split at eq <;> omega
    refine ⟨congrArg (h :: ·) hosts, forall_mem_cons.mpr ⟨most, within⟩, ?_⟩
    rw [map_cons, sum_cons]
    dsimp only
    rcases sum with all | ⟨le, low⟩
    · omega
    · by_cases done : needed ≤ avail
      · left
        omega
      · right
        refine ⟨by omega, forall_mem_cons.mpr ⟨?_, low⟩⟩
        split at eq <;> (dsimp only; omega)

theorem highNext_zero (chosen : List Chosen) : uses (highNext 0 chosen) = uses chosen := by
  induction chosen with
  | nil => rfl
  | cons c rest ih =>
    simp only [highNext, uses, Nat.zero_min, map_cons] at ih ⊢
    rw [ih]
    rfl

theorem highNext_shares (needed : Nat) (low : ∀ c ∈ chosen, c.use = c.host.availLow) :
    Shares ((chosen.map Chosen.use).sum + needed) (chosen.map fun c => c.host.availHigh)
      (uses (highNext needed chosen)) := by
  induction chosen generalizing needed with
  | nil => exact ⟨List.Perm.refl _, by simp [highNext, uses], by simp [highNext, uses]⟩
  | cons c rest ih =>
    obtain ⟨here, low⟩ := forall_mem_cons.mp low
    have least := c.host.low_le_high
    have later := ih (needed - min needed (c.host.availHigh - c.host.availLow)) low
    have total := later.total
    have lows : (rest.map Chosen.use).sum ≤ (rest.map fun c => c.host.availHigh).sum :=
      sum_le_sum fun c mem => (low c mem).trans_le c.host.low_le_high
    refine ⟨later.sources.cons _, ?_, ?_⟩
    · refine forall_mem_cons.mpr ⟨?_, later.within⟩
      dsimp only
      omega
    · simp only [highNext, uses, map_cons, sum_cons] at total ⊢
      omega

theorem plain_shares (candidates : List HostNode) (needed : Nat) :
    Shares needed (candidates.map HostNode.availHigh)
      (uses (selectBestInstances tables ignoreRes candidates needed false)) := by
  obtain ⟨hosts, within, sum⟩ := lowFirst_spec candidates.length 0 needed candidates
  rw [selectBestInstances, if_neg Bool.false_ne_true]
  dsimp only
  generalize lowFirst candidates.length 0 needed candidates = chosen at hosts within sum ⊢
  subst hosts
  rw [map_map]
  rcases sum with all | ⟨le, low⟩
  · have most : (chosen.map Chosen.use).sum ≤ (chosen.map fun c => c.host.availHigh).sum :=
      sum_le_sum within
    rw [all, Nat.sub_self, highNext_zero]
    refine ⟨?_, ?_, ?_⟩
    · exact List.Perm.of_eq (map_map ..)
    · exact forall_mem_map.mpr within
    · rw [uses, map_map]
      exact all.trans (min_eq_left (all.symm.trans_le most)).symm
  · have shares := highNext_shares (needed - (chosen.map Chosen.use).sum) low
    rwa [Nat.add_sub_cancel' le] at shares

/-- The last of the load indices. -/
def lastIndex (tables : Tables) (h : HostNode) : Rat := h.loadIndex (tables.numIndx - 1)

/-- The hosts by falling last index, hosts of one value as they were. -/
def byLastIndex (tables : Tables) (candidates : List HostNode) : List HostNode :=
  candidates.mergeSort fun h h' => -lastIndex tables h ≤ -lastIndex tables h'

/-- What a sort sees of a host, once the slot behind the indices is written. -/
theorem scored_seen (tables : Tables) (n i : Nat) (h : HostNode) :
    (scored tables n i h).status = h.status ∧ (scored tables n i h).availHigh = h.availHigh ∧
      lastIndex tables (scored tables n i h) = lastIndex tables h := by
  refine ⟨rfl, rfl, ?_⟩
  have other : tables.numIndx - 1 ≠ tables.numIndx := by
    have pos := tables.numIndx_pos
    omega
  exact Function.update_of_ne other _ _

theorem mapIdx_scored {β : Type} (tables : Tables) (n : Nat) (f : HostNode → β)
    (seen : ∀ i h, f (scored tables n i h) = f h) (candidates : List HostNode) :
    (candidates.mapIdx (scored tables n)).map f = candidates.map f := by
  refine ext_getElem (by simp) ?_
  intro i _ _
  rw [getElem_map, getElem_mapIdx, getElem_map, seen]

/-- The sort goes by the last index and not by the slot behind it. -/
theorem localOrder_caps (ignoreRes : Bool) (ok : ∀ h ∈ candidates, h.status.isOk = true) :
    (localOrder tables ignoreRes candidates).map HostNode.availHigh =
      (byLastIndex tables candidates).map HostNode.availHigh := by
  let args := localArgs tables ignoreRes candidates.length
  let both : HostNode → Rat × Nat := fun h => (lastIndex tables h, h.availHigh)
  let key : Rat × Nat → Rat := fun p => -p.1
  have okScored : ∀ h ∈ candidates.mapIdx (scored tables candidates.length),
      h.status.isOk = true := by
    intro h mem
    obtain ⟨i, lt, rfl⟩ := mem_mapIdx.mp mem
    exact ok candidates[i] (getElem_mem lt)
  have plain : ∀ h ∈ candidates.mapIdx (scored tables candidates.length),
      mkexld tables args h = 0 := fun h _ => rfl
  have keys : sortKey tables args = key ∘ both := by
    funext h
    have down : args.incr tables = false := rfl
    rw [sortKey, down, if_neg Bool.false_ne_true]
    have value : loadIndexValue tables args h = lastIndex tables h := by
      rw [loadIndexValue]
      split <;> rfl
    rw [value]
    rfl
  have sorted : StablySorted (key ∘ both) (candidates.mapIdx (scored tables candidates.length))
      (localOrder tables ignoreRes candidates) := by
    rw [← keys]
    refine passes_sorted ?_ (swaps_byKey okScored plain)
    exact Nat.le_refl _
  have here := sorted.map
  have seen : ∀ i h, both (scored tables candidates.length i h) = both h := by
    intro i h
    obtain ⟨-, caps, last⟩ := scored_seen tables candidates.length i h
    exact Prod.ext last caps
  rw [mapIdx_scored tables _ both seen] at here
  have there := (StablySorted.mergeSort (key ∘ both) candidates).map
  have eq := congrArg (List.map Prod.snd) (here.unique there)
  rwa [map_map, map_map] at eq

/-- The instances that some hosts offer together. -/
def offer (hosts : List HostNode) : Nat := (hosts.map HostNode.availHigh).sum

theorem selectBestInstances_shares (tables : Tables) (ignoreRes : Bool)
    (candidates : List HostNode) (needed : Nat) (locality : Bool) :
    Shares needed (candidates.map HostNode.availHigh)
      (uses (selectBestInstances tables ignoreRes candidates needed locality)) := by
  cases locality with
  | false => exact plain_shares candidates needed
  | true =>
    rw [selectBestInstances, if_pos rfl]
    cases found : oneHost tables candidates.length needed 0 candidates with
    | some chosen => exact (oneHost_spec found).1
    | none =>
      have same := (bsort_perm tables (localArgs tables ignoreRes candidates.length)
        (candidates.mapIdx (scored tables candidates.length))).map HostNode.availHigh
      rw [mapIdx_scored tables _ _ fun i h => (scored_seen tables _ i h).2.1] at same
      dsimp only
      rw [uses_zipWith]
      exact (filled_shares needed _).perm same

/-- The instances are given out as far as they go. With locality the fewest hosts are used iff
one has more than enough, or whenever some hosts offer what is to be given out, as many of those
with the highest last index, of the hosts that offer something, do so too. -/
theorem selectBestInstances_fewest_iff (tables : Tables) (ignoreRes : Bool)
    (candidates : List HostNode) (needed : Nat) (locality : Bool) :
    (Shares needed (candidates.map HostNode.availHigh)
        (uses (selectBestInstances tables ignoreRes candidates needed locality)) ∧
      (locality = true → (∀ h ∈ candidates, h.status.isOk = true) →
        ∀ z, Shares needed (candidates.map HostNode.availHigh) z →
          used (uses (selectBestInstances tables ignoreRes candidates needed locality)) ≤ used z)) ↔
    (locality = true → (∀ h ∈ candidates, h.status.isOk = true) →
      (∃ h ∈ candidates, needed < h.availHigh) ∨
      ∀ hosts, hosts.Sublist candidates → min needed (offer candidates) ≤ offer hosts →
        min needed (offer candidates) ≤
          offer
            (((byLastIndex tables candidates).filter (0 < ·.availHigh)).take hosts.length)) := by
  rw [and_iff_right (selectBestInstances_shares tables ignoreRes candidates needed locality)]
  refine forall_congr' fun isLocal => forall_congr' fun ok => ?_
  rw [selectBestInstances, if_pos isLocal]
  cases found : oneHost tables candidates.length needed 0 candidates with
  | some chosen =>
    obtain ⟨shares, one, more⟩ := oneHost_spec found
    refine iff_of_true (fun z other => ?_) (Or.inl more)
    have both : used z = 0 ↔ used (uses chosen) = 0 := by
      rw [used_eq_zero, used_eq_zero, shares.total, other.total]
    dsimp only
    omega
  | none =>
    have few : ¬∃ h ∈ candidates, needed < h.availHigh := by
      rintro ⟨h, mem, more⟩
      exact absurd (oneHost_none found h mem) (not_le.mpr more)
    have same : ((byLastIndex tables candidates).map HostNode.availHigh).Perm
        (candidates.map HostNode.availHigh) := (mergeSort_perm _ _).map _
    dsimp only
    rw [uses_zipWith, localOrder_caps ignoreRes ok, or_iff_right few, used_filled_least_iff same]
    have first : ∀ k, (((byLastIndex tables candidates).map HostNode.availHigh).filter
          (0 < ·)).take k =
        (((byLastIndex tables candidates).filter (0 < ·.availHigh)).take k).map
          HostNode.availHigh := by
      intro k
      rw [filter_map, ← map_take]
      rfl
    constructor
    · intro whenever hosts sub enough
      have here := whenever _ (sub.map HostNode.availHigh) enough
      rwa [length_map, first] at here
    · intro whenever some_ sub enough
      obtain ⟨hosts, inside, rfl⟩ := sublist_map_iff.mp sub
      rw [length_map, first]
      exact whenever hosts inside enough

/-- Two instances are needed; the host with one stands first by the last index. -/
theorem twoHosts_used :
    ¬ ∀ z, Shares 2 [1, 2] z → used (uses (selectBestInstances twoIndices false
      [okHost 9 1, okHost 0 2] 2 true)) ≤ used z := by
  intro fewest
  have one : Shares 2 [1, 2] [(1, 0), (2, 2)] := ⟨List.Perm.refl _, by decide, by decide⟩
  exact absurd (fewest _ one) (by decide +kernel)

end Select

end Jhlava.LimPolicy
