import Jhlava.MbdPlain

/-! `dispatchAJob` of mbd.policy.c: the hosts are counted once, and each host
that refuses the job is taken off the list before the next attempt. -/
namespace Jhlava.Mbd
open List

/-- The answer of `dispatch_it`; `noFile` when the reason has `PEND_JOB_NO_FILE`. -/
inductive Answer where
  | accepted
  | refused
  | noFile
  deriving DecidableEq, Repr

/-- One call of `dispatch_it`, and `STAY_TOO_LONG` after it. -/
structure Attempt where
  answer : Answer
  tooLong : Bool
  deriving DecidableEq, Repr

/-- `enum dispatchAJobReturnCode`, with the hosts of the job. -/
inductive Disp where
  | ok (hPtr : List Nat)
  | noJob
  | fail
  | timeOut
  | reserve (hPtr : List Nat)
  deriving DecidableEq, Repr

/-- What a call reads besides the candidates. `delayed` when the schedule delay
of the queue is not over. -/
structure DispCall where
  j : PendJob
  now : Int
  minProcLimit : Int
  delayed : Bool
  dontTryNextCandHost : Bool
  enoughMaxUsableSlots : Bool
  attempts : Nat → Attempt

/-- The host array that `allocHosts` makes of the exec candidates. -/
def execHosts (xs : List ExecCand) : List Nat :=
  xs.flatMap fun x => List.replicate x.numSlots.toNat (x.hData.getD 0)

def DispCall.needs (c : DispCall) : Int := max c.j.numProcessors c.minProcLimit

def notEnoughSlot (cf : Config) (c : DispCall) (p : Procs) : Disp :=
  if (cf.queue c.j.jp.qPtr).slotHoldTime ≤ 0 then .noJob
  else if c.enoughMaxUsableSlots ∧ p.numEligProc > 0 then .reserve (execHosts p.execCandPtr)
  else .noJob

/-- One round of the loop; `none` when the next host is to be tried. -/
def tryCands (cf : Config) (c : DispCall) (k : Nat) (sl : Slots) : Option Disp :=
  let p := getNumProcs cf c.now c.j sl
  if p.numAvailEligProc < c.needs then some (notEnoughSlot cf c p)
  else if p.numEligProc ≤ 0 ∨ (execHosts p.execCandPtr).length < c.j.numProcessors then some .noJob
  else
    match (c.attempts k).answer with
    | .accepted => some (.ok (execHosts p.execCandPtr))
    | .noFile => some .fail
    | .refused =>
      if c.dontTryNextCandHost ∨ sl.candPtr.tail = [] then some .fail
      else if (c.attempts k).tooLong then some .timeOut
      else none

/-- The loop of `dispatchAJob`, `k` attempts made so far. -/
def dispatchLoop (cf : Config) (c : DispCall) (numSlots numAvailSlots : Nat) :
    Nat → List Cand → Disp
  | k, [] => (tryCands cf c k ⟨numSlots, numAvailSlots, []⟩).getD .fail
  | k, cand :: cands =>
    match tryCands cf c k ⟨numSlots, numAvailSlots, cand :: cands⟩ with
    | some ret => ret
    | none => dispatchLoop cf c numSlots numAvailSlots (k + 1) cands

def dispatchAJob (cf : Config) (c : DispCall) (cands : List Cand) : Disp :=
  if c.delayed then .noJob
  else
    let sl := getNumSlots c.j cands
    dispatchLoop cf c sl.numSlots sl.numAvailSlots 0 sl.candPtr

/-! The slots a job for one host finds -/

variable {hosts : List Nat} {n : Nat} {t : Int}

section Found

variable {cf : Config} {l : Limits} {cands : List Cand}

theorem takeAvail_total (cands : List Cand) (start : t ≤ min l.numAvailSlots l.maxNumProcessors) :
    (takeAvail l t cands).1 = min (min l.numAvailSlots l.maxNumProcessors)
      (t + availSum cands) := by
  induction cands generalizing t with
  | nil =>
    simp only [takeAvail, availSum, map_nil, sum_nil, Nat.cast_zero, Int.add_zero]
    omega
  | cons c cs ih =>
    have sum : (availSum (c :: cs) : Int) = c.numAvailSlots + availSum cs := by simp [availSum]
    rw [takeAvail]
    split
    · rw [ih (by omega)]
      omega
    · omega

theorem execHosts_length {xs : List ExecCand} (h : Beside TakenOn cands xs) :
    ((execHosts xs).length : Int) = execSum xs := by
  have nonneg : ∀ x ∈ xs, 0 ≤ x.numSlots := by
    intro x hx
    obtain ⟨_, _, taken⟩ := h.exists_cand hx
    exact taken.nonneg
  clear h
  induction xs with
  | nil => rfl
  | cons x xs ih =>
    have first := nonneg x (by simp)
    have rest := ih fun x hx => nonneg x (by simp [hx])
    simp only [execHosts, execSum, flatMap_cons, length_append, length_replicate,
      map_cons, sum_cons] at rest ⊢
    omega

theorem getBackfillSlotsOnExecCandHost_hosts {xs : List ExecCand} {R : Cand → ExecCand → Prop}
    (h : Beside R cands xs) :
    execHosts (getBackfillSlotsOnExecCandHost cands xs) = execHosts xs := by
  induction cands generalizing xs with
  | nil => cases xs <;> simp_all [Beside, getBackfillSlotsOnExecCandHost]
  | cons c cs ih =>
    cases xs with
    | nil => rfl
    | cons x xs =>
      have rest := ih h.2
      simp only [getBackfillSlotsOnExecCandHost, execHosts] at rest ⊢
      rw [zipWith_cons_cons, flatMap_cons, rest]
      cases c.backfilleeList with
      | none => rfl
      | some bs => cases bs <;> rfl

def foundAvail (j : PendJob) (sl : Slots) : Int :=
  min (min (sl.numAvailSlots : Int) j.maxNumProcessors) (availSum sl.candPtr)

def foundHosts (j : PendJob) (sl : Slots) : List Nat :=
  execHosts (takeAvail (limitsOf j sl) 0 sl.candPtr).2

variable {j : PendJob} {sl : Slots}

theorem plainProcs_foundAvail (j : PendJob) (sl : Slots) :
    (plainProcs (limitsOf j sl) sl.candPtr).numAvailEligProc = foundAvail j sl := by
  rw [plainProcs_avail, takeAvail_total _ (by simp only [limitsOf]; omega)]
  simp only [limitsOf, foundAvail, Int.zero_add]

theorem foundHosts_length (j : PendJob) (sl : Slots) :
    ((foundHosts j sl).length : Int) = foundAvail j sl := by
  have sum := takeAvail_sum (l := limitsOf j sl) (t := 0) sl.candPtr
  rw [foundHosts, execHosts_length (takeAvail_beside _), ← plainProcs_foundAvail, plainProcs_avail]
  omega

theorem placedByBackfill_eq_false (one : allInOne j = true) : placedByBackfill cf j = false := by
  simp [placedByBackfill, one]

theorem doBackfill_enough {p : Procs} (enough : l.numProcessors ≤ p.numEligProc) :
    doBackfill l cands p = p :=
  if_pos enough

theorem getNumProcs_enough (cf : Config) (now : Int) (one : allInOne j = true)
    (enough : (j.numProcessors : Int) ≤ foundAvail j sl) :
    (getNumProcs cf now j sl).numAvailEligProc = foundAvail j sl ∧
    (getNumProcs cf now j sl).numEligProc = foundAvail j sl ∧
    execHosts (getNumProcs cf now j sl).execCandPtr = foundHosts j sl := by
  have found := plainProcs_foundAvail j sl
  have plain : plainProcs (limitsOf j sl) sl.candPtr =
      ⟨foundAvail j sl, foundAvail j sl, (takeAvail (limitsOf j sl) 0 sl.candPtr).2⟩ := by
    rw [plainProcs_enough (by rw [found]; exact enough), ← plainProcs_avail, found]
  rw [getNumProcs, placedByBackfill_eq_false one, if_neg (by simp), plain]
  split
  · rw [doBackfill_enough (by exact enough)]
    exact ⟨rfl, rfl, getBackfillSlotsOnExecCandHost_hosts (takeAvail_beside _)⟩
  · exact ⟨rfl, rfl, rfl⟩

theorem getNumProcs_avail_le (cf : Config) (now : Int) (sl : Slots) (one : allInOne j = true) :
    (getNumProcs cf now j sl).numAvailEligProc ≤ foundAvail j sl := by
  rw [getNumProcs, placedByBackfill_eq_false one, if_neg (by simp), ← plainProcs_foundAvail]
  split
  · exact doBackfill_avail _ _ _
  · exact Int.le_refl _

end Found

/-! One host or several -/

def FirstCovers (wanted : Nat) (cands : List Cand) : Prop :=
  match cands.filter (0 < ·.numAvailSlots) with
  | c :: _ :: _ => wanted ≤ c.numAvailSlots
  | _ => True

def OneHost (hosts : List Nat) : Prop := ∃ h, ∀ x ∈ hosts, x = h

section Hosts

variable {l : Limits} {cands : List Cand}

theorem execHosts_cons (x : ExecCand) (xs : List ExecCand) :
    execHosts (x :: xs) = List.replicate x.numSlots.toNat (x.hData.getD 0) ++ execHosts xs := rfl

theorem takeAvail_mem {h : Nat} (mem : h ∈ execHosts (takeAvail l t cands).2) :
    ∃ c ∈ cands, c.hData = h := by
  obtain ⟨x, hx, mem⟩ := mem_flatMap.mp mem
  obtain ⟨c, hc, taken⟩ := (takeAvail_beside cands).exists_cand hx
  refine ⟨c, hc, ?_⟩
  rw [eq_of_mem_replicate mem, taken.host, Option.getD_some]

theorem takeAvail_hosts_nil (cands : List Cand)
    (start : t ≤ min l.numAvailSlots l.maxNumProcessors) :
    execHosts (takeAvail l t cands).2 = [] ↔
      min l.numAvailSlots l.maxNumProcessors ≤ t ∨ availSum cands = 0 := by
  induction cands generalizing t with
  | nil => simp [takeAvail, execHosts, availSum]
  | cons c cs ih =>
    have sum : availSum (c :: cs) = c.numAvailSlots + availSum cs := by simp [availSum]
    rw [takeAvail]
    split
    · rw [execHosts_cons, append_eq_nil_iff, ih (by omega), replicate_eq_nil_iff]
      simp only
      omega
    · simp only [execHosts, flatMap_nil, true_iff]
      omega

theorem availSum_eq_zero : availSum cands = 0 ↔ cands.filter (0 < ·.numAvailSlots) = [] := by
  simp [availSum, sum_eq_zero_iff, filter_eq_nil_iff]

theorem oneHost_append_iff {h : Nat} (pos : 0 < n) (others : ∀ x ∈ hosts, x ≠ h) :
    OneHost (List.replicate n h ++ hosts) ↔ hosts = [] := by
  constructor
  · rintro ⟨y, same⟩
    have first : h = y := same h (by simp; omega)
    refine eq_nil_iff_forall_not_mem.mpr fun x hx => others x hx ?_
    rw [first]
    exact same x (by simp [hx])
  · rintro rfl
    refine ⟨h, fun x hx => ?_⟩
    rw [append_nil] at hx
    exact eq_of_mem_replicate hx

theorem takeAvail_oneHost_iff (nodup : (cands.map (·.hData)).Nodup)
    {wanted : Nat} (pos : 0 < wanted) (goal : min l.numAvailSlots l.maxNumProcessors = wanted) :
    OneHost (execHosts (takeAvail l 0 cands).2) ↔ FirstCovers wanted cands := by
  induction cands with
  | nil => simp [takeAvail, execHosts, OneHost, FirstCovers]
  | cons c cs ih =>
    obtain ⟨other, rest⟩ := nodup_cons.mp nodup
    rw [takeAvail, if_pos (by omega), execHosts_cons]
    by_cases none : c.numAvailSlots = 0
    · have zero : min (min (c.numAvailSlots : Int) (l.maxNumProcessors - 0))
          (l.numAvailSlots - 0) = 0 := by omega
      simp only [zero, Int.add_zero, Int.toNat_zero, replicate_zero, nil_append]
      rw [ih rest, FirstCovers, FirstCovers, filter_cons_of_neg (by simp [none])]
    · have last : min (min (c.numAvailSlots : Int) (l.maxNumProcessors - 0))
          (l.numAvailSlots - 0) = min (c.numAvailSlots : Int) wanted := by omega
      have nil := takeAvail_hosts_nil (l := l) (t := min (c.numAvailSlots : Int) wanted) cs
        (by omega)
      simp only [last, Int.zero_add, Option.getD_some]
      have others : ∀ h ∈ execHosts (takeAvail l (min (c.numAvailSlots : Int) wanted) cs).2,
          h ≠ c.hData := by
        intro h mem same
        obtain ⟨d, hd, rfl⟩ := takeAvail_mem mem
        exact other (mem_map.mpr ⟨d, hd, same⟩)
      rw [oneHost_append_iff (by omega) others, nil, goal, availSum_eq_zero, FirstCovers,
        filter_cons_of_pos (by simpa using Nat.pos_of_ne_zero none)]
      cases cs.filter (0 < ·.numAvailSlots) <;> simp

end Hosts

/-! The loop -/

section Loop

variable {cf : Config} {c : DispCall} (one : allInOne c.j = true)
include one

theorem tryCands_eq (k : Nat) (sl : Slots) :
    tryCands cf c k sl =
      if foundAvail c.j sl < c.needs then
        some (notEnoughSlot cf c (getNumProcs cf c.now c.j sl))
      else
        match (c.attempts k).answer with
        | .accepted => some (.ok (foundHosts c.j sl))
        | .noFile => some .fail
        | .refused =>
          if c.dontTryNextCandHost ∨ sl.candPtr.tail = [] then some .fail
          else if (c.attempts k).tooLong then some .timeOut
          else none := by
  have pos : 0 < c.j.numProcessors := c.j.wants
  have le := getNumProcs_avail_le cf c.now sl one
  rw [tryCands]
  by_cases short : foundAvail c.j sl < c.needs
  · rw [if_pos (by omega), if_pos short]
  · have enough : (c.j.numProcessors : Int) ≤ foundAvail c.j sl := by
      simp only [DispCall.needs] at short
      omega
    obtain ⟨avail, elig, hosts⟩ := getNumProcs_enough cf c.now one enough
    have length : ¬(foundAvail c.j sl ≤ 0 ∨ (foundHosts c.j sl).length < c.j.numProcessors) := by
      have := foundHosts_length c.j sl
      omega
    simp only [avail, elig, hosts, if_neg short, if_neg length]

/-- The loop starts the job in the round after `n` refusals. -/
structure StartsAfter (c : DispCall) (sl : Slots) (k n : Nat) : Prop where
  refused : ∀ i < n, (c.attempts (k + i)).answer = .refused ∧ (c.attempts (k + i)).tooLong = false
  accepted : (c.attempts (k + n)).answer = .accepted
  tries : 0 < n → c.dontTryNextCandHost = false
  enough : c.needs ≤ foundAvail c.j { sl with candPtr := sl.candPtr.drop n }

omit one in
theorem foundAvail_drop (j : PendJob) (sl : Slots) (n : Nat) :
    foundAvail j { sl with candPtr := sl.candPtr.drop n } ≤ foundAvail j sl := by
  have sum : availSum (sl.candPtr.drop n) ≤ availSum sl.candPtr := by
    simp only [availSum, map_drop]
    exact List.Sublist.sum_le_sum (drop_sublist _ _) fun _ _ => Nat.zero_le _
  simp only [foundAvail]
  omega

omit one in
theorem foundAvail_nil (c : DispCall) (numSlots numAvailSlots : Nat) :
    foundAvail c.j ⟨numSlots, numAvailSlots, []⟩ < c.needs := by
  have pos : 0 < c.j.numProcessors := c.j.wants
  simp only [foundAvail, availSum, map_nil, sum_nil, Nat.cast_zero, DispCall.needs]
  omega

omit one in
theorem notEnoughSlot_ne_ok (cf : Config) (c : DispCall) (p : Procs) (hosts : List Nat) :
    notEnoughSlot cf c p ≠ .ok hosts := by
  rw [notEnoughSlot]
  split
  · simp
  · split <;> simp

variable {cands : List Cand} {k : Nat}

omit one in
theorem StartsAfter.found {sl : Slots} (h : StartsAfter c sl k n) :
    c.needs ≤ foundAvail c.j sl :=
  h.enough.trans (foundAvail_drop c.j sl n)

omit one in
theorem startsAfter_zero_iff {sl : Slots} :
    StartsAfter c sl k 0 ↔ (c.attempts k).answer = .accepted ∧ c.needs ≤ foundAvail c.j sl :=
  ⟨fun h => ⟨h.accepted, h.enough⟩, fun h => ⟨by simp, h.1, by simp, h.2⟩⟩

omit one in
theorem startsAfter_succ_iff {numSlots numAvailSlots : Nat} {cand : Cand} :
    StartsAfter c ⟨numSlots, numAvailSlots, cand :: cands⟩ k (n + 1) ↔
      ((c.attempts k).answer = .refused ∧ (c.attempts k).tooLong = false) ∧
        c.dontTryNextCandHost = false ∧
        StartsAfter c ⟨numSlots, numAvailSlots, cands⟩ (k + 1) n := by
  have shift : ∀ i, k + (i + 1) = k + 1 + i := by omega
  constructor
  · intro h
    refine ⟨h.refused 0 (by omega), h.tries (by omega), ?_, ?_, fun _ => h.tries (by omega),
      h.enough⟩
    · intro i hi
      rw [← shift]
      exact h.refused (i + 1) (by omega)
    · rw [← shift]
      exact h.accepted
  · rintro ⟨first, tries, h⟩
    refine ⟨?_, ?_, fun _ => tries, h.enough⟩
    · intro i hi
      cases i with
      | zero => exact first
      | succ i =>
        rw [shift]
        exact h.refused i (by omega)
    · rw [shift]
      exact h.accepted

theorem dispatchLoop_ok_iff {numSlots numAvailSlots : Nat} :
    dispatchLoop cf c numSlots numAvailSlots k cands = .ok hosts ↔
      ∃ n, StartsAfter c ⟨numSlots, numAvailSlots, cands⟩ k n ∧
        hosts = foundHosts c.j ⟨numSlots, numAvailSlots, cands.drop n⟩ := by
  induction cands generalizing k with
  | nil =>
    have short := foundAvail_nil c numSlots numAvailSlots
    rw [dispatchLoop, tryCands_eq one, if_pos short]
    refine iff_of_false (notEnoughSlot_ne_ok _ _ _ _) ?_
    rintro ⟨n, starts, _⟩
    exact absurd starts.found (Int.not_le.mpr short)
  | cons cand cands ih =>
    rw [dispatchLoop, tryCands_eq one]
    by_cases short : foundAvail c.j ⟨numSlots, numAvailSlots, cand :: cands⟩ < c.needs
    · rw [if_pos short]
      refine iff_of_false (notEnoughSlot_ne_ok _ _ _ _) ?_
      rintro ⟨n, starts, _⟩
      exact absurd starts.found (Int.not_le.mpr short)
    rw [if_neg short, ← Nat.or_exists_add_one]
    simp only [startsAfter_zero_iff, startsAfter_succ_iff, drop_zero, drop_succ_cons]
    cases answer : (c.attempts k).answer with
    | accepted =>
      constructor
      · rintro ⟨⟩
        exact .inl ⟨⟨rfl, Int.not_lt.mp short⟩, rfl⟩
      · rintro (⟨_, rfl⟩ | ⟨_, ⟨⟨refused, _⟩, _⟩, _⟩)
        · rfl
        · cases refused
    | noFile => simp
    | refused =>
      by_cases last : c.dontTryNextCandHost = true ∨ cands = []
      · rw [tail_cons, if_pos last]
        refine iff_of_false (by simp) ?_
        rintro (⟨⟨accepted, _⟩, _⟩ | ⟨n, ⟨_, tries, starts⟩, _⟩)
        · cases accepted
        · rcases last with stop | rfl
          · exact absurd stop (by simp [tries])
          · exact absurd starts.found (Int.not_le.mpr (foundAvail_nil c _ _))
      rw [tail_cons, if_neg last]
      cases late : (c.attempts k).tooLong with
      | true => simp
      | false => simp [ih, not_or.mp last]

theorem dispatchAJob_ok_iff :
    dispatchAJob cf c cands = .ok hosts ↔
      c.delayed = false ∧ ∃ n, StartsAfter c (getNumSlots c.j cands) 0 n ∧
        hosts = foundHosts c.j
          { getNumSlots c.j cands with candPtr := (getNumSlots c.j cands).candPtr.drop n } := by
  rw [dispatchAJob]
  cases c.delayed with
  | true => simp
  | false => simp [dispatchLoop_ok_iff one]

end Loop

/-! The order of the hosts -/

theorem countCand_hosts (j : PendJob) (sl : Slots) (cand : Cand) :
    ((countCand j sl cand).candPtr.map (·.hData)).Perm
      (sl.candPtr.map (·.hData) ++ [cand.hData]) := by
  have front : (cand.hData :: sl.candPtr.map (·.hData)).Perm
      (sl.candPtr.map (·.hData) ++ [cand.hData]) := by
    rw [← singleton_append]
    exact perm_append_comm
  have host : (capCand j cand).hData = cand.hData := rfl
  rw [countCand]
  split
  · split
    · rw [map_cons]
      exact front
    · rw [map_append, map_singleton, host]
  · rw [map_append, map_singleton, host]

theorem getNumSlots_hosts (j : PendJob) (cands : List Cand) :
    ((getNumSlots j cands).candPtr.map (·.hData)).Perm (cands.map (·.hData)) := by
  have run : ∀ sl : Slots, ((cands.foldl (countCand j) sl).candPtr.map (·.hData)).Perm
      (sl.candPtr.map (·.hData) ++ cands.map (·.hData)) := by
    induction cands with
    | nil => intro sl; simp
    | cons c cs ih =>
      intro sl
      refine (ih _).trans ?_
      rw [map_cons, append_cons]
      exact (countCand_hosts j sl c).append_right _
  exact run ⟨0, 0, []⟩

/-- A job for one host is started on one host just when, after the refusals
before its start, the first host that has slots left has all that it can use. -/
theorem dispatchAJob_oneHost_iff (cf : Config) (c : DispCall) (cands : List Cand)
    (one : allInOne c.j = true) (distinct : (cands.map (·.hData)).Nodup) :
    (∀ hosts, dispatchAJob cf c cands = .ok hosts → OneHost hosts) ↔
      ∀ n, c.delayed = false → StartsAfter c (getNumSlots c.j cands) 0 n →
        FirstCovers (min (getNumSlots c.j cands).numAvailSlots c.j.maxNumProcessors)
          ((getNumSlots c.j cands).candPtr.drop n) := by
  have nodup := (getNumSlots_hosts c.j cands).nodup_iff.mpr distinct
  simp only [dispatchAJob_ok_iff one]
  revert nodup
  generalize getNumSlots c.j cands = sl
  intro nodup
  have each : ∀ n, StartsAfter c sl 0 n →
      (OneHost (foundHosts c.j { sl with candPtr := sl.candPtr.drop n }) ↔
        FirstCovers (min sl.numAvailSlots c.j.maxNumProcessors) (sl.candPtr.drop n)) := by
    intro n starts
    have enough := starts.enough
    have pos : 0 < c.j.numProcessors := c.j.wants
    simp only [DispCall.needs, foundAvail] at enough
    apply takeAvail_oneHost_iff
    · rw [map_drop]
      exact nodup.sublist (drop_sublist _ _)
    · omega
    · simp only [limitsOf]
      omega
  constructor
  · intro h n now starts
    exact (each n starts).mp (h _ ⟨now, n, starts, rfl⟩)
  · rintro h _ ⟨now, n, starts, rfl⟩
    exact (each n starts).mpr (h n now starts)

def fourOnOneHost : PendJob where
  jp := { pendingJob 1 with
    jobBill := { (pendingJob 1).jobBill with numProcessors := 4, maxNumProcessors := 4 } }
  resValPtr := some ⟨1, none⟩
  qResValPtr := none
  askedPtr := []
  qAskedPtr := []
  numSlots := 4
  numAvailSlots := 4
  wants := by decide
  wants_le := by decide
  avail_le := by decide

def fourCall (attempts : Nat → Attempt) : DispCall where
  j := fourOnOneHost
  now := 0
  minProcLimit := 0
  delayed := false
  dontTryNextCandHost := false
  enoughMaxUsableSlots := true
  attempts := attempts

theorem dispatchAJob_oneHost_iff_accepted :
    dispatchAJob oneSlotConf (fourCall fun _ => ⟨.accepted, false⟩)
        [freeCand 0 2 2, freeCand 1 4 4] = .ok [1, 1, 1, 1] ∧
      ∀ hosts, dispatchAJob oneSlotConf (fourCall fun _ => ⟨.accepted, false⟩)
        [freeCand 0 2 2, freeCand 1 4 4] = .ok hosts → OneHost hosts := by
  refine ⟨by decide +kernel, ?_⟩
  refine (dispatchAJob_oneHost_iff _ _ _ (by decide) (by decide)).mpr ?_
  intro n _ starts
  cases n with
  | zero => exact Nat.le_refl 4
  | succ n => exact absurd (starts.refused 0 (by omega)).1 (by decide)

/-- The host chosen refuses the job, and it is started on two others. -/
theorem fourOnOneHost_onTwoHosts :
    allInOne fourOnOneHost = true ∧
      dispatchAJob oneSlotConf
        (fourCall fun k => if k = 0 then ⟨.refused, false⟩ else ⟨.accepted, false⟩)
        [freeCand 0 4 4, freeCand 1 2 2, freeCand 2 2 2] = .ok [1, 1, 2, 2] := by
  decide +kernel

end Jhlava.Mbd
