import Jhlava.CFloat
import Jhlava.LimMasterKept

/-! The master announcements of `announceMaster`: each call without `all` serves one slice
of the host list, and a static counter says which. -/
namespace Jhlava.Lim
open List CValues CFloat Dep

/-- The two intervals, after the check that the exchange interval is not the smaller one. -/
structure Intervals where
  exchIntvl : ℚ
  sampleIntvl : ℚ
  sample_pos : 0 < sampleIntvl
  sample_le : sampleIntvl ≤ exchIntvl

/-- A LIM that announces its master. `clPtr->numHosts` is counted when the configuration is
read: the list has more hosts than that once `addMigrantHost` has added some. -/
structure Announcer (n : Nat) where
  conf : LimConf n
  iv : Intervals
  numHosts : Nat

namespace Announcer

variable {n : Nat} (lim : Announcer n)

def periods : Int :=
  truncate ((lim.conf.hostInactivityLimit - 1 : Int) * lim.iv.exchIntvl / lim.iv.sampleIntvl)

def nextCnt (cnt : Int) : Int := if cnt + 1 > lim.periods - 1 then 0 else cnt + 1

/-- The number of hosts in a slice. -/
def announceInIntvl : Int :=
  if Int.tdiv lim.numHosts lim.periods = 0 then 1 else Int.tdiv lim.numHosts lim.periods

/-- `announceMaster` with `broadcast` set: the new `cnt` and the hosts that are sent an
announcement. A division by zero has no result. -/
def announceMaster (cnt : Int) (all : Bool) : Option (Int × List (Fin n)) :=
  if all then some (cnt, ((List.finRange n).take lim.numHosts).filter (· ≠ lim.conf.myHostPtr))
  else if lim.periods = 0 then none
  else
    let cnt := lim.nextCnt cnt
    let hostList := (List.finRange n).drop (cnt * lim.announceInIntvl).toNat
    let size := if cnt = lim.periods - 1 then (lim.numHosts : Int)
      else lim.announceInIntvl
    some (cnt, (hostList.take size.toNat).filter (· ≠ lim.conf.myHostPtr))

/-- A sequence of calls, each given by its `all`. -/
def announceRun (cnt : Int) : List Bool → Option (Int × List (Fin n))
  | [] => some (cnt, [])
  | all :: calls => do
    let call ← lim.announceMaster cnt all
    let later ← announceRun call.1 calls
    return (later.1, call.2 ++ later.2)

/-- The host inactivity limit before it is stored in a `short`. -/
def configuredLimit : Int :=
  match lim.conf.hostInactivityVal with
  | none => 5
  | some val => if !isint val || atoi val < 2 then 5 else atoi val

/-- The `periods` of the limit that the configuration asks for. -/
def configuredPeriods : Int :=
  truncate ((lim.configuredLimit - 1 : Int) * lim.iv.exchIntvl / lim.iv.sampleIntvl)

/-- How many hosts of the list a whole round goes through: a slice for each value of the
counter, but for the last one `numHosts`. A negative `periods` leaves the counter at zero. -/
def announceEnd : Int :=
  if 1 ≤ lim.periods then (lim.periods - 1) * lim.announceInIntvl + lim.numHosts
  else lim.announceInIntvl

/-- The number of values the counter takes. -/
def rounds : Int := max 1 lim.periods

/-- The value of the counter that serves a host; the last slice has all the rest. -/
def sliceOf (h : Fin n) : Int :=
  min (h / lim.announceInIntvl) (lim.rounds - 1)

/-- How many calls without `all` lead from one value of the counter to another. -/
def callsTo (cnt slice : Int) : Int :=
  if cnt < slice then slice - cnt else slice - cnt + lim.rounds

variable {lim} {cnt : Int}

theorem two_le_configuredLimit (lim : Announcer n) : 2 ≤ lim.configuredLimit := by
  unfold configuredLimit
  split
  · decide
  · split
    · decide
    · rename_i configured
      rw [Bool.or_eq_true, decide_eq_true_eq, not_or] at configured
      exact not_lt.mp configured.2

theorem hostInactivityLimit_eq (lim : Announcer n) :
    lim.conf.hostInactivityLimit = toInt16 lim.configuredLimit := by
  unfold LimConf.hostInactivityLimit readLimit configuredLimit
  cases lim.conf.hostInactivityVal with
  | none => decide
  | some val =>
    dsimp only
    split <;> rfl

theorem hostInactivityLimit_le : lim.conf.hostInactivityLimit ≤ lim.configuredLimit := by
  have asked := lim.two_le_configuredLimit
  rw [hostInactivityLimit_eq, toInt16, Int.bmod_def]
  omega

theorem periods_le : lim.periods ≤ lim.configuredPeriods := by
  have pos := lim.iv.sample_pos
  have exch : 0 ≤ lim.iv.exchIntvl := pos.le.trans lim.iv.sample_le
  have stored : ((lim.conf.hostInactivityLimit - 1 : Int) : ℚ) ≤
    (lim.configuredLimit - 1 : Int) := by
    exact_mod_cast Int.sub_le_sub_right hostInactivityLimit_le 1
  exact truncate_mono (by gcongr)

theorem configuredPeriods_pos (lim : Announcer n) :
    1 ≤ lim.configuredPeriods := by
  have pos := lim.iv.sample_pos
  have one : (1 : ℚ) ≤ (lim.configuredLimit - 1 : Int) * lim.iv.exchIntvl / lim.iv.sampleIntvl := by
    have asked := lim.two_le_configuredLimit
    have factor : (1 : ℚ) ≤ (lim.configuredLimit - 1 : Int) := by exact_mod_cast by omega
    rw [le_div_iff₀ pos, one_mul]
    exact lim.iv.sample_le.trans (le_mul_of_one_le_left (pos.le.trans lim.iv.sample_le) factor)
  rw [configuredPeriods, truncate, if_pos (by linarith)]
  exact Int.le_floor.2 (by simpa using one)

theorem mem_slice {h : Fin n} {from_ len : Nat} :
    h ∈ ((List.finRange n).drop from_).take len ↔ from_ ≤ h ∧ h < from_ + len := by
  constructor
  · intro mem
    obtain ⟨i, bound, at_⟩ := mem_iff_getElem.1 mem
    have place := congrArg Fin.val at_
    simp only [getElem_take, getElem_drop, getElem_finRange, Fin.val_cast] at place
    simp only [length_take, length_drop, length_finRange] at bound
    omega
  · rintro ⟨low, high⟩
    refine mem_iff_getElem?.2 ⟨h - from_, ?_⟩
    rw [List.getElem?_take_of_lt (by omega), List.getElem?_drop, Nat.add_sub_cancel' low]
    simp

theorem announceRun_cons {all : Bool} {calls : List Bool} {call later : Int × List (Fin n)}
    (now : lim.announceMaster cnt all = some call)
    (rest : lim.announceRun call.1 calls = some later) :
    lim.announceRun cnt (all :: calls) = some (later.1, call.2 ++ later.2) := by
  rw [announceRun, now, Option.bind_eq_bind, Option.bind_some, rest]
  rfl

theorem nextCnt_eq (lim : Announcer n) (low : 0 ≤ cnt) :
    lim.nextCnt cnt = if cnt + 1 = lim.rounds ∨ lim.rounds ≤ cnt then 0 else cnt + 1 := by
  unfold nextCnt rounds
  split_ifs <;> omega

theorem announceInIntvl_pos (pos : 1 ≤ lim.periods) :
    1 ≤ lim.announceInIntvl := by
  have nonneg : 0 ≤ Int.tdiv lim.numHosts lim.periods :=
    Int.tdiv_nonneg (Int.natCast_nonneg lim.numHosts) (by omega)
  unfold announceInIntvl
  split <;> omega

theorem nextCnt_inRange (lim : Announcer n) (low : 0 ≤ cnt) :
    0 ≤ lim.nextCnt cnt ∧ lim.nextCnt cnt < lim.rounds := by
  unfold nextCnt rounds
  split <;> omega

/-- A host that a round goes through stands in a slice of positive size. -/
theorem announceInIntvl_pos_of_reached {h : Fin n} (reached : h < lim.announceEnd) :
    1 ≤ lim.announceInIntvl := by
  by_cases pos : 1 ≤ lim.periods
  · exact announceInIntvl_pos pos
  · rw [announceEnd, if_neg pos] at reached
    omega

theorem sliceOf_nonneg {h : Fin n} (reached : h < lim.announceEnd) :
    0 ≤ lim.sliceOf h := by
  have share := announceInIntvl_pos_of_reached reached
  have some_ : 1 ≤ lim.rounds := le_max_left _ _
  exact le_min (Int.ediv_nonneg (by omega) (by omega)) (by omega)

section

variable (defined : lim.periods ≠ 0)
include defined

theorem announceMaster_slice (low : 0 ≤ cnt) :
    ∃ sent, lim.announceMaster cnt false = some (lim.nextCnt cnt, sent) ∧
      (∀ h ∈ sent, h < lim.announceEnd) ∧
      ∀ h ≠ lim.conf.myHostPtr, h < lim.announceEnd →
        lim.sliceOf h = lim.nextCnt cnt → h ∈ sent := by
  have range := lim.nextCnt_inRange low
  refine ⟨_, by rw [announceMaster, if_neg Bool.false_ne_true, if_neg defined], ?_, ?_⟩
  · intro h sent
    obtain ⟨-, before⟩ := mem_slice.1 (mem_filter.1 sent).1
    by_cases pos : 1 ≤ lim.periods
    · have size := announceInIntvl_pos pos
      have nonneg : 0 ≤ lim.nextCnt cnt * lim.announceInIntvl :=
        Int.mul_nonneg range.1 (by omega)
      rw [rounds, max_eq_right pos] at range
      rw [announceEnd, if_pos pos]
      split at before
      · rename_i last
        rw [last] at before nonneg
        omega
      · -- a slice ends where the next one begins, and the last one begins no earlier
        have next : (lim.nextCnt cnt + 1) * lim.announceInIntvl ≤
            (lim.periods - 1) * lim.announceInIntvl :=
          Int.mul_le_mul_of_nonneg_right (by omega) (by omega)
        rw [Int.add_mul] at next
        omega
    · have zero : lim.nextCnt cnt = 0 := by rw [rounds] at range; omega
      rw [announceEnd, if_neg pos]
      rw [zero, if_neg (by omega)] at before
      omega
  · intro h other reached here
    have size := announceInIntvl_pos_of_reached reached
    have floor : (h / lim.announceInIntvl : Int) * lim.announceInIntvl ≤ h :=
      Int.ediv_mul_le _ (by omega)
    have above : (h : Int) <
        (h / lim.announceInIntvl + 1) * lim.announceInIntvl :=
      Int.lt_ediv_add_one_mul_self _ (by omega)
    have start : lim.nextCnt cnt * lim.announceInIntvl ≤ h :=
      (Int.mul_le_mul_of_nonneg_right (here ▸ min_le_left _ _) (by omega)).trans floor
    refine mem_filter.2 ⟨mem_slice.2 ⟨by omega, ?_⟩, by simpa using other⟩
    split
    · rename_i last
      have pos : 1 ≤ lim.periods := by omega
      rw [announceEnd, if_pos pos, ← last] at reached
      omega
    · by_cases pos : 1 ≤ lim.periods
      · have inner : (h / lim.announceInIntvl : Int) = lim.nextCnt cnt := by
          unfold sliceOf rounds at here
          omega
        rw [inner, Int.add_mul] at above
        omega
      · rw [announceEnd, if_neg pos] at reached
        have zero : lim.nextCnt cnt = 0 := by rw [rounds] at range; omega
        rw [zero]
        omega

theorem announceRun_covers (low : 0 ≤ cnt) (high : cnt < lim.rounds) (calls : List Bool) :
    ∃ r, lim.announceRun cnt calls = some r ∧ 0 ≤ r.1 ∧ r.1 < lim.rounds ∧
      ∀ h ≠ lim.conf.myHostPtr, h < lim.announceEnd →
        lim.callsTo cnt (lim.sliceOf h) ≤ calls.count false → h ∈ r.2 := by
  induction calls generalizing cnt with
  | nil =>
    refine ⟨_, rfl, low, high, fun h _ reached few => ?_⟩
    have first := sliceOf_nonneg reached
    unfold callsTo at few
    simp only [count_nil, Nat.cast_zero] at few
    split at few <;> omega
  | cons all calls ih =>
    cases all with
    | true =>
      obtain ⟨r, later, low', high', covers⟩ := ih low high
      refine ⟨_, announceRun_cons (if_pos rfl) later, low', high', ?_⟩
      intro h other reached few
      exact mem_append_right _ (covers h other reached (by simpa using few))
    | false =>
      obtain ⟨sent, call, -, served⟩ := announceMaster_slice defined low
      have range := lim.nextCnt_inRange low
      obtain ⟨r, later, low', high', covers⟩ := ih range.1 range.2
      refine ⟨_, announceRun_cons call later, low', high', ?_⟩
      intro h other reached few
      by_cases here : lim.sliceOf h = lim.nextCnt cnt
      · exact mem_append_left _ (served h other reached here)
      · refine mem_append_right _ (covers h other reached ?_)
        rw [count_cons_self] at few
        have first := sliceOf_nonneg reached
        have last : lim.sliceOf h ≤ lim.rounds - 1 := min_le_right _ _
        have next := lim.nextCnt_eq low
        unfold callsTo at *
        split_ifs at * <;> omega

/-- Calls without `all` go through no host behind the end of a round. -/
theorem announceRun_below (low : 0 ≤ cnt) (calls : Nat) {r : Int × List (Fin n)}
    (ran : lim.announceRun cnt (List.replicate calls false) = some r) :
    ∀ h ∈ r.2, h < lim.announceEnd := by
  induction calls generalizing cnt r with
  | zero =>
    obtain rfl : (cnt, []) = r := Option.some.inj ran
    intro h none_
    cases none_
  | succ calls ih =>
    obtain ⟨sent, call, below, -⟩ := announceMaster_slice defined low
    have range := lim.nextCnt_inRange low
    obtain ⟨rest, later, -⟩ := announceRun_covers defined range.1 range.2 (replicate calls false)
    rw [replicate_succ, announceRun_cons call later] at ran
    obtain rfl := Option.some.inj ran
    intro h mem
    exact (mem_append.1 mem).elim (below h) (ih range.1 later h)

end

end Announcer

/-- One host in the file, two added since: they stand in front of it. -/
def twoMigrants : LimConf 3 where
  clName := "c".toList
  hostList := ![⟨"hostc".toList, 2⟩, ⟨"hostb".toList, 1⟩, ⟨"hosta".toList, 0⟩]
  myHostPtr := 2
  hostInactivityVal := some "2".toList
  masterInactivityVal := none
  retryVal := none
  computeOnly := false
  linux := true

def equalIntervals : Intervals := ⟨15, 15, by norm_num, by norm_num⟩

def oneConfigured : Announcer 3 := ⟨twoMigrants, equalIntervals, 1⟩

/-- A limit that the `short` does not hold. -/
def longLimit : Announcer 3 :=
  ⟨{ twoMigrants with hostInactivityVal := some "65537".toList }, equalIntervals, 3⟩

theorem periods_oneConfigured : oneConfigured.periods = 1 := by
  have limit : oneConfigured.conf.hostInactivityLimit = 2 := by decide
  rw [Announcer.periods, limit]
  norm_num [truncate, oneConfigured, equalIntervals]

theorem periods_longLimit : longLimit.periods = 0 := by
  have limit : longLimit.conf.hostInactivityLimit = 1 := by decide
  rw [Announcer.periods, limit]
  norm_num [truncate]

end Jhlava.Lim
