import Mathlib.Data.Fin.VecNotation
import Jhlava.LimMaster

/-! A LIM that probes a master it still knows takes the previous master for the one that
has answered. The limits decide whether it comes to that. -/
namespace Jhlava.Lim
open TransitionRun Option

variable {n : Nat} (conf : LimConf n) (s : Cluster n)

/-! ### What is asked of the master -/

/-- The three fields agree with each other. -/
structure Consistent : Prop where
  known : s.masterKnown = true → s.masterPtr ≠ none
  mine : s.masterMe = true → s.masterKnown = true ∧ s.masterPtr = some conf.myHostPtr

def ProbeKept : Prop :=
  ∀ connects, ∀ r ∈ sendLoad conf s connects, ∀ hPtr ∈ r.2, r.1.masterPtr = some hPtr

def Reachable : Prop := ∃ events, run (limStep conf) (some (limStart conf)) events = some s

def Acceptable (hPtr : Fin n) : Prop :=
  ∃ hostName, equalHost (conf.hostList conf.myHostPtr).hostName hostName = false ∧
    findHostbyList conf hostName = some hPtr ∧
    (conf.linux = true → conf.hostNo hPtr < conf.myHostNo)

/-- The limits let the LIM try to take over before it has forgotten the master. -/
structure ProbesKnown : Prop where
  takesOver : conf.computeOnly = false
  retries : 0 < conf.retryLimit
  remembers : 0 < conf.hostInactivityLimit + conf.retryLimit
  early : conf.myHostNo * conf.masterInactivityLimit < conf.retryLimit
  accepts : ∃ hPtr, Acceptable conf hPtr

/-! ### What a step can do -/

variable {conf s}

variable {connects : Bool} {hPtr : Fin n} {s' : Cluster n}

theorem acceptAnnounce_cases (result : acceptAnnounce conf s hPtr = some s') :
    s' = s ∨ s' = newMaster s hPtr ∧ (conf.linux = true → conf.hostNo hPtr < conf.myHostNo) := by
  unfold acceptAnnounce at result
  split_ifs at result with accepted
  · refine .inr ⟨(Option.some.inj result).symm, fun linux => ?_⟩
    simpa [linux] using accepted
  · obtain ⟨_, -, same⟩ := bind_eq_some_iff.1 result
    exact .inl (Option.some.inj same).symm
  · exact .inl (Option.some.inj result).symm

variable {masterReg : Announcement}

theorem masterRegister_cases (result : masterRegister conf s masterReg = some s') :
    s' = s ∨ s' = { s with masterInactivityCount := 0 } ∨
      ∃ hPtr, Acceptable conf hPtr ∧ s' = newMaster s hPtr := by
  unfold masterRegister at result
  split_ifs at result with port decoded cluster mine
  iterate 4 exact .inl (Option.some.inj result).symm
  split at result
  · exact .inl (Option.some.inj result).symm
  next hPtr found =>
  have accept : acceptAnnounce conf s hPtr = some s' → s' = s ∨
      s' = { s with masterInactivityCount := 0 } ∨
        ∃ hPtr, Acceptable conf hPtr ∧ s' = newMaster s hPtr := by
    intro result
    rcases acceptAnnounce_cases result with same | ⟨new, allowed⟩
    · exact .inl same
    · exact .inr (.inr ⟨hPtr, ⟨_, eq_false_of_ne_true mine, found, allowed⟩, new⟩)
  split_ifs at result with regular known
  · exact .inr (.inl (Option.some.inj result).symm)
  · obtain ⟨masterPtr, -, result⟩ := bind_eq_some_iff.1 result
    split_ifs at result
    · exact .inl (Option.some.inj result).symm
    · exact accept result
  · exact accept result

variable {r : Cluster n × Option (Fin n)}

theorem sendLoad_cases (result : sendLoad conf s connects = some r) :
    (r = (s, none) ∧ s.masterMe = true) ∨ s.masterMe = false ∧ ∃ t : Cluster n,
      t = { s with masterInactivityCount := s.masterInactivityCount + 1 } ∧
      (r = (t, none) ∨
        r = tryTakeover conf (forgetMaster t) connects ∧ s.masterKnown = true ∨
        r = tryTakeover conf t connects ∧
          t.masterInactivityCount > conf.hostInactivityLimit ∧
          (s.masterKnown = true →
            t.masterInactivityCount ≤ conf.hostInactivityLimit + conf.retryLimit)) := by
  unfold sendLoad at result
  split_ifs at result with mine
  · exact .inl ⟨(Option.some.inj result).symm, mine⟩
  refine .inr ⟨eq_false_of_ne_true mine, _, rfl, ?_⟩
  dsimp only at result ⊢
  split_ifs at result with silent known forgotten
  · obtain ⟨_, -, result⟩ := bind_eq_some_iff.1 result
    exact .inr (.inl ⟨(Option.some.inj result).symm, known⟩)
  · obtain ⟨_, -, result⟩ := bind_eq_some_iff.1 result
    exact .inr (.inr ⟨(Option.some.inj result).symm, silent, fun _ => not_lt.1 forgotten⟩)
  · exact .inr (.inr ⟨(Option.some.inj result).symm, silent, fun h => absurd h known⟩)
  · exact .inl (Option.some.inj result).symm

/-! ### Where the property holds -/

variable (conf s)

/-- What holds in every state as long as no known master is probed. -/
structure Settled : Prop extends Consistent conf s where
  unknown : s.masterKnown = false → s.masterPtr = none
  counted : 0 ≤ s.masterInactivityCount
  alone : (∀ hPtr, ¬Acceptable conf hPtr) →
    ∀ hPtr, s.masterPtr = some hPtr ∨ s.prevMasterPtr = some hPtr → hPtr = conf.myHostPtr

variable {conf s}

theorem Settled.initNewMaster (settled : Settled conf s) : Settled conf (initNewMaster conf s) where
  known _ := by simp [Lim.initNewMaster]
  mine _ := ⟨rfl, rfl⟩
  unknown h := by simp [Lim.initNewMaster] at h
  counted := le_rfl
  alone none_ hPtr h := by
    rcases h with isMe | before
    · exact (Option.some.inj isMe).symm
    · exact settled.alone none_ hPtr (.inl before)

theorem limStart_cases (conf : LimConf n) :
    limStart conf = ⟨false, none, none, 0, false⟩ ∨
      limStart conf = ⟨true, some conf.myHostPtr, none, 0, true⟩ := by
  by_cases first : conf.myHostNo = 0
  · exact .inr (by simp [limStart, first, Lim.initNewMaster])
  · exact .inl (by simp [limStart, first])

theorem limStart_settled : Settled conf (limStart conf) := by
  have idle : Settled conf ⟨false, none, none, 0, false⟩ :=
    ⟨⟨by simp, by simp⟩, fun _ => rfl, le_rfl, by simp⟩
  rcases limStart_cases conf with start | start <;> rw [start]
  · exact idle
  · exact idle.initNewMaster

theorem Settled.masterRegister (settled : Settled conf s)
    (result : masterRegister conf s masterReg = some s') : Settled conf s' := by
  rcases masterRegister_cases result with rfl | rfl | ⟨hPtr, acceptable, rfl⟩
  · exact settled
  · exact { settled with counted := le_rfl }
  · exact ⟨⟨by simp [newMaster], by simp [newMaster]⟩, by simp [newMaster], le_rfl,
      fun nobody => absurd acceptable (nobody hPtr)⟩

theorem tryTakeover_unknown {t : Cluster n} (settled : Settled conf t) (lost : t.masterPtr = none)
    (others : t.masterMe = false) (connects : Bool) :
    Settled conf (tryTakeover conf t connects).1 ∧
      ∀ hPtr ∈ (tryTakeover conf t connects).2,
        (tryTakeover conf t connects).1.masterPtr = some hPtr := by
  unfold tryTakeover
  split_ifs with tries
  · cases answer : probeMasterTcp conf t connects with
    | none => exact ⟨settled.initNewMaster, by simp⟩
    | some hPtr =>
      have probed : t.prevMasterPtr = some hPtr := by
        unfold probeMasterTcp at answer
        rw [lost, none_or] at answer
        cases prev : t.prevMasterPtr with
        | none => simp [prev] at answer
        | some last =>
          rw [prev] at answer
          dsimp only at answer
          split_ifs at answer
          exact answer
      refine ⟨⟨⟨?_, ?_⟩, ?_, le_rfl, ?_⟩, ?_⟩
      · simp [probed]
      · simp [others]
      · simp
      · intro nobody last h
        exact settled.alone nobody last (.inr (h.elim id id))
      · simp [probed]
  · exact ⟨settled, by simp⟩

theorem Settled.forgetMaster (settled : Settled conf s) (others : s.masterMe = false) :
    Settled conf (forgetMaster s) where
  known h := by simp [Lim.forgetMaster] at h
  mine h := by simp [Lim.forgetMaster, others] at h
  unknown _ := rfl
  counted := settled.counted
  alone nobody hPtr h := by
    rcases h with gone | last
    · simp [Lim.forgetMaster] at gone
    · exact settled.alone nobody hPtr (.inl last)

section

variable (late : ¬ProbesKnown conf)
include late

theorem tryTakeover_known {t : Cluster n} (settled : Settled conf t)
    (counted : 0 < t.masterInactivityCount)
    (silent : conf.hostInactivityLimit < t.masterInactivityCount)
    (remembered : t.masterInactivityCount ≤ conf.hostInactivityLimit + conf.retryLimit)
    (known : t.masterKnown = true) (connects : Bool) :
    Settled conf (tryTakeover conf t connects).1 ∧ (tryTakeover conf t connects).2 = none := by
  unfold tryTakeover
  split_ifs with tries
  · simp only [Bool.and_eq_true, Bool.not_eq_true', decide_eq_true_eq] at tries
    have nobody : ∀ hPtr, ¬Acceptable conf hPtr := by
      intro hPtr acceptable
      exact late ⟨tries.1, by omega, by omega, by omega, hPtr, acceptable⟩
    obtain ⟨hPtr, isMaster⟩ := ne_none_iff_exists'.1 (settled.known known)
    have isMe := settled.alone nobody hPtr (.inl isMaster)
    have refused : probeMasterTcp conf t connects = none := by
      simp [probeMasterTcp, isMaster, isMe]
    rw [refused]
    exact ⟨settled.initNewMaster, rfl⟩
  · exact ⟨settled, rfl⟩

theorem Settled.sendLoad (settled : Settled conf s) (result : sendLoad conf s connects = some r) :
    Settled conf r.1 ∧ ∀ hPtr ∈ r.2, r.1.masterPtr = some hPtr := by
  rcases sendLoad_cases result with ⟨rfl, -⟩ | ⟨others, t, rfl, cases⟩
  · exact ⟨settled, by simp⟩
  have ticked : Settled conf
      { s with masterInactivityCount := s.masterInactivityCount + 1 } :=
    { settled with counted := by have := settled.counted; dsimp only; omega }
  rcases cases with rfl | ⟨rfl, -⟩ | ⟨rfl, silent, remembered⟩
  · exact ⟨ticked, by simp⟩
  · exact tryTakeover_unknown (ticked.forgetMaster others) rfl others connects
  · rcases Bool.eq_false_or_eq_true s.masterKnown with known | unknown
    · have counted := settled.counted
      obtain ⟨kept, nothing⟩ := tryTakeover_known late ticked (by dsimp only; omega) silent
        (remembered known) known connects
      exact ⟨kept, by simp [nothing]⟩
    · exact tryTakeover_unknown ticked (settled.unknown unknown) others connects

theorem limStep_settled {event : LimEvent} (settled : Settled conf s)
    (result : limStep conf (some s) event = some s') : Settled conf s' := by
  cases event with
  | announce masterReg => exact settled.masterRegister result
  | periodic connects =>
    obtain ⟨r, sent, rest⟩ := bind_eq_some_iff.1 result
    obtain rfl := Option.some.inj rest
    exact (settled.sendLoad late sent).1
  | takeover =>
    obtain rfl := Option.some.inj result
    exact settled.initNewMaster

theorem Reachable.settled (reachable : Reachable conf s) : Settled conf s := by
  obtain ⟨events, reached⟩ := reachable
  have all : ∀ s' ∈ run (limStep conf) (some (limStart conf)) events, Settled conf s' := by
    refine run_keeps (fun o => ∀ s' ∈ o, Settled conf s') ?_ ?_ events
    · intro o event kept s' result
      cases o with
      | none => cases result
      | some before => exact limStep_settled late (kept before rfl) result
    · intro s' start
      obtain rfl := Option.some.inj start
      exact limStart_settled
  exact all s reached

end

/-! ### Where it fails -/

def waiting (hPtr : Fin n) (prev : Option (Fin n)) (count : Int) : Cluster n :=
  ⟨true, some hPtr, prev, count, false⟩

theorem Acceptable.ne_me (acceptable : Acceptable conf hPtr) : hPtr ≠ conf.myHostPtr := by
  rintro rfl
  obtain ⟨hostName, differs, found, -⟩ := acceptable
  have same := List.find?_some found
  rw [differs] at same
  cases same

theorem Acceptable.first (acceptable : Acceptable conf hPtr) :
    ∃ masterReg prev, prev ≠ some hPtr ∧
      limStep conf (some (limStart conf)) (.announce masterReg) = some (waiting hPtr prev 0) := by
  have other := acceptable.ne_me
  obtain ⟨hostName, differs, found, allowed⟩ := acceptable
  have accepted : ∀ s : Cluster n, acceptAnnounce conf s hPtr = some (newMaster s hPtr) := by
    intro s
    have open_ : (!conf.linux || decide (conf.hostNo hPtr < conf.myHostNo)) = true := by
      cases linux : conf.linux with
      | false => rfl
      | true => simpa using allowed linux
    rw [acceptAnnounce, if_pos open_]
  refine ⟨⟨true, true, conf.clName, hostName⟩, (limStart conf).masterPtr, ?_, ?_⟩
  · rcases limStart_cases conf with start | start <;> simp [start, other.symm]
  · simp only [limStep, bind_eq_bind, bind_some, masterRegister, differs, found,
      Bool.not_true, Bool.false_eq_true, if_false, ne_eq, not_true_eq_false, accepted]
    rcases limStart_cases conf with start | start
    · simp [start, newMaster, waiting]
    · -- no host is both below and above the LIM itself
      have beside : conf.hostNo hPtr < conf.myHostNo →
          ¬conf.hostNo conf.myHostPtr < conf.hostNo hPtr := fun below above => lt_asymm below above
      by_cases below : conf.hostNo hPtr < conf.myHostNo
      · simp [start, newMaster, waiting, other.symm, below, beside below]
      · simp [start, newMaster, waiting, other.symm, below]

theorem sendLoad_waiting (hPtr : Fin n) (prev : Option (Fin n)) {count : Int}
    (remembered : count + 1 ≤ conf.hostInactivityLimit + conf.retryLimit)
    (quiet : count + 1 ≤ conf.hostInactivityLimit ∨
      count + 1 ≤ conf.hostInactivityLimit + conf.myHostNo * conf.masterInactivityLimit) :
    sendLoad conf (waiting hPtr prev count) connects =
      some (waiting hPtr prev (count + 1), none) := by
  have waits : tryTakeover conf (waiting hPtr prev (count + 1)) connects =
      (waiting hPtr prev (count + 1), none) ∨ count + 1 ≤ conf.hostInactivityLimit := by
    rcases quiet with early | early
    · exact .inr early
    · have late : ¬(waiting hPtr prev (count + 1)).masterInactivityCount >
          conf.hostInactivityLimit + conf.myHostNo * conf.masterInactivityLimit := not_lt.2 early
      simp [tryTakeover, late]
  unfold sendLoad
  simp only [waiting, Bool.false_eq_true, if_false, if_true, gt_iff_lt]
  by_cases silent : conf.hostInactivityLimit < count + 1
  · rw [if_pos silent, if_neg (not_lt.2 remembered)]
    exact congrArg some (waits.resolve_right (not_le.2 silent))
  · rw [if_neg silent]

theorem run_waiting {prev : Option (Fin n)} (k : Nat)
    (remembered : (k : Int) ≤ conf.hostInactivityLimit + conf.retryLimit)
    (quiet : (k : Int) ≤ conf.hostInactivityLimit ∨
      (k : Int) ≤ conf.hostInactivityLimit + conf.myHostNo * conf.masterInactivityLimit) :
    run (limStep conf) (some (waiting hPtr prev 0)) (List.replicate k (.periodic true)) =
      some (waiting hPtr prev k) := by
  induction k with
  | zero => rfl
  | succ k ih =>
    rw [Nat.cast_succ] at remembered quiet
    rw [List.replicate_succ', run_append, ih (by omega) (by omega)]
    simp [run, limStep, sendLoad_waiting hPtr prev remembered quiet]

theorem sendLoad_early (prev : Option (Fin n)) (count : Int) (other : hPtr ≠ conf.myHostPtr)
    (takesOver : conf.computeOnly = false) (silent : conf.hostInactivityLimit < count + 1)
    (tries : conf.hostInactivityLimit + conf.myHostNo * conf.masterInactivityLimit < count + 1)
    (remembered : count + 1 ≤ conf.hostInactivityLimit + conf.retryLimit) :
    sendLoad conf (waiting hPtr prev count) true =
      some ({ waiting hPtr prev 0 with masterPtr := prev }, some hPtr) := by
  unfold sendLoad
  simp only [waiting, Bool.false_eq_true, if_false, if_true, gt_iff_lt]
  rw [if_pos silent, if_neg (not_lt.2 remembered)]
  simp [tryTakeover, takesOver, tries, probeMasterTcp, other]

theorem ProbesKnown.fails (early : ProbesKnown conf) :
    ∃ s, Reachable conf s ∧ ¬ProbeKept conf s := by
  obtain ⟨takesOver, retries, remembers, soon, hPtr, acceptable⟩ := early
  obtain ⟨masterReg, prev, differs, first⟩ := acceptable.first
  -- the count before the first periodic step that may probe
  obtain ⟨k, isMax⟩ := Int.eq_ofNat_of_zero_le (le_max_left 0 (max conf.hostInactivityLimit
    (conf.hostInactivityLimit + conf.myHostNo * conf.masterInactivityLimit)))
  refine ⟨waiting hPtr prev k, ⟨.announce masterReg :: List.replicate k (.periodic true), ?_⟩, ?_⟩
  · rw [run, first]
    rcases k.eq_zero_or_pos with rfl | pos
    · rfl
    · exact run_waiting k (by omega) (by omega)
  · intro kept
    have sent := sendLoad_early prev k acceptable.ne_me takesOver
      (by omega) (by omega) (by omega)
    exact differs (kept true _ sent hPtr rfl)

/-- In every state of a LIM the fields that tell the master agree and a successful probe
keeps the host that was probed, exactly when the LIM never probes a master it knows. -/
theorem master_kept_iff (conf : LimConf n) :
    (∀ s, Reachable conf s → Consistent conf s ∧ ProbeKept conf s) ↔ ¬ProbesKnown conf := by
  constructor
  · intro kept early
    obtain ⟨s, reachable, lost⟩ := early.fails
    exact lost (kept s reachable).2
  · intro late s reachable
    have settled := reachable.settled late
    exact ⟨settled.toConsistent, fun connects r sent => (settled.sendLoad late sent).2⟩

def defaultLimits : LimConf 2 where
  clName := "cluster".toList
  hostList := ![⟨"hosta".toList, 0⟩, ⟨"hostb".toList, 1⟩]
  myHostPtr := 0
  hostInactivityVal := none
  masterInactivityVal := none
  retryVal := none
  computeOnly := false
  linux := false

def silentMaster : List LimEvent :=
  .announce ⟨true, true, "cluster".toList, "hostb".toList⟩ :: List.replicate 5 (.periodic true)

/-- The probe of the second host leaves the first one as the master. -/
theorem silentMaster_not_kept :
    ¬∀ s, Reachable defaultLimits s → Consistent defaultLimits s ∧ ProbeKept defaultLimits s := by
  intro kept
  have reached : run (limStep defaultLimits) (some (limStart defaultLimits)) silentMaster =
      some ⟨true, some 1, some 0, 5, false⟩ := by decide +kernel
  have sent : sendLoad defaultLimits ⟨true, some 1, some 0, 5, false⟩ true =
      some (⟨true, some 0, some 0, 0, false⟩, some 1) := by decide +kernel
  have same := (kept _ ⟨silentMaster, reached⟩).2 true _ sent 1 rfl
  revert same
  decide

end Jhlava.Lim
