import Jhlava.MbdRun

/-! The counters of hosts, the queues' accounts of them, and `HOST_STAT_FULL`. -/
namespace Jhlava.Mbd
open TransitionRun

variable {cf : Config}

/-- What the machine of all steps counts for the hosts, beside its queues and users. -/
structure HostsExact (cf : Config) (s : MbdState) : Prop where
  host : ∀ h, (cf.host h).remote = false → ∀ c, (s.acc.hosts h).count c =
    ∑ i ∈ s.unfinished, (s.jobs i).hPtr.count h * (s.jobs i).hostSlots c
  numJobs : ∀ h, (cf.host h).remote = false →
    (s.acc.hosts h).count .numJobs = started (s.acc.hosts h).count
  queueHost : ∀ q h, (cf.host h).remote = false → ∀ c,
    ((s.acc.queues q).hAcct h).elim 0 (·.count c) = ∑ i ∈ s.unfinished,
      if (s.jobs i).qPtr = q then (s.jobs i).hPtr.count h * onlyStarted (s.jobs i).hostSlots c
        else 0

section Sums

variable {s : MbdState}

theorem hostSlots_finish {jp : JData} (fin : jp.jStatus.state.isFinish) (c : Counter) :
    jp.hostSlots c = 0 := by
  rw [JData.hostSlots]
  cases state : jp.jStatus.state <;> cases c <;>
    first | rfl | simp [state, JobState.isFinish] at fin

theorem hostSlots_numJobs (jp : JData) : jp.hostSlots .numJobs = started jp.hostSlots := by
  rw [JData.hostSlots]
  cases jp.jStatus.state <;> cases jp.jStatus.reserve <;> rfl

theorem Inv.hostsExact (h : ∀ a, a.1.wraps = false → Inv cf a s) : HostsExact cf s := by
  have hosts : ∀ k, (cf.host k).remote = false → ∀ c, (s.acc.hosts k).count c =
      ∑ i ∈ s.unfinished, (s.jobs i).hPtr.count k * (s.jobs i).hostSlots c := by
    intro k local_ c
    rw [← sum_unfinished s fun i fin => by rw [hostSlots_finish fin c, mul_zero]]
    refine (h (.host k, c) rfl).balanced.trans (Finset.sum_congr rfl fun i _ => ?_)
    exact if_pos local_
  refine ⟨hosts, fun k local_ => ?_, fun q k local_ c => ?_⟩
  · simp only [started, hosts k local_, ← Finset.sum_add_distrib]
    refine Finset.sum_congr rfl fun i _ => ?_
    rw [hostSlots_numJobs, started]
    ring
  · rw [← sum_unfinished s fun i fin => by
      rw [funext (hostSlots_finish fin), onlyStarted_zero, mul_zero, ite_self]]
    refine (h (.queueHost q k, c) rfl).balanced.trans (Finset.sum_congr rfl fun i _ => ?_)
    simp only [share, post, local_, and_true, eq_comm]

end Sums

/-! ### The full hosts -/

section Full

variable (cf) (jp : JData) (num : Counters)

def isFull (acc : Accounts) (h : Nat) : Bool :=
  (cf.host h).maxJobs.getD infinitInt ≤ (acc.hosts h).count .numJobs

/-- One host of `updHostData`, with `HOST_STAT_FULL` of all hosts. -/
def updHostStat1 (r : Accounts × (Nat → Bool)) (h : Nat) : Accounts × (Nat → Bool) :=
  let acc := updHostData1 cf jp num r.1 h
  (acc, if (cf.host h).remote then r.2 else Function.update r.2 h (isFull cf acc h))

def updHostStat (acc : Accounts) (full : Nat → Bool) : Accounts × (Nat → Bool) :=
  jp.hPtr.foldl (updHostStat1 cf jp num) (acc, full)

theorem updHostStat_acc (acc : Accounts) (full : Nat → Bool) :
    (updHostStat cf jp num acc full).1 = updHostData cf acc jp num := by
  unfold updHostStat updHostData
  generalize jp.hPtr = hPtr
  induction hPtr generalizing acc full with
  | nil => rfl
  | cons h hPtr ih => exact ih _ _

theorem updHostData1_other {acc : Accounts} {h h' : Nat} (other : h' ≠ h) :
    (updHostData1 cf jp num acc h).hosts h' = acc.hosts h' := by
  unfold updHostData1
  dsimp only
  split
  · rfl
  · exact Function.update_of_ne other _ _

theorem updHostStat_full (acc : Accounts) (full : Nat → Bool) {h : Nat}
    (local_ : (cf.host h).remote = false) (touched : h ∈ jp.hPtr) :
    (updHostStat cf jp num acc full).2 h = isFull cf (updHostData cf acc jp num) h := by
  rw [← updHostStat_acc cf jp num acc full]
  -- a host that is up to date stays so, and each host of the list is brought up to date
  have settled : ∀ (hPtr : List Nat) r, h ∈ hPtr ∨ r.2 h = isFull cf r.1 h →
      (hPtr.foldl (updHostStat1 cf jp num) r).2 h =
        isFull cf (hPtr.foldl (updHostStat1 cf jp num) r).1 h := by
    intro hPtr
    induction hPtr with
    | nil => exact fun r now => now.resolve_left List.not_mem_nil
    | cons k hPtr ih =>
      intro r now
      refine ih _ ?_
      by_cases same : h = k
      · subst same
        exact .inr (by simp [updHostStat1, local_])
      · refine now.imp (fun mem => (List.mem_cons.1 mem).resolve_left same) fun now => ?_
        rw [isFull, updHostStat1, updHostData1_other cf jp num same]
        dsimp only
        split
        · exact now
        · rw [Function.update_of_ne same]
          exact now
  exact settled jp.hPtr (acc, full) (.inl touched)

end Full

theorem run_hostsExact {s₀ : MbdState} (fresh : Fresh s₀) {steps : List Step}
    (allowed : Along (step cf) (fun s st => st.Made s ∧ st.Clean s) s₀ steps) :
    HostsExact cf (run (step cf) s₀ steps) ∧
      ∀ acc full jp num h, (cf.host h).remote = false → h ∈ jp.hPtr →
        ((updHostStat cf jp num acc full).2 h = true ↔
          (cf.host h).maxJobs.getD infinitInt ≤
            ((updHostData cf acc jp num).hosts h).count .numJobs) := by
  have kept : ∀ a : Cell, a.1.wraps = false → ∀ s st, Inv cf a s → st.Made s ∧ st.Clean s →
      Inv cf a (step cf s st) :=
    fun a exact s st h allowed => step_inv s st h allowed fun wraps => by simp [exact] at wraps
  refine ⟨Inv.hostsExact fun a exact => run_invariant (kept a exact) fresh.inv allowed, ?_⟩
  intro acc full jp num h local_ touched
  rw [updHostStat_full cf jp num acc full local_ touched]
  exact decide_eq_true_iff

theorem run_hostsExact_oneJobRun :
    HostsExact oneSlotConf (run (step oneSlotConf) noJobsYet oneJobRun) :=
  (run_hostsExact noJobsYet_fresh (by decide +kernel)).1

/-- A job with a reservation is reported as running, and ends. -/
def reportedRun : List Step :=
  [.newJob (pendingJob 0), .change 0 (.reserve 5 [0]), .change 0 (.report .run 0),
    .change 0 (.status .done true)]

theorem reportedRun_not_hostsExact :
    Along (step oneSlotConf) (fun s st => st.Made s) noJobsYet reportedRun ∧
      ((run (step oneSlotConf) noJobsYet reportedRun).acc.hosts 0).count .numRESERVE = 1 ∧
      (run (step oneSlotConf) noJobsYet reportedRun).unfinished = ∅ ∧
      ¬ HostsExact oneSlotConf (run (step oneSlotConf) noJobsYet reportedRun) := by
  have one : ((run (step oneSlotConf) noJobsYet reportedRun).acc.hosts 0).count
      .numRESERVE = 1 := by decide +kernel
  have none : (run (step oneSlotConf) noJobsYet reportedRun).unfinished = ∅ := by
    decide +kernel
  refine ⟨by decide +kernel, one, none, ?_⟩
  intro exact
  have sum := exact.host 0 rfl .numRESERVE
  exact absurd sum (by decide)

end Jhlava.Mbd
