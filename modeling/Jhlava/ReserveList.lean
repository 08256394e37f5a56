import Jhlava.MbdAccounts

/-! `pxyRsvJL` of mbd.proxy.c, the list with a proxy for each pending job that holds reserved
slots, and what `updResCounters` of mbd.misc.c does to it. -/
namespace Jhlava.Reserve
open Mbd TransitionRun List

/-- A job, with the priority of its queue. -/
structure RsvJob where
  jobId : Int
  priority : Int
  submitTime : Int
  jStatus : JStatus

/-- The job of the proxy comes before `subjectJob`. -/
def pendJobPrioEqual (jPtr subjectJob : RsvJob) : Bool :=
  if subjectJob.priority < jPtr.priority then true
  else if subjectJob.priority = jPtr.priority then
    if subjectJob.submitTime > jPtr.submitTime then true
    else subjectJob.submitTime = jPtr.submitTime && subjectJob.jobId > jPtr.jobId
  else false

/-- The jobs, and those of the proxies from the front of the list on. -/
structure Reserves where
  jobs : Nat → RsvJob
  pxyRsvJL : List Nat

def proxyRsvJLAddEntry (s : Reserves) (job : Nat) : List Nat :=
  match s.pxyRsvJL.findIdx? fun pxy => pendJobPrioEqual (s.jobs pxy) (s.jobs job) with
  | none => s.pxyRsvJL ++ [job]
  | some pxyPred => s.pxyRsvJL.insertIdx (pxyPred + 1) job

def proxyRsvJLRemoveEntry (s : Reserves) (job : Nat) : List Nat := s.pxyRsvJL.erase job

def updResCounters (s : Reserves) (job : Nat) (new : JStatus) : List Nat :=
  let old := (s.jobs job).jStatus
  if old.state.isPend then
    if old.reserve && !new.reserve && new.state.isPend then proxyRsvJLRemoveEntry s job
    else if !old.reserve && new.reserve && new.state.isPend then proxyRsvJLAddEntry s job
    else if old.reserve && new.state.isFinish then proxyRsvJLRemoveEntry s job
    else s.pxyRsvJL
  else s.pxyRsvJL

def RsvJob.setReserve (j : RsvJob) (on : Bool) : RsvJob :=
  { j with jStatus := { j.jStatus with reserve := on } }

/-- A reservation or a release: `updResCounters`, then the bit `JOB_STAT_RESERVE`. -/
def turn (s : Reserves) (c : Nat × Bool) : Reserves where
  jobs := Function.update s.jobs c.1 ((s.jobs c.1).setReserve c.2)
  pxyRsvJL := updResCounters s c.1 ((s.jobs c.1).setReserve c.2).jStatus

/-- Any jobs, none of which holds a reservation. -/
def start (jobs : Nat → RsvJob) : Reserves := ⟨fun p => (jobs p).setReserve false, []⟩

/-! ### The list as a set -/

def Holds (j : RsvJob) : Prop := j.jStatus.state.isPend = true ∧ j.jStatus.reserve = true

/-- One proxy for each pending job that holds a reservation. -/
structure Exact (s : Reserves) : Prop where
  nodup : s.pxyRsvJL.Nodup
  mem : ∀ p, p ∈ s.pxyRsvJL ↔ Holds (s.jobs p)

variable {s : Reserves} {p q : Nat}

theorem turn_list (s : Reserves) (p : Nat) (on : Bool) : (turn s (p, on)).pxyRsvJL =
    if (s.jobs p).jStatus.state.isPend = true ∧ (s.jobs p).jStatus.reserve ≠ on then
      if on then proxyRsvJLAddEntry s p else proxyRsvJLRemoveEntry s p
    else s.pxyRsvJL := by
  have unfinished : ∀ x : JobState, x.isPend = true → x.isFinish = false := by
    intro x
    cases x <;> decide
  by_cases pend : (s.jobs p).jStatus.state.isPend = true
  · rcases Bool.eq_false_or_eq_true (s.jobs p).jStatus.reserve with old | old <;> cases on <;>
      simp [turn, updResCounters, RsvJob.setReserve, pend, unfinished _ pend, old]
  · simp [turn, updResCounters, pend]

theorem turn_jobs_of_ne (ne : q ≠ p) (on : Bool) : (turn s (p, on)).jobs q = s.jobs q :=
  Function.update_of_ne ne ..

theorem add_perm (s : Reserves) (p : Nat) : (proxyRsvJLAddEntry s p).Perm (p :: s.pxyRsvJL) := by
  rw [proxyRsvJLAddEntry]
  split
  · exact perm_append_singleton p _
  · rename_i found
    exact perm_insertIdx p _ (findIdx?_eq_some_iff_getElem.mp found).1

theorem turn_exact (s : Reserves) (c : Nat × Bool) (h : Exact s) : Exact (turn s c) := by
  obtain ⟨p, on⟩ := c
  have list := turn_list s p on
  have holds : ∀ q, Holds ((turn s (p, on)).jobs q) ↔
      if q = p then (s.jobs p).jStatus.state.isPend = true ∧ on = true else q ∈ s.pxyRsvJL := by
    intro q
    split_ifs with eq
    · simp [eq, Holds, turn, RsvJob.setReserve]
    · rw [turn_jobs_of_ne eq, h.mem]
  split_ifs at list with changes added
  · have out : p ∉ s.pxyRsvJL := by
      rw [h.mem, Holds, changes.1]
      simpa [added] using changes.2
    have perm := list ▸ add_perm s p
    refine ⟨perm.nodup_iff.mpr (nodup_cons.mpr ⟨out, h.nodup⟩), fun q => ?_⟩
    rw [holds, perm.mem_iff]
    split_ifs with eq <;> simp [eq, changes.1, added]
  · rw [proxyRsvJLRemoveEntry] at list
    refine ⟨list ▸ h.nodup.erase p, fun q => ?_⟩
    rw [holds, list, h.nodup.mem_erase_iff]
    split_ifs with eq <;> simp [eq, added]
  · refine ⟨list ▸ h.nodup, fun q => ?_⟩
    rw [holds, list]
    split_ifs with eq
    · rw [eq, h.mem]
      refine and_congr_right fun pend => ?_
      rw [not_not.mp (not_and.mp changes pend)]
    · rfl

/-! ### The order of the list -/

def Behind (s : Reserves) (x y : Nat) : Prop := pendJobPrioEqual (s.jobs y) (s.jobs x) = true

/-- No job is behind one that stands further back. -/
def Ordered (s : Reserves) : Prop := s.pxyRsvJL.Pairwise fun x y => ¬Behind s x y

/-- At most the first job of the list comes before the new one, and if that does not either, no
job of the list is behind it. -/
def ComesSecond (s : Reserves) (p : Nat) : Prop :=
  (∀ y ∈ s.pxyRsvJL.tail, ¬Behind s p y) ∧
    ((∃ x ∈ s.pxyRsvJL, Behind s p x) ∨ ∀ x ∈ s.pxyRsvJL, ¬Behind s x p)

/-- A job that comes to hold a reservation comes second. -/
def TurnFits (s : Reserves) (c : Nat × Bool) : Prop :=
  (s.jobs c.1).jStatus.state.isPend = true → (s.jobs c.1).jStatus.reserve = false →
    c.2 = true → ComesSecond s c.1

theorem behind_iff {x y : Nat} : Behind s x y ↔
    (s.jobs x).priority < (s.jobs y).priority ∨ (s.jobs x).priority = (s.jobs y).priority ∧
      ((s.jobs y).submitTime < (s.jobs x).submitTime ∨
        (s.jobs y).submitTime = (s.jobs x).submitTime ∧ (s.jobs y).jobId < (s.jobs x).jobId) := by
  rw [Behind, pendJobPrioEqual]
  split_ifs <;> simp <;> omega

theorem turn_behind (s : Reserves) (c : Nat × Bool) : Behind (turn s c) = Behind s := by
  funext x y
  have key : ∀ q, ((turn s c).jobs q).setReserve false = (s.jobs q).setReserve false := by
    intro q
    by_cases eq : q = c.1
    · simp [turn, eq, RsvJob.setReserve]
    · rw [turn_jobs_of_ne eq c.2]
  simp only [RsvJob.setReserve, RsvJob.mk.injEq] at key
  simp [behind_iff, key]

theorem add_ordered_iff (h : Ordered s) (p : Nat) :
    ((proxyRsvJLAddEntry s p).Pairwise fun x y => ¬Behind s x y) ↔ ComesSecond s p := by
  rw [Ordered] at h
  rw [proxyRsvJLAddEntry, ComesSecond]
  cases list : s.pxyRsvJL with
  | nil => simp
  | cons first rest =>
    rw [list] at h
    have ahead := (pairwise_cons.mp h).1
    by_cases before : Behind s p first
    · -- the first job is the one found
      have asymm : ¬Behind s first p := by
        rw [behind_iff] at before ⊢
        omega
      rw [findIdx?_cons, if_pos (show pendJobPrioEqual _ _ = true from before)]
      simp only [insertIdx_succ_cons, insertIdx_zero, pairwise_cons, mem_cons,
        forall_eq_or_imp, tail_cons] at h ⊢
      exact ⟨fun all => ⟨all.2.1, .inl ⟨first, .inl rfl, before⟩⟩,
        fun fits => ⟨⟨asymm, ahead⟩, fits.1, h.2⟩⟩
    · have none_ : ∀ x ∈ first :: rest, ¬Behind s p x := by
        intro x mem
        rcases mem_cons.mp mem with rfl | mem
        · exact before
        · have := ahead x mem
          rw [behind_iff] at *
          omega
      rw [findIdx?_eq_none_iff.mpr fun x mem => eq_false_of_ne_true (none_ x mem)]
      rw [pairwise_append]
      constructor
      · intro all
        exact ⟨fun y mem => none_ y (mem_cons_of_mem _ mem),
          .inr fun x mem => all.2.2 x mem p mem_cons_self⟩
      · intro fits
        refine ⟨h, pairwise_singleton .., fun x mem y new => ?_⟩
        rw [mem_singleton.mp new]
        exact fits.2.resolve_left (fun ⟨x, mem, behind⟩ => none_ x mem behind) x mem

theorem turn_ordered_iff (h : Ordered s) (c : Nat × Bool) : Ordered (turn s c) ↔ TurnFits s c := by
  obtain ⟨p, on⟩ := c
  rw [Ordered, turn_behind, turn_list, TurnFits]
  split_ifs with changes added
  · rw [add_ordered_iff h]
    have new : (s.jobs p).jStatus.reserve = false := by simpa [added] using changes.2
    simp [changes.1, new, added]
  · exact iff_of_true (h.sublist erase_sublist) fun _ _ on => absurd on added
  · refine iff_of_true h fun pend new on => absurd ⟨pend, ?_⟩ changes
    rw [new]
    exact fun eq => Bool.noConfusion (eq.trans on)

/-- In every sequence of reservations and releases the list is exact, and it is ordered after each
of them exactly when every new reservation comes second. -/
theorem pxyRsvJL_ordered_iff (jobs : Nat → RsvJob) (cs : List (Nat × Bool)) :
    Exact (run turn (start jobs) cs) ∧
    (Along turn (fun s c => Ordered (turn s c)) (start jobs) cs ↔
      Along turn TurnFits (start jobs) cs) := by
  have exact_ : Exact (start jobs) := by
    refine ⟨nodup_nil, fun p => ?_⟩
    simp [start, Holds, RsvJob.setReserve]
  refine ⟨run_keeps Exact turn_exact exact_ cs, ?_⟩
  have ordered : Ordered (start jobs) := Pairwise.nil
  exact along_congr Ordered (fun _ _ _ kept => kept) (fun _ c h => turn_ordered_iff h c) ordered cs

/-- Three jobs of one queue, submitted one after the other. -/
def threeJobs (p : Nat) : RsvJob := ⟨p, 0, p, ⟨.pend, false, false, false⟩⟩

/-- The third job reserves slots after the second, and gets ahead of it. -/
theorem threeJobs_unordered :
    (run turn (start threeJobs) [(1, true), (2, true), (3, true)]).pxyRsvJL = [1, 3, 2] ∧
      ¬Ordered (run turn (start threeJobs) [(1, true), (2, true), (3, true)]) := by
  unfold Ordered Behind
  decide

end Jhlava.Reserve
