import Mathlib.Algebra.BigOperators.Ring.Finset
import Jhlava.MbdChanges

/-! mbatchd as a machine whose steps are the changes its handlers make to jobs.
In every run in which each step is one the handlers make and meets `Clean`, the
counters of queues and users are the sums over the unfinished jobs. -/
namespace Jhlava.Mbd
open Ledger TransitionRun Finset

/-- The changes made to one job. -/
inductive JobStep where
  /-- a status change that does not start the job -/
  | status (new : JobState) (logIt : Bool)
  /-- a report from the sbatchd of a host -/
  | report (new : JobState) (host : Nat)
  | dispatch (hPtr : List Nat)
  | reserve (now : Int) (hPtr : List Nat)
  /-- other hosts for a reservation, as backfill takes some away -/
  | rebook (now : Int) (hPtr : List Nat)
  | release (expired : Bool)
  /-- the reservation of a suspended job that is to be resumed, or that a pending job gives up
  while it keeps its hosts -/
  | setReserve (on : Bool)
  | switch (qtp : Nat)
  /-- the queue is no longer configured -/
  | lose (lostAndFound : Nat)
  | modify (sub : SubmitReq) (once : Bool) (kind : ModifyKind)
  | requeue (stopped : Bool)
  | unknown (unkwn : Bool)
  deriving DecidableEq, Repr

/-- `checkSlotReserve` also forgets the times of an expired reservation. -/
def releaseJob (cf : Config) (acc : Accounts) (jp : JData) (expired : Bool) :
    Accounts × JData :=
  let freed := freeReserveSlots cf acc jp
  if expired then (freed.1, { freed.2 with reserveTime := 0, slotHoldTime := 0 }) else freed

def JobStep.apply (cf : Config) (acc : Accounts) (jp : JData) : JobStep → Accounts × JData
  | status new logIt => jStatusChange cf acc jp new logIt
  | report new host => statusJob cf acc jp new host
  | dispatch hPtr => dispatchJob cf acc jp hPtr
  | reserve now hPtr => reserveJob cf now acc jp hPtr
  | rebook now hPtr => Mbd.rebook cf now acc jp hPtr
  | release expired => releaseJob cf acc jp expired
  | setReserve on => turnReserve cf acc jp on
  | switch qtp => switchAJob cf acc jp qtp
  | lose lostAndFound =>
    updSwitchJob cf acc jp jp.qPtr lostAndFound jp.jobBill.maxNumProcessors
  | modify sub once kind => handleJParameters cf acc jp sub once kind
  | requeue stopped => handleRequeueJob cf acc jp stopped
  | unknown unkwn => (acc, { jp with jStatus := { jp.jStatus with unkwn := unkwn } })

/-- What the handlers make sure of before the change. -/
def JobStep.Made (jp : JData) : JobStep → Prop
  | status new logIt =>
    jp.jStatus.state.isFinish = false ∧ (new = .psusp → jp.jStatus.state.isPend) ∧
      (new.isStart → jp.jStatus.state.isStart) ∧ (logIt = false → jp.jStatus.state.isPend)
  | report new _ => jp.jStatus.state.isFinish = false ∧ new ≠ .psusp
  | dispatch _ => jp.jStatus.state.isPend
  | reserve _ hPtr => jp.jStatus.state.isPend ∧ hPtr.length ≤ jp.jobBill.maxNumProcessors
  | rebook _ hPtr => jp.jStatus.state.isPend ∧ hPtr.length ≤ jp.jobBill.maxNumProcessors
  | release _ => jp.jStatus.state.isPend
  | setReserve on =>
    (jp.jStatus.state = .ssusp ∨ jp.jStatus.state = .ususp ∨
      jp.jStatus.state.isPend ∧ on = false) ∧ jp.jStatus.reserve = !on
  | switch _ | lose _ => jp.jStatus.state.isFinish = false
  | modify _ _ _ => True
  | requeue _ => jp.jStatus.state.isFinish
  | unknown _ => jp.jStatus.state.isStart

def StatusClean (jp : JData) (new : JobState) (logIt : Bool) : Prop :=
  (new = .runWait → jp.jStatus.state = .run ∨ jp.jStatus.state = .runWait) ∧
    (jp.jStatus.reserve → new ≠ jp.jStatus.state →
      reserveCounted jp.jStatus.state new logIt) ∧
    (new.isFinish → FinishOk jp)

def JobStep.Clean (jp : JData) : JobStep → Prop
  | status new logIt => StatusClean jp new logIt
  | report new _ =>
    if jp.jStatus.state.isPend ∧ new.isStart then jp.jStatus.reserve = false
    else StatusClean jp new true
  | switch qtp => jp.jStatus.state = .runWait → jp.qPtr = qtp
  | _ => True

instance (jp : JData) : ∀ c : JobStep, Decidable (c.Made jp)
  | .status new logIt => inferInstanceAs (Decidable (_ ∧ (new = .psusp → _) ∧ _ ∧ (logIt = _ → _)))
  | .report new _ => inferInstanceAs (Decidable (_ ∧ new ≠ .psusp))
  | .dispatch _ | .release _ | .switch _ | .lose _ | .requeue _ | .unknown _ =>
    inferInstanceAs (Decidable (_ = _))
  | .modify _ _ _ => isTrue trivial
  | .reserve _ _ | .rebook _ _ => inferInstanceAs (Decidable (_ ∧ _))
  | .setReserve on => inferInstanceAs (Decidable ((_ ∨ _ ∨ _ ∧ on = false) ∧ _))

instance (jp : JData) (new : JobState) (logIt : Bool) : Decidable (StatusClean jp new logIt) :=
  inferInstanceAs (Decidable (_ ∧ _ ∧ _))

instance (jp : JData) : ∀ c : JobStep, Decidable (c.Clean jp)
  | .status new logIt => inferInstanceAs (Decidable (StatusClean jp new logIt))
  | .report new _ =>
    inferInstanceAs (Decidable (if _ ∧ _ then _ else StatusClean jp new true))
  | .switch _ => inferInstanceAs (Decidable (_ → _))
  | .dispatch _ | .release _ | .lose _ | .modify _ _ _ | .requeue _ | .unknown _
  | .reserve _ _ | .rebook _ _ | .setReserve _ => isTrue trivial

inductive Step where
  | newJob (jp : JData)
  | change (i : Nat) (c : JobStep)
  deriving DecidableEq, Repr

def step (cf : Config) (s : MbdState) : Step → MbdState
  | .newJob jp =>
    { s.setJob s.numJobs (handleNewJob cf s.acc jp) with numJobs := s.numJobs + 1 }
  | .change i c => s.setJob i (c.apply cf s.acc (s.jobs i))

def Step.Made (s : MbdState) : Step → Prop
  | .newJob jp => jp.jStatus = ⟨.pend, false, false, false⟩ ∧ jp.hPtr = []
  | .change i c => i < s.numJobs ∧ c.Made (s.jobs i)

def Step.Clean (s : MbdState) : Step → Prop
  | .newJob _ => True
  | .change i c => c.Clean (s.jobs i)

instance (s : MbdState) : ∀ st : Step, Decidable (st.Made s)
  | .newJob _ => inferInstanceAs (Decidable (_ ∧ _))
  | .change _ _ => inferInstanceAs (Decidable (_ ∧ _))

instance (s : MbdState) : ∀ st : Step, Decidable (st.Clean s)
  | .newJob _ => isTrue trivial
  | .change i c => inferInstanceAs (Decidable (c.Clean (s.jobs i)))

/-! The slots that the jobs need -/

/-- What the change itself gives to the job. -/
def JobStep.need : JobStep → Nat
  | dispatch hPtr => hPtr.length
  | report _ _ => 1
  | modify sub _ _ => sub.maxNumProcessors
  | _ => 0

/-- What the unfinished jobs other than `i` need. -/
def MbdState.needOthers (s : MbdState) (i : Nat) : Nat :=
  ∑ k ∈ (Finset.range s.numJobs).erase i,
    if (s.jobs k).jStatus.state.isFinish then 0 else (s.jobs k).need

/-- The slots that the unfinished jobs need with this step can be counted in an `int`. -/
def Step.Fits (s : MbdState) : Step → Prop
  | .newJob jp => ((s.needOthers s.numJobs + jp.need : Nat) : Int) ≤ intMax
  | .change i c => ((s.needOthers i + max (s.jobs i).need c.need : Nat) : Int) ≤ intMax

instance (s : MbdState) : ∀ st : Step, Decidable (st.Fits s)
  | .newJob _ => inferInstanceAs (Decidable (_ ≤ intMax))
  | .change _ _ => inferInstanceAs (Decidable (_ ≤ intMax))

/-! Each change keeps the book -/

section Changes

variable {cf : Config} {rest : OtherJobs cf} {acc : Accounts} {jp : JData}

variable {job : JData} {new : JobState}

theorem statusChange_held {logIt : Bool} (h : Held cf rest (acc, jp))
    (live : jp.jStatus.state.isFinish = false) (psusp : new = .psusp → jp.jStatus.state.isPend)
    (start : new.isStart → jp.jStatus.state.isStart) (clean : StatusClean jp new logIt) :
    Held cf rest (jStatusChange cf acc jp new logIt) := by
  obtain ⟨wait, res, fin⟩ := clean
  refine jStatusChange_held h ?_ res fin
  revert live psusp start wait
  cases jp.jStatus.state <;> cases new <;> decide

theorem jStatusChange_run (i : Idle jp) :
    jStatusChange cf acc jp .run true =
      (updCounters cf acc { jp.setState .run with reserveTime := 0 } jp.jStatus.state,
        { jp.setState .run with reserveTime := 0 }) := by
  have pend := i.pend
  have changed : JobState.run ≠ jp.jStatus.state := by
    intro run
    simp [← run, JobState.isPend] at pend
  have reset : resetReserve cf acc jp .run = (acc, jp) := by
    unfold resetReserve
    simp [i.off]
  unfold jStatusChange
  simp only [changed, if_false, if_true, reset]
  unfold changeStatus
  simp [pend, JobState.isStart]

section

variable (h : Held cf rest (acc, jp))
include h

theorem start_held (i : Idle jp) : Held cf rest (jStatusChange cf acc jp .run true) := by
  apply jStatusChange_held h
  · have pend := i.pend
    revert pend
    cases jp.jStatus.state <;> decide
  · intro held
    simp [i.off] at held
  · intro fin
    exact absurd fin (by decide)

theorem started_held (i : Idle jp) (start : new.isStart) :
    Held cf rest (jStatusChange cf (jStatusChange cf acc jp .run true).1
      (jStatusChange cf acc jp .run true).2 new true) := by
  have started := start_held h i
  have fin : new.isFinish = false ∧ new ≠ .psusp := by
    revert start
    cases new <;> decide
  rw [jStatusChange_run i] at started ⊢
  refine statusChange_held started rfl (fun h => absurd h fin.2) (fun _ => rfl)
    ⟨fun _ => .inl rfl, fun held => ?_, fun finish => ?_⟩
  · simp [i.off, JData.setState] at held
  · simp [fin.1] at finish

theorem statusJob_held {host : Nat} (made : (JobStep.report new host).Made jp)
    (clean : (JobStep.report new host).Clean jp) (one : rest.cell.1.wraps → 1 ≤ rest.most) :
    Held cf rest (statusJob cf acc jp new host) := by
  obtain ⟨live, psusp⟩ := made
  unfold statusJob
  simp only [JobStep.Clean] at clean
  by_cases starts : jp.jStatus.state.isPend ∧ new.isStart
  · rw [if_pos starts] at clean
    rw [if_pos (by simp [starts])]
    have i : Idle jp := ⟨starts.1, clean, h.ok.known starts.1⟩
    split
    · have i' : Idle { jp with hPtr := [host] } := ⟨i.pend, i.off, i.known⟩
      exact started_held (h.idle i i' rfl rfl rfl (h.fits.hosts one) rfl) i' starts.2
    · exact started_held h i starts.2
  · rw [if_neg starts] at clean
    rw [if_neg (by simpa using starts)]
    refine statusChange_held h live (fun h => absurd h psusp) ?_ clean
    intro start
    revert live start starts
    cases jp.jStatus.state <;> cases new <;> decide

section

variable (pend : jp.jStatus.state.isPend)
include pend

theorem dispatchJob_held {hPtr : List Nat}
    (placed : rest.cell.1.wraps → hPtr.length ≤ rest.most) :
    Held cf rest (dispatchJob cf acc jp hPtr) := by
  obtain ⟨free, i⟩ := freeReserveSlots_held h pend
  exact start_held (allocHosts_held free.pair i placed).pair ⟨i.pend, i.off, i.known⟩

theorem reserveJob_held {hPtr : List Nat} (fits : hPtr.length ≤ jp.jobBill.maxNumProcessors)
    (now : Int) : Held cf rest (reserveJob cf now acc jp hPtr) := by
  obtain ⟨free, i⟩ := freeReserveSlots_held h pend
  have placed := (allocHosts_held free.pair i fun wraps =>
    fits.trans (JData.need_le.mp (h.fits wraps)).1).pair
  refine reserveSlots_held placed ⟨i.pend, i.off, i.known⟩ ?_ now
  rw [freeReserveSlots_snd]
  exact fits

theorem releaseJob_held (expired : Bool) : Held cf rest (releaseJob cf acc jp expired) := by
  obtain ⟨free, i⟩ := freeReserveSlots_held h pend
  unfold releaseJob
  split
  · exact free.idle i ⟨i.pend, i.off, i.known⟩ rfl rfl rfl free.fits rfl
  · exact free

end

theorem handleRequeueJob_held (fin : jp.jStatus.state.isFinish) (stopped : Bool) :
    Held cf rest (handleRequeueJob cf acc jp stopped) := by
  apply h.enterPend fin
  · cases stopped <;> exact ⟨rfl, rfl, rfl⟩
  · refine cleanCandHosts_fits (OtherJobs.Fits.hosts ?_ fun _ => Nat.zero_le _)
    split
    · rename_i new
      exact changeJobParams_fits h.fits new
    · exact h.fits

end

theorem handleNewJob_held (empty : Held cf rest (acc, jp.gone))
    (new : jp.jStatus = ⟨.pend, false, false, false⟩) :
    Held cf rest (handleNewJob cf acc jp) := by
  have i : Idle jp := by
    constructor <;> rw [new]
    rfl
  have entered := empty.enterPend rfl i empty.fits
  unfold handleNewJob
  split
  · apply statusChange_held entered
    · rw [new]
      rfl
    · exact fun _ => i.pend
    · exact fun h => absurd h (by decide)
    · refine ⟨fun h => absurd h (by decide), fun held => ?_, fun h => absurd h (by decide)⟩
      simp [i.off] at held
  · exact entered

section

variable (h : Held cf rest (acc, jp))
include h

theorem Held.forget {newSub : Option SubmitReq} (candPtr : List CandHost)
    (saved : rest.cell.1.wraps → ∀ sub ∈ newSub, sub.maxNumProcessors ≤ rest.most) :
    Held cf rest (acc, { jp with newSub := newSub, candPtr := candPtr }) := by
  refine h.unmoved ⟨h.ok.reserved, h.ok.running, h.ok.known⟩ ?_ ⟨rfl, rfl, rfl⟩ rfl rfl
  intro wraps
  obtain ⟨asked, placed, -⟩ := JData.need_le.mp (h.fits wraps)
  exact JData.need_le.mpr ⟨asked, placed, saved wraps⟩

theorem afterSwitch_held (moved : Bool) : Held cf rest (acc, afterSwitch jp moved) := by
  have saved := fun wraps => saved_le (JData.need_le.mp (h.fits wraps)).1 jp.jStatus.state.isStart
  unfold afterSwitch cleanCandHosts
  split
  · split
    · exact h.forget _ saved
    · exact h.forget jp.candPtr saved
  · exact h.forget jp.candPtr saved

theorem jobInQueueEnd_held {qfp qtp : Nat} (live : jp.jStatus.state.isFinish = false)
    (queue : jp.qPtr = qfp) (wait : jp.jStatus.state = .runWait → qfp = qtp) :
    Held cf rest (updSwitchJob cf acc (jobInQueueEnd jp qtp) qfp qtp
      (jobInQueueEnd jp qtp).jobBill.maxNumProcessors) := by
  have before : Held cf rest (acc, (jobInQueueEnd jp qtp).beforeSwitch qfp
      jp.jobBill.maxNumProcessors) :=
    h.unmoved ⟨h.ok.reserved, h.ok.running, h.ok.known⟩ h.fits ⟨queue.symm, rfl, rfl⟩ rfl rfl
  exact updSwitchJob_held before h.fits (fun _ => rfl) (fun running => (wait running).symm) live

theorem switchAJob_held {qtp : Nat} (live : jp.jStatus.state.isFinish = false)
    (wait : jp.jStatus.state = .runWait → jp.qPtr = qtp) :
    Held cf rest (switchAJob cf acc jp qtp) := by
  apply afterSwitch_held
  split
  · rename_i pend
    have dropped := (dropReserve_held h pend).pair
    obtain ⟨hPtr, time, snd⟩ := dropReserve_snd cf acc jp
    rw [snd] at dropped ⊢
    exact jobInQueueEnd_held dropped live rfl wait
  · exact jobInQueueEnd_held h live rfl wait

end

theorem updAll_place {jp' : JData} (place : SamePlace jp jp') (num hnum : Counters) :
    updAll cf acc jp' num hnum = updAll cf acc jp num hnum := by
  obtain ⟨queue, user, hosts⟩ := place
  have users : updUserData1 cf jp' num = updUserData1 cf jp num := by
    funext acc up
    simp only [updUserData1, hosts]
  have onHosts : updHostData1 cf jp' hnum = updHostData1 cf jp hnum := by
    funext acc h
    simp only [updHostData1, user]
  simp only [updAll, updQaccount, updQueueHAcct, updUserData, updHostData, queue, user, hosts,
    users, onHosts]

/-- What a modification leaves as it was. -/
structure Kept (jp job : JData) : Prop where
  place : SamePlace jp job
  id : job.jobId = jp.jobId
  state : job.jStatus.state = jp.jStatus.state
  reserve : job.jStatus.reserve = jp.jStatus.reserve
  unkwn : job.jStatus.unkwn = jp.jStatus.unkwn

theorem Kept.dropReserve (k : Kept jp job) (pend : jp.jStatus.state.isPend) :
    (dropReserve cf acc job).1 = (dropReserve cf acc jp).1 := by
  have removes : removeProxy cf job = removeProxy cf jp := by
    funext acc h
    simp only [removeProxy, k.id]
  have off : (updResCounters cf acc job { job.jStatus with reserve := false }) =
      updResCounters cf acc jp { jp.jStatus with reserve := false } := by
    unfold updResCounters
    simp only [k.state, k.reserve]
    cases state : jp.jStatus.state with
    | pend | psusp =>
      simp only [proxyHRsvJLRemoveEntry, removes, k.place.2.2, updAll_place k.place,
        JobState.isPend, JobState.isFinish, Bool.and_false, Bool.false_and,
        Bool.false_eq_true, if_false]
    | _ => simp [state, JobState.isPend] at pend
  unfold Mbd.dropReserve freeReserveSlots turnReserve deallocHosts
  simp only [k.reserve, off, JData.setReserve, k.place.2.2]
  split <;> rfl

theorem saveOldParameters_kept (save : Bool) (jp : JData) :
    Kept jp (if save then saveOldParameters jp else jp) := by
  cases save <;> exact ⟨⟨rfl, rfl, rfl⟩, rfl, rfl, rfl, rfl⟩

theorem saveOldParameters_fits (fits : rest.Fits jp) (save : Bool) :
    rest.Fits (if save then saveOldParameters jp else jp) := by
  split
  · intro wraps
    obtain ⟨asked, placed, -⟩ := JData.need_le.mp (fits wraps)
    exact JData.need_le.mpr ⟨asked, placed, by simpa [saveOldParameters] using asked⟩
  · exact fits

theorem OtherJobs.Fits.request (fits : rest.Fits jp) {sub : SubmitReq}
    (needs : rest.cell.1.wraps → sub.maxNumProcessors ≤ rest.most) :
    rest.Fits { jp with jobBill := sub } := by
  intro wraps
  obtain ⟨-, placed, saved⟩ := JData.need_le.mp (fits wraps)
  exact JData.need_le.mpr ⟨needs wraps, placed, saved⟩

variable (h : Held cf rest (acc, jp))
include h

theorem Kept.switch_held (k : Kept jp job) (fits : rest.Fits job)
    (pend : jp.jStatus.state.isPend) (qtp : Nat) :
    Held cf rest (updSwitchJob cf (Mbd.dropReserve cf acc job).1
      (jobInQueueEnd (Mbd.dropReserve cf acc job).2 qtp) jp.qPtr qtp
      jp.jobBill.maxNumProcessors) := by
  have known := h.ok.known pend
  have dropped := (dropReserve_held h pend).pair
  rw [← k.dropReserve pend] at dropped
  have idle : Idle (Mbd.dropReserve cf acc job).2 :=
    dropReserve_idle (by rw [k.state]; exact pend) (by rw [k.unkwn]; exact known)
  obtain ⟨hPtr, time, snd⟩ := dropReserve_snd cf acc jp
  obtain ⟨hPtr', time', snd'⟩ := dropReserve_snd cf acc job
  have user : (Mbd.dropReserve cf acc job).2.uPtr = jp.uPtr := by
    rw [snd']
    exact k.place.2.1
  have fits' : rest.Fits (Mbd.dropReserve cf acc job).2 := dropReserve_fits fits
  generalize Mbd.dropReserve cf acc job = r at dropped idle user fits' ⊢
  have before : Held cf rest (r.1, (jobInQueueEnd r.2 qtp).beforeSwitch jp.qPtr
      jp.jobBill.maxNumProcessors) := by
    refine dropped.idle (dropReserve_idle pend known) ⟨idle.pend, idle.off, idle.known⟩
      ?_ ?_ ?_ ?_ rfl
    · rw [snd]
      rfl
    · rw [snd]
      exact user
    · rw [snd]
      rfl
    · exact OtherJobs.Fits.request fits' fun wraps => (JData.need_le.mp (h.fits wraps)).1
  refine updSwitchJob_held before fits' (fun held => ?_) (fun wait => ?_) ?_
  · exact absurd (show r.2.jStatus.reserve from held) (by simp [idle.off])
  · exact absurd idle.pend (by simp [show r.2.jStatus.state = .runWait from wait, JobState.isPend])
  · have pend' := idle.pend
    show r.2.jStatus.state.isFinish = false
    revert pend'
    cases r.2.jStatus.state <;> decide

theorem Kept.modify_held (k : Kept jp job) (fits : rest.Fits job)
    (numReq : jp.jStatus.state.isPend →
      job.jobBill.maxNumProcessors = jp.jobBill.maxNumProcessors) :
    Held cf rest (acc, job) := by
  have ok : JobOk job := by
    refine ⟨?_, ?_, ?_⟩
    · rw [k.state, k.reserve, k.place.2.2]
      intro pend held
      rw [numReq pend]
      exact h.ok.reserved pend held
    · rw [k.state, k.reserve]
      exact h.ok.running
    · rw [k.state, k.unkwn]
      exact h.ok.known
  apply h.unmoved ok fits k.place
  · rw [JData.slots, JData.slots, k.state, k.reserve, k.place.2.2]
    cases state : jp.jStatus.state with
    | pend | psusp => rw [numReq (by rw [state]; rfl)]
    | _ => cases jp.jStatus.reserve <;> rfl
  · rw [JData.hostSlots, JData.hostSlots, k.state, k.reserve]

/-- A finished job has no share before and after. -/
theorem Held.finished (fin : jp.jStatus.state.isFinish) (state : job.jStatus = jp.jStatus)
    (fits : rest.Fits job) : Held cf rest (acc, job) := by
  have fin' : job.jStatus.state.isFinish := by
    rw [state]
    exact fin
  exact h.same (finish_ok fin') fits rfl fun a => by rw [share_finish fin', share_finish fin]

theorem handleJParameters_finish {sub : SubmitReq} {once : Bool}
    (needs : rest.cell.1.wraps → sub.maxNumProcessors ≤ rest.most)
    (fin : jp.jStatus.state.isFinish) (kind : ModifyKind) :
    Held cf rest (handleJParameters cf acc jp sub once kind) := by
  have pend : jp.jStatus.state.isPend = false := by
    revert fin
    cases jp.jStatus.state <;> decide
  have changed : ∀ (job : JData), job.jStatus = jp.jStatus → rest.Fits job →
      Held cf rest (if jp.qPtr ≠ sub.queue ∨
          job.jobBill.maxNumProcessors ≠ jp.jobBill.maxNumProcessors then
        updSwitchJob cf acc (jobInQueueEnd job sub.queue) jp.qPtr sub.queue
          jp.jobBill.maxNumProcessors
      else (acc, job)) := by
    intro job state fits
    split
    · have fin' : (jobInQueueEnd job sub.queue).jStatus.state.isFinish := by
        rw [jobInQueueEnd, state]
        exact fin
      have queue : (jobInQueueEnd job sub.queue).qPtr = sub.queue := rfl
      rw [updSwitchJob_finish fin' queue]
      exact h.finished fin state fits
    · exact h.finished fin state fits
  unfold handleJParameters
  simp only [pend, fin, Bool.false_eq_true, if_false, if_true]
  split
  · exact changed _ rfl (h.forget jp.candPtr fun wraps sub' held => by
      obtain rfl := Option.some.inj held
      exact needs wraps).fits
  · exact changed _ rfl (h.fits.request needs)

theorem handleJParameters_held {sub : SubmitReq} {once : Bool} {kind : ModifyKind}
    (needs : rest.cell.1.wraps → sub.maxNumProcessors ≤ rest.most) :
    Held cf rest (handleJParameters cf acc jp sub once kind) := by
  by_cases fin : jp.jStatus.state.isFinish
  · exact handleJParameters_finish h needs fin kind
  unfold handleJParameters
  rw [if_neg fin]
  split
  · rename_i pend
    have saved := saveOldParameters_kept (!jp.jobBill.modifyOnce && once) jp
    have fits := (saveOldParameters_fits h.fits (!jp.jobBill.modifyOnce && once)).request needs
    generalize (if (!jp.jobBill.modifyOnce && once) = true then saveOldParameters jp else jp) =
      job at saved fits ⊢
    split
    · have cleaned : Kept jp (cleanCandHosts { job with jobBill := sub }) := by
        rw [cleanCandHosts]
        split <;> exact ⟨saved.place, saved.id, saved.state, saved.reserve, saved.unkwn⟩
      exact cleaned.switch_held h (cleanCandHosts_fits fits) pend sub.queue
    · rename_i same
      push Not at same
      have changed : Kept jp { job with jobBill := sub } :=
        ⟨saved.place, saved.id, saved.state, saved.reserve, saved.unkwn⟩
      exact changed.modify_held h fits fun _ => same.2
  · rename_i started
    cases kind with
    | resReq => exact h
    | runJob =>
      have saved := saveOldParameters_kept once jp
      have changed : Kept jp { (if once then saveOldParameters jp else jp) with
          jobBill := sub } :=
        ⟨saved.place, saved.id, saved.state, saved.reserve, saved.unkwn⟩
      exact changed.modify_held h ((saveOldParameters_fits h.fits once).request needs)
        fun pend => absurd pend started
    | newSub =>
      refine h.forget jp.candPtr fun wraps sub' held => ?_
      obtain rfl := Option.some.inj held
      exact needs wraps

theorem JobStep.apply_held {c : JobStep} (made : c.Made jp) (clean : c.Clean jp)
    (needs : rest.cell.1.wraps → c.need ≤ rest.most) :
    Held cf rest (c.apply cf acc jp) := by
  cases c with
  | status new logIt => exact statusChange_held h made.1 made.2.1 made.2.2.1 clean
  | report new host => exact statusJob_held h made clean needs
  | dispatch hPtr => exact dispatchJob_held h made needs
  | reserve now hPtr => exact reserveJob_held h made.1 made.2 now
  | rebook now hPtr => exact rebook_held h made.1 made.2 now
  | release expired => exact releaseJob_held h made expired
  | setReserve on =>
    obtain ⟨ssusp | ususp | ⟨pend, rfl⟩, was⟩ := made
    · exact turnReserve_held h on was (by rw [ssusp]; rfl) fun _ pend =>
        absurd pend (by rw [ssusp]; decide)
    · exact turnReserve_held h on was (by rw [ususp]; rfl) fun _ pend =>
        absurd pend (by rw [ususp]; decide)
    · exact turnReserve_held h false was (isPend_canReserve pend) fun on => absurd on (by decide)
  | switch qtp => exact switchAJob_held h made clean
  | lose lostAndFound =>
    exact updSwitchJob_held h h.fits (fun _ => rfl) (fun _ => rfl) made
  | modify sub once kind => exact handleJParameters_held h needs
  | requeue stopped => exact handleRequeueJob_held h made stopped
  | unknown unkwn =>
    refine h.unmoved ⟨h.ok.reserved, h.ok.running, fun pend => ?_⟩ h.fits ⟨rfl, rfl, rfl⟩ rfl rfl
    have start : jp.jStatus.state.isStart := made
    have none : jp.jStatus.state.isStart = false := isPend_not_isStart pend
    simp [none] at start

end Changes

/-! Whole runs -/

/-- The counter is the sum of the shares, and has not been reset. -/
structure Inv (cf : Config) (a : Cell) (s : MbdState) : Prop where
  balanced : Balanced (share cf) s.acc.book s.jobs s.numJobs a
  ok : ∀ i < s.numJobs, JobOk (s.jobs i)
  kept : s.acc.negative a = 0

section Run

variable {cf : Config} {a : Cell} {s : MbdState}

theorem others_le (once : cf.Once) (wraps : a.1.wraps) (s : MbdState) (i : Nat) :
    others (share cf) s.jobs s.numJobs i a ≤ s.needOthers i := by
  rw [MbdState.needOthers, Nat.cast_sum]
  refine sum_le_sum fun k _ => ?_
  split
  · rename_i fin
    exact (share_finish fin a).le
  · exact share_le once _ wraps

/-- The jobs other than `i`, when what they need leaves room for `most` slots. -/
def Inv.beside (h : Inv cf a s) (i most : Nat)
    (room : a.1.wraps → cf.Once ∧ ((s.needOthers i + most : Nat) : Int) ≤ intMax) :
    OtherJobs cf where
  cell := a
  amount := others (share cf) s.jobs s.numJobs i a
  nonneg := others_nonneg (fun k hk => share_nonneg cf (h.ok k hk) a) i
  most := most
  room wraps := by
    obtain ⟨once, room⟩ := room wraps
    have held := others_le once wraps s i
    exact ⟨once, by omega⟩

section

variable (h : Inv cf a s)
include h

theorem Inv.held {i : Nat} (hi : i < s.numJobs) {n : Nat}
    (room : a.1.wraps → cf.Once ∧
      ((s.needOthers i + max (s.jobs i).need n : Nat) : Int) ≤ intMax) :
    Held cf (h.beside i (max (s.jobs i).need n) room) (s.acc, s.jobs i) :=
  ⟨h.ok i hi, fun _ => le_max_left _ _, h.balanced.split hi, h.kept⟩

theorem Inv.setJob {i : Nat} (hi : i < s.numJobs) {most : Nat}
    {room : a.1.wraps → cf.Once ∧ ((s.needOthers i + most : Nat) : Int) ≤ intMax}
    {r : Accounts × JData} (held : Held cf (h.beside i most room) r) :
    Inv cf a (s.setJob i r) := by
  refine ⟨Balanced.join hi held.book, ?_, held.kept⟩
  intro k hk
  by_cases same : k = i
  · subst same
    simp only [MbdState.setJob, Function.update_self]
    exact ⟨held.ok.reserved, held.ok.running, held.ok.known⟩
  · simp only [MbdState.setJob, Function.update_of_ne same]
    exact h.ok k hk

theorem Inv.newJob {jp : JData} (new : jp.jStatus = ⟨.pend, false, false, false⟩)
    (room : a.1.wraps → cf.Once ∧ (Step.newJob jp).Fits s) :
    Inv cf a (step cf s (.newJob jp)) := by
  have outside : Held cf (h.beside s.numJobs jp.need room) (s.acc, jp.gone) := by
    refine ⟨finish_ok rfl, fun _ => le_refl _, ?_, h.kept⟩
    rw [share_finish rfl, add_zero]
    exact h.balanced.others_self.symm
  have held := handleNewJob_held outside new
  refine ⟨h.balanced.add held.book, ?_, held.kept⟩
  intro k hk
  by_cases same : k = s.numJobs
  · subst same
    simp only [step, MbdState.setJob, Function.update_self]
    exact ⟨held.ok.reserved, held.ok.running, held.ok.known⟩
  · simp only [step, MbdState.setJob, Function.update_of_ne same]
    have : k < s.numJobs + 1 := hk
    exact h.ok k (by omega)

end

theorem step_inv (s : MbdState) (st : Step) (h : Inv cf a s) (allowed : st.Made s ∧ st.Clean s)
    (room : a.1.wraps → cf.Once ∧ st.Fits s) : Inv cf a (step cf s st) := by
  cases st with
  | newJob jp => exact h.newJob allowed.1.1 room
  | change i c =>
    obtain ⟨⟨hi, made⟩, clean⟩ := allowed
    exact h.setJob hi (JobStep.apply_held (h.held hi room) made clean fun _ => le_max_right _ _)

/-- No job has been submitted, and nothing is counted. -/
structure Fresh (s : MbdState) : Prop where
  numJobs : s.numJobs = 0
  book : ∀ a, s.acc.book a = 0
  negative : ∀ a, s.acc.negative a = 0

theorem Fresh.inv (h : Fresh s) : Inv cf a s := by
  refine ⟨?_, ?_, h.negative a⟩
  · rw [Ledger.Balanced, h.numJobs, h.book a, range_zero, sum_empty]
  · intro i hi
    simp [h.numJobs] at hi

/-! The counters of queues and users -/

def MbdState.unfinished (s : MbdState) : Finset Nat :=
  (Finset.range s.numJobs).filter fun i => (s.jobs i).jStatus.state.isFinish = false

def jobUsers (cf : Config) (jp : JData) : List Nat := jp.uPtr :: (cf.user jp.uPtr).gPtr

def started (count : Counters) : Int :=
  count .numRUN + count .numSSUSP + count .numUSUSP + count .numRESERVE

theorem slots_numJobs (jp : JData) : jp.slots .numJobs = jp.slots .numPEND + started jp.slots := by
  rw [started, JData.slots]
  cases jp.jStatus.state <;> cases jp.jStatus.reserve <;> simp [slotsOf, slots]

theorem slots_finish {jp : JData} (fin : jp.jStatus.state.isFinish) (c : Counter) :
    jp.slots c = 0 := by
  rw [JData.slots]
  cases state : jp.jStatus.state <;> cases c <;>
    first | rfl | simp [state, JobState.isFinish] at fin

theorem sum_unfinished (s : MbdState) {f : Nat → Int}
    (zero : ∀ i, (s.jobs i).jStatus.state.isFinish → f i = 0) :
    ∑ i ∈ Finset.range s.numJobs, f i = ∑ i ∈ s.unfinished, f i := by
  rw [MbdState.unfinished, sum_filter]
  apply sum_congr rfl
  intro i _
  split
  · rfl
  · rename_i fin
    exact zero i (by simpa using fin)

theorem Inv.queue {q : Nat} {c : Counter} (h : Inv cf (.queue q, c) s) :
    (s.acc.queues q).count c =
      ∑ i ∈ s.unfinished, if (s.jobs i).qPtr = q then (s.jobs i).slots c else 0 := by
  rw [← sum_unfinished s (fun i fin => by rw [slots_finish fin c, ite_self])]
  refine h.balanced.trans (sum_congr rfl fun i _ => ?_)
  simp only [share, post, eq_comm]

theorem Inv.user {u : Nat} {c : Counter} (h : Inv cf (.user u, c) s) :
    (s.acc.users u).count c =
      ∑ i ∈ s.unfinished, (jobUsers cf (s.jobs i)).count u * (s.jobs i).slots c := by
  rw [← sum_unfinished s (fun i fin => by rw [slots_finish fin c, mul_zero])]
  exact h.balanced

/-- The counters of every queue and user are the sums over the unfinished jobs,
`numJobs` is the sum of the other five, and `addValue` has reset nothing. -/
structure CountersExact (cf : Config) (s : MbdState) : Prop where
  queue : ∀ q c, (s.acc.queues q).count c =
    ∑ i ∈ s.unfinished, if (s.jobs i).qPtr = q then (s.jobs i).slots c else 0
  user : ∀ u c, (s.acc.users u).count c =
    ∑ i ∈ s.unfinished, (jobUsers cf (s.jobs i)).count u * (s.jobs i).slots c
  queueJobs : ∀ q, (s.acc.queues q).count .numJobs =
    (s.acc.queues q).count .numPEND + started (s.acc.queues q).count
  userJobs : ∀ u, (s.acc.users u).count .numJobs =
    (s.acc.users u).count .numPEND + started (s.acc.users u).count
  noReset : ∀ a, s.acc.negative a = 0

theorem Inv.exact (h : ∀ a, Inv cf a s) : CountersExact cf s := by
  have queue := fun q c => (h (.queue q, c)).queue
  have user := fun u c => (h (.user u, c)).user
  refine ⟨queue, user, ?_, ?_, fun a => (h a).kept⟩
  · intro q
    simp only [started, queue q, ← sum_add_distrib]
    apply sum_congr rfl
    intro i _
    split
    · exact slots_numJobs (s.jobs i)
    · rfl
  · intro u
    simp only [started, user u, ← sum_add_distrib]
    apply sum_congr rfl
    intro i _
    rw [slots_numJobs, started]
    ring

end Run

def noJobsYet : MbdState where
  acc :=
    { queues := fun _ =>
        { count := fun _ => 0, uAcct := fun _ => none, hAcct := fun _ => none, numUsable := 0 }
      users := fun _ => { count := fun _ => 0, hAcct := fun _ => none }
      hosts := fun _ =>
        { count := fun _ => 0, uAcct := fun _ => none, numDispJobs := 0, pxyRsvJL := [] }
      negative := fun _ => 0 }
  jobs := pendingJob
  numJobs := 0
  filed _ := rfl

theorem noJobsYet_fresh : Fresh noJobsYet := by
  refine ⟨rfl, ?_, fun _ => rfl⟩
  rintro ⟨a, c⟩
  cases a <;> rfl

def oneJobRun : List Step :=
  [.newJob (pendingJob 0), .change 0 (.reserve 5 [0]), .change 0 (.dispatch [0]),
    .change 0 (.status .ususp true), .change 0 (.setReserve true), .change 0 (.switch 1),
    .change 0 (.status .run true), .newJob (pendingJob 1), .change 0 (.status .done true)]

def modifiedOnceRun : List Step :=
  [.newJob (pendingJob 0),
    .change 0 (.modify
      { (pendingJob 0).jobBill with maxNumProcessors := 4, modifyOnce := true } true .newSub),
    .change 0 (.status .exit true)]

end Jhlava.Mbd
