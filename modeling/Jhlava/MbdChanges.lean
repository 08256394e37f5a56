import Jhlava.MbdShares

/-! The functions that change a job keep the book: what each of them needs so
that the counters hold the job's share afterwards. -/
namespace Jhlava.Mbd
open TransitionRun

variable {cf : Config} {rest : OtherJobs cf} {acc acc' : Accounts} {jp jp' : JData}

/-! Pending jobs without a reservation -/

structure Idle (jp : JData) : Prop where
  pend : jp.jStatus.state.isPend
  off : jp.jStatus.reserve = false
  known : jp.jStatus.unkwn = false

theorem Idle.ok (i : Idle jp) : JobOk jp := by
  refine ⟨?_, fun _ => i.off, fun _ => i.known⟩
  intro _ held
  exact absurd held (by simp [i.off])

theorem Idle.slots (i : Idle jp) : jp.slots =
    Mbd.slots jp.jobBill.maxNumProcessors jp.jobBill.maxNumProcessors 0 0 0 0 := by
  have pend := i.pend
  rw [JData.slots, i.off]
  cases state : jp.jStatus.state <;> first | rfl | simp [state, JobState.isPend] at pend

theorem Idle.hostSlots (i : Idle jp) : jp.hostSlots = fun _ => 0 := by
  have pend := i.pend
  rw [JData.hostSlots, i.off]
  funext c
  cases state : jp.jStatus.state <;> cases c <;>
    first | rfl | simp [state, JobState.isPend] at pend

theorem Idle.share_eq (i : Idle jp) (i' : Idle jp') (queue : jp'.qPtr = jp.qPtr)
    (user : jp'.uPtr = jp.uPtr)
    (numReq : jp'.jobBill.maxNumProcessors = jp.jobBill.maxNumProcessors) (a : Cell) :
    share cf jp' a = share cf jp a := by
  have place : SamePlace { jp with hPtr := jp'.hPtr } jp' := ⟨queue, user, rfl⟩
  rw [share, share, i.slots, i.hostSlots, i'.slots, i'.hostSlots, numReq, post_place place,
    post_hosts]

theorem OtherJobs.Fits.hosts (fits : rest.Fits jp) {hPtr : List Nat}
    (placed : rest.cell.1.wraps → hPtr.length ≤ rest.most) :
      rest.Fits { jp with hPtr := hPtr } := by
  intro wraps
  obtain ⟨asked, -, saved⟩ := JData.need_le.mp (fits wraps)
  exact JData.need_le.mpr ⟨asked, placed wraps, saved⟩

theorem cleanCandHosts_fits (fits : rest.Fits jp) : rest.Fits (cleanCandHosts jp) := by
  unfold cleanCandHosts
  split <;> exact fits

theorem isPend_canReserve {state : JobState} (pend : state.isPend) : state.canReserve := by
  cases state <;> first | rfl | exact absurd pend (by decide)

theorem freeReserveSlots_snd (cf : Config) (acc : Accounts) (jp : JData) :
    (freeReserveSlots cf acc jp).2 =
      { jp with
        jStatus := { jp.jStatus with reserve := false }
        hPtr := if jp.jStatus.reserve then [] else jp.hPtr } := by
  unfold freeReserveSlots
  cases held : jp.jStatus.reserve with
  | true => rfl
  | false =>
    simp only [Bool.false_eq_true, if_false]
    rw [← held]

theorem startHold_eq (cf : Config) (now : Int) (jp : JData) :
    ∃ time hold, startHold cf now jp = { jp with reserveTime := time, slotHoldTime := hold } := by
  unfold startHold
  split
  · exact ⟨_, _, rfl⟩
  · exact ⟨jp.reserveTime, jp.slotHoldTime, rfl⟩

section

variable (h : Held cf rest (acc, jp))
include h

theorem Held.idle (i : Idle jp) (i' : Idle jp') (queue : jp'.qPtr = jp.qPtr)
    (user : jp'.uPtr = jp.uPtr)
    (numReq : jp'.jobBill.maxNumProcessors = jp.jobBill.maxNumProcessors) (fits : rest.Fits jp')
    (view : acc'.view = acc.view) : Held cf rest (acc', jp') :=
  h.same i'.ok fits view (i.share_eq i' queue user numReq)

theorem freeReserveSlots_held (pend : jp.jStatus.state.isPend) :
    Held cf rest (freeReserveSlots cf acc jp) ∧ Idle (freeReserveSlots cf acc jp).2 := by
  have known := h.ok.known pend
  refine ⟨?_, by rw [freeReserveSlots_snd]; exact ⟨pend, rfl, known⟩⟩
  unfold freeReserveSlots
  split
  · rename_i held
    have off : Held cf rest (turnReserve cf acc jp false) :=
      turnReserve_held h false held (isPend_canReserve pend) (fun on => absurd on (by decide))
    exact off.idle ⟨pend, rfl, known⟩ ⟨pend, rfl, known⟩ rfl rfl rfl
      (off.fits.hosts fun _ => Nat.zero_le _)
        (foldl_view Accounts.view (bumpDispJobs_view (-1)) jp.hPtr _)
  · exact h

theorem allocHosts_held (i : Idle jp) {hPtr : List Nat}
    (placed : rest.cell.1.wraps → hPtr.length ≤ rest.most) :
    Held cf rest (allocHosts acc jp hPtr) :=
  h.idle i ⟨i.pend, i.off, i.known⟩ rfl rfl rfl (h.fits.hosts placed)
    (foldl_view Accounts.view (bumpDispJobs_view 1) hPtr acc)

theorem reserveSlots_held (i : Idle jp) (fits : jp.hPtr.length ≤ jp.jobBill.maxNumProcessors)
    (now : Int) : Held cf rest (reserveSlots cf now acc jp) := by
  have i' : ∀ time hold, Idle { jp with reserveTime := time, slotHoldTime := hold } :=
    fun _ _ => ⟨i.pend, i.off, i.known⟩
  unfold reserveSlots
  rw [i.off]
  obtain ⟨time, hold, same⟩ := startHold_eq cf now jp
  rw [same]
  have on : Held cf rest (turnReserve cf acc _ true) :=
    turnReserve_held (h.idle i (i' time hold) rfl rfl rfl h.fits rfl) true i.off
      (isPend_canReserve i.pend) (fun _ _ => fits)
  exact on.same on.ok on.fits (chargeUsable_view _ _) fun _ => rfl

theorem rebook_held (pend : jp.jStatus.state.isPend) {hPtr : List Nat}
    (fits : hPtr.length ≤ jp.jobBill.maxNumProcessors) (now : Int) :
    Held cf rest (rebook cf now acc jp hPtr) := by
  obtain ⟨free, idle⟩ := freeReserveSlots_held h pend
  have idle' : Idle { (freeReserveSlots cf acc jp).2 with hPtr := hPtr } :=
    ⟨idle.pend, idle.off, idle.known⟩
  have other := free.idle idle idle' rfl rfl rfl (free.fits.hosts fun wraps =>
    fits.trans (JData.need_le.mp (h.fits wraps)).1) rfl
  unfold rebook
  split
  · exact other
  · apply reserveSlots_held other idle'
    rw [freeReserveSlots_snd]
    exact fits

end

/-! Leaving and entering the book -/

def JData.gone (jp : JData) : JData := { jp with jStatus := { jp.jStatus with state := .exit } }

theorem share_finish (fin : jp.jStatus.state.isFinish) (a : Cell) : share cf jp a = 0 := by
  have slots : jp.slots = fun _ => 0 := by
    rw [JData.slots]
    funext c
    cases state : jp.jStatus.state <;> cases c <;>
      first | rfl | simp [state, JobState.isFinish] at fin
  have hosts : jp.hostSlots = fun _ => 0 := by
    rw [JData.hostSlots]
    funext c
    cases state : jp.jStatus.state <;> cases c <;>
      first | rfl | simp [state, JobState.isFinish] at fin
  rw [share, slots, hosts, post_zero]

theorem finish_ok (fin : jp.jStatus.state.isFinish) : JobOk jp := by
  have pend : jp.jStatus.state.isPend = false := by
    cases state : jp.jStatus.state <;> first | rfl | simp [state, JobState.isFinish] at fin
  refine ⟨fun h => absurd h (by simp [pend]), ?_, fun h => absurd h (by simp [pend])⟩
  rintro (run | wait)
  · simp [run, JobState.isFinish] at fin
  · simp [wait, JobState.isFinish] at fin

theorem hostSlots_numPEND (jp : JData) : jp.hostSlots .numPEND = 0 := by
  rw [JData.hostSlots]
  cases jp.jStatus.state <;> cases jp.jStatus.reserve <;> rfl

theorem perHost_enter (jp : JData) : PerHost jp.hPtr jp.slots jp.hostSlots := by
  have slots : ∀ c, jp.slots c = slotsOf .exit false jp.hPtr.length 0 c + jp.slots c := by
    intro c
    cases c <;> exact (zero_add _).symm
  have hosts : ∀ c, jp.hostSlots c = hostSlotsOf .exit false c + jp.hostSlots c := by
    intro c
    cases c <;> exact (zero_add _).symm
  exact perHost_diff slots hosts

variable {num hnum : Counters}

theorem PerHost.neg {hPtr : List Nat} (h : PerHost hPtr num hnum) :
    PerHost hPtr (fun c => -num c) fun c => -hnum c := by
  intro some_ c
  have amount := h some_ c
  cases c <;> simp only [onlyStarted, addOneAbs] at amount ⊢ <;> split_ifs at amount ⊢ <;> omega

section

variable (h : Held cf rest (acc, jp))
include h

theorem Held.leave {x : JData} (atx : SamePlace jp x) :
    Held cf rest
      (updAll cf acc x (fun c => -jp.slots c) (fun c => -jp.hostSlots c), jp.gone) := by
  have gone : jp.gone.jStatus.state.isFinish := rfl
  have pend : (fun c => -jp.hostSlots c) Counter.numPEND = 0 := by
    simp [hostSlots_numPEND]
  apply h.posted (updAll_books cf x _ _ pend (atx.2.2 ▸ (perHost_enter jp).neg)) (finish_ok gone)
    h.fits
  intro a
  rw [share_finish gone, post_place atx, share, ← post_add]
  simp [post_zero]

theorem Held.leavePend (i : Idle jp) {x : JData} (queue : x.qPtr = jp.qPtr)
    (user : x.uPtr = jp.uPtr) :
    Held cf rest (updPend cf acc x (-jp.jobBill.maxNumProcessors), jp.gone) := by
  have gone : jp.gone.jStatus.state.isFinish := rfl
  have place : SamePlace { jp with hPtr := x.hPtr } x := ⟨queue, user, rfl⟩
  have zero : (fun c => Mbd.slots jp.jobBill.maxNumProcessors jp.jobBill.maxNumProcessors
      0 0 0 0 c + Mbd.slots (-jp.jobBill.maxNumProcessors) (-jp.jobBill.maxNumProcessors)
      0 0 0 0 c) = fun _ => 0 := by
    funext c
    cases c <;> simp [Mbd.slots]
  apply h.posted (updPend_books x _) (finish_ok gone) h.fits
  intro a
  rw [share_finish gone, post_place place, post_hosts, share, i.slots, i.hostSlots, ← post_add,
    zero]
  simp [post_zero]

theorem Held.enter (gone : jp.jStatus.state.isFinish) (ok : JobOk jp') (fits : rest.Fits jp') :
    Held cf rest (updAll cf acc jp' jp'.slots jp'.hostSlots, jp') := by
  apply h.posted (updAll_books cf jp' _ _ (hostSlots_numPEND jp') (perHost_enter jp')) ok fits
  intro a
  rw [share_finish gone, zero_add]
  rfl

theorem Held.enterPend (gone : jp.jStatus.state.isFinish) (i : Idle jp') (fits : rest.Fits jp') :
    Held cf rest (updPend cf acc jp' jp'.jobBill.maxNumProcessors, jp') := by
  apply h.posted (updPend_books jp' _) i.ok fits
  intro a
  rw [share_finish gone, zero_add, share, i.slots, i.hostSlots]

end

/-! Queue switches -/

def JData.beforeSwitch (jp : JData) (qfp oldNumReq : Nat) : JData :=
  { jp with qPtr := qfp, jobBill := { jp.jobBill with maxNumProcessors := oldNumReq } }

variable {new : JobState} {oldNumReq qfp qtp : Nat}

theorem moveCounts_snd (cf : Config) (acc : Accounts) (jp : JData) (qfp qtp oldNumReq : Nat) :
    ∃ q, (moveCounts cf acc jp qfp qtp oldNumReq).2 = { jp with qPtr := q } := by
  unfold moveCounts
  split <;> first | exact ⟨qtp, rfl⟩ | exact ⟨jp.qPtr, rfl⟩

theorem Held.turnOn {r : Accounts × JData} (h : Held cf rest r) (jp : JData) {q : Nat}
    (snd : r.2 = { jp with qPtr := q }) (off : jp.jStatus.reserve = false)
    (can : jp.jStatus.state.canReserve)
    (fits : jp.jStatus.state.isPend → jp.hPtr.length ≤ jp.jobBill.maxNumProcessors) :
    Held cf rest (turnReserve cf r.1 r.2 true) := by
  obtain ⟨acc, job⟩ := r
  subst snd
  exact turnReserve_held h true off can fun _ pend => fits pend

section

variable (h : Held cf rest (acc, jp.beforeSwitch qfp oldNumReq))
include h

theorem Held.switch (fits : rest.Fits jp) (started : jp.jStatus.state.isPend = false)
    (off : jp.jStatus.reserve = false)
    (slots : (jp.beforeSwitch qfp oldNumReq).slots = num) (slots' : jp.slots = num)
    (hosts : jp.hostSlots = hnum) :
    Held cf rest
      (updAll cf (updAll cf acc { jp with qPtr := qfp } (fun c => -num c) fun c => -hnum c)
        { jp with qPtr := qtp } num hnum, { jp with qPtr := qtp }) := by
  have ok : JobOk { jp with qPtr := qtp } := by
    refine ⟨fun pend => absurd pend (by simp [started]), fun _ => off,
      fun pend => absurd pend (by simp [started])⟩
  have left := h.leave (x := { jp with qPtr := qfp }) ⟨rfl, rfl, rfl⟩
  have entered := left.enter rfl ok fits
  have same : ({ jp with qPtr := qtp } : JData).slots = num := slots'
  subst hosts
  rw [slots, same] at entered
  exact entered

theorem moveCounts_held (fits : rest.Fits jp) (off : jp.jStatus.reserve = false)
    (wait : jp.jStatus.state = .runWait → jp.qPtr = qfp)
    (live : jp.jStatus.state.isFinish = false) :
    Held cf rest (moveCounts cf acc jp qfp qtp oldNumReq) := by
  unfold moveCounts
  cases state : jp.jStatus.state with
  | pend | psusp =>
    have pend : jp.jStatus.state.isPend := by
      rw [state]
      rfl
    have known : jp.jStatus.unkwn = false := h.ok.known pend
    rw [known]
    have left := h.leavePend (x := { jp with qPtr := qfp }) ⟨pend, off, known⟩ rfl rfl
    exact left.enterPend rfl ⟨pend, off, known⟩ fits
  | run | ssusp | ususp =>
    apply h.switch fits (by rw [state]; rfl) off
    all_goals
      simp only [JData.slots, JData.hostSlots, JData.beforeSwitch, off, state, slotsOf, hostSlotsOf]
  | runWait =>
    have place : SamePlace (jp.beforeSwitch qfp oldNumReq) jp := ⟨wait state, rfl, rfl⟩
    have ok : JobOk jp := by
      refine ⟨fun pend => ?_, fun _ => off, fun pend => ?_⟩ <;>
        simp [state, JobState.isPend] at pend
    apply h.unmoved ok fits place
    · simp only [JData.slots, JData.beforeSwitch, state, slotsOf]
    · rfl
  | exit | done => simp [state, JobState.isFinish] at live

theorem updSwitchJob_held (fits : rest.Fits jp)
    (same : jp.jStatus.reserve → oldNumReq = jp.jobBill.maxNumProcessors)
    (wait : jp.jStatus.state = .runWait → jp.qPtr = qfp)
    (live : jp.jStatus.state.isFinish = false) :
    Held cf rest (updSwitchJob cf acc jp qfp qtp oldNumReq) := by
  unfold updSwitchJob
  split
  · rename_i held
    obtain rfl := same held
    have can : jp.jStatus.state.canReserve := h.ok.canReserve held live
    have off : Held cf rest (turnReserve cf acc { jp with qPtr := qfp } false) :=
      turnReserve_held h false held can (fun on => absurd on (by decide))
    have moved : Held cf rest (moveCounts cf (turnReserve cf acc { jp with qPtr := qfp } false).1
        { jp.setReserve false with qPtr := qtp } qfp qtp jp.jobBill.maxNumProcessors) := by
      refine moveCounts_held off fits rfl ?_ live
      intro running
      simp [show jp.jStatus.state = .runWait from running, JobState.canReserve] at can
    obtain ⟨q, snd⟩ := moveCounts_snd cf (turnReserve cf acc { jp with qPtr := qfp } false).1
      { jp.setReserve false with qPtr := qtp } qfp qtp jp.jobBill.maxNumProcessors
    exact moved.turnOn (jp.setReserve false) snd rfl can fun pend => h.ok.reserved pend held
  · rename_i off
    exact moveCounts_held h fits (by simpa using off) wait live

end

theorem updSwitchJob_finish (fin : jp.jStatus.state.isFinish) (queue : jp.qPtr = qtp) :
    updSwitchJob cf acc jp qfp qtp oldNumReq = (acc, jp) := by
  subst queue
  unfold updSwitchJob moveCounts turnReserve updResCounters
  cases state : jp.jStatus.state with
  | exit | done =>
    split
    · rename_i held
      simp only [JData.setReserve, state, ← held]
      rw [← state]
    · rfl
  | _ => simp [state, JobState.isFinish] at fin

/-! Status changes -/

theorem dropReserve_snd (cf : Config) (acc : Accounts) (jp : JData) :
    ∃ hPtr time, (dropReserve cf acc jp).2 =
      { jp with
        jStatus := { jp.jStatus with reserve := false }
        hPtr := hPtr
        reserveTime := time } := by
  unfold dropReserve
  cases held : jp.jStatus.reserve with
  | true =>
    simp only [if_true]
    rw [freeReserveSlots_snd]
    exact ⟨_, _, rfl⟩
  | false =>
    refine ⟨jp.hPtr, jp.reserveTime, ?_⟩
    simp only [Bool.false_eq_true, if_false]
    rw [← held]

theorem dropReserve_idle (pend : jp.jStatus.state.isPend) (known : jp.jStatus.unkwn = false) :
    Idle (dropReserve cf acc jp).2 := by
  obtain ⟨hPtr, time, snd⟩ := dropReserve_snd cf acc jp
  rw [snd]
  exact ⟨pend, rfl, known⟩

theorem dropReserve_fits (fits : rest.Fits jp) : rest.Fits (dropReserve cf acc jp).2 := by
  unfold dropReserve
  split
  · rename_i held
    dsimp only
    rw [freeReserveSlots_snd, if_pos held]
    exact fits.hosts fun _ => Nat.zero_le _
  · exact fits

theorem dropReserve_held (h : Held cf rest (acc, jp)) (pend : jp.jStatus.state.isPend) :
    Held cf rest (dropReserve cf acc jp) := by
  unfold dropReserve
  split
  · obtain ⟨free, i⟩ := freeReserveSlots_held h pend
    exact free.idle i ⟨i.pend, i.off, i.known⟩ rfl rfl rfl free.fits rfl
  · exact h

/-- The changes of state in which a reservation is counted right: it stays
while the job stays pending, a pending job that finishes loses it if the change
is logged, and a started job loses it unless it goes to `SSUSP`. -/
def reserveCounted (old new : JobState) (logIt : Bool) : Bool :=
  (old.isPend && new.isPend) || (old = .pend && new.isFinish && logIt) ||
    (old.isStart && new ≠ .ssusp && new ≠ .psusp && logIt)

/-- The job after `resetReserve`, which may take away the reservation only. -/
structure Reset (jp jp' : JData) (new : JobState) : Prop where
  eq : ∃ reserve hPtr time, jp' =
    { jp with
      jStatus := { jp.jStatus with reserve := reserve }
      hPtr := hPtr
      reserveTime := time }
  off : jp'.jStatus.reserve = false ∨ jp.jStatus.state.isPend ∧ new.isPend

theorem Reset.same (off : jp.jStatus.reserve = false ∨ jp.jStatus.state.isPend ∧ new.isPend) :
    Reset jp jp new :=
  ⟨⟨jp.jStatus.reserve, jp.hPtr, jp.reserveTime, rfl⟩, off⟩

theorem isPend_not_isStart {state : JobState} (pend : state.isPend) : state.isStart = false := by
  cases state <;> first | rfl | exact absurd pend (by decide)

theorem resetReserve_pend (pend : jp.jStatus.state.isPend) (held : jp.jStatus.reserve = true) :
    resetReserve cf acc jp new =
      if (new = .psusp || new.isFinish) && jp.jStatus.state = .pend then dropReserve cf acc jp
      else (acc, jp) := by
  have start := isPend_not_isStart pend
  obtain ⟨hPtr, time, snd⟩ := dropReserve_snd cf acc jp
  unfold resetReserve
  rw [held]
  simp only [Bool.not_true, Bool.false_eq_true, if_false]
  split
  · rw [snd]
    simp [start]
  · simp [start]

theorem resetReserve_start (start : jp.jStatus.state.isStart) (held : jp.jStatus.reserve = true)
    (ssusp : new ≠ .ssusp) (psusp : new ≠ .psusp) :
    resetReserve cf acc jp new = turnReserve cf acc jp false := by
  have ne : jp.jStatus.state ≠ .pend := by
    intro pend
    simp [pend, JobState.isStart] at start
  have cond : (new = .run || new = .runWait || new.isFinish || new = .ususp || new = .pend) := by
    revert ssusp psusp
    cases new <;> decide
  unfold resetReserve
  rw [held]
  simp [ne, start, cond]

theorem resetReserve_held (h : Held cf rest (acc, jp))
    (res : jp.jStatus.reserve → reserveCounted jp.jStatus.state new true) :
    Held cf rest (resetReserve cf acc jp new) ∧ Reset jp (resetReserve cf acc jp new).2 new := by
  cases held : jp.jStatus.reserve with
  | false =>
    have same : resetReserve cf acc jp new = (acc, jp) := by
      unfold resetReserve
      simp [held]
    rw [same]
    exact ⟨h, Reset.same (.inl held)⟩
  | true =>
    have counts := res held
    simp only [reserveCounted, Bool.or_eq_true, Bool.and_eq_true, decide_eq_true_eq,
      and_true, or_assoc] at counts
    rcases counts with ⟨pend, pend'⟩ | ⟨pend, finish⟩ | ⟨⟨start, ssusp⟩, psusp⟩
    · rw [resetReserve_pend pend held]
      split
      · obtain ⟨hPtr, time, snd⟩ := dropReserve_snd cf acc jp
        exact ⟨dropReserve_held h pend, ⟨_, hPtr, time, snd⟩, .inr ⟨pend, pend'⟩⟩
      · exact ⟨h, Reset.same (.inr ⟨pend, pend'⟩)⟩
    · have pend' : jp.jStatus.state.isPend := by
        rw [pend]
        rfl
      rw [resetReserve_pend pend' held, if_pos (by simp [pend, finish])]
      obtain ⟨hPtr, time, snd⟩ := dropReserve_snd cf acc jp
      exact ⟨dropReserve_held h pend', ⟨_, hPtr, time, snd⟩, .inl (by rw [snd])⟩
    · rw [resetReserve_start start held ssusp psusp]
      have live : jp.jStatus.state.isFinish = false := by
        cases state : jp.jStatus.state <;> first | rfl | simp [state, JobState.isStart] at start
      refine ⟨turnReserve_held h false held (h.ok.canReserve held live)
        (fun on => absurd on (by decide)), ⟨false, jp.hPtr, jp.reserveTime, rfl⟩, .inl rfl⟩

def FinishOk (jp : JData) : Prop :=
  ∀ sub ∈ jp.newSub, jp.jobBill.modifyOnce →
    (sub.askedHostsOk → sub.queue = jp.qPtr) ∧
      (jp.jStatus.state.isPend → sub.maxNumProcessors = jp.jobBill.maxNumProcessors)

instance (jp : JData) : Decidable (FinishOk jp) :=
  inferInstanceAs (Decidable (∀ sub ∈ jp.newSub, _))

/-- The parameters saved for a job that was modified once come back. -/
theorem handleFinishJob_cases (jp : JData) :
    handleFinishJob jp = jp ∨
      ∃ sub ∈ jp.newSub, jp.jobBill.modifyOnce ∧ handleFinishJob jp = changeJobParams jp sub := by
  unfold handleFinishJob
  cases jp.newSub with
  | none => exact .inl rfl
  | some sub =>
    by_cases once : jp.jobBill.modifyOnce
    · exact .inr ⟨sub, rfl, once, if_pos once⟩
    · exact .inl (if_neg once)

theorem handleFinishJob_keeps (jp : JData) :
    (handleFinishJob jp).uPtr = jp.uPtr ∧ (handleFinishJob jp).hPtr = jp.hPtr ∧
      ∃ once, (handleFinishJob jp).jStatus = { jp.jStatus with modifyOnce := once } := by
  unfold handleFinishJob changeJobParams
  repeat' split
  all_goals exact ⟨rfl, rfl, _, rfl⟩

theorem handleFinishJob_qPtr
    (queue : ∀ sub ∈ jp.newSub, jp.jobBill.modifyOnce → sub.askedHostsOk → sub.queue = jp.qPtr) :
    (handleFinishJob jp).qPtr = jp.qPtr := by
  rcases handleFinishJob_cases jp with same | ⟨sub, new, once, back⟩
  · rw [same]
  · rw [back, changeJobParams]
    split
    · rfl
    · rename_i asked
      exact queue sub new once (by simpa using asked)

theorem handleFinishJob_numReq (numReq : ∀ sub ∈ jp.newSub, jp.jobBill.modifyOnce →
      sub.maxNumProcessors = jp.jobBill.maxNumProcessors) :
    (handleFinishJob jp).jobBill.maxNumProcessors = jp.jobBill.maxNumProcessors := by
  rcases handleFinishJob_cases jp with same | ⟨sub, new, once, back⟩
  · rw [same]
  · rw [back, changeJobParams]
    split <;> exact numReq sub new once

theorem saved_le {bill : SubmitReq} {n : Nat} (asked : bill.maxNumProcessors ≤ n) (save : Bool) :
    ∀ sub ∈ (if save then some bill else none), sub.maxNumProcessors ≤ n := by
  cases save
  · simp
  · simpa using asked

theorem changeJobParams_fits (fits : rest.Fits jp) {sub : SubmitReq} (new : sub ∈ jp.newSub) :
    rest.Fits (changeJobParams jp sub) := by
  intro wraps
  obtain ⟨asked, placed, saved⟩ := JData.need_le.mp (fits wraps)
  have last := saved sub new
  rw [JData.need_le]
  unfold changeJobParams
  split
  · exact ⟨last, placed, by simp⟩
  · exact ⟨last, placed, saved_le asked _⟩

theorem handleFinishJob_fits (fits : rest.Fits jp) : rest.Fits (handleFinishJob jp) := by
  rcases handleFinishJob_cases jp with same | ⟨sub, new, -, back⟩
  · rwa [same]
  · exact back ▸ changeJobParams_fits fits new

variable (h : Held cf rest (acc, jp))
include h

theorem changeStatus_held (tr : counted jp.jStatus.state new) (off : jp.jStatus.reserve = false)
    (fin : new.isFinish → FinishOk jp) :
    Held cf rest (changeStatus cf acc jp jp.jStatus.state new) := by
  have moved : ∀ time, Held cf rest (updCounters cf acc
      { jp.setState new with reserveTime := time } jp.jStatus.state,
      { jp.setState new with reserveTime := time }) :=
    fun time => updCounters_held h ⟨rfl, rfl, rfl⟩ off off rfl h.fits (fun _ => rfl) tr
  unfold changeStatus
  split
  · exact moved 0
  · split
    · -- the counters are updated for the parameters that come back
      rename_i finish
      have ok := fin finish
      obtain ⟨user, hosts, once, status⟩ := handleFinishJob_keeps (jp.setState new)
      have queue : (handleFinishJob (jp.setState new)).qPtr = jp.qPtr :=
        handleFinishJob_qPtr fun sub new once => (ok sub new once).1
      refine updCounters_held h ⟨queue, user, hosts⟩ off ?_ ?_ (handleFinishJob_fits h.fits) ?_ ?_
      · rw [status]
        exact off
      · rw [status]
        rfl
      · intro pend
        exact handleFinishJob_numReq fun sub new once => (ok sub new once).2 pend
      · rw [status]
        exact tr
    · split
      · rename_i back
        have pend : new = .pend := by
          simp only [Bool.and_eq_true, decide_eq_true_eq] at back
          exact back.1
        subst pend
        have idle : Idle (jp.setState .pend) := ⟨rfl, off, rfl⟩
        exact (moved jp.reserveTime).idle idle ⟨rfl, off, rfl⟩ rfl rfl rfl
          (h.fits.hosts fun _ => Nat.zero_le _) rfl
      · split
        · exact moved 0
        · exact moved jp.reserveTime

theorem changeStatus_pend (pend : jp.jStatus.state.isPend) (pend' : new.isPend) :
    Held cf rest (changeStatus cf acc jp jp.jStatus.state new) := by
  have counters : updCounters cf acc (jp.setState new) jp.jStatus.state = acc := by
    unfold updCounters
    simp [JData.setState, pend, pend']
  have start := isPend_not_isStart pend
  have start' := isPend_not_isStart pend'
  have others : new.isFinish = false ∧ new ≠ .run ∧ new ≠ .runWait := by
    revert pend'
    cases new <;> decide
  have same : changeStatus cf acc jp jp.jStatus.state new = (acc, jp.setState new) := by
    unfold changeStatus
    simp [start, start', others, counters]
  have base : new.base = jp.jStatus.state.base := by
    revert pend pend'
    cases new <;> cases jp.jStatus.state <;> decide
  have ok : JobOk (jp.setState new) := by
    refine ⟨fun _ held => h.ok.reserved pend held, ?_, fun _ => rfl⟩
    rintro (run | wait)
    · exact absurd run others.2.1
    · exact absurd wait others.2.2
  rw [same]
  apply h.unmoved ok h.fits ⟨rfl, rfl, rfl⟩
  · rw [JData.slots, JData.slots, slotsOf_base, slotsOf_base jp.jStatus.state, ← base]
    rfl
  · rw [JData.hostSlots, JData.hostSlots, hostSlotsOf_base,
      hostSlotsOf_base jp.jStatus.state, ← base]
    rfl

theorem jStatusChange_held {logIt : Bool} (tr : counted jp.jStatus.state new)
    (res : jp.jStatus.reserve → new ≠ jp.jStatus.state → reserveCounted jp.jStatus.state new logIt)
    (fin : new.isFinish → FinishOk jp) : Held cf rest (jStatusChange cf acc jp new logIt) := by
  have reset : ∀ {r : Accounts × JData}, Held cf rest r → Reset jp r.2 new →
      Held cf rest (changeStatus cf r.1 r.2 jp.jStatus.state new) := by
    rintro ⟨acc', jp'⟩ held ⟨⟨reserve, hPtr, time, eq⟩, off⟩
    subst eq
    rcases off with off | ⟨pend, pend'⟩
    · exact changeStatus_held held tr off fin
    · exact changeStatus_pend held pend pend'
  unfold jStatusChange
  dsimp only
  split
  · exact h
  · rename_i changed
    cases logIt with
    | true =>
      obtain ⟨held, same⟩ := resetReserve_held h fun held => res held changed
      exact reset held same
    | false =>
      apply reset h
      apply Reset.same
      cases held : jp.jStatus.reserve with
      | false => exact .inl rfl
      | true =>
        have pend := res held changed
        simp [reserveCounted] at pend
        exact .inr pend

end Jhlava.Mbd
