import Jhlava.MbdAccounts

/-! Slot reservations: `updResCounters` of mbd.misc.c, the proxy lists of
mbd.proxy.c and `allocHosts`, `deallocHosts`, `reserveSlots` and
`freeReserveSlots` of mbd.policy.c. A function that changes a job returns it
with the accounts. -/
namespace Jhlava.Mbd
open TransitionRun

/-! The list of reserving jobs each local execution host keeps.
`JOB_RSVSLOT_NONPRMPT` negates before it masks, so it never holds. -/

def addProxy (cf : Config) (job : JData) (acc : Accounts) (h : Nat) : Accounts :=
  let hp := acc.hosts h
  if (cf.host h).remote ∨ job.jobId ∈ hp.pxyRsvJL then acc
  else
    { acc with
      hosts := Function.update acc.hosts h { hp with pxyRsvJL := hp.pxyRsvJL ++ [job.jobId] } }

def proxyHRsvJLAddEntry (cf : Config) (acc : Accounts) (job : JData) : Accounts :=
  job.hPtr.foldl (addProxy cf job) acc

def removeProxy (cf : Config) (job : JData) (acc : Accounts) (h : Nat) : Accounts :=
  let hp := acc.hosts h
  if (cf.host h).remote then acc
  else
    { acc with
      hosts := Function.update acc.hosts h
        { hp with pxyRsvJL := hp.pxyRsvJL.erase job.jobId } }

def proxyHRsvJLRemoveEntry (cf : Config) (acc : Accounts) (job : JData) : Accounts :=
  job.hPtr.foldl (removeProxy cf job) acc

/-- A started job that is running has no case of its own: nothing is counted. -/
def updResCounters (cf : Config) (acc : Accounts) (jp : JData) (new : JStatus) : Accounts :=
  let num : Int := jp.hPtr.length
  let numReq : Int := jp.jobBill.maxNumProcessors
  let old := jp.jStatus
  match old.state with
  | .ssusp =>
    if !old.reserve && new.reserve && new.state.isStart then
      updAll cf acc jp (slots 0 0 0 (-num) 0 num) (hostSlots 0 0 (-1) 0 1)
    else if old.reserve && !new.reserve && (new.state.isStart || new.state = .pend) then
      updAll cf acc jp (slots 0 0 0 num 0 (-num)) (hostSlots 0 0 1 0 (-1))
    else if old.reserve && new.state.isFinish then
      updAll cf acc jp (slots (-num) 0 0 0 0 (-num)) (hostSlots (-1) 0 0 0 (-1))
    else acc
  | .ususp =>
    if !old.reserve && new.reserve && new.state.isStart then
      updAll cf acc jp (slots 0 0 0 0 (-num) num) (hostSlots 0 0 0 (-1) 1)
    else if old.reserve && !new.reserve && new.state.isStart then
      updAll cf acc jp (slots 0 0 0 0 num (-num)) (hostSlots 0 0 0 1 (-1))
    else if old.reserve && new.state.isFinish then
      updAll cf acc jp (slots (-num) 0 0 0 0 (-num)) (hostSlots (-1) 0 0 0 (-1))
    else acc
  | .pend | .psusp =>
    if old.reserve && !new.reserve && new.state.isPend then
      proxyHRsvJLRemoveEntry cf
        (updAll cf acc jp (slots 0 num 0 0 0 (-num)) (hostSlots (-1) 0 0 0 (-1))) jp
    else if !old.reserve && new.reserve && new.state.isPend then
      proxyHRsvJLAddEntry cf
        (updAll cf acc jp (slots 0 (-num) 0 0 0 num) (hostSlots 1 0 0 0 1)) jp
    else if old.reserve && new.state.isFinish then
      proxyHRsvJLRemoveEntry cf
        (updAll cf acc jp (slots (-numReq) (-numReq + num) 0 0 0 (-num))
          (hostSlots (-1) 0 0 0 (-1))) jp
    else acc
  | _ => acc

def JData.setReserve (jp : JData) (on : Bool) : JData :=
  { jp with jStatus := { jp.jStatus with reserve := on } }

/-- `updResCounters` for the present status with the bit `JOB_STAT_RESERVE`
turned on or off, and the bit itself. -/
def turnReserve (cf : Config) (acc : Accounts) (jp : JData) (on : Bool) : Accounts × JData :=
  (updResCounters cf acc jp { jp.jStatus with reserve := on }, jp.setReserve on)

def bumpDispJobs (d : Int) (acc : Accounts) (h : Nat) : Accounts :=
  let hp := acc.hosts h
  { acc with hosts := Function.update acc.hosts h { hp with numDispJobs := hp.numDispJobs + d } }

/-- `allocHosts` with the hosts it takes from the exec candidates. -/
def allocHosts (acc : Accounts) (jp : JData) (hPtr : List Nat) : Accounts × JData :=
  (hPtr.foldl (bumpDispJobs 1) acc, { jp with hPtr := hPtr })

def deallocHosts (acc : Accounts) (jp : JData) : Accounts × JData :=
  (jp.hPtr.foldl (bumpDispJobs (-1)) acc, { jp with hPtr := [] })

def freeReserveSlots (cf : Config) (acc : Accounts) (jp : JData) : Accounts × JData :=
  if jp.jStatus.reserve then
    let turned := turnReserve cf acc jp false
    deallocHosts turned.1 turned.2
  else (acc, jp)

/-- `numUsable` is charged only when no queue has the backfill policy. -/
def chargeUsable (cf : Config) (acc : Accounts) (jp : JData) : Accounts :=
  if cf.backfillPolicy then acc
  else
    let qp := acc.queues jp.qPtr
    { acc with
      queues := Function.update acc.queues jp.qPtr
        { qp with numUsable := qp.numUsable - jp.hPtr.length } }

def startHold (cf : Config) (now : Int) (jp : JData) : JData :=
  if jp.reserveTime = 0 then
    { jp with
      reserveTime := now
      slotHoldTime :=
        if (cf.queue jp.qPtr).slotHoldTime ≤ 0 then 8 * cf.msleeptime else jp.slotHoldTime }
  else jp

/-- `reserveSlots` counts the slots and sets the bit; unlike `allocHosts` it
leaves `numDispJobs` of the hosts alone. -/
def reserveSlots (cf : Config) (now : Int) (acc : Accounts) (jp : JData) : Accounts × JData :=
  if jp.jStatus.reserve then (acc, jp)
  else
    let turned := turnReserve cf acc (startHold cf now jp) true
    (chargeUsable cf turned.1 turned.2, turned.2)

/-- Jobs by their number; the first `numJobs` have been submitted. -/
structure MbdState where
  acc : Accounts
  jobs : Nat → JData
  numJobs : Nat
  filed : ∀ i, (jobs i).jobId = i

theorem filed_update {jobs : Nat → JData} (filed : ∀ i, (jobs i).jobId = i) (i : Nat)
    (jp : JData) (k : Nat) : (Function.update jobs i { jp with jobId := i } k).jobId = k := by
  by_cases hk : k = i
  · subst hk
    simp
  · rw [Function.update_of_ne hk]
    exact filed k

def MbdState.setJob (s : MbdState) (i : Nat) (r : Accounts × JData) : MbdState :=
  { s with
    acc := r.1
    jobs := Function.update s.jobs i { r.2 with jobId := i }
    filed := filed_update s.filed i r.2 }

/-! What a reservation does to a host's `numDispJobs` and to its list of
reserving jobs. -/

section Hosts

variable (cf : Config) (acc : Accounts) (jp : JData) (k : Nat)

theorem addProxy_numDispJobs (h : Nat) :
    ((addProxy cf jp acc h).hosts k).numDispJobs = (acc.hosts k).numDispJobs := by
  unfold addProxy
  dsimp only
  split
  · rfl
  · by_cases hk : k = h
    · subst hk
      simp
    · simp [Function.update_of_ne hk]

theorem removeProxy_numDispJobs (h : Nat) :
    ((removeProxy cf jp acc h).hosts k).numDispJobs = (acc.hosts k).numDispJobs := by
  unfold removeProxy
  split
  · rfl
  · by_cases hk : k = h
    · subst hk
      simp
    · simp [Function.update_of_ne hk]

theorem proxyHRsvJLAddEntry_numDispJobs :
    ((proxyHRsvJLAddEntry cf acc jp).hosts k).numDispJobs = (acc.hosts k).numDispJobs :=
  foldl_view (fun acc : Accounts => (acc.hosts k).numDispJobs)
    (fun acc h => addProxy_numDispJobs cf acc jp k h) jp.hPtr acc

theorem proxyHRsvJLRemoveEntry_numDispJobs :
    ((proxyHRsvJLRemoveEntry cf acc jp).hosts k).numDispJobs = (acc.hosts k).numDispJobs :=
  foldl_view (fun acc : Accounts => (acc.hosts k).numDispJobs)
    (fun acc h => removeProxy_numDispJobs cf acc jp k h) jp.hPtr acc

theorem updResCounters_numDispJobs (new : JStatus) :
    ((updResCounters cf acc jp new).hosts k).numDispJobs = (acc.hosts k).numDispJobs := by
  unfold updResCounters
  dsimp only
  (repeat' split) <;>
    simp only [updAll_numDispJobs, proxyHRsvJLAddEntry_numDispJobs,
      proxyHRsvJLRemoveEntry_numDispJobs]

theorem bumpDispJobs_foldl (d : Int) (hs : List Nat) :
    ((hs.foldl (bumpDispJobs d) acc).hosts k).numDispJobs =
      (acc.hosts k).numDispJobs + d * hs.count k := by
  induction hs generalizing acc with
  | nil => simp
  | cons h hs ih =>
    rw [List.foldl_cons, ih]
    by_cases hk : k = h
    · subst hk
      simp [bumpDispJobs]
      ring
    · simp [bumpDispJobs, Function.update_of_ne hk, List.count_cons_of_ne (Ne.symm hk)]

theorem freeReserveSlots_numDispJobs :
    ((freeReserveSlots cf acc jp).1.hosts k).numDispJobs =
      (acc.hosts k).numDispJobs - if jp.jStatus.reserve then (jp.hPtr.count k : Int) else 0 := by
  unfold freeReserveSlots
  split
  · simp only [deallocHosts, turnReserve, JData.setReserve]
    rw [bumpDispJobs_foldl, updResCounters_numDispJobs]
    ring
  · simp

theorem chargeUsable_hosts : (chargeUsable cf acc jp).hosts = acc.hosts := by
  unfold chargeUsable
  split <;> rfl

theorem reserveSlots_numDispJobs (now : Int) :
    ((reserveSlots cf now acc jp).1.hosts k).numDispJobs = (acc.hosts k).numDispJobs := by
  unfold reserveSlots
  split
  · rfl
  · rw [chargeUsable_hosts]
    exact updResCounters_numDispJobs cf acc _ k _

variable {l : List Nat}

theorem removeProxy_pxyRsvJL (hn : l.Nodup) (h : Nat)
    (now : (acc.hosts k).pxyRsvJL = l ∨ (acc.hosts k).pxyRsvJL = l.erase jp.jobId) :
    ((removeProxy cf jp acc h).hosts k).pxyRsvJL = l ∨
      ((removeProxy cf jp acc h).hosts k).pxyRsvJL = l.erase jp.jobId := by
  unfold removeProxy
  split
  · exact now
  · by_cases hk : k = h
    · subst hk
      rcases now with same | gone
      · simp [same]
      · simp [gone, List.erase_of_not_mem hn.not_mem_erase]
    · simpa [Function.update_of_ne hk] using now

def Moved (j : Nat) (l l' : List Nat) : Prop := l' = l ∨ l' = l.erase j ∨ l' = l.erase j ++ [j]

theorem addProxy_pxyRsvJL (hj : jp.jobId ∈ l) (h : Nat)
    (now : Moved jp.jobId l (acc.hosts k).pxyRsvJL) :
    Moved jp.jobId l ((addProxy cf jp acc h).hosts k).pxyRsvJL := by
  unfold addProxy
  dsimp only
  split
  · exact now
  · rename_i absent
    by_cases hk : k = h
    · subst hk
      rcases now with same | gone | back
      · exact absurd (.inr (same ▸ hj)) absent
      · exact .inr (.inr (by simp [gone]))
      · exact absurd (.inr (by simp [back])) absent
    · simpa [Function.update_of_ne hk] using now

theorem turnReserve_off_pxyRsvJL (hn : (acc.hosts k).pxyRsvJL.Nodup) :
    ((turnReserve cf acc jp false).1.hosts k).pxyRsvJL = (acc.hosts k).pxyRsvJL ∨
      ((turnReserve cf acc jp false).1.hosts k).pxyRsvJL =
        (acc.hosts k).pxyRsvJL.erase jp.jobId := by
  have remove : ∀ acc', (acc'.hosts k).pxyRsvJL = (acc.hosts k).pxyRsvJL →
      ((proxyHRsvJLRemoveEntry cf acc' jp).hosts k).pxyRsvJL = (acc.hosts k).pxyRsvJL ∨
        ((proxyHRsvJLRemoveEntry cf acc' jp).hosts k).pxyRsvJL =
          (acc.hosts k).pxyRsvJL.erase jp.jobId := by
    intro acc' same
    exact List.foldlRecOn jp.hPtr (removeProxy cf jp)
      (motive := fun x => (x.hosts k).pxyRsvJL = (acc.hosts k).pxyRsvJL ∨
        (x.hosts k).pxyRsvJL = (acc.hosts k).pxyRsvJL.erase jp.jobId)
      (.inl same) (fun x hx h _ => removeProxy_pxyRsvJL cf x jp k hn h hx)
  unfold turnReserve updResCounters
  dsimp only
  (repeat' split) <;> first
    | exact .inl rfl
    | exact .inl (updAll_pxyRsvJL cf acc jp _ _ k)
    | exact remove _ (updAll_pxyRsvJL cf acc jp _ _ k)
    | simp_all

theorem turnReserve_on_pxyRsvJL (hj : jp.jobId ∈ l)
    (now : Moved jp.jobId l (acc.hosts k).pxyRsvJL) :
    Moved jp.jobId l ((turnReserve cf acc jp true).1.hosts k).pxyRsvJL := by
  have add : ∀ acc', Moved jp.jobId l (acc'.hosts k).pxyRsvJL →
      Moved jp.jobId l ((proxyHRsvJLAddEntry cf acc' jp).hosts k).pxyRsvJL := by
    intro acc' start
    exact List.foldlRecOn jp.hPtr (addProxy cf jp)
      (motive := fun x => Moved jp.jobId l (x.hosts k).pxyRsvJL)
      start (fun x hx h _ => addProxy_pxyRsvJL cf x jp k hj h hx)
  have kept : ∀ num hnum, Moved jp.jobId l ((updAll cf acc jp num hnum).hosts k).pxyRsvJL := by
    intro num hnum
    rw [updAll_pxyRsvJL]
    exact now
  unfold turnReserve updResCounters
  dsimp only
  (repeat' split) <;> first
    | exact now
    | exact kept _ _
    | exact add _ (kept _ _)
    | simp_all [JobState.isFinish]

theorem bumpDispJobs_pxyRsvJL (d : Int) (hs : List Nat) :
    ((hs.foldl (bumpDispJobs d) acc).hosts k).pxyRsvJL = (acc.hosts k).pxyRsvJL := by
  refine foldl_view (fun acc : Accounts => (acc.hosts k).pxyRsvJL) (fun acc h => ?_) hs acc
  by_cases hk : k = h
  · subst hk
    simp [bumpDispJobs]
  · simp [bumpDispJobs, Function.update_of_ne hk]

theorem freeReserveSlots_pxyRsvJL (hn : (acc.hosts k).pxyRsvJL.Nodup) :
    ((freeReserveSlots cf acc jp).1.hosts k).pxyRsvJL = (acc.hosts k).pxyRsvJL ∨
      ((freeReserveSlots cf acc jp).1.hosts k).pxyRsvJL =
        (acc.hosts k).pxyRsvJL.erase jp.jobId := by
  unfold freeReserveSlots
  split
  · simp only [deallocHosts, bumpDispJobs_pxyRsvJL]
    exact turnReserve_off_pxyRsvJL cf acc jp k hn
  · exact .inl rfl

theorem reserveSlots_pxyRsvJL (now : Int) (hj : jp.jobId ∈ l)
    (start : Moved jp.jobId l (acc.hosts k).pxyRsvJL) :
    Moved jp.jobId l ((reserveSlots cf now acc jp).1.hosts k).pxyRsvJL := by
  have same : (startHold cf now jp).jobId = jp.jobId := by
    unfold startHold
    split <;> rfl
  unfold reserveSlots
  split
  · exact start
  · rw [chargeUsable_hosts, ← same]
    rw [← same] at hj start
    exact turnReserve_on_pxyRsvJL cf acc _ k hj start

end Hosts

end Jhlava.Mbd
