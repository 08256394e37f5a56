import Mathlib.Data.Rat.Floor
import Jhlava.CValues
import Jhlava.TransitionRun
import Jhlava.Ledger

/-! The slot counters of mbatchd and the functions of mbd.misc.c that change
them: `updQaccount`, `updUserData` and `updHostData`. Queues, users, hosts and
jobs are named by numbers, user groups are users with members. -/
namespace Jhlava.Mbd
open CValues TransitionRun

inductive Counter where
  | numJobs
  | numPEND
  | numRUN
  | numSSUSP
  | numUSUSP
  | numRESERVE
  deriving DecidableEq, Repr

/-- The counters of one record. `struct userAcct` has no `numJobs` and
`struct hData` no `numPEND`; these stay 0. -/
abbrev Counters := Counter → Int

/-- The amounts in the order in which `updQaccount` and `updUserData` take them. -/
def slots (numJobs numPEND numRUN numSSUSP numUSUSP numRESERVE : Int) : Counters
  | .numJobs => numJobs
  | .numPEND => numPEND
  | .numRUN => numRUN
  | .numSSUSP => numSSUSP
  | .numUSUSP => numUSUSP
  | .numRESERVE => numRESERVE

/-- The amounts in the order in which `updHostData` takes them. -/
def hostSlots (numJobs numRUN numSSUSP numUSUSP numRESERVE : Int) : Counters :=
  slots numJobs 0 numRUN numSSUSP numUSUSP numRESERVE

/-- The part of the amounts that a `struct userAcct` records. -/
def noJobs (num : Counters) : Counters
  | .numJobs => 0
  | c => num c

/-- The sum goes through `int`: `toInt32` for the counters that move by the slots of a job. Those
of a host move by one for each entry of an array, and their sums stay in an `int` by themselves. -/
def addValue (int : Int → Int) (currentValue num : Int) : Int :=
  if int (currentValue + num) ≥ 0 then int (currentValue + num) else 0

def addValues (int : Int → Int) (cur num : Counters) : Counters :=
  fun c => addValue int (cur c) (num c)

/-- The records that have counters. -/
inductive Account where
  | queue (q : Nat)
  | user (u : Nat)
  | queueUser (q u : Nat)
  | queueHost (q h : Nat)
  | host (h : Nat)
  | hostUser (h u : Nat)
  deriving DecidableEq, Repr

abbrev Cell := Account × Counter

/-- How often `addValue` has found each counter negative, once it has added to those of `a`. -/
def noteResets (int : Int → Int) (negative : Cell → Nat) (a : Account) (cur num : Counters) :
    Cell → Nat :=
  fun (a', c) => if a' = a ∧ int (cur c + num c) < 0 then negative (a', c) + 1 else negative (a', c)

structure HostAcct where
  count : Counters
  numEnablePreempt : Int
  numAvaildSsusp : Int

structure QData where
  count : Counters
  uAcct : Nat → Option Counters
  hAcct : Nat → Option HostAcct
  numUsable : Int

structure UData where
  count : Counters
  hAcct : Nat → Option HostAcct

structure HData where
  count : Counters
  uAcct : Nat → Option Counters
  numDispJobs : Int
  pxyRsvJL : List Nat

/-- All counters of mbatchd, and how often `addValue` reset each of them. -/
structure Accounts where
  queues : Nat → QData
  users : Nat → UData
  hosts : Nat → HData
  negative : Cell → Nat

/-! Configuration. An absent limit is `INFINIT_INT` or `INFINIT_FLOAT`. -/

structure QConf where
  pJobLimit : Option Rat
  hJobLimit : Option Int
  backfill : Bool
  defRunLimit : Int
  runLimit : Int
  slotHoldTime : Int

structure UConf where
  pJobLimit : Option Rat
  gPtr : List Nat
  ancestors : List Nat

structure HConf where
  remote : Bool
  uJobLimit : Option Int
  maxJobs : Option Int
  numCPUs : Nat
  cpuFactor : Rat

structure Config where
  queue : Nat → QConf
  user : Nat → UConf
  host : Nat → HConf
  backfillPolicy : Bool
  msleeptime : Int

/-! Jobs -/

/-- The job states within `MASK_INT_JOB_STAT`, `JOB_STAT_UNKWN` apart. -/
inductive JobState where
  | pend
  | psusp
  | run
  | runWait
  | ssusp
  | ususp
  | exit
  | done
  deriving DecidableEq, Repr

namespace JobState

/-- `IS_PEND` -/
def isPend : JobState → Bool
  | pend | psusp => true
  | _ => false

/-- `IS_START` -/
def isStart : JobState → Bool
  | run | runWait | ssusp | ususp => true
  | _ => false

/-- `IS_FINISH` -/
def isFinish : JobState → Bool
  | exit | done => true
  | _ => false

end JobState

structure JStatus where
  state : JobState
  unkwn : Bool
  reserve : Bool
  modifyOnce : Bool
  deriving DecidableEq, Repr

/-- The part of `struct submitReq` that the accounting and its callers read.
`askedHostsOk` is false when `chkAskedHosts` refuses the hosts asked for. -/
structure SubmitReq where
  numProcessors : Nat
  maxNumProcessors : Nat
  queue : Nat
  runLimit : Int
  modifyOnce : Bool
  hold : Bool
  askedHostsOk : Bool
  deriving DecidableEq, Repr

structure CandHost where
  hData : Nat
  numAvailSlots : Nat
  deriving DecidableEq, Repr

/-- `hPtr` holds the first `numHostPtr` entries of the array, `[]` is NULL. -/
structure JData where
  jobId : Nat
  jStatus : JStatus
  jobBill : SubmitReq
  newSub : Option SubmitReq
  qPtr : Nat
  uPtr : Nat
  hPtr : List Nat
  reserveTime : Int
  slotHoldTime : Int
  predictedStartTime : Int
  candPtr : List CandHost
  deriving DecidableEq, Repr

/-! Updates -/

/-- `addOneAbs` without `clean`. -/
def addOneAbs (num addedNum : Int) : Int :=
  if addedNum > 0 then num + 1 else if addedNum < 0 then num - 1 else num

def addHAcct (num : Counters) : HostAcct :=
  { count := fun c => addOneAbs 0 (num c), numEnablePreempt := 0, numAvaildSsusp := 0 }

/-- The amounts a `struct hostAcct` records are those of started and reserved slots. -/
def onlyStarted (num : Counters) : Counters
  | .numJobs | .numPEND => 0
  | c => num c

/-- One host of the loop of `updHAcct`. -/
def updHAcct1 (num : Counters) (hAcct : Nat → Option HostAcct) (hp : Nat) :
    Nat → Option HostAcct :=
  match hAcct hp with
  | some acct =>
    Function.update hAcct hp
      (some { acct with count := fun c => addOneAbs (acct.count c) (num c) })
  | none =>
    if num .numRUN > 0 ∨ num .numSSUSP > 0 ∨ num .numUSUSP > 0 ∨ num .numRESERVE > 0 then
      Function.update hAcct hp (some (addHAcct num))
    else hAcct

def updHAcct (cf : Config) (hAcct : Nat → Option HostAcct) (hPtr : List Nat) (num : Counters) :
    Nat → Option HostAcct :=
  hPtr.foldl
    (fun hAcct hp =>
      if (cf.host hp).remote then hAcct else updHAcct1 (onlyStarted num) hAcct hp)
    hAcct

/-- A user account made by `addUAcct` takes the amounts as they are. -/
def updUAcct (int : Int → Int) (uAcct : Nat → Option Counters) (up : Nat) (num : Counters) :
    Nat → Option Counters :=
  match uAcct up with
  | some acct => Function.update uAcct up (some (addValues int acct num))
  | none =>
    if num .numRUN ≠ 0 ∨ num .numSSUSP ≠ 0 ∨ num .numUSUSP ≠ 0 ∨ num .numRESERVE ≠ 0 ∨
        num .numPEND ≠ 0 then
      Function.update uAcct up (some num)
    else uAcct

def noteUAcct (int : Int → Int) (negative : Cell → Nat) (a : Account) (acct : Option Counters)
    (num : Counters) : Cell → Nat :=
  acct.elim negative (noteResets int negative a · num)

def addQueue (acc : Accounts) (q : Nat) (num : Counters) : Accounts :=
  let qp := acc.queues q
  { acc with
    queues := Function.update acc.queues q { qp with count := addValues toInt32 qp.count num }
    negative := noteResets toInt32 acc.negative (.queue q) qp.count num }

def updQueueUAcct (q : Nat) (num : Counters) (acc : Accounts) (up : Nat) : Accounts :=
  let qp := acc.queues q
  { acc with
    queues := Function.update acc.queues q
      { qp with uAcct := updUAcct toInt32 qp.uAcct up (noJobs num) }
    negative := noteUAcct toInt32 acc.negative (.queueUser q up) (qp.uAcct up) (noJobs num) }

def updQueueHAcct (cf : Config) (acc : Accounts) (jp : JData) (num : Counters) : Accounts :=
  let qp := acc.queues jp.qPtr
  { acc with
    queues := Function.update acc.queues jp.qPtr
      { qp with hAcct := updHAcct cf qp.hAcct jp.hPtr num } }

def updQaccount (cf : Config) (acc : Accounts) (jp : JData) (num : Counters) : Accounts :=
  let acc := addQueue acc jp.qPtr num
  let acc := (jp.uPtr :: (cf.user jp.uPtr).ancestors).foldl (updQueueUAcct jp.qPtr num) acc
  if num .numRUN = 0 ∧ num .numSSUSP = 0 ∧ num .numUSUSP = 0 ∧ num .numRESERVE = 0 ∧
      num .numPEND = 0 then acc
  else updQueueHAcct cf acc jp num

def updUserData1 (cf : Config) (jp : JData) (num : Counters) (acc : Accounts) (up : Nat) :
    Accounts :=
  let ud := acc.users up
  let newJob := num .numRUN = 0 ∧ num .numSSUSP = 0 ∧ num .numUSUSP = 0 ∧ num .numRESERVE = 0
  let hAcct :=
    if ¬ newJob ∧ (cf.user up).pJobLimit.isSome then updHAcct cf ud.hAcct jp.hPtr num
    else ud.hAcct
  { acc with
    users := Function.update acc.users up
      { count := addValues toInt32 ud.count num, hAcct := hAcct }
    negative := noteResets toInt32 acc.negative (.user up) ud.count num }

def updUserData (cf : Config) (acc : Accounts) (jp : JData) (num : Counters) : Accounts :=
  (jp.uPtr :: (cf.user jp.uPtr).gPtr).foldl (updUserData1 cf jp num) acc

/-- One host of the loop of `updHostData`; remote hosts are skipped. -/
def updHostData1 (cf : Config) (jp : JData) (num : Counters) (acc : Accounts) (h : Nat) :
    Accounts :=
  let hp := acc.hosts h
  let entry :=
    if (cf.host h).uJobLimit.isSome ∧
        (num .numRUN ≠ 0 ∨ num .numSSUSP ≠ 0 ∨ num .numUSUSP ≠ 0 ∨ num .numRESERVE ≠ 0) then
      (updUAcct id hp.uAcct jp.uPtr (noJobs num),
        noteUAcct id acc.negative (.hostUser h jp.uPtr) (hp.uAcct jp.uPtr) (noJobs num))
    else (hp.uAcct, acc.negative)
  if (cf.host h).remote then acc
  else
    { acc with
      hosts := Function.update acc.hosts h
        { hp with count := addValues id hp.count num, uAcct := entry.1 }
      negative := noteResets id entry.2 (.host h) hp.count num }

def updHostData (cf : Config) (acc : Accounts) (jp : JData) (num : Counters) : Accounts :=
  jp.hPtr.foldl (updHostData1 cf jp num) acc

def updAll (cf : Config) (acc : Accounts) (jp : JData) (num hnum : Counters) : Accounts :=
  updHostData cf (updUserData cf (updQaccount cf acc jp num) jp num) jp hnum

/-! Of a host, the updates change only the counters and the user accounts. -/

variable (cf : Config)
include cf

theorem updQaccount_hosts (acc : Accounts) (jp : JData) (num : Counters) :
    (updQaccount cf acc jp num).hosts = acc.hosts := by
  have fold := foldl_view Accounts.hosts (fun acc up => (rfl :
    (updQueueUAcct jp.qPtr num acc up).hosts = acc.hosts))
    (jp.uPtr :: (cf.user jp.uPtr).ancestors) (addQueue acc jp.qPtr num)
  unfold updQaccount
  split
  · exact fold
  · exact fold

theorem updUserData_hosts (acc : Accounts) (jp : JData) (num : Counters) :
    (updUserData cf acc jp num).hosts = acc.hosts :=
  foldl_view Accounts.hosts
    (fun acc up => (rfl : (updUserData1 cf jp num acc up).hosts = acc.hosts)) _ acc

theorem updHostData1_keeps (jp : JData) (num : Counters) (acc : Accounts) (h k : Nat) :
    ((updHostData1 cf jp num acc h).hosts k).numDispJobs = (acc.hosts k).numDispJobs ∧
      ((updHostData1 cf jp num acc h).hosts k).pxyRsvJL = (acc.hosts k).pxyRsvJL := by
  unfold updHostData1
  dsimp only
  split
  · exact ⟨rfl, rfl⟩
  · by_cases hk : k = h
    · subst hk
      simp
    · simp [Function.update_of_ne hk]

theorem updAll_numDispJobs (acc : Accounts) (jp : JData) (num hnum : Counters) (k : Nat) :
    ((updAll cf acc jp num hnum).hosts k).numDispJobs = (acc.hosts k).numDispJobs := by
  have fold := foldl_view (fun acc => (acc.hosts k).numDispJobs)
    (fun acc h => (updHostData1_keeps cf jp hnum acc h k).1) jp.hPtr
    (updUserData cf (updQaccount cf acc jp num) jp num)
  rw [updUserData_hosts, updQaccount_hosts] at fold
  exact fold

theorem updAll_pxyRsvJL (acc : Accounts) (jp : JData) (num hnum : Counters) (k : Nat) :
    ((updAll cf acc jp num hnum).hosts k).pxyRsvJL = (acc.hosts k).pxyRsvJL := by
  have fold := foldl_view (fun acc => (acc.hosts k).pxyRsvJL)
    (fun acc h => (updHostData1_keeps cf jp hnum acc h k).2) jp.hPtr
    (updUserData cf (updQaccount cf acc jp num) jp num)
  rw [updUserData_hosts, updQaccount_hosts] at fold
  exact fold

end Jhlava.Mbd
