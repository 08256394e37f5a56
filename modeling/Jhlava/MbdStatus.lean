import Jhlava.MbdBackfill

/-! Changes of a job: `updCounters` and `updSwitchJob` of mbd.misc.c, and the
functions of mbd.job.c that call them. mbatchd is past the replay of its log
(`mSchedStage != M_STAGE_REPLAY`). -/
namespace Jhlava.Mbd

def updPend (cf : Config) (acc : Accounts) (jp : JData) (num : Int) : Accounts :=
  updUserData cf (updQaccount cf acc jp (slots num num 0 0 0 0)) jp (slots num num 0 0 0 0)

/-! The cases of `updCounters`, one for each new state. Old states that are not
listed are only logged. -/

section Counters

variable (cf : Config) (acc : Accounts) (jp : JData)

def countRun (old : JobState) : Accounts :=
  let num : Int := jp.hPtr.length
  let numReq : Int := jp.jobBill.maxNumProcessors
  match old with
  | .pend | .psusp =>
    updAll cf acc jp (slots (-numReq + num) (-numReq) num 0 0 0) (hostSlots 1 1 0 0 0)
  | .ssusp =>
    updAll cf acc jp (slots 0 0 num (-num) 0 0) (hostSlots 0 1 (-1) 0 0)
  | .ususp =>
    updAll cf acc jp (slots 0 0 num 0 (-num) 0) (hostSlots 0 1 0 (-1) 0)
  | _ => acc

def countSsusp (old : JobState) : Accounts :=
  let num : Int := jp.hPtr.length
  let numReq : Int := jp.jobBill.maxNumProcessors
  match old with
  | .run | .runWait =>
    updAll cf acc jp (slots 0 0 (-num) num 0 0) (hostSlots 0 (-1) 1 0 0)
  | .ususp =>
    updAll cf acc jp (slots 0 0 0 num (-num) 0) (hostSlots 0 0 1 (-1) 0)
  | .pend =>
    updAll cf acc jp (slots (-numReq + num) (-numReq) 0 num 0 0) (hostSlots 1 0 1 0 0)
  | _ => acc

def countUsusp (old : JobState) : Accounts :=
  let num : Int := jp.hPtr.length
  let numReq : Int := jp.jobBill.maxNumProcessors
  match old with
  | .run | .runWait =>
    updAll cf acc jp (slots 0 0 (-num) 0 num 0) (hostSlots 0 (-1) 0 1 0)
  | .ssusp =>
    updAll cf acc jp (slots 0 0 0 (-num) num 0) (hostSlots 0 0 (-1) 1 0)
  | .pend =>
    updAll cf acc jp (slots (-numReq + num) (-numReq) 0 0 num 0) (hostSlots 1 0 0 1 0)
  | _ => acc

def countFinish (old : JobState) : Accounts :=
  let num : Int := jp.hPtr.length
  match old with
  | .run | .runWait =>
    updAll cf acc jp (slots (-num) 0 (-num) 0 0 0) (hostSlots (-1) (-1) 0 0 0)
  | .ususp =>
    updAll cf acc jp (slots (-num) 0 0 0 (-num) 0) (hostSlots (-1) 0 0 (-1) 0)
  | .ssusp =>
    updAll cf acc jp (slots (-num) 0 0 (-num) 0 0) (hostSlots (-1) 0 (-1) 0 0)
  | .pend | .psusp => updPend cf acc jp (-jp.jobBill.maxNumProcessors)
  | _ => acc

def countPend (old : JobState) : Accounts :=
  let num : Int := jp.hPtr.length
  let numReq : Int := jp.jobBill.maxNumProcessors
  match old with
  | .run | .runWait =>
    updAll cf acc jp (slots (numReq - num) numReq (-num) 0 0 0) (hostSlots (-1) (-1) 0 0 0)
  | .ususp =>
    updAll cf acc jp (slots (-num + numReq) numReq 0 0 (-num) 0) (hostSlots (-1) 0 0 (-1) 0)
  | .ssusp =>
    updAll cf acc jp (slots (-num + numReq) numReq 0 (-num) 0 0) (hostSlots (-1) 0 (-1) 0 0)
  | _ => acc

/-- The counters follow the job from `old` to its present state. -/
def updCounters (old : JobState) : Accounts :=
  let new := jp.jStatus.state
  if old.isFinish || new = old || (new.isPend && old.isPend) then acc
  else
    match new with
    | .run => countRun cf acc jp old
    | .ssusp => countSsusp cf acc jp old
    | .ususp => countUsusp cf acc jp old
    | .exit | .done => countFinish cf acc jp old
    | .pend => countPend cf acc jp old
    | .psusp | .runWait => acc

end Counters

/-- The slots of the job leave the queue `qfp` and enter `qtp`; `oldNumReq` is
what the job asked for before. A job waiting in a chunk is not counted. -/
def moveCounts (cf : Config) (acc : Accounts) (jp : JData) (qfp qtp oldNumReq : Nat) :
    Accounts × JData :=
  let num : Int := jp.hPtr.length
  let off := { jp with qPtr := qfp }
  let on := { jp with qPtr := qtp }
  let both := fun (n h : Counters) =>
    (updAll cf (updAll cf acc off (fun c => - n c) (fun c => - h c)) on n h, on)
  match jp.jStatus.state, jp.jStatus.unkwn with
  | .pend, false | .psusp, false =>
    (updPend cf (updPend cf acc off (-oldNumReq)) on jp.jobBill.maxNumProcessors, on)
  | .run, _ => both (slots num 0 num 0 0 0) (hostSlots 1 1 0 0 0)
  | .ssusp, _ => both (slots num 0 0 num 0 0) (hostSlots 1 0 1 0 0)
  | .ususp, _ => both (slots num 0 0 0 num 0) (hostSlots 1 0 0 1 0)
  | _, _ => (acc, jp)

def updSwitchJob (cf : Config) (acc : Accounts) (jp : JData) (qfp qtp oldNumReq : Nat) :
    Accounts × JData :=
  if jp.jStatus.reserve then
    let off := turnReserve cf acc { jp with qPtr := qfp } false
    let moved := moveCounts cf off.1 { off.2 with qPtr := qtp } qfp qtp oldNumReq
    turnReserve cf moved.1 moved.2 true
  else moveCounts cf acc jp qfp qtp oldNumReq

/-! Status changes -/

def dropReserve (cf : Config) (acc : Accounts) (jp : JData) : Accounts × JData :=
  if jp.jStatus.reserve then
    let freed := freeReserveSlots cf acc jp
    (freed.1, { freed.2 with reserveTime := 0 })
  else (acc, jp)

def resetReserve (cf : Config) (acc : Accounts) (jp : JData) (new : JobState) :
    Accounts × JData :=
  if !jp.jStatus.reserve then (acc, jp)
  else
    let freed :=
      if (new = .psusp || new.isFinish) && jp.jStatus.state = .pend then dropReserve cf acc jp
      else (acc, jp)
    if freed.2.jStatus.state.isStart &&
        (new = .run || new = .runWait || new.isFinish || new = .ususp || new = .pend) then
      turnReserve cf freed.1 freed.2 false
    else freed

/-- `changeJobParams` with the parameters kept in `newSub`. When the hosts asked
for are refused, it returns before it sets the queue. -/
def changeJobParams (jp : JData) (sub : SubmitReq) : JData :=
  let saves := sub.modifyOnce && !jp.jStatus.modifyOnce
  let jp' :=
    { jp with
      jStatus := { jp.jStatus with modifyOnce := saves }
      jobBill := sub
      newSub := none }
  if !sub.askedHostsOk then jp'
  else { jp' with newSub := if saves then some jp.jobBill else none, qPtr := sub.queue }

def handleFinishJob (jp : JData) : JData :=
  match jp.newSub with
  | some sub => if jp.jobBill.modifyOnce then changeJobParams jp sub else jp
  | none => jp

def cleanCandHosts (jp : JData) : JData :=
  if jp.jStatus.state.isPend then { jp with candPtr := [] } else jp

def freeExecParams (jp : JData) : JData := cleanCandHosts { jp with hPtr := [] }

/-- `SET_STATE` -/
def JData.setState (jp : JData) (new : JobState) : JData :=
  { jp with jStatus := { jp.jStatus with state := new, unkwn := false } }

/-- `jStatusChange` once the reservation is reset. -/
def changeStatus (cf : Config) (acc : Accounts) (jp : JData) (old new : JobState) :
    Accounts × JData :=
  let jp := jp.setState new
  if new.isStart && old.isPend then
    let jp := { jp with reserveTime := 0 }
    (updCounters cf acc jp old, jp)
  else if new.isFinish then
    let jp := handleFinishJob jp
    (updCounters cf acc jp old, jp)
  else if new = .pend && old.isStart then
    (updCounters cf acc jp old, freeExecParams jp)
  else
    let jp := if new = .run || new = .runWait then { jp with reserveTime := 0 } else jp
    (updCounters cf acc jp old, jp)

def jStatusChange (cf : Config) (acc : Accounts) (jp : JData) (new : JobState) (logIt : Bool) :
    Accounts × JData :=
  let old := jp.jStatus.state
  if new = old then (acc, jp)
  else
    let reset := if logIt then resetReserve cf acc jp new else (acc, jp)
    changeStatus cf reset.1 reset.2 old new

/-! The callers -/

/-- `handleNewJob` for a job without hosts. -/
def handleNewJob (cf : Config) (acc : Accounts) (jp : JData) : Accounts × JData :=
  let acc := updPend cf acc jp jp.jobBill.maxNumProcessors
  if jp.jobBill.hold then jStatusChange cf acc jp .psusp false else (acc, jp)

/-- `handleRequeueJob`; `stopped` when the job is to be suspended at once. -/
def handleRequeueJob (cf : Config) (acc : Accounts) (jp : JData) (stopped : Bool) :
    Accounts × JData :=
  let jp := match jp.newSub with
    | some sub => changeJobParams jp sub
    | none => jp
  let jp := freeExecParams
    { jp with
      jStatus :=
        { state := if stopped then .psusp else .pend
          unkwn := false
          reserve := false
          modifyOnce := false } }
  (updPend cf acc jp jp.jobBill.maxNumProcessors, jp)

/-- `statusJob`, once the report is accepted. A report of a started job that is
still pending first makes the job run, on the reporting host if it has none. -/
def statusJob (cf : Config) (acc : Accounts) (jp : JData) (new : JobState) (host : Nat) :
    Accounts × JData :=
  if jp.jStatus.state.isPend && new.isStart then
    let jp := if jp.hPtr = [] then { jp with hPtr := [host] } else jp
    let r := jStatusChange cf acc jp .run true
    jStatusChange cf r.1 r.2 new true
  else jStatusChange cf acc jp new true

def dispatchJob (cf : Config) (acc : Accounts) (jp : JData) (hPtr : List Nat) :
    Accounts × JData :=
  let freed := freeReserveSlots cf acc jp
  let alloc := allocHosts freed.1 freed.2 hPtr
  jStatusChange cf alloc.1 alloc.2 .run true

/-- Reservation in `dispatchAJob`: an old one is freed first. -/
def reserveJob (cf : Config) (now : Int) (acc : Accounts) (jp : JData) (hPtr : List Nat) :
    Accounts × JData :=
  let freed := freeReserveSlots cf acc jp
  let alloc := allocHosts freed.1 freed.2 hPtr
  reserveSlots cf now alloc.1 alloc.2

def jobInQueueEnd (jp : JData) (qp : Nat) : JData :=
  { jp with qPtr := qp, jobBill := { jp.jobBill with queue := qp } }

def afterSwitch (jp : JData) (moved : Bool) : JData :=
  let jp := if jp.jStatus.state = .pend ∧ moved then cleanCandHosts jp else jp
  { jp with newSub := if jp.jStatus.state.isStart then some jp.jobBill else none }

/-- `switchAJob`, once the limits are checked. -/
def switchAJob (cf : Config) (acc : Accounts) (jp : JData) (qtp : Nat) : Accounts × JData :=
  let qfp := jp.qPtr
  let freed := if jp.jStatus.state.isPend then dropReserve cf acc jp else (acc, jp)
  let job := jobInQueueEnd freed.2 qtp
  let r := updSwitchJob cf freed.1 job qfp qtp job.jobBill.maxNumProcessors
  (r.1, afterSwitch r.2 (qfp ≠ qtp))

/-- The branches of `handleJParameters` for a started job: only the resource
requirement, the running job, or the job once it is started again. -/
inductive ModifyKind where
  | resReq
  | runJob
  | newSub
  deriving DecidableEq, Repr

def saveOldParameters (jp : JData) : JData :=
  { jp with jStatus := { jp.jStatus with modifyOnce := true }, newSub := some jp.jobBill }

/-- `handleJParameters`. `sub` is the request merged with the old parameters,
`once` its flag `SUB_MODIFY_ONCE`. -/
def handleJParameters (cf : Config) (acc : Accounts) (jp : JData) (sub : SubmitReq)
    (once : Bool) (kind : ModifyKind) : Accounts × JData :=
  if jp.jStatus.state.isPend then
    let saved := if !jp.jobBill.modifyOnce && once then saveOldParameters jp else jp
    let changed := { saved with jobBill := sub }
    if jp.qPtr ≠ sub.queue ∨ sub.maxNumProcessors ≠ jp.jobBill.maxNumProcessors then
      let freed := dropReserve cf acc (cleanCandHosts changed)
      updSwitchJob cf freed.1 (jobInQueueEnd freed.2 sub.queue) jp.qPtr sub.queue
        jp.jobBill.maxNumProcessors
    else (acc, changed)
  else if jp.jStatus.state.isFinish then
    let changed :=
      if !jp.jobBill.modifyOnce && once then { jp with newSub := some sub }
      else { jp with jobBill := sub }
    if jp.qPtr ≠ sub.queue ∨
        changed.jobBill.maxNumProcessors ≠ jp.jobBill.maxNumProcessors then
      updSwitchJob cf acc (jobInQueueEnd changed sub.queue) jp.qPtr sub.queue
        jp.jobBill.maxNumProcessors
    else (acc, changed)
  else
    match kind with
    | .resReq => (acc, jp)
    | .runJob =>
      let saved := if once then saveOldParameters jp else jp
      (acc, { saved with jobBill := sub })
    | .newSub => (acc, { jp with newSub := some sub })

end Jhlava.Mbd
