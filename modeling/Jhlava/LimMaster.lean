import Mathlib.Data.List.FinRange
import Jhlava.DepMatch
import Jhlava.TransitionRun

/-! How a LIM keeps track of the master: the announcements it receives, the periodic
`sendLoad` up to the sending of the load, and the takeover. The hosts of the cluster are
numbered by their place in `hostList`; a step that follows `NULL` has no result. -/
namespace Jhlava.Lim
open CValues Dep

/-- A value stored in a C `short`. -/
def toInt16 (x : Int) : Int := Int.bmod x (2 ^ 16)

structure HostNode where
  hostName : List Char
  hostNo : Int
  deriving DecidableEq, Repr

/-- `ISBOUNDARY` for one of the two names. -/
def isBoundary (host : List Char) (len : Nat) : Bool :=
  host[len]? == none || host[len]? == some '.'

/-- `equalHost_` of lib.host.c. -/
def equalHost (host1 host2 : List Char) : Bool :=
  let len := min host1.length host2.length
  (host1.take len).map Char.toLower == (host2.take len).map Char.toLower &&
    (isBoundary host1 len && isBoundary host2 len)

def readLimit (default least : Int) (val : Option (List Char)) : Int :=
  match val with
  | none => default
  | some val => if !isint val || atoi val < least then default else toInt16 (atoi val)

/-- What a LIM with `n` hosts in its cluster is configured with. -/
structure LimConf (n : Nat) where
  clName : List Char
  hostList : Fin n → HostNode
  myHostPtr : Fin n
  hostInactivityVal : Option (List Char)
  masterInactivityVal : Option (List Char)
  retryVal : Option (List Char)
  /-- `LIM_COMPUTE_ONLY` is set. -/
  computeOnly : Bool
  /-- The LIM is compiled with `LINUX`. -/
  linux : Bool

/-- The fields of the cluster and of the LIM that tell the master. -/
structure Cluster (n : Nat) where
  masterKnown : Bool
  masterPtr : Option (Fin n)
  prevMasterPtr : Option (Fin n)
  masterInactivityCount : Int
  masterMe : Bool
  deriving DecidableEq, Repr

/-- What `masterRegister` reads of an announcement. -/
structure Announcement where
  limPortOk : Bool
  xdrMasterReg : Bool
  clName : List Char
  hostName : List Char
  deriving DecidableEq, Repr

variable {n : Nat} (conf : LimConf n) (s : Cluster n)

def LimConf.hostInactivityLimit : Int := readLimit 5 2 conf.hostInactivityVal

def LimConf.masterInactivityLimit : Int := readLimit 2 0 conf.masterInactivityVal

def LimConf.retryLimit : Int := readLimit 2 0 conf.retryVal

def LimConf.hostNo (h : Fin n) : Int := (conf.hostList h).hostNo

/-- `myHostPtr->hostNo`. -/
def LimConf.myHostNo : Int := conf.hostNo conf.myHostPtr

def findHostbyList (hostName : List Char) : Option (Fin n) :=
  (List.finRange n).find? fun hPtr => equalHost (conf.hostList hPtr).hostName hostName

def initNewMaster : Cluster n where
  masterKnown := true
  masterPtr := some conf.myHostPtr
  prevMasterPtr := s.masterPtr
  masterInactivityCount := 0
  masterMe := true

/-- The master becomes the host `hPtr` that announced itself. -/
def newMaster (hPtr : Fin n) : Cluster n where
  masterKnown := true
  masterPtr := some hPtr
  prevMasterPtr := s.masterPtr
  masterInactivityCount := 0
  masterMe := false

/-- The last part of `masterRegister`, which may take the host as the new master. -/
def acceptAnnounce (hPtr : Fin n) : Option (Cluster n) :=
  if !conf.linux || conf.hostNo hPtr < conf.myHostNo then some (newMaster s hPtr)
  else if s.masterKnown && s.masterInactivityCount < conf.hostInactivityLimit then do
    let _ ← s.masterPtr
    return s
  else some s

def masterRegister (masterReg : Announcement) : Option (Cluster n) :=
  if !masterReg.limPortOk then some s
  else if !masterReg.xdrMasterReg then some s
  else if conf.clName ≠ masterReg.clName then some s
  else if equalHost (conf.hostList conf.myHostPtr).hostName masterReg.hostName then some s
  else match findHostbyList conf masterReg.hostName with
    | none => some s
    | some hPtr =>
      if s.masterKnown ∧ s.masterPtr = some hPtr then some { s with masterInactivityCount := 0 }
      else if s.masterKnown && conf.hostNo hPtr < conf.myHostNo then do
        let masterPtr ← s.masterPtr
        if conf.hostNo masterPtr < conf.hostNo hPtr ∧
            s.masterInactivityCount ≤ conf.hostInactivityLimit then some s
        else acceptAnnounce conf s hPtr
      else acceptAnnounce conf s hPtr

/-- `probeMasterTcp`: the host that has answered. -/
def probeMasterTcp (connects : Bool) : Option (Fin n) :=
  match s.masterPtr.or s.prevMasterPtr with
  | none => none
  | some hPtr => if hPtr = conf.myHostPtr then none else if connects then some hPtr else none

def forgetMaster : Cluster n :=
  { s with masterKnown := false, prevMasterPtr := s.masterPtr, masterPtr := none }

/-- The attempt of `sendLoad` to take over, with the host that a successful probe reached. -/
def tryTakeover (connects : Bool) : Cluster n × Option (Fin n) :=
  if !conf.computeOnly && s.masterInactivityCount >
      conf.hostInactivityLimit + conf.myHostNo * conf.masterInactivityLimit then
    match probeMasterTcp conf s connects with
    | none => (initNewMaster conf s, none)
    | some hPtr =>
      ({ s with masterInactivityCount := 0, masterKnown := true, masterPtr := s.prevMasterPtr },
        some hPtr)
  else (s, none)

def sendLoad (connects : Bool) : Option (Cluster n × Option (Fin n)) :=
  if s.masterMe then some (s, none)
  else
    let s := { s with masterInactivityCount := s.masterInactivityCount + 1 }
    if s.masterInactivityCount > conf.hostInactivityLimit then
      if s.masterKnown then do
        let _ ← s.masterPtr
        if s.masterInactivityCount > conf.hostInactivityLimit + conf.retryLimit then
          return tryTakeover conf (forgetMaster s) connects
        else return tryTakeover conf s connects
      else some (tryTakeover conf s connects)
    else some (s, none)

/-! ### Runs -/

inductive LimEvent where
  | announce (masterReg : Announcement)
  | periodic (connects : Bool)
  | takeover
  deriving DecidableEq, Repr

def limStart : Cluster n :=
  let s : Cluster n := ⟨false, none, none, 0, conf.myHostNo = 0⟩
  if s.masterMe then initNewMaster conf s else s

def limStep (s : Option (Cluster n)) (event : LimEvent) : Option (Cluster n) := do
  let s ← s
  match event with
  | .announce masterReg => masterRegister conf s masterReg
  | .periodic connects => return (← sendLoad conf s connects).1
  | .takeover => return initNewMaster conf s

end Jhlava.Lim
