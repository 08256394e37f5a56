import Jhlava.DepMatch
import Jhlava.SelectionSort

/-! `chkAskedHosts` of mbd.job.c: the hosts a job asks for, with their
priorities, from the list of names of its submission. -/
namespace Jhlava.AskedHosts
open CValues

abbrev Name := List Char

/-- `struct gData`, as far as it is read: the sizes of its tables and the entries
that `expandGrp` collects. -/
structure HostGroup where
  numEnts : Nat
  numGroups : Nat
  entries : List Name
  deriving DecidableEq, Repr

/-- The tables `chkAskedHosts` looks names up in. `confHost` is the test of
`chkFirstHost`, which lsb.conf.c makes in tables of its own. -/
structure HostEnv where
  confHost : Name → Bool
  getHGrpData : Name → Option HostGroup
  gethostbyname : Name → Option Name
  getHostData : Name → Option Nat
  numCPUs : Nat → Int
  lostFound : Nat → Bool
  remote : Nat → Bool
  numofprocs : Int

structure AskedHost where
  hData : Nat
  priority : Int
  deriving DecidableEq, Repr

def firstHostPriority : Int := (2 ^ 32 - 1) / 2

/-- A name without its priority; `first` if it is marked as first host. -/
structure AskedName where
  hName : Name
  priority : Int
  first : Bool
  deriving DecidableEq, Repr

def numbered (hName : Name) : Option (Name × Int) :=
  match hName.dropWhile (· ≠ '+') with
  | _ :: digits =>
    if 2 < hName.length && Dep.isint digits then some (hName.takeWhile (· ≠ '+'), atoi digits)
    else none
  | [] => none

def stripPlus : List Char → Nat × List Char
  | [] => (0, [])
  | c :: rest =>
    if c = '+' ∧ 1 < rest.length then ((stripPlus rest).1 + 1, (stripPlus rest).2)
    else (0, c :: rest)

/-- `chkFirstHost`. -/
def chkFirstHost (env : HostEnv) (host : Name) : Bool :=
  host.getLast? == some '!' && !env.confHost host

/-- How the loop of `chkAskedHosts` reads a name. -/
def readName (env : HostEnv) (name : Name) : AskedName :=
  match numbered name with
  | some (hName, priority) => ⟨hName, priority, false⟩
  | none =>
    if 1 < name.length && name.getLast? == some '+' then
      let (more, rest) := stripPlus name.dropLast.reverse
      ⟨rest.reverse, toInt32 (1 + more), false⟩
    else if chkFirstHost env name then ⟨name.dropLast, firstHostPriority, true⟩
    else ⟨name, 0, false⟩

inductive AskError where
  | multiFirstHost
  | othersFirstHost
  | hgFirstHost
  | badHost
  | procNum
  deriving DecidableEq, Repr

structure AskState where
  askedHosts : List AskedHost
  askedOthPrio : Int
  numAskProcessors : Int
  allSpecified : Bool
  firstHostIndex : Option Nat
  badHostIndx : Option Nat
  deriving DecidableEq, Repr

def pushNew (hosts : List AskedHost) (e : AskedHost) : List AskedHost :=
  if hosts.any (·.hData = e.hData) then hosts else hosts ++ [e]

def addHost (env : HostEnv) (s : AskState) (e : AskedHost) : AskState :=
  { s with
    askedHosts := pushNew s.askedHosts e
    numAskProcessors :=
      if s.askedHosts.any (·.hData = e.hData) then s.numAskProcessors
      else s.numAskProcessors + env.numCPUs e.hData }

/-- A name at `j` is refused, or left out if bad hosts are not returned. -/
def refuse (returnBadHost : Bool) (error : AskError) (j : Nat) (s : AskState) :
    Except (AskError × Option Nat) AskState :=
  if returnBadHost then .error (error, some j) else .ok { s with badHostIndx := some j }

def askAll (env : HostEnv) (returnBadHost : Bool) (j : Nat) (priority : Int) (s : AskState) :
    Except (AskError × Option Nat) AskState :=
  if 0 ≤ s.askedOthPrio ∧ returnBadHost then .error (.badHost, some j)
  else .ok { s with askedOthPrio := priority
                    numAskProcessors := env.numofprocs
                    allSpecified := true }

/-- `expandGrp`: a group without entries stands for its own name. -/
def expandGrp (gp : HostGroup) (gName : Name) : List Name :=
  if gp.entries = [] then [gName] else gp.entries

def others : Name := "others".toList

def all : Name := "all".toList

def askMember (env : HostEnv) (returnBadHost : Bool) (j : Nat) (priority : Int) (s : AskState)
    (member : Name) : Except (AskError × Option Nat) AskState :=
  if member = all then askAll env returnBadHost j priority s
  else match env.getHostData member with
    | none => .ok s
    | some hData => .ok (addHost env s ⟨hData, priority⟩)

def usableHost (env : HostEnv) (hName : Name) : Option Nat :=
  ((env.gethostbyname hName).bind env.getHostData).filter fun hData =>
    !env.lostFound hData && !env.remote hData

/-- One turn of the loop over the names. -/
def askName (env : HostEnv) (returnBadHost : Bool) (j : Nat) (s : AskState) (name : Name) :
    Except (AskError × Option Nat) AskState :=
  let asked := readName env name
  if asked.first ∧ s.firstHostIndex ≠ none then refuse returnBadHost .multiFirstHost j s
  else
    let s := if asked.first then { s with firstHostIndex := some j } else s
    if asked.hName = others then
      if 0 ≤ s.askedOthPrio ∧ returnBadHost then .error (.badHost, some j)
      else if s.firstHostIndex = some j then refuse returnBadHost .othersFirstHost j s
      else .ok { s with askedOthPrio := asked.priority, numAskProcessors := env.numofprocs }
    else match env.getHGrpData asked.hName with
      | some gp =>
        if s.firstHostIndex = some j then refuse returnBadHost .hgFirstHost j s
        else if gp.numEnts = 0 ∧ gp.numGroups = 0 then
          askAll env returnBadHost j asked.priority s
        else (expandGrp gp asked.hName).foldlM (askMember env returnBadHost j asked.priority) s
      | none =>
        match usableHost env asked.hName with
        | none => if returnBadHost then .error (.badHost, some j) else .ok s
        | some hData => .ok (addHost env s ⟨hData, asked.priority⟩)

def askNames (env : HostEnv) (returnBadHost : Bool) :
    Nat → List Name → AskState → Except (AskError × Option Nat) AskState
  | _, [], s => .ok s
  | j, name :: names, s =>
    (askName env returnBadHost j s name).bind (askNames env returnBadHost (j + 1) names)

def lowerOthers (firstHostIndex : Option Nat) (hosts : List AskedHost) : List AskedHost :=
  hosts.mapIdx fun i e =>
    if some i ≠ firstHostIndex ∧ e.priority = firstHostPriority then
      { e with priority := e.priority - 1 }
    else e

structure Asked where
  askedHosts : List AskedHost
  askedOthPrio : Int
  deriving DecidableEq, Repr

def chkAskedHosts (env : HostEnv) (names : List Name) (numProcessors : Int) (returnBadHost : Bool) :
    Except (AskError × Option Nat) Asked :=
  (askNames env returnBadHost 0 names ⟨[], -1, 0, false, none, none⟩).bind fun s =>
    if s.askedHosts = [] ∧ 0 ≤ s.askedOthPrio ∧ !s.allSpecified then
      .error (.badHost, s.badHostIndx)
    else if (returnBadHost ∧ numProcessors > s.numAskProcessors) ∨
        (!returnBadHost ∧ s.askedHosts = [] ∧ !s.allSpecified) then
      .error (.procNum, s.badHostIndx)
    else
      let hosts := lowerOthers s.firstHostIndex s.askedHosts
      .ok ⟨(SelectionSort.selectSort AskedHost.priority hosts.toArray).toList, s.askedOthPrio⟩

end Jhlava.AskedHosts
