import Jhlava.JobStatus
import Jhlava.LinkedRing
import Jhlava.ParentForest

/-! The jobs mbatchd has in core: the job records with the four lists they are
linked in, the table of job ids, and the tree of mbd.jgrp.c with the counts of its
groups and arrays. Records, tree nodes and list heads are memory cells; a pointer to
a record or a node is its number. -/
namespace Jhlava.Core
open LinkedRing

/-- `jlistno_t`, without the list of zombies, which holds copies of jobs. -/
inductive ListNo where
  | sjl
  | mjl
  | pjl
  | fjl
  deriving DecidableEq, Repr

/-- What the link fields of a job or of a list head point to. -/
inductive Entry where
  | null
  | head (listno : ListNo)
  | job (jp : Nat)
  deriving DecidableEq, Repr

/-- A queue, as far as the lists read it; `interactiveAhead` is
`Q_ATTRIB_ENQUE_INTERACTIVE_AHEAD`. -/
structure QData where
  priority : Int
  interactiveAhead : Bool
  deriving DecidableEq, Repr

inductive NodeType where
  | job
  | array
  | group
  deriving DecidableEq, Repr

/-- A job record. `interactive`, `hold` and `rerunnable` are `SUB_INTERACTIVE`,
`SUB2_HOLD` and `SUB_RERUNNABLE`, `requeue` is the bit `DEL_ACTION_REQUEUE` of
`pendEvent.sigDel`. -/
structure JData where
  jobId : Int := 0
  nodeType : NodeType := .job
  jStatus : Status := jobStatPend
  qPtr : QData := ⟨0, false⟩
  submitTime : Int := 0
  userPriority : Int := -1
  jobPriority : Int := -1
  interactive : Bool := false
  hold : Bool := false
  rerunnable : Bool := false
  startTime : Int := 0
  newReason : Int := 1
  requeue : Bool := false
  sig1Flags : Status := 0
  jgrpNode : Option Nat := none

/-- A node of the tree with its `ndInfo`. `jobs` is the job of a job node, and the
elements of an array in the order of `nextJob`; `jobArray` is the record of an array.
The pointers to siblings and children are left out: no count goes by them. -/
structure TreeNode where
  nodeType : NodeType := .group
  parent : Option Nat := none
  counts : Fin 9 → Int := fun _ => 0
  jobArray : Nat := 0
  jobs : List Nat := []

/-- The cells below `numJobs` and `numNodes` are allocated. -/
structure Mbd where
  links : Links Entry
  jobs : Nat → JData
  numJobs : Nat
  jobIdHT : List (Int × Nat)
  tree : Nat → TreeNode
  numNodes : Nat

/-- Empty lists, and a tree that is the node `groupRoot`. -/
def initial : Mbd where
  links := { fw := fun | .head l => .head l | _ => .null,
             bw := fun | .head l => .head l | _ => .null }
  jobs := fun _ => {}
  numJobs := 0
  jobIdHT := []
  tree := fun _ => {}
  numNodes := 1

def groupRoot : Nat := 0

def Mbd.setJob (s : Mbd) (p : Nat) (f : JData → JData) : Mbd :=
  { s with jobs := Function.update s.jobs p (f (s.jobs p)) }

def Mbd.setNode (s : Mbd) (n : Nat) (f : TreeNode → TreeNode) : Mbd :=
  { s with tree := Function.update s.tree n (f (s.tree n)) }

/-! ### Counts -/

def numJgrpCounters : Nat := 8

def getIndexOfJStatus (status : Status) : Fin 9 :=
  let masked := maskStatus (status &&& ~~~jobStatUnkwn &&& ~~~jobStatPdone &&& ~~~jobStatPerr)
  if masked = jobStatPend ∨ masked = jobStatRun ||| jobStatWait then 1
  else if masked = jobStatPsusp then 2
  else if masked = jobStatRun then 3
  else if masked = jobStatSsusp then 4
  else if masked = jobStatUsusp then 5
  else if masked = jobStatExit ∨ masked = jobStatExit ||| jobStatWait then 6
  else if masked = jobStatDone ∨ masked = jobStatDone ||| jobStatWait then 7
  else 8

abbrev jgrpCountNjobs : Fin 9 := 0

/-- `counts[i] += n`. -/
def addCount (counts : Fin 9 → Int) (i : Fin 9) (n : Int) : Fin 9 → Int :=
  Function.update counts i (counts i + n)

/-- What `updJgrpCountByJStatus` does to the counts of one group or array. -/
def countByJStatus (oldStatus newStatus : Status) (counts : Fin 9 → Int) : Fin 9 → Int :=
  let counts :=
    if oldStatus = jobStatNull then counts
    else addCount (addCount counts (getIndexOfJStatus oldStatus) (-1)) 0 (-1)
  if newStatus = jobStatNull then counts
  else addCount (addCount counts (getIndexOfJStatus newStatus) 1) 0 1

/-- The nodes met by following `parent`. -/
def nodesUp (tree : Nat → TreeNode) (fuel : Nat) (n : Option Nat) : List Nat :=
  ParentForest.up (fun n => (tree n).parent) fuel n

def Mbd.setNodes (s : Mbd) (nodes : List Nat) (f : TreeNode → TreeNode) : Mbd :=
  nodes.foldl (fun s n => s.setNode n f) s

def updJgrpCountByJStatus (s : Mbd) (job : Nat) (oldStatus newStatus : Status) : Mbd :=
  s.setNodes (nodesUp s.tree s.numNodes (s.jobs job).jgrpNode) fun node =>
    if node.nodeType = .job then node
    else { node with counts := countByJStatus oldStatus newStatus node.counts }

def updJgrpCountByOp (s : Mbd) (jgrp : Nat) (factor : Int) : Mbd :=
  let node := s.tree jgrp
  s.setNodes (nodesUp s.tree s.numNodes node.parent) fun parent =>
    if node.nodeType = .job then parent
    else { parent with counts := fun i =>
      if i.val < numJgrpCounters then parent.counts i + factor * node.counts i
      else parent.counts i }

/-- What `treeInsertChild` and `treeClip` do to the counts: `JOB_DATA` of a job node
changes from one status to the other, another node brings or takes its counts. -/
def updJgrpCount (s : Mbd) (n : Nat) (factor : Int) (status : Nat → Status × Status) : Mbd :=
  if (s.tree n).nodeType = .job then
    (s.tree n).jobs.foldl (fun s p => updJgrpCountByJStatus s p (status p).1 (status p).2) s
  else updJgrpCountByOp s n factor

/-! ### The tree -/

/-- `treeInsertChild` of a single node, as its callers have it. -/
def treeInsertChild (s : Mbd) (parent child : Nat) : Mbd :=
  let s := s.setNode child fun node => { node with parent := some parent }
  updJgrpCount s child 1 fun p => (jobStatNull, (s.jobs p).jStatus)

def treeClip (s : Mbd) (n : Nat) : Mbd :=
  let s := updJgrpCount s n (-1) fun p => ((s.jobs p).jStatus, jobStatNull)
  s.setNode n fun node => { node with parent := none }

/-- `treeNewNode`, with what the callers write into `ndInfo`. -/
def treeNewNode (s : Mbd) (node : TreeNode) : Mbd :=
  { s with tree := Function.update s.tree s.numNodes node, numNodes := s.numNodes + 1 }

def putElement (s : Mbd) (newj jPtr : Nat) : Mbd :=
  let s := s.setJob jPtr fun j => { j with jgrpNode := some newj }
  let s := s.setNode newj fun node => { node with jobs := node.jobs ++ [jPtr] }
  updJgrpCountByJStatus s jPtr jobStatNull (s.jobs jPtr).jStatus

/-- `putOntoTree` of a job, or of an array with its elements. -/
def putOntoTree (s : Mbd) (jp : Nat) (elements : List Nat) : Mbd :=
  let newj := s.numNodes
  let nodeType := (s.jobs jp).nodeType
  let s := treeNewNode s
    { nodeType, jobArray := jp, jobs := if nodeType = .job then [jp] else [] }
  let s := s.setJob jp fun j => { j with jgrpNode := some newj }
  treeInsertChild (elements.foldl (fun s jPtr => putElement s newj jPtr) s) groupRoot newj

def offArray (s : Mbd) (jp : Nat) : Mbd :=
  match (s.jobs jp).jgrpNode with
  | none => s
  | some n =>
    if (s.tree n).nodeType ≠ .array then s
    else
      let s := s.setNode n fun node => { node with jobs := node.jobs.erase jp }
      updJgrpCountByJStatus s jp (s.jobs jp).jStatus jobStatNull

end Jhlava.Core
