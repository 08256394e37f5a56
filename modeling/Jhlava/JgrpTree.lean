import Jhlava.JobLists

/-! Changes of the job group tree: nodes are made, put under a group and clipped,
arrays get and lose elements, and jobs change their status. -/
namespace Jhlava.Core

def elementStatus (hold : Bool) : Status := if hold then jobStatPsusp else jobStatPend

def newRecord (s : Mbd) (j : JData) : Mbd :=
  { s with jobs := Function.update s.jobs s.numJobs j, numJobs := s.numJobs + 1 }

def newJobNode (s : Mbd) (jobId : Int) : Mbd :=
  treeNewNode (newRecord s { jobId, jgrpNode := some s.numNodes })
    { nodeType := .job, jobs := [s.numJobs] }

/-- The body of the loop of `handleNewJobArray`: the copy of the array's record has its
node. -/
def copyElement (n : Nat) (hold : Bool) (s : Mbd) (jobId : Int) : Mbd :=
  (newRecord s { jobId, jStatus := elementStatus hold, hold, jgrpNode := some n }).setNode n
    fun node => { node with jobs := node.jobs ++ [s.numJobs] }

/-- `handleNewJobArray`, as far as the tree goes, for the ids of the elements that are
not in core yet. -/
def handleNewJobArray (s : Mbd) (n : Nat) (ids : List Int) (hold : Bool) : Mbd :=
  let s := ids.foldl (copyElement n hold) s
  let s := s.setNode n fun node =>
    { node with counts := Function.update (Function.update node.counts
        (getIndexOfJStatus (elementStatus hold)) ids.length) jgrpCountNjobs ids.length }
  updJgrpCountByOp s n 1

inductive TreeStep where
  | newGroup
  | newArray
  | newJob (jobId : Int)
  | putElement (n : Nat) (jobId : Int) (hold : Bool)
  | handleNewJobArray (n : Nat) (ids : List Int) (hold : Bool)
  | treeInsertChild (parent child : Nat)
  | treeClip (n : Nat)
  | offArray (jp : Nat)
  | jStatusChange (g : Globals) (jp : Nat) (newStatus : Status) (eventTime : Int)
  deriving DecidableEq, Repr

def treeStep (s : Mbd) : TreeStep → Mbd
  | .newGroup => treeNewNode s { nodeType := .group }
  | .newArray => treeNewNode s { nodeType := .array }
  | .newJob jobId => newJobNode s jobId
  | .putElement n jobId hold =>
    putElement (newRecord s { jobId, jStatus := elementStatus hold, hold }) n s.numJobs
  | .handleNewJobArray n ids hold => handleNewJobArray s n ids hold
  | .treeInsertChild parent child => treeInsertChild s parent child
  | .treeClip n => treeClip s n
  | .offArray jp => offArray s jp
  | .jStatusChange g jp newStatus eventTime => jStatusChange g s jp newStatus eventTime

def Proper (s : Mbd) : TreeStep → Prop
  | .putElement n _ _ => n < s.numNodes ∧ (s.tree n).nodeType = .array
  | .handleNewJobArray n _ _ =>
    n < s.numNodes ∧ (s.tree n).nodeType = .array ∧ (s.tree n).jobs = []
  | .treeInsertChild parent child =>
    parent < s.numNodes ∧ child < s.numNodes ∧ (s.tree parent).nodeType = .group ∧
    (s.tree child).parent = none ∧ child ∉ nodesUp s.tree s.numNodes (some parent)
  | .treeClip n => n < s.numNodes
  | .offArray jp | .jStatusChange _ jp _ _ =>
    ∀ n, (s.jobs jp).jgrpNode = some n → jp ∈ (s.tree n).jobs
  | _ => True

end Jhlava.Core
