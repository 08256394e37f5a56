import Jhlava.CValues
import Jhlava.SiblingForest

/-! The share tree of a queue, ugtree.c and mbd.fairshare.c: the jobs of the users are counted
in the leaves and in every group above them, and the user that may start a job is found by a
descent along the greatest priorities. -/
namespace Jhlava.Share
open SiblingForest CValues

/-- `type` of a node. -/
inductive NodeType where
  | user
  | group
  | allUsers
  deriving DecidableEq, Repr

/-- `Node`. The table `pDescendant` is kept as its keys, the names of users. -/
structure Node where
  name : List Char
  type : NodeType
  share : Rat
  ratio : Int
  isActive : Bool
  numPendJob : Int
  numRunJob : Int
  priority : Rat
  pDescendant : List (List Char)
  deriving DecidableEq

/-- `UserJobInfo`. -/
structure UserJobInfo where
  numPendJob : Int
  numRunJob : Int
  counted : 0 ≤ numPendJob
  int : numPendJob < 2 ^ 31

/-- `MAX_SHARE_VALUE`. -/
def maxShareValue : Rat := 100000

def computePriority (pnode : Node) : Node :=
  { pnode with
    priority :=
      if pnode.isActive then
        if pnode.numRunJob ≤ 0 then pnode.share * maxShareValue
        else pnode.share / pnode.numRunJob
      else -1 }

/-! ### The tables of the groups -/

def addDescendants : List (List Char) → Forest Node → List (List Char)
  | pDesc, .nil => pDesc
  | pDesc, .node pData children next =>
    addDescendants
      (if children.isNil then pDesc.insert pData.name
        else pData.pDescendant.foldl (fun pDesc name => pDesc.insert name) pDesc) next

def updateDescendantOfTreeNode : Forest Node → Forest Node
  | .nil => .nil
  | .node data children next =>
    .node
      (if children.isNil then data
        else { data with
          pDescendant := addDescendants data.pDescendant (updateDescendantOfTreeNode children) })
      (updateDescendantOfTreeNode children) (updateDescendantOfTreeNode next)

/-! ### Counting the jobs -/

def resetNode (_leaf : Bool) (data : Node) : Node :=
  { data with numPendJob := 0, numRunJob := 0, priority := 0, isActive := true }

def resetTreeJobInfo (proot : Forest Node) : Forest Node := proot.map resetNode

def nodeNewUser (nodeName : List Char) (ratio : Int) : Node where
  name := nodeName
  type := .user
  share := -1
  ratio := ratio
  isActive := true
  numPendJob := 0
  numRunJob := 0
  priority := 0
  pDescendant := []

/-- The members of a group of all users; `none` where the program ends because a user has no
share. -/
def allMembers (ga : List Char → Option (List Char)) : List (List Char) → Option (List Node)
  | [] => some []
  | user :: rest =>
    ((ga user).or (ga "default".toList)).bind fun val =>
      (allMembers ga rest).map fun members =>
        { nodeNewUser user (atoi val) with share := atoi val } :: members

def updateMGA (ga : List Char → Option (List Char)) (users : List (List Char)) :
    Forest Node → Option (Forest Node)
  | .nil => some .nil
  | .node d children next =>
    if d.type = .allUsers then
      (allMembers ga users).bind fun members =>
        (updateMGA ga users next).map fun next =>
          .node
            { d with
              pDescendant := users.foldl (fun pDesc name => pDesc.insert name) []
              share := (members.map Node.share).sum }
            (.ofList members) next
    else (updateMGA ga users next).map fun next => .node d children next

def computeMapPriority (phash : List Char → Option UserJobInfo) (pUNode : Node)
    (name : List Char) : Node :=
  match phash name with
  | none => pUNode
  | some pjob =>
    { pUNode with
      numRunJob := toInt32 (pUNode.numRunJob + pjob.numRunJob)
      numPendJob := toInt32 (pUNode.numPendJob + pjob.numPendJob) }

def updateNode (phash : List Char → Option UserJobInfo) (leaf : Bool) (data : Node) : Node :=
  computePriority
    (if leaf then
      match phash data.name with
      | none => { data with numRunJob := 0, numPendJob := 0, isActive := false }
      | some pjob =>
        { data with
          numRunJob := pjob.numRunJob
          numPendJob := pjob.numPendJob
          isActive := decide (pjob.numPendJob > 0) }
    else
      { data.pDescendant.foldl (computeMapPriority phash) data with
        isActive :=
          decide ((data.pDescendant.foldl (computeMapPriority phash) data).numPendJob > 0) })

def updateTreeJobInfo (ga : List Char → Option (List Char)) (users : List (List Char))
    (phash : List Char → Option UserJobInfo) (proot : Forest Node) : Option (Forest Node) :=
  (updateMGA ga users (resetTreeJobInfo proot)).map fun proot => proot.map (updateNode phash)

/-! ### Starting jobs -/

def changeNodeJobNum (user : List Char) (num : Int) (leaf : Bool) (pdata : Node) : Node :=
  if leaf then
    if user = pdata.name then
      computePriority
        { pdata with
          numRunJob := toInt32 (pdata.numRunJob + num)
          numPendJob := toInt32 (pdata.numPendJob - num)
          isActive := if toInt32 (pdata.numPendJob - num) ≤ 0 then false else pdata.isActive }
    else pdata
  else if user ∈ pdata.pDescendant then
    computePriority
      { pdata with
        numRunJob := toInt32 (pdata.numRunJob + num)
        numPendJob := toInt32 (pdata.numPendJob - num) }
  else pdata

/-- A call of `changeJobNumOfUser`. -/
structure Call where
  user : List Char
  num : Int
  int : IsInt32 num
  deriving DecidableEq

def changeJobNumOfUser (proot : Forest Node) (call : Call) : Forest Node :=
  proot.map (changeNodeJobNum call.user call.num)

def compete (proot : Forest Node) : Option Node := descend Node.priority proot.depth none proot

end Jhlava.Share
