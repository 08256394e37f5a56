import Mathlib.Data.Fintype.Card
import Jhlava.QueueTraversal

/-! The sets of user data that are made from the user groups when the program starts,
`uDataGroupCreate`, `traverseGroupTree` and `setuDataCreate` of mbd.grp.c. User data is found by
name, so a set of user data is a set of names; a set that has not been made has no members. -/
namespace Jhlava.UGrp
open QueueTraversal

abbrev Name := List Char

/-- `MAX_GROUPS`. -/
def maxGroups : Nat := 150

/-- The user groups, as they have been read: `gData` of every group. A group with neither members
nor subgroups is one of all users, of which there is none here. -/
structure UserGroups (G : Type) where
  usergroups : List G
  group : G → Name
  memberTab : G → List Name
  gPtr : G → List G
  all : ∀ g, g ∈ usergroups
  named : Function.Injective group
  users : ∀ g h, group h ∉ memberTab g
  explicit : ∀ g, memberTab g ≠ [] ∨ gPtr g ≠ []

/-- The sets of user data. -/
structure USets where
  children : Finset Name := ∅
  descendants : Finset Name := ∅
  parents : Finset Name := ∅
  ancestors : Finset Name := ∅
  deriving DecidableEq

/-- `uData`; the flag `USER_GROUP` is set where there is a `gData`. -/
structure UData (G : Type) where
  user : Name
  gData : Option G := none

/-- `uDataPtrTb` and the sets of every entry. -/
structure Users (G : Type) where
  table : List (UData G)
  sets : Name → USets

variable {G : Type}

def getUserData (s : Users G) (user : Name) : Users G :=
  if s.table.any fun u => u.user = user then s else { s with table := s.table ++ [{ user }] }

def Users.modify (s : Users G) (user : Name) (f : USets → USets) : Users G :=
  { s with sets := Function.update s.sets user (f (s.sets user)) }

namespace UserGroups
variable (groups : UserGroups G)

/-- The user data of a group gets its flag and its `gData`. -/
def flag (s : Users G) (g : G) : Users G :=
  let s := getUserData s (groups.group g)
  { s with
    table := s.table.map fun u =>
      if u.user = groups.group g then { u with gData := some g } else u }

def uDataGroupCreate (s : Users G) : Users G := groups.usergroups.foldl groups.flag s

/-- What the loops over the members and over the subgroups do for a member `u`. -/
def enter (cur : Name) (s : Users G) (u : Name) : Users G :=
  let s := getUserData s u
  let s := s.modify u fun d =>
    { d with parents := insert cur d.parents, ancestors := insert cur d.ancestors }
  let s := s.modify u fun d => { d with ancestors := d.ancestors ∪ (s.sets cur).ancestors }
  s.modify cur fun d =>
    { d with children := insert u d.children, descendants := insert u d.descendants }

/-- The body of the first loop of `traverseGroupTree`. -/
def visit (s : Users G) (e : Entry G) : Users G :=
  let s := (groups.memberTab e.my).foldl (enter (groups.group e.my)) s
  (groups.gPtr e.my).foldl (fun s h => enter (groups.group e.my) s (groups.group h)) s

def unite (s : Users G) (e : Entry G) : Users G :=
  match e.parent with
  | none => s
  | some p =>
    s.modify (groups.group p) fun d =>
      { d with descendants := d.descendants ∪ (s.sets (groups.group e.my)).descendants }

/-- `traverseGroupTree`; there is no result where `uStack` is too small. -/
def traverseGroupTree (s : Users G) (grp : G) : Option (Users G) :=
  (walk groups.gPtr maxGroups groups.visit maxGroups 0 [⟨grp, none⟩]
      (getUserData s (groups.group grp))).map
    fun r => r.1.tail.reverse.foldl groups.unite r.2

def isOthers (user : Name) : Bool := user.take 6 = "others".toList

def setuDataLoop : Nat → Nat → Users G → Option (Users G)
  | 0, i, s => if s.table.length ≤ i then some s else none
  | fuel + 1, i, s =>
    match s.table[i]? with
    | none => some s
    | some u =>
      match u.gData with
      | none => setuDataLoop fuel (i + 1) s
      | some g =>
        if isOthers u.user then setuDataLoop fuel (i + 1) s
        else (groups.traverseGroupTree s g).bind (setuDataLoop fuel (i + 1))

/-- `setuDataCreate`. Its second loop is about groups of all users. -/
def setuDataCreate (s : Users G) : Option (Users G) :=
  groups.setuDataLoop (s.table.length + (groups.usergroups.flatMap groups.memberTab).length) 0 s

end UserGroups

end Jhlava.UGrp
