import Jhlava.ForestEdit
import Jhlava.ShareCompete

/-! The share tree as it is built, `initTree` of ugtree.c: each group of lsb.users is put where its
name stands already or on the first level, and a member that stands on the first level is moved
under it. -/
namespace Jhlava.Share
open SiblingForest Relation List Function

/-- `type` of a `Group`. -/
inductive GroupType where
  | group
  | allUsers
  deriving DecidableEq, Repr

/-- `Group`, with the members that `parseLine` makes. -/
structure Group where
  name : List Char
  type : GroupType
  share : Int
  members : List Node
  named : name ≠ []
  made : ∀ m ∈ members, m.name ≠ [] ∧ m.pDescendant = []

/-- A node of the tree, by its address. The root has the empty name, which no other node has; it is
left out. -/
structure GNode where
  id : Nat
  data : Node
  deriving DecidableEq

/-- The children of the root, and the next address. -/
structure Build where
  proot : Forest GNode
  next : Nat
  deriving DecidableEq

def nodeNewGroup (nodeName : List Char) (ratio : Int) : Node :=
  { nodeNewUser nodeName ratio with type := .group }

/-- The node that `initTree` makes of a group. -/
def groupNode (g : Group) : Node :=
  match g.type with
  | .group => nodeNewGroup g.name (-1)
  | .allUsers =>
    { nodeNewGroup g.name (-1) with type := .allUsers, share := g.share, ratio := g.share }

def findParentInLeaves (proot : Forest GNode) (pfindNode : Node) : Option GNode :=
  proot.postOrder.find? (·.data.name = pfindNode.name)

/-- `findNodeInLevelOfTree` with depth 2, with the children of the node. -/
def findNodeInLevelOfTree (proot : Forest GNode) (pfindNode : Node) :
    Option (GNode × Forest GNode) :=
  proot.tops.find? (·.1.data.name = pfindNode.name)

def insertMember (fres : Nat) (b : Build) (member : Node) : Build :=
  match findNodeInLevelOfTree b.proot member with
  | none =>
    ⟨b.proot.insertUnder (·.id = fres) (.node ⟨b.next, member⟩ .nil .nil), b.next + 1⟩
  | some fres2 =>
    ⟨(b.proot.unlink (·.data.name = member.name)).insertUnder (·.id = fres)
      (.node ⟨fres2.1.id, member⟩ fres2.2 .nil), b.next⟩

def placeGroup (b : Build) (g : Group) : Nat × Build :=
  match findParentInLeaves b.proot (groupNode g) with
  | none => (b.next, ⟨b.proot.append (.node ⟨b.next, groupNode g⟩ .nil .nil), b.next + 1⟩)
  | some fres => (fres.id, b)

def insertGroup (b : Build) (g : Group) : Build :=
  g.members.foldl (insertMember (placeGroup b g).1) (placeGroup b g).2

def initTree (groups : List Group) : Forest Node :=
  (groups.foldl insertGroup ⟨.nil, 0⟩).proot.map fun _ => GNode.data

/-! ### Groups and their members -/

/-- The group `g` has a member named `m`. -/
def MemberOf (groups : List Group) (g m : List Char) : Prop :=
  ∃ d ∈ groups, d.name = g ∧ ∃ x ∈ d.members, x.name = m

/-- Definitions of groups, none of which is its own member through others. -/
structure Definitions where
  groups : List Group
  distinct : (groups.map Group.name).Nodup
  acyclic : ∀ name, ¬ TransGen (MemberOf groups) name name

def IsGroup (groups : List Group) (name : List Char) : Prop := ∃ g ∈ groups, g.name = name

def UserBelow (groups : List Group) (g u : List Char) : Prop :=
  TransGen (MemberOf groups) g u ∧ ¬ IsGroup groups u

def memberNames (groups : List Group) : List (List Char) :=
  groups.flatMap fun g => g.members.map Node.name

/-! ### The shape of the tree while it is built -/

/-- A node: its address, its name and its children. -/
structure Row where
  id : Nat
  name : List Char
  kids : List Node

def rowOf (r : GNode × List GNode) : Row := ⟨r.1.id, r.1.data.name, r.2.map GNode.data⟩

def shape (t : Forest GNode) : List Row := t.rows.map rowOf

def topNames (t : Forest GNode) : List (List Char) := t.tops.map fun x => x.1.data.name

/-- The row of a node after children were added to the node `fres`. -/
def Row.grow (fres : Nat) (new : List Node) (r : Row) : Row :=
  { r with kids := if r.id = fres then r.kids ++ new else r.kids }

/-- The nodes have addresses of their own, and the children `held`, which are members. -/
structure Rows (groups : List Group) (held : Nat → List Node) (b : Build) : Prop where
  ids : ((shape b.proot).map Row.id).Nodup
  fresh : ∀ r ∈ shape b.proot, r.id < b.next
  kids : ∀ r ∈ shape b.proot, r.kids = held r.id
  blank : ∀ i, b.next ≤ i → held i = []
  edges : ∀ r ∈ shape b.proot, ∀ m ∈ r.kids, MemberOf groups r.name m.name

/-- What holds while the tree is built: `placed` are the names of the nodes below the first
level. -/
structure Attached (groups : List Group) (held : Nat → List Node) (placed : List (List Char))
    (b : Build) : Prop extends Rows groups held b where
  names : ∀ n, ((shape b.proot).map Row.name).count n =
    (topNames b.proot).count n + placed.count n
  tops : ∀ n, (topNames b.proot).count n ≤ 1 ∧
    ((topNames b.proot).count n = 0 ∨ placed.count n = 0)

section Shape

variable {groups : List Group} {held : Nat → List Node} {placed : List (List Char)} {b : Build}
  {t s : Forest GNode} {fres : Nat}

theorem hits_eq (t : Forest GNode) (i : Nat) :
    t.hits (·.id = i) = ((shape t).map Row.id).count i := by
  rw [shape, List.map_map, List.count, List.countP_map]
  rfl

theorem shape_insertUnder (one : t.hits (·.id = fres) = 1) :
    (shape (t.insertUnder (·.id = fres) s)).Perm
      ((shape t).map (Row.grow fres (s.tops.map fun x => x.1.data)) ++ shape s) := by
  have rows := (Forest.rows_insertUnder (s := s) one).map rowOf
  rw [List.map_append, List.map_map] at rows
  refine rows.trans (List.Perm.of_eq ?_)
  rw [shape, List.map_map]
  congr 1
  refine map_congr_left fun r _ => ?_
  by_cases here : r.1.id = fres
  · simp [Forest.grow, rowOf, Row.grow, here]
  · simp [Forest.grow, rowOf, Row.grow, here]

theorem topNames_insertUnder : topNames (t.insertUnder (·.id = fres) s) = topNames t := by
  have same := congrArg (List.map fun d : GNode => d.data.name)
    (Forest.tops_insertUnder (p := (·.id = fres)) (s := s) (t := t))
  rwa [List.map_map, List.map_map] at same

@[simp] theorem map_id_grow (new : List Node) (rs : List Row) :
    (rs.map (Row.grow fres new)).map Row.id = rs.map Row.id := by
  rw [List.map_map]
  rfl

@[simp] theorem map_name_grow (new : List Node) (rs : List Row) :
    (rs.map (Row.grow fres new)).map Row.name = rs.map Row.name := by
  rw [List.map_map]
  rfl

variable {g : List Char} {member : Node} {x : GNode × Forest GNode}

theorem shape_unlink (found : findNodeInLevelOfTree t member = some x) :
    (shape t).Perm (shape (.node ⟨x.1.id, member⟩ x.2 .nil) ++
      shape (t.unlink (·.data.name = member.name))) ∧
    topNames (t.unlink (·.data.name = member.name)) = (topNames t).erase member.name ∧
    x ∈ t.tops ∧ x.1.data.name = member.name := by
  have same : x.1.data.name = member.name := by simpa using List.find?_some found
  refine ⟨?_, ?_, mem_of_find?_eq_some found, same⟩
  · have rows := (Forest.rows_unlink (p := fun d : GNode => d.data.name = member.name) found).map
      rowOf
    rw [List.map_append] at rows
    have head : (Forest.node x.1 x.2 .nil).rows.map rowOf =
        shape (.node ⟨x.1.id, member⟩ x.2 .nil) := by
      simp only [shape, Forest.rows, map_cons, rowOf, same]
    rwa [head] at rows
  · rw [topNames, Forest.tops_unlink, erase_eq_eraseP, topNames, eraseP_map]
    congr 2
    funext y
    by_cases eq : y.1.data.name = member.name
    · simp [eq]
    · simp [eq, Ne.symm eq]

theorem reach_of_mem_shape (edges : ∀ r ∈ shape t, ∀ m ∈ r.kids, MemberOf groups r.name m.name)
    {r : Row} (mem : r ∈ shape t) :
    ∃ n ∈ topNames t, ReflTransGen (MemberOf groups) n r.name := by
  induction t with
  | nil => cases mem
  | node d children next below beside =>
    rw [shape, Forest.rows, map_cons, List.map_append] at edges mem
    obtain ⟨here, others⟩ := forall_mem_cons.mp edges
    obtain ⟨inner, outer⟩ := forall_mem_append.mp others
    rcases mem_cons.mp mem with rfl | mem
    · exact ⟨d.data.name, by simp [topNames, Forest.tops], .refl⟩
    rcases mem_append.mp mem with mem | mem
    · obtain ⟨n, top, chain⟩ := below inner mem
      obtain ⟨x, isTop, rfl⟩ := mem_map.mp top
      have edge := here x.1.data (by
        simp only [rowOf, List.map_map]
        exact mem_map.mpr ⟨x, isTop, rfl⟩)
      exact ⟨d.data.name, by simp [topNames, Forest.tops], .head edge chain⟩
    · obtain ⟨n, top, chain⟩ := beside outer mem
      exact ⟨n, by simp only [topNames, Forest.tops, map_cons]; exact .tail _ top, chain⟩

/-- The node `i` is in the tree, with the name `n`. -/
def Names (b : Build) (i : Nat) (n : List Char) : Prop := ∃ r ∈ shape b.proot, r.id = i ∧ r.name = n

section

variable (h : Attached groups held placed b)
include h

theorem Attached.row_unique {r r' : Row} (mem : r ∈ shape b.proot) (mem' : r' ∈ shape b.proot)
    (same : r.id = r'.id) : r = r' :=
  inj_on_of_nodup_map h.ids mem mem' same

theorem Attached.away (acyclic : ∀ n, ¬ TransGen (MemberOf groups) n n) (named : Names b fres g)
    (edge : MemberOf groups g member.name) (found : findNodeInLevelOfTree b.proot member = some x) :
    ∀ r ∈ shape (.node ⟨x.1.id, member⟩ x.2 .nil), r.id ≠ fres := by
  obtain ⟨perm, -, -, same⟩ := shape_unlink found
  intro r mem eq
  have sub : ∀ r ∈ shape (.node ⟨x.1.id, member⟩ x.2 .nil), r ∈ shape b.proot :=
    fun r mem => perm.mem_iff.mpr (mem_append_left _ mem)
  obtain ⟨r', mem', eq', rfl⟩ := named
  obtain ⟨n, top, chain⟩ := reach_of_mem_shape (fun r mem => h.edges r (sub r mem)) mem
  cases h.row_unique (sub r mem) mem' (eq.trans eq'.symm)
  rw [topNames, Forest.tops, map_cons, Forest.tops, map_nil, mem_singleton] at top
  subst top
  exact acyclic _ (.head' edge chain)

theorem Names.hits {n : List Char} (named : Names b fres n) : b.proot.hits (·.id = fres) = 1 := by
  obtain ⟨r, mem, rfl, -⟩ := named
  rw [hits_eq]
  exact count_eq_one_of_mem h.ids (mem_map_of_mem mem)

end

/-- What a member does to the tree: it is a new node, or the one of the first level. -/
structure Inserted (fres : Nat) (member : Node) (b b' : Build) (new : List Row) : Prop where
  shape : (shape b'.proot).Perm ((shape b.proot).map (Row.grow fres [member]) ++ new)
  next : b.next ≤ b'.next
  names : ∀ n, (topNames b.proot).count n + (new.map Row.name).count n =
    (topNames b'.proot).count n + [member.name].count n
  tops : ∀ n, (topNames b'.proot).count n =
    if n = member.name then 0 else (topNames b.proot).count n
  fresh : ∀ r ∈ new, r.id = b.next ∧ r.id < b'.next ∧ r.kids = []
  few : new.length ≤ 1

theorem insertMember_inserted (h : Attached groups held placed b)
    (acyclic : ∀ n, ¬ TransGen (MemberOf groups) n n) (named : Names b fres g)
    (edge : MemberOf groups g member.name) :
    ∃ new, Inserted fres member b (insertMember fres b member) new := by
  have one := named.hits h
  rw [insertMember]
  cases found : findNodeInLevelOfTree b.proot member with
  | none =>
    refine ⟨[⟨b.next, member.name, []⟩], shape_insertUnder one, Nat.le_succ _, fun n => ?_,
      fun n => ?_, by simp, Nat.le_refl 1⟩
    · rw [topNames_insertUnder]
      rfl
    · rw [topNames_insertUnder]
      split
      · subst n
        refine count_eq_zero.mpr fun mem => ?_
        obtain ⟨x, top, same⟩ := mem_map.mp mem
        exact List.find?_eq_none.mp found x top (decide_eq_true same)
      · rfl
  | some x =>
    obtain ⟨perm, tops, top, same⟩ := shape_unlink found
    have away := h.away acyclic named edge found
    have listed := count_pos_iff.mpr (show member.name ∈ topNames b.proot from
      mem_map.mpr ⟨x, top, same⟩)
    have single := (h.tops member.name).1
    have one' : (b.proot.unlink (·.data.name = member.name)).hits (·.id = fres) = 1 := by
      rw [hits_eq] at one ⊢
      rw [(perm.map Row.id).count_eq, List.map_append, count_append,
        count_eq_zero.mpr ?_, Nat.zero_add] at one
      · exact one
      · intro mem
        obtain ⟨r, mem, eq⟩ := mem_map.mp mem
        exact away r mem eq
    have unmoved : (shape (.node ⟨x.1.id, member⟩ x.2 .nil)).map (Row.grow fres [member]) =
        shape (.node ⟨x.1.id, member⟩ x.2 .nil) := by
      refine (map_congr_left fun r mem => ?_).trans (map_id _)
      rw [Row.grow, if_neg (away r mem)]
      rfl
    have left : ∀ n, (topNames b.proot).count n =
        ((topNames b.proot).erase member.name).count n + [member.name].count n := fun n =>
      ((perm_cons_erase (count_pos_iff.mp listed)).trans
        (perm_append_singleton _ _).symm).count_eq n |>.trans count_append
    refine ⟨[], ?_, Nat.le_refl _, fun n => ?_, fun n => ?_, by simp, Nat.zero_le 1⟩
    · have grown := perm.map (Row.grow fres [member])
      rw [List.map_append, unmoved] at grown
      rw [append_nil]
      exact (shape_insertUnder one').trans (perm_append_comm.trans grown.symm)
    · rw [topNames_insertUnder, tops]
      exact left n
    · have rest := left n
      rw [topNames_insertUnder, tops]
      split
      · subst n
        rw [count_singleton_self] at rest
        omega
      · rename_i other
        rw [count_singleton, if_neg (fun same => other (eq_of_beq same).symm)] at rest
        exact rest.symm

variable {new : List Row} {b' : Build}

theorem Inserted.names_of (ins : Inserted fres member b b' new) {i : Nat} {n : List Char}
    (named : Names b i n) : Names b' i n := by
  obtain ⟨r, mem, rfl, rfl⟩ := named
  exact ⟨r.grow fres [member],
    ins.shape.mem_iff.mpr (mem_append_left _ (mem_map_of_mem mem)), rfl, rfl⟩

theorem Rows.grow (h : Rows groups held b) {kids : List Node}
    (shape : (shape b'.proot).Perm ((shape b.proot).map (Row.grow fres kids) ++ new))
    (next : b.next ≤ b'.next) (fresh : ∀ r ∈ new, r.id = b.next ∧ r.id < b'.next ∧ r.kids = [])
    (few : new.length ≤ 1) (node : kids ≠ [] → fres < b.next)
    (edges : ∀ r ∈ Share.shape b.proot, r.id = fres → ∀ m ∈ kids, MemberOf groups r.name m.name) :
    Rows groups (Function.update held fres (held fres ++ kids)) b' := by
  have same : ∀ i, b.next ≤ i → Function.update held fres (held fres ++ kids) i = [] := by
    intro i le
    by_cases here : i = fres
    · subst here
      have none_ : kids = [] := by_contra fun some_ => absurd (node some_) (Nat.not_lt.mpr le)
      rw [update_self, none_, append_nil, h.blank i le]
    · rw [update_of_ne here, h.blank i le]
  have rows : ∀ r ∈ Share.shape b'.proot,
      (∃ r' ∈ Share.shape b.proot, r = r'.grow fres kids) ∨ r ∈ new := by
    intro r mem
    rcases mem_append.mp (shape.mem_iff.mp mem) with mem | mem
    · obtain ⟨r', mem', rfl⟩ := mem_map.mp mem
      exact .inl ⟨r', mem', rfl⟩
    · exact .inr mem
  refine ⟨?_, ?_, ?_, fun i le => same i (next.trans le), ?_⟩
  · rw [(shape.map Row.id).nodup_iff, List.map_append, map_id_grow]
    refine nodup_append.mpr ⟨h.ids, ?_, ?_⟩
    · match new, few with
      | [], _ => exact nodup_nil
      | [r], _ => exact nodup_singleton _
    · intro i old j isNew
      obtain ⟨r, mem, rfl⟩ := mem_map.mp old
      obtain ⟨r', mem', rfl⟩ := mem_map.mp isNew
      rw [(fresh r' mem').1]
      exact Nat.ne_of_lt (h.fresh r mem)
  · intro r mem
    rcases rows r mem with ⟨r', mem', rfl⟩ | isNew
    · exact Nat.lt_of_lt_of_le (h.fresh r' mem') next
    · exact (fresh r isNew).2.1
  · intro r mem
    rcases rows r mem with ⟨r', mem', rfl⟩ | isNew
    · have kids := h.kids r' mem'
      by_cases here : r'.id = fres
      · simp [Row.grow, here, kids]
      · simp [Row.grow, here, kids]
    · rw [(fresh r isNew).2.2, same _ (Nat.le_of_eq (fresh r isNew).1.symm)]
  · intro r mem m isKid
    rcases rows r mem with ⟨r', mem', rfl⟩ | isNew
    · rw [Row.grow] at isKid
      split at isKid
      · rename_i here
        exact (mem_append.mp isKid).elim (h.edges r' mem' m) (edges r' mem' here m)
      · exact h.edges r' mem' m isKid
    · rw [(fresh r isNew).2.2] at isKid
      cases isKid

variable (h : Attached groups held placed b)
include h

theorem Attached.insert (named : Names b fres g) (edge : MemberOf groups g member.name)
    (ins : Inserted fres member b b' new) :
    Attached groups (Function.update held fres (held fres ++ [member])) (placed ++ [member.name])
      b' := by
  obtain ⟨r₀, mem₀, rfl, rfl⟩ := named
  refine ⟨h.grow ins.shape ins.next ins.fresh ins.few (fun _ => h.fresh r₀ mem₀) ?_, fun n => ?_,
    fun n => ?_⟩
  · intro r mem same m isMember
    rw [h.row_unique mem mem₀ same, mem_singleton.mp isMember]
    exact edge
  · have count := (ins.shape.map Row.name).count_eq n
    have old := h.names n
    have names := ins.names n
    rw [List.map_append, map_name_grow, count_append] at count
    rw [count_append]
    omega
  · have old := h.tops n
    rw [ins.tops n, count_append, count_singleton]
    split
    · simp
    · rename_i other
      rwa [if_neg (fun same => other (eq_of_beq same).symm)]

theorem Attached.insertAll (acyclic : ∀ n, ¬ TransGen (MemberOf groups) n n) {members : List Node}
    (named : Names b fres g) (edges : ∀ m ∈ members, MemberOf groups g m.name) :
    Attached groups (Function.update held fres (held fres ++ members))
        (placed ++ members.map Node.name) (members.foldl (insertMember fres) b) ∧
      ∀ i n, Names b i n → Names (members.foldl (insertMember fres) b) i n := by
  induction members generalizing b held placed with
  | nil =>
    rw [append_nil, map_nil, append_nil, update_eq_self]
    exact ⟨h, fun _ _ => id⟩
  | cons m members ih =>
    obtain ⟨edge, edges⟩ := forall_mem_cons.mp edges
    obtain ⟨new, ins⟩ := insertMember_inserted h acyclic named edge
    obtain ⟨attached, kept⟩ := ih (h.insert named edge ins) (ins.names_of named) edges
    refine ⟨?_, fun i n old => kept i n (ins.names_of old)⟩
    rwa [update_self, update_idem, append_assoc, append_assoc]
      at attached

/-- The node for a group has its name, and there was none with this name if it is new. -/
theorem placeGroup_attached (g : Group) :
    Attached groups held placed (placeGroup b g).2 ∧
      Names (placeGroup b g).2 (placeGroup b g).1 g.name ∧
      ∀ i n, Names b i n → Names (placeGroup b g).2 i n := by
  have name : (groupNode g).name = g.name := by
    unfold groupNode
    split <;> rfl
  rw [placeGroup]
  cases found : findParentInLeaves b.proot (groupNode g) with
  | none =>
    have absent : ∀ r ∈ shape b.proot, r.name ≠ g.name := by
      intro r mem same
      obtain ⟨r', mem', rfl⟩ := mem_map.mp mem
      have other := List.find?_eq_none.mp found r'.1 (Forest.mem_postOrder.mpr ⟨r', mem', rfl⟩)
      exact other (decide_eq_true (same.trans name.symm))
    have rows : shape (b.proot.append (.node ⟨b.next, groupNode g⟩ .nil .nil)) =
        shape b.proot ++ [⟨b.next, g.name, []⟩] := by
      rw [shape, Forest.rows_append, List.map_append, ← name]
      rfl
    have tops : topNames (b.proot.append (.node ⟨b.next, groupNode g⟩ .nil .nil)) =
        topNames b.proot ++ [g.name] := by
      rw [topNames, Forest.tops_append, List.map_append, ← name]
      rfl
    have unused : ((shape b.proot).map Row.name).count g.name = 0 := by
      refine count_eq_zero.mpr fun mem => ?_
      obtain ⟨r, mem, same⟩ := mem_map.mp mem
      exact absent r mem same
    have still : (shape b.proot).map (Row.grow b.next []) = shape b.proot := by
      refine (map_congr_left fun r _ => ?_).trans (map_id _)
      simp [Row.grow]
    refine ⟨⟨?_, fun n => ?_, fun n => ?_⟩, ?_, ?_⟩
    · have here : ∀ r ∈ [(⟨b.next, g.name, []⟩ : Row)],
          r.id = b.next ∧ r.id < b.next + 1 ∧ r.kids = [] := by simp
      have grown : Rows groups _ (⟨_, b.next + 1⟩ : Build) :=
        h.grow (List.Perm.of_eq (by rw [still]; exact rows)) (Nat.le_succ _) here (Nat.le_refl 1)
          (fun some_ => absurd rfl some_) (by simp)
      rwa [append_nil, update_eq_self] at grown
    · rw [rows, tops, List.map_append, count_append, count_append, h.names n]
      exact Nat.add_right_comm ..
    · have old := h.tops n
      have names := h.names n
      rw [tops, count_append, count_singleton]
      split
      · rename_i same
        rw [← eq_of_beq same] at names old ⊢
        omega
      · exact old
    · exact ⟨⟨b.next, g.name, []⟩, by rw [rows]; simp, rfl, rfl⟩
    · rintro i n ⟨r, mem, same⟩
      exact ⟨r, by rw [rows]; exact mem_append_left _ mem, same⟩
  | some fres =>
    have same : fres.data.name = g.name := name ▸ by simpa using List.find?_some found
    obtain ⟨r, mem, rfl⟩ := Forest.mem_postOrder.mp (mem_of_find?_eq_some found)
    exact ⟨h, ⟨rowOf r, mem_map_of_mem mem, rfl, same⟩, fun _ _ => id⟩

end Shape

end Jhlava.Share
