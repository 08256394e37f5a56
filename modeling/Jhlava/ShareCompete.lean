import Mathlib.Algebra.Order.BigOperators.Group.List
import Mathlib.Data.List.Nodup
import Mathlib.Tactic.NormNum
import Jhlava.TransitionRun
import Jhlava.ShareTree

/-! Who wins in a share tree. As long as the flag of every group says whether a user below it
has a pending job, the descent ends at a user with a pending job. A group keeps its flag when
its last pending job is started, so this is lost where another group still has some. -/
namespace Jhlava.Share
open SiblingForest TransitionRun CValues List Function

/-! ### Trees whose tables are filled -/

/-- The table of a group has the names of the leaves below it. -/
structure Describes (d : Node) (children : Forest Node) : Prop where
  mem : ∀ name, name ∈ d.pDescendant ↔ ∃ l ∈ children.leaves, l.name = name
  nodup : d.pDescendant.Nodup

def Described (t : Forest Node) : Prop :=
  t.All fun d children => children ≠ .nil → Describes d children

structure ShareTree where
  nodes : Forest Node
  described : Described nodes

theorem mem_foldl_insert (names pDesc : List (List Char)) (name : List Char) :
    name ∈ names.foldl (fun pDesc name => pDesc.insert name) pDesc ↔ name ∈ pDesc ∨
      name ∈ names := by
  induction names generalizing pDesc with
  | nil => simp
  | cons first rest ih =>
    rw [foldl_cons, ih, mem_insert_iff, mem_cons]
    tauto

variable {pDesc : List (List Char)}

theorem nodup_foldl_insert (names : List (List Char)) (nodup : pDesc.Nodup) :
    (names.foldl (fun pDesc name => pDesc.insert name) pDesc).Nodup := by
  induction names generalizing pDesc with
  | nil => exact nodup
  | cons first rest ih => exact ih nodup.insert

variable {t : Forest Node}

theorem mem_addDescendants (described : Described t) (pDesc : List (List Char)) (name : List Char) :
    name ∈ addDescendants pDesc t ↔ name ∈ pDesc ∨ ∃ l ∈ t.leaves, l.name = name := by
  induction t generalizing pDesc with
  | nil => simp [addDescendants, Forest.leaves]
  | node d children next _ beside =>
    rw [addDescendants, beside described.2.2]
    cases children with
    | nil =>
      simp only [Forest.isNil, if_true, mem_insert_iff, Forest.leaves, mem_cons, exists_eq_or_imp]
      rw [or_assoc, or_left_comm, eq_comm]
    | node a below next' =>
      simp only [Forest.isNil, Bool.false_eq_true, if_false, mem_foldl_insert,
        (described.1 (by simp)).mem, Forest.leaves, mem_append, or_and_right, exists_or,
        or_assoc]

theorem nodup_addDescendants (t : Forest Node) (nodup : pDesc.Nodup) :
    (addDescendants pDesc t).Nodup := by
  induction t generalizing pDesc with
  | nil => exact nodup
  | node d children next _ beside =>
    rw [addDescendants]
    split_ifs
    · exact beside nodup.insert
    · exact beside (nodup_foldl_insert _ nodup)

theorem isNil_updateDescendant (t : Forest Node) :
    (updateDescendantOfTreeNode t).isNil = t.isNil := by
  cases t <;> rfl

theorem updateDescendantOfTreeNode_described (fresh : t.All fun d _ => d.pDescendant = []) :
    Described (updateDescendantOfTreeNode t) := by
  induction t with
  | nil => trivial
  | node d children next below beside =>
    have inner := below fresh.2.1
    refine ⟨fun group => ?_, inner, beside fresh.2.2⟩
    have isGroup : children.isNil = false := by
      rw [← isNil_updateDescendant, Bool.eq_false_iff]
      exact fun leaf => group (Forest.isNil_iff.1 leaf)
    rw [if_neg (by simp [isGroup]), fresh.1]
    exact ⟨fun name => by simp [mem_addDescendants inner], nodup_addDescendants _ .nil⟩

def ShareTree.init (t : Forest Node) (fresh : t.All fun d _ => d.pDescendant = []) : ShareTree :=
  ⟨updateDescendantOfTreeNode t, updateDescendantOfTreeNode_described fresh⟩

/-- What changes neither names nor tables. -/
structure KeepsTables (f : Bool → Node → Node) : Prop where
  name : ∀ leaf d, (f leaf d).name = d.name
  table : ∀ leaf d, (f leaf d).pDescendant = d.pDescendant

variable {f : Bool → Node → Node}

theorem Describes.map (keeps : KeepsTables f) {d : Node} {leaf : Bool} {children : Forest Node}
    (describes : Describes d children) : Describes (f leaf d) (children.map f) := by
  refine ⟨fun name => ?_, ?_⟩
  · rw [keeps.table, describes.mem, Forest.leaves_map]
    simp [keeps.name]
  · rw [keeps.table]
    exact describes.nodup

theorem map_ne_nil (group : t.map f ≠ .nil) : t ≠ .nil := by
  rintro rfl
  exact group rfl

/-! ### Counts -/

def pendingOf (phash : List Char → Option UserJobInfo) (name : List Char) : Int :=
  match phash name with
  | none => 0
  | some pjob => pjob.numPendJob

/-- What a leaf and a group hold when `pend` is the number of pending jobs of every user. -/
structure LeafOk (pend : List Char → Int) (d : Node) : Prop where
  count : d.numPendJob = pend d.name
  counted : 0 ≤ pend d.name
  int : pend d.name < 2 ^ 31
  active : d.isActive = true ↔ 0 < pend d.name

structure GroupOk (pend : List Char → Int) (d : Node) (children : Forest Node) : Prop where
  table : Describes d children
  count : d.numPendJob = (d.pDescendant.map pend).sum
  int : d.numPendJob < 2 ^ 31
  active : d.isActive = true ↔ 0 < d.numPendJob

structure NodeOk (pend : List Char → Int) (d : Node) (children : Forest Node) : Prop where
  share : 0 < d.share
  priority : computePriority d = d
  leaf : children = .nil → LeafOk pend d
  group : children ≠ .nil → GroupOk pend d children

variable {pend : List Char → Int} {d : Node} {children t : Forest Node}

theorem NodeOk.priority_pos (ok : NodeOk pend d children) : 0 < d.priority ↔ d.isActive = true := by
  rw [← ok.priority, computePriority]
  have share := ok.share
  split_ifs with active idle
  · exact iff_of_true (mul_pos share (by norm_num [maxShareValue])) active
  · have running : (0 : Rat) < d.numRunJob := by
      rw [Int.cast_pos]
      omega
    exact iff_of_true (div_pos share running) active
  · exact iff_of_false (by norm_num) active

theorem GroupOk.counted (ok : GroupOk pend d children) (below : children.All (NodeOk pend)) :
    ∀ name ∈ d.pDescendant, 0 ≤ pend name := by
  intro name mem
  obtain ⟨l, leaf, rfl⟩ := (ok.table.mem name).1 mem
  exact ((below.leaf leaf).leaf rfl).counted

theorem GroupOk.active_iff (ok : GroupOk pend d children) (below : children.All (NodeOk pend)) :
    d.isActive = true ↔ ∃ l ∈ children.leaves, 0 < l.numPendJob := by
  have counted := ok.counted below
  rw [ok.active, ok.count]
  constructor
  · intro pos
    by_contra none
    refine absurd (sum_eq_zero fun n isCount => ?_) (ne_of_gt pos)
    obtain ⟨name, mem, rfl⟩ := mem_map.1 isCount
    refine le_antisymm ?_ (counted name mem)
    obtain ⟨l, leaf, rfl⟩ := (ok.table.mem name).1 mem
    rw [← ((below.leaf leaf).leaf rfl).count]
    exact not_lt.1 fun pending => none ⟨l, leaf, pending⟩
  · rintro ⟨l, leaf, pending⟩
    rw [((below.leaf leaf).leaf rfl).count] at pending
    have mem : l.name ∈ d.pDescendant := (ok.table.mem _).2 ⟨l, leaf, rfl⟩
    refine lt_of_lt_of_le pending (single_le_sum (fun n isCount => ?_) _ (mem_map_of_mem mem))
    obtain ⟨name, mem, rfl⟩ := mem_map.1 isCount
    exact counted name mem

/-! ### The winner -/

def Pending (t : Forest Node) : Prop := ∃ l ∈ t.leaves, 0 < l.numPendJob

def PendingWins (t : Forest Node) : Prop :=
  Pending t → ∃ l ∈ t.leaves, compete t = some l ∧ 0 < l.numPendJob

theorem pending_top (ok : t.All (NodeOk pend)) (pending : Pending t) :
    ∃ x ∈ t.tops, 0 < x.1.priority := by
  obtain ⟨l, leaf, pending⟩ := pending
  rcases Forest.mem_leaves_iff.1 leaf with top | ⟨x, top, group, leaf⟩
  · have isLeaf := (ok.top top).1
    refine ⟨_, top, isLeaf.priority_pos.2 ((isLeaf.leaf rfl).active.2 ?_)⟩
    rw [← (isLeaf.leaf rfl).count]
    exact pending
  · obtain ⟨isGroup, below⟩ := ok.top top
    exact ⟨x, top, isGroup.priority_pos.2 (((isGroup.group group).active_iff below).2
      ⟨l, leaf, pending⟩)⟩

theorem pendingWins_of_ok (ok : t.All (NodeOk pend)) : PendingWins t := by
  intro pending
  have passes : t.All fun d children => 0 < d.priority →
      children = .nil ∨ ∃ x ∈ children.tops, 0 < x.1.priority := by
    refine ok.deep.mono fun d children ⟨node, below⟩ strong => ?_
    by_cases leaf : children = .nil
    · exact .inl leaf
    · refine .inr (pending_top below ?_)
      exact ((node.group leaf).active_iff below).1 (node.priority_pos.1 strong)
  obtain ⟨l, leaf, found, strong⟩ :=
    descend_above t.depth none passes (pending_top ok pending) le_rfl
  have isLeaf := ok.leaf leaf
  refine ⟨l, leaf, found, ?_⟩
  rw [(isLeaf.leaf rfl).count]
  exact (isLeaf.leaf rfl).active.1 (isLeaf.priority_pos.1 strong)

/-! ### Counting the jobs -/

/-- The tables are filled and the counts are cleared. -/
structure Cleared (d : Node) (children : Forest Node) : Prop where
  count : d.numPendJob = 0
  table : children ≠ .nil → Describes d children

theorem resetNode_keepsTables : KeepsTables resetNode := ⟨fun _ _ => rfl, fun _ _ => rfl⟩

theorem resetTreeJobInfo_cleared (described : Described t) : (resetTreeJobInfo t).All Cleared :=
  Forest.All.map described fun _ _ table =>
    ⟨rfl, fun group => (table (map_ne_nil group)).map resetNode_keepsTables⟩

variable {ga : List Char → Option (List Char)} {users : List (List Char)}
  {phash : List Char → Option UserJobInfo} {members : List Node}

theorem allMembers_spec (found : allMembers ga users = some members) :
    members.map Node.name = users ∧ ∀ d ∈ members, d.numPendJob = 0 := by
  induction users generalizing members with
  | nil =>
    obtain rfl := Option.some.inj found
    exact ⟨rfl, fun d mem => nomatch mem⟩
  | cons user rest ih =>
    obtain ⟨val, -, found⟩ := Option.bind_eq_some_iff.1 found
    obtain ⟨others, isRest, rfl⟩ := Option.map_eq_some_iff.1 found
    obtain ⟨names, counts⟩ := ih isRest
    refine ⟨congrArg (user :: ·) names, fun d mem => ?_⟩
    rcases mem_cons.1 mem with rfl | mem
    · rfl
    · exact counts d mem

theorem describes_allUsers (names : members.map Node.name = users)
    (table : d.pDescendant = users.foldl (fun pDesc name => pDesc.insert name) []) :
    Describes d (.ofList members) := by
  refine ⟨fun name => ?_, ?_⟩
  · rw [table, mem_foldl_insert, Forest.leaves_ofList, ← names]
    simp
  · rw [table]
    exact nodup_foldl_insert _ .nil

theorem updateMGA_cleared {t' : Forest Node} (cleared : t.All Cleared)
    (updated : updateMGA ga users t = some t') : t'.All Cleared := by
  induction t generalizing t' with
  | nil =>
    obtain rfl := Option.some.inj updated
    trivial
  | node d children next _ beside =>
    rw [updateMGA] at updated
    split_ifs at updated with all
    · obtain ⟨members, found, updated⟩ := Option.bind_eq_some_iff.1 updated
      obtain ⟨next', rest, rfl⟩ := Option.map_eq_some_iff.1 updated
      obtain ⟨names, counts⟩ := allMembers_spec found
      refine ⟨⟨cleared.1.count, fun _ => describes_allUsers names rfl⟩, ?_, beside cleared.2.2 rest⟩
      exact Forest.all_ofList fun d mem => ⟨counts d mem, fun group => absurd rfl group⟩
    · obtain ⟨next', rest, rfl⟩ := Option.map_eq_some_iff.1 updated
      exact ⟨cleared.1, cleared.2.1, beside cleared.2.2 rest⟩

theorem pendingOf_nonneg (phash : List Char → Option UserJobInfo) (name : List Char) :
    0 ≤ pendingOf phash name := by
  unfold pendingOf
  split
  · exact le_rfl
  · rename_i pjob _
    exact pjob.counted

theorem computeMapPriority_pend {pUNode : Node} {name : List Char} (low : 0 ≤ pUNode.numPendJob)
    (fits : pUNode.numPendJob + pendingOf phash name < 2 ^ 31) :
    (computeMapPriority phash pUNode name).numPendJob = pUNode.numPendJob +
      pendingOf phash name := by
  have counted := pendingOf_nonneg phash name
  unfold computeMapPriority pendingOf at *
  cases found : phash name with
  | none => simp
  | some pjob =>
    rw [found] at fits counted
    exact toInt32_of_bounds (by dsimp only at counted; omega) fits

/-- The sum of the counts, where it is an `int`. -/
theorem foldl_computeMapPriority_pend (names : List (List Char)) {d : Node}
    (low : 0 ≤ d.numPendJob)
    (fits : d.numPendJob + (names.map (pendingOf phash)).sum < 2 ^ 31) :
    (names.foldl (computeMapPriority phash) d).numPendJob =
      d.numPendJob + (names.map (pendingOf phash)).sum := by
  induction names generalizing d with
  | nil => simp
  | cons name rest ih =>
    rw [map_cons, sum_cons] at fits ⊢
    have here := pendingOf_nonneg phash name
    have later : 0 ≤ (rest.map (pendingOf phash)).sum :=
      List.sum_nonneg (forall_mem_map.2 fun name _ => pendingOf_nonneg phash name)
    have step :=
      computeMapPriority_pend low (by omega : d.numPendJob + pendingOf phash name < 2 ^ 31)
    rw [foldl_cons, ih (by omega) (by omega), step, add_assoc]

theorem foldl_computeMapPriority_table (names : List (List Char)) (d : Node) :
    (names.foldl (computeMapPriority phash) d).pDescendant = d.pDescendant := by
  refine foldl_view Node.pDescendant (fun d name => ?_) names d
  unfold computeMapPriority
  split <;> rfl

theorem foldl_computeMapPriority_name (names : List (List Char)) (d : Node) :
    (names.foldl (computeMapPriority phash) d).name = d.name := by
  refine foldl_view Node.name (fun d name => ?_) names d
  unfold computeMapPriority
  split <;> rfl

theorem updateNode_leaf (d : Node) : LeafOk (pendingOf phash) (updateNode phash true d) := by
  unfold updateNode
  cases found : phash d.name with
  | none =>
    have none : pendingOf phash d.name = 0 := by rw [pendingOf, found]
    exact ⟨none.symm, none.ge, none.trans_lt (by decide), by simp [computePriority, none]⟩
  | some pjob =>
    have some : pendingOf phash d.name = pjob.numPendJob := by rw [pendingOf, found]
    exact ⟨some.symm, some ▸ pjob.counted, some ▸ pjob.int, by simp [computePriority, some]⟩

theorem updateNode_keepsTables : KeepsTables (updateNode phash) := by
  refine ⟨fun leaf d => ?_, fun leaf d => ?_⟩
  · cases leaf with
    | false => exact foldl_computeMapPriority_name _ _
    | true =>
      simp only [updateNode, if_true]
      cases phash d.name <;> rfl
  · cases leaf with
    | false => exact foldl_computeMapPriority_table _ _
    | true =>
      simp only [updateNode, if_true]
      cases phash d.name <;> rfl

theorem updateNode_group (cleared : Cleared d children) (group : children ≠ .nil)
    (fits : (d.pDescendant.map (pendingOf phash)).sum < 2 ^ 31) :
    GroupOk (pendingOf phash) (updateNode phash false d) (children.map (updateNode phash)) := by
  have count : (updateNode phash false d).numPendJob =
      (d.pDescendant.map (pendingOf phash)).sum := by
    change (d.pDescendant.foldl (computeMapPriority phash) d).numPendJob = _
    rw [foldl_computeMapPriority_pend _ cleared.count.ge
      (by rw [cleared.count, zero_add]; exact fits), cleared.count, zero_add]
  refine ⟨(cleared.table group).map updateNode_keepsTables, ?_, count.trans_lt fits, ?_⟩
  · rw [updateNode_keepsTables.table]
    exact count
  · exact decide_eq_true_iff

/-- The pending jobs below every group are together an `int`. -/
def CountsFit (phash : List Char → Option UserJobInfo) (t : Forest Node) : Prop :=
  t.All fun d children => children ≠ .nil → (d.pDescendant.map (pendingOf phash)).sum < 2 ^ 31

theorem updateTreeJobInfo_ok (tree : ShareTree)
    (updated : updateTreeJobInfo ga users phash tree.nodes = some t)
    (positive : t.All fun d _ => 0 < d.share) (fits : CountsFit phash t) :
    t.All (NodeOk (pendingOf phash)) := by
  obtain ⟨t', members, rfl⟩ := Option.map_eq_some_iff.1 updated
  have cleared := updateMGA_cleared (resetTreeJobInfo_cleared tree.described) members
  have counted : (t'.map (updateNode phash)).All fun d children => 0 < d.share →
      (children ≠ .nil → (d.pDescendant.map (pendingOf phash)).sum < 2 ^ 31) →
        NodeOk (pendingOf phash) d children := by
    refine cleared.map fun d children clear share fit =>
      ⟨share, rfl, fun leaf => ?_, fun group => ?_⟩
    · have isLeaf : children.isNil = true := by
        rw [← Forest.isNil_map (updateNode phash), leaf]
        rfl
      rw [isLeaf]
      exact updateNode_leaf d
    · have isGroup : children.isNil = false := by
        rw [Bool.eq_false_iff]
        exact fun leaf => map_ne_nil group (Forest.isNil_iff.1 leaf)
      have sum := fit group
      rw [updateNode_keepsTables.table] at sum
      rw [isGroup]
      exact updateNode_group clear (map_ne_nil group) sum
  exact ((counted.and positive).and fits).mono fun d children all => all.1.1 all.1.2 all.2

/-! ### Starting jobs -/

/-- The jobs were pending jobs of the user. -/
structure Dispatched (t : Forest Node) (call : Call) : Prop where
  num : 0 ≤ call.num
  pending : ∀ l ∈ t.leaves, l.name = call.user → call.num ≤ l.numPendJob

def KeepsGroups (t : Forest Node) (call : Call) : Prop :=
  t.All fun d children => children ≠ .nil → call.user ∈ d.pDescendant → 0 < d.numPendJob →
    call.num < d.numPendJob

def LastJobs (t : Forest Node) (call : Call) : Prop :=
  ∀ l ∈ t.leaves, l.numPendJob ≤ if l.name = call.user then call.num else 0

variable {call : Call}

theorem changeNodeJobNum_keepsTables (user : List Char) (num : Int) :
    KeepsTables (changeNodeJobNum user num) := by
  refine ⟨fun leaf d => ?_, fun leaf d => ?_⟩ <;> unfold changeNodeJobNum <;> split_ifs <;> rfl

theorem changeNodeJobNum_share (user : List Char) (num : Int) (leaf : Bool) (d : Node) :
    (changeNodeJobNum user num leaf d).share = d.share := by
  unfold changeNodeJobNum
  split_ifs <;> rfl

theorem changeNodeJobNum_priority (user : List Char) (num : Int) (leaf : Bool)
    (priority : computePriority d = d) :
    computePriority (changeNodeJobNum user num leaf d) = changeNodeJobNum user num leaf d := by
  unfold changeNodeJobNum
  split_ifs <;> first | rfl | exact priority

theorem changeNodeJobNum_own {user : List Char} (num : Int) (own : user = d.name) :
    changeNodeJobNum user num true d = computePriority
      { d with
        numRunJob := toInt32 (d.numRunJob + num)
        numPendJob := toInt32 (d.numPendJob - num)
        isActive := if toInt32 (d.numPendJob - num) ≤ 0 then false else d.isActive } := by
  rw [changeNodeJobNum, if_pos rfl, if_pos own]

theorem changeNodeJobNum_other {user : List Char} (num : Int) (other : user ≠ d.name) :
    changeNodeJobNum user num true d = d := by
  rw [changeNodeJobNum, if_pos rfl, if_neg other]

def afterCall (pend : List Char → Int) (call : Call) : List Char → Int :=
  Function.update pend call.user (pend call.user - call.num)

theorem sum_afterCall (pend : List Char → Int) (call : Call) {names : List (List Char)}
    (nodup : names.Nodup) :
    (names.map (afterCall pend call)).sum =
      (names.map pend).sum - if call.user ∈ names then call.num else 0 := by
  induction names with
  | nil => simp
  | cons name rest ih =>
    obtain ⟨fresh, nodup⟩ := nodup_cons.1 nodup
    rw [map_cons, map_cons, sum_cons, sum_cons, ih nodup]
    by_cases same : name = call.user
    · subst same
      rw [afterCall, update_self, if_neg fresh, if_pos mem_cons_self]
      omega
    · rw [afterCall, update_of_ne same]
      simp only [mem_cons, Ne.symm same, false_or]
      omega

/-- A count loses a number of jobs without leaving the range of an `int`. -/
theorem toInt32_sub {count num : Int} (low : 0 ≤ count) (high : count < 2 ^ 31) (pos : 0 ≤ num)
    (int : IsInt32 num) : toInt32 (count - num) = count - num := by
  have bound := int.2
  exact toInt32_of_bounds (by omega) (by omega)

theorem changeNodeJobNum_leaf (ok : LeafOk pend d) (num : 0 ≤ call.num)
    (pending : d.name = call.user → call.num ≤ d.numPendJob) :
    LeafOk (afterCall pend call) (changeNodeJobNum call.user call.num true d) := by
  have count := ok.count
  have small := ok.int
  by_cases same : call.user = d.name
  · rw [changeNodeJobNum_own _ same]
    have enough := pending same.symm
    have exact_ : toInt32 (d.numPendJob - call.num) = d.numPendJob - call.num :=
      toInt32_sub (by omega) (by omega) num call.int
    have after : afterCall pend call d.name = d.numPendJob - call.num := by
      rw [afterCall, ← same, update_self, same, count]
    refine ⟨exact_.trans after.symm, ?_, ?_, ?_⟩
    · change 0 ≤ afterCall pend call d.name
      omega
    · change afterCall pend call d.name < 2 ^ 31
      omega
    · change (if toInt32 (d.numPendJob - call.num) ≤ 0 then false else d.isActive) = true ↔
        0 < afterCall pend call d.name
      rw [exact_]
      split_ifs with spent
      · exact iff_of_false id (by omega)
      · exact iff_of_true (ok.active.2 (by omega)) (by omega)
  · rw [changeNodeJobNum_other _ same]
    have after : afterCall pend call d.name = pend d.name :=
      update_of_ne (Ne.symm same) _ _
    exact ⟨after ▸ count, after ▸ ok.counted, after ▸ small, after ▸ ok.active⟩

theorem changeNodeJobNum_group (ok : GroupOk pend d children)
    (counted : 0 ≤ d.numPendJob) (num : 0 ≤ call.num)
    (keeps : call.user ∈ d.pDescendant → 0 < d.numPendJob → call.num < d.numPendJob) :
    GroupOk (afterCall pend call) (changeNodeJobNum call.user call.num false d)
      (children.map (changeNodeJobNum call.user call.num)) := by
  have tables := changeNodeJobNum_keepsTables call.user call.num
  have sum := sum_afterCall pend call ok.table.nodup
  have small := ok.int
  have exact_ := toInt32_sub counted small num call.int
  rw [← ok.count] at sum
  refine ⟨ok.table.map tables, ?_, ?_, ?_⟩
  · rw [tables.table, sum]
    unfold changeNodeJobNum
    rw [if_neg Bool.false_ne_true]
    split_ifs
    · exact exact_
    · exact (sub_zero _).symm
  · unfold changeNodeJobNum
    rw [if_neg Bool.false_ne_true]
    split_ifs
    · change toInt32 (d.numPendJob - call.num) < 2 ^ 31
      omega
    · exact small
  · unfold changeNodeJobNum
    rw [if_neg Bool.false_ne_true]
    split_ifs with below
    · change d.isActive = true ↔ 0 < toInt32 (d.numPendJob - call.num)
      rw [ok.active, exact_]
      constructor
      · intro pos
        have := keeps below pos
        omega
      · omega
    · exact ok.active

theorem changeJobNumOfUser_ok (ok : t.All (NodeOk pend)) (dispatched : Dispatched t call)
    (keeps : KeepsGroups t call) :
    (changeJobNumOfUser t call).All (NodeOk (afterCall pend call)) := by
  refine ((ok.deep.and (Forest.all_of_leaves dispatched.pending)).and keeps).map
    fun d children ⟨⟨⟨node, below⟩, pending⟩, keep⟩ => ⟨?_, ?_, fun leaf => ?_, fun group => ?_⟩
  · rw [changeNodeJobNum_share]
    exact node.share
  · exact changeNodeJobNum_priority _ _ _ node.priority
  · have isLeaf : children = .nil := by
      rw [← Forest.isNil_iff, ← Forest.isNil_map (changeNodeJobNum call.user call.num), leaf]
      rfl
    subst isLeaf
    exact changeNodeJobNum_leaf (node.leaf rfl) dispatched.num (pending rfl)
  · have isGroup := map_ne_nil group
    rw [Bool.eq_false_iff.2 fun leaf => isGroup (Forest.isNil_iff.1 leaf)]
    have counted : 0 ≤ d.numPendJob := by
      rw [(node.group isGroup).count]
      exact List.sum_nonneg (forall_mem_map.2 ((node.group isGroup).counted below))
    exact changeNodeJobNum_group (node.group isGroup) counted dispatched.num (keep isGroup)

theorem not_pending_of_last (dispatched : Dispatched t call) (last : LastJobs t call) :
    ¬ Pending (changeJobNumOfUser t call) := by
  rintro ⟨l, leaf, pending⟩
  rw [changeJobNumOfUser, Forest.leaves_map] at leaf
  obtain ⟨l, isLeaf, rfl⟩ := mem_map.1 leaf
  have le := last l isLeaf
  by_cases same : call.user = l.name
  · rw [if_pos same.symm] at le
    rw [changeNodeJobNum_own _ same] at pending
    change 0 < toInt32 (l.numPendJob - call.num) at pending
    have all : l.numPendJob - call.num = 0 := by
      have enough := dispatched.pending l isLeaf same.symm
      omega
    rw [all] at pending
    exact absurd pending (by decide)
  · rw [if_neg (Ne.symm same)] at le
    rw [changeNodeJobNum_other _ same] at pending
    omega

theorem not_pending_call (none : ¬ Pending t) (dispatched : Dispatched t call) :
    ¬ Pending (changeJobNumOfUser t call) := by
  refine not_pending_of_last dispatched fun l leaf => ?_
  have idle : l.numPendJob ≤ 0 := not_lt.1 fun pending => none ⟨l, leaf, pending⟩
  have := dispatched.num
  split_ifs <;> omega

def LeavesPending (t : Forest Node) (call : Call) : Prop := KeepsGroups t call ∨ LastJobs t call

def Sound (t : Forest Node) : Prop := (∃ pend, t.All (NodeOk pend)) ∨ ¬ Pending t

theorem changeJobNumOfUser_sound (t : Forest Node) (call : Call) (sound : Sound t)
    (allowed : Dispatched t call ∧ LeavesPending t call) : Sound (changeJobNumOfUser t call) := by
  obtain ⟨dispatched, leaves⟩ := allowed
  rcases sound with ⟨pend, ok⟩ | none
  · rcases leaves with keeps | last
    · exact .inl ⟨_, changeJobNumOfUser_ok ok dispatched keeps⟩
    · exact .inr (not_pending_of_last dispatched last)
  · exact .inr (not_pending_call none dispatched)

theorem Sound.wins (sound : Sound t) : PendingWins t := by
  rcases sound with ⟨pend, ok⟩ | none
  · exact pendingWins_of_ok ok
  · exact fun pending => absurd pending none

/-- After the jobs have been counted, in groups whose pending jobs are together an `int`, and any
number of calls for dispatched jobs, none of which takes the last pending jobs of a group while
others stay, the winner has a pending job. -/
theorem compete_pending (tree : ShareTree) (ga : List Char → Option (List Char))
    (users : List (List Char)) (phash : List Char → Option UserJobInfo) (t : Forest Node)
    (updated : updateTreeJobInfo ga users phash tree.nodes = some t)
    (positive : t.All fun d _ => 0 < d.share) (fits : CountsFit phash t) (calls : List Call)
    (dispatched : Along changeJobNumOfUser Dispatched t calls)
    (leaves : Along changeJobNumOfUser LeavesPending t calls) :
    PendingWins (run changeJobNumOfUser t calls) := by
  have start : Sound t := .inl ⟨_, updateTreeJobInfo_ok tree updated positive fits⟩
  have final : Sound (run changeJobNumOfUser t calls) :=
    run_invariant changeJobNumOfUser_sound start (along_and.2 ⟨dispatched, leaves⟩)
  exact final.wins

/-! ### Two groups -/

def configured (name : String) (type : NodeType) : Node where
  name := name.toList
  type := type
  share := 1
  ratio := 1
  isActive := true
  numPendJob := 0
  numRunJob := 0
  priority := 0
  pDescendant := []

def twoGroups : ShareTree :=
  ShareTree.init
    (.node (configured "ga" .group) (.node (configured "a" .user) .nil .nil)
      (.node (configured "gb" .group) (.node (configured "b" .user) .nil .nil) .nil))
    (by decide)

def twoUsers (num : Fin 10) (name : List Char) : Option UserJobInfo :=
  if name = ['a'] then some ⟨num, 0, Int.natCast_nonneg num, by omega⟩
  else if name = ['b'] then some ⟨1, 5, by decide, by decide⟩
  else none

def countedTree (num : Fin 10) : Forest Node :=
  ((updateTreeJobInfo (fun _ => none) [] (twoUsers num) twoGroups.nodes).getD .nil)

def oneOfA : Call := ⟨['a'], 1, by decide⟩

theorem compete_pending_twoJobs :
    PendingWins (run changeJobNumOfUser (countedTree 2) [oneOfA]) := by
  refine compete_pending twoGroups (fun _ => none) [] (twoUsers 2) _ rfl (by decide +kernel) ?_ _
    ⟨⟨by decide, ?_⟩, trivial⟩ ⟨.inl ?_, trivial⟩
  · unfold CountsFit
    decide +kernel
  · decide +kernel
  · unfold KeepsGroups
    decide +kernel

/-- When the one job of the first group is started, the group still wins. -/
theorem spentGroup_not_wins :
    updateTreeJobInfo (fun _ => none) [] (twoUsers 1) twoGroups.nodes = some (countedTree 1) ∧
      ((countedTree 1).All fun d _ => 0 < d.share) ∧
      Along changeJobNumOfUser Dispatched (countedTree 1) [oneOfA] ∧
      ¬ PendingWins (run changeJobNumOfUser (countedTree 1) [oneOfA]) := by
  refine ⟨rfl, by decide +kernel, ⟨⟨by decide, by decide +kernel⟩, trivial⟩, fun wins => ?_⟩
  have pending : Pending (run changeJobNumOfUser (countedTree 1) [oneOfA]) := by
    unfold Pending
    decide +kernel
  obtain ⟨l, -, found, some⟩ := wins pending
  have spent : (compete (run changeJobNumOfUser (countedTree 1) [oneOfA])).map
      Node.numPendJob = Option.some 0 := by decide +kernel
  rw [found] at spent
  have := Option.some.inj spent
  omega

end Jhlava.Share
