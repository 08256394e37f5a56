import Jhlava.ShareInit

/-! What the share tree shows of the groups. Each group is held by one node of its name; the other
nodes of this name stay without children, so the tree is right where a group is listed as a member
once at most. -/
namespace Jhlava.Share
open SiblingForest Relation List Function

variable {g : Group}

section Holding

variable {groups : List Group} {held : Nat → List Node} {placed : List (List Char)} {b : Build}

/-- The groups that are done: each is held by one node of its name. -/
structure Holders (done : List Group) (held : Nat → List Node) (b : Build) : Prop where
  known : ∀ i, held i ≠ [] → ∃ g ∈ done, held i = g.members ∧ Names b i g.name
  owner : ∀ g ∈ done, ∃ i, Names b i g.name ∧ held i = g.members
  one : ∀ i j n, Names b i n → Names b j n → held i ≠ [] → held j ≠ [] → i = j

section

variable (h : Attached groups held placed b)
include h

theorem Attached.name_unique {i : Nat} {n n' : List Char} (named : Names b i n)
    (named' : Names b i n') : n = n' := by
  obtain ⟨r, mem, rfl, rfl⟩ := named
  obtain ⟨r', mem', same, rfl⟩ := named'
  rw [h.row_unique mem mem' same.symm]

theorem insertGroup_attached (acyclic : ∀ n, ¬ TransGen (MemberOf groups) n n) {done : List Group}
    (holders : Holders done held b) (defined : g ∈ groups) (new : ∀ g' ∈ done, g'.name ≠ g.name) :
    ∃ held', Attached groups held' (placed ++ g.members.map Node.name) (insertGroup b g) ∧
      Holders (done ++ [g]) held' (insertGroup b g) := by
  obtain ⟨placedAt, named, kept⟩ := placeGroup_attached h g
  have edges : ∀ m ∈ g.members, MemberOf groups g.name m.name :=
    fun m mem => ⟨g, defined, rfl, m, mem, rfl⟩
  obtain ⟨attached, kept'⟩ := placedAt.insertAll acyclic named edges
  have empty : held (placeGroup b g).1 = [] := by
    by_contra some_
    obtain ⟨g', mem, -, named'⟩ := holders.known _ some_
    exact new g' mem (placedAt.name_unique (kept _ _ named') named)
  have old : ∀ g' ∈ done, ∀ i, Names b i g'.name → i ≠ (placeGroup b g).1 := by
    rintro g' mem i named' rfl
    exact new g' mem (placedAt.name_unique (kept _ _ named') named)
  rw [empty] at attached
  have named : Names (insertGroup b g) (placeGroup b g).1 g.name := kept' _ _ named
  have kept : ∀ i n, Names b i n → Names (insertGroup b g) i n :=
    fun i n named => kept' i n (kept i n named)
  refine ⟨_, attached, ?_, ?_, ?_⟩
  · intro i some_
    by_cases here : i = (placeGroup b g).1
    · subst here
      exact ⟨g, by simp, update_self _ _ _, named⟩
    · rw [update_of_ne here] at some_ ⊢
      obtain ⟨g', mem, eq, named'⟩ := holders.known i some_
      exact ⟨g', mem_append_left _ mem, eq, kept _ _ named'⟩
  · intro g' mem
    rcases mem_append.mp mem with mem | mem
    · obtain ⟨i, named', eq⟩ := holders.owner g' mem
      refine ⟨i, kept _ _ named', ?_⟩
      rw [update_of_ne (old g' mem i named'), eq]
    · rw [mem_singleton.mp mem]
      exact ⟨_, named, update_self _ _ _⟩
  · have holder : ∀ i n, Names (insertGroup b g) i n → i ≠ (placeGroup b g).1 →
        Function.update held (placeGroup b g).1 g.members i ≠ [] →
        Names b i n ∧ held i ≠ [] ∧ n ≠ g.name := by
      intro i n named' other some_
      rw [update_of_ne other] at some_
      obtain ⟨g', mem, -, named''⟩ := holders.known i some_
      cases attached.name_unique named' (kept _ _ named'')
      exact ⟨named'', some_, new g' mem⟩
    intro i j n namedI namedJ someI someJ
    by_cases hereI : i = (placeGroup b g).1
    · subst hereI
      by_contra other
      exact (holder j n namedJ (Ne.symm other) someJ).2.2 (attached.name_unique namedI named)
    · obtain ⟨oldI, heldI, otherName⟩ := holder i n namedI hereI someI
      have hereJ : j ≠ (placeGroup b g).1 := by
        rintro rfl
        exact otherName (attached.name_unique namedJ named)
      obtain ⟨oldJ, heldJ, -⟩ := holder j n namedJ hereJ someJ
      exact holders.one i j n oldI oldJ heldI heldJ

theorem foldl_insertGroup_attached (acyclic : ∀ n, ¬ TransGen (MemberOf groups) n n)
    {done todo : List Group} (holders : Holders done held b) (defined : ∀ g ∈ todo, g ∈ groups)
    (distinct : ((done ++ todo).map Group.name).Nodup) :
    ∃ held', Attached groups held' (placed ++ memberNames todo) (todo.foldl insertGroup b) ∧
      Holders (done ++ todo) held' (todo.foldl insertGroup b) := by
  induction todo generalizing b held placed done with
  | nil =>
    rw [append_nil, memberNames, flatMap_nil, append_nil]
    exact ⟨held, h, holders⟩
  | cons g todo ih =>
    obtain ⟨here, later⟩ := forall_mem_cons.mp defined
    have new : ∀ g' ∈ done, g'.name ≠ g.name := by
      intro g' mem
      rw [map_append, nodup_append] at distinct
      exact distinct.2.2 _ (mem_map_of_mem mem) _ (by simp)
    obtain ⟨held', attached, holders'⟩ := insertGroup_attached h acyclic holders here new
    have next := ih attached holders' later (by rwa [append_assoc])
    rwa [append_assoc, append_assoc] at next

end

theorem initTree_attached (defs : Definitions) :
    ∃ held, Attached defs.groups held (memberNames defs.groups)
        (defs.groups.foldl insertGroup ⟨.nil, 0⟩) ∧
      Holders defs.groups held (defs.groups.foldl insertGroup ⟨.nil, 0⟩) := by
  have start : Attached defs.groups (fun _ => []) [] ⟨.nil, 0⟩ := by
    refine ⟨⟨?_, ?_, ?_, ?_, ?_⟩, ?_, ?_⟩ <;> simp [shape, topNames, Forest.rows, Forest.tops]
  have none_ : Holders [] (fun _ => []) ⟨.nil, 0⟩ :=
    ⟨fun _ some_ => absurd rfl some_, by simp, fun _ _ _ _ _ some_ => absurd rfl some_⟩
  exact foldl_insertGroup_attached start defs.acyclic none_ (fun _ => id) defs.distinct

variable (h : Attached groups held placed b)
include h

theorem Attached.nodes_of_name (n : List Char) :
    placed.count n ≤ ((shape b.proot).filter (·.name = n)).length ∧
      ((shape b.proot).filter (·.name = n)).length ≤ max 1 (placed.count n) := by
  have count : ((shape b.proot).filter (·.name = n)).length =
      ((shape b.proot).map Row.name).count n := by
    rw [List.count, countP_map, ← countP_eq_length_filter]
    exact countP_congr fun r _ => by simp
  have names := h.names n
  have tops := h.tops n
  omega

theorem Attached.kids_of_once (holders : Holders groups held b)
    (distinct : (groups.map Group.name).Nodup) (mem : g ∈ groups)
    (once : g.members = [] ∨ placed.count g.name ≤ 1) {r : Row} (node : r ∈ shape b.proot)
    (same : r.name = g.name) : r.kids = g.members := by
  rw [h.kids r node]
  by_cases none_ : g.members = []
  · by_contra some_
    rw [none_] at some_
    obtain ⟨g', mem', eq, r', node', eqId, eqName⟩ := holders.known r.id some_
    cases h.row_unique node' node eqId
    cases inj_on_of_nodup_map distinct mem' mem (eqName.symm.trans same)
    exact some_ (eq.trans none_)
  · have one := (h.nodes_of_name g.name).2.trans
      (Nat.max_le.mpr ⟨Nat.le_refl 1, once.resolve_left none_⟩)
    obtain ⟨i, ⟨r', node', rfl, same'⟩, eq⟩ := holders.owner g mem
    have listed : r ∈ (shape b.proot).filter (·.name = g.name) :=
      mem_filter.mpr ⟨node, decide_eq_true same⟩
    have listed' : r' ∈ (shape b.proot).filter (·.name = g.name) :=
      mem_filter.mpr ⟨node', decide_eq_true same'⟩
    obtain ⟨a, single⟩ := length_eq_one_iff.mp
      (Nat.le_antisymm one (length_pos_of_mem listed))
    rw [single, mem_singleton] at listed listed'
    rw [listed, ← listed', eq]

theorem Attached.once_of_kids (holders : Holders groups held b) (some_ : g.members ≠ [])
    (kids : ∀ r ∈ shape b.proot, r.name = g.name → r.kids = g.members) :
    placed.count g.name ≤ 1 := by
  by_contra more
  have two := (h.nodes_of_name g.name).1
  cases nodes : (shape b.proot).filter (·.name = g.name) with
  | nil => simp [nodes] at two; omega
  | cons r rest =>
    cases rest with
    | nil => simp [nodes] at two; omega
    | cons r' rest =>
      have named : ∀ x ∈ [r, r'], x ∈ shape b.proot ∧ x.name = g.name := by
        intro x mem
        have listed : x ∈ (shape b.proot).filter (·.name = g.name) := by
          rw [nodes]
          exact mem_append_left rest mem
        exact ⟨mem_of_mem_filter listed, of_decide_eq_true (mem_filter.mp listed).2⟩
      have distinct : r.id ≠ r'.id := by
        have ids := h.ids.sublist (filter_sublist (p := (·.name = g.name)) |>.map Row.id)
        rw [nodes, map_cons, nodup_cons] at ids
        exact fun same => ids.1 (same ▸ mem_cons_self)
      obtain ⟨mem, name⟩ := named r (by simp)
      obtain ⟨mem', name'⟩ := named r' (by simp)
      refine distinct (holders.one r.id r'.id g.name ⟨r, mem, rfl, name⟩
        ⟨r', mem', rfl, name'⟩ ?_ ?_)
      · rw [← h.kids r mem, kids r mem name]
        exact some_
      · rw [← h.kids r' mem', kids r' mem' name']
        exact some_

end Holding

/-! ### The tables -/

theorem initTree_fresh (groups : List Group) :
    (initTree groups).All fun d _ => d.pDescendant = [] := by
  let Fresh : Build → Prop := fun b => b.proot.All fun d _ => d.data.pDescendant = []
  have member : ∀ fres b (m : Node),
      m.pDescendant = [] → Fresh b → Fresh (insertMember fres b m) := by
    intro fres b m made fresh
    rw [insertMember]
    split
    · exact Forest.All.insertUnder fresh ⟨made, trivial, trivial⟩
    · rename_i x found
      have below := (fresh.top (mem_of_find?_eq_some found)).2
      exact Forest.All.insertUnder fresh.unlink ⟨made, below, trivial⟩
  have place : ∀ b (g : Group), Fresh b → Fresh (placeGroup b g).2 := by
    intro b g fresh
    rw [placeGroup]
    split
    · refine Forest.All.append fresh ⟨?_, trivial, trivial⟩
      unfold groupNode
      split <;> rfl
    · exact fresh
  have group : ∀ b, Fresh b → ∀ g ∈ groups, Fresh (insertGroup b g) := fun b fresh g _ =>
    List.foldlRecOn g.members _ (place b g fresh) fun b fresh m mem =>
      member _ b m (g.made m mem).2 fresh
  have all : Fresh (groups.foldl insertGroup ⟨.nil, 0⟩) := List.foldlRecOn groups _ trivial group
  exact Forest.All.map all fun _ _ made => made

theorem leaves_updateDescendant (t : Forest Node) :
    (updateDescendantOfTreeNode t).leaves.map Node.name = t.leaves.map Node.name := by
  induction t with
  | nil => rfl
  | node d children next below beside =>
    cases children with
    | nil => simp only [updateDescendantOfTreeNode, Forest.leaves, Forest.isNil, if_true,
        map_cons, beside]
    | node a children' next' =>
      rw [Forest.leaves, map_append, ← below, ← beside, ← map_append]
      rfl

theorem updateDescendant_all_iff {Q : List Char → (List Char → Prop) → Prop} {t : Forest Node}
    (fresh : t.All fun d _ => d.pDescendant = []) :
    ((updateDescendantOfTreeNode t).All fun d _ => Q d.name fun u => u ∈ d.pDescendant) ↔
      t.All fun d children => Q d.name fun u => u ∈ children.leaves.map Node.name := by
  induction t with
  | nil => exact Iff.rfl
  | node d children next below beside =>
    rw [updateDescendantOfTreeNode, Forest.All, below fresh.2.1, beside fresh.2.2]
    suffices table : (fun u => u ∈ (if children.isNil then d else { d with
        pDescendant := addDescendants d.pDescendant (updateDescendantOfTreeNode children) }
          ).pDescendant) = fun u => u ∈ children.leaves.map Node.name by
      rw [table]
      split <;> rfl
    funext u
    cases children with
    | nil => simp [Forest.isNil, Forest.leaves, fresh.1]
    | node a children' next' =>
      have described := updateDescendantOfTreeNode_described fresh.2.1
      rw [if_neg (by simp [Forest.isNil]), fresh.1, mem_addDescendants described,
        ← leaves_updateDescendant, mem_map]
      simp

/-! ### Every node of a group -/

/-- Every node with the name of a group has the members of the group as its children, and its
table has the users below the group. -/
structure ShowsGroups (groups : List Group) : Prop where
  children : ∀ g ∈ groups, (initTree groups).All fun d children =>
    d.name = g.name → children.tops.map Prod.fst = g.members
  users : ∀ g ∈ groups, (updateDescendantOfTreeNode (initTree groups)).All fun d _ =>
    d.name = g.name → ∀ u, u ∈ d.pDescendant ↔ UserBelow groups g.name u

def ListedOnce (groups : List Group) : Prop :=
  ∀ g ∈ groups, (memberNames groups).count g.name ≤ if g.members = [] then 0 else 1

section Shows

variable {groups : List Group} {t : Forest Node} {Q : List Char → List Node → Prop}

theorem rows_initTree (groups : List Group) :
    (∀ r ∈ (initTree groups).rows, Q r.1.name r.2) ↔
      ∀ r ∈ shape (groups.foldl insertGroup ⟨.nil, 0⟩).proot, Q r.name r.kids := by
  rw [initTree, Forest.rows_map, shape]
  simp only [forall_mem_map]
  rfl

theorem all_initTree (groups : List Group) :
    ((initTree groups).All fun d children => Q d.name (children.tops.map Prod.fst)) ↔
      ∀ r ∈ shape (groups.foldl insertGroup ⟨.nil, 0⟩).proot, Q r.name r.kids := by
  rw [Forest.all_iff_rows (Q := fun d kids => Q d.name kids), rows_initTree]

/-- The leaves of a forest in which every group has its members and no name is that of a group
without members. -/
theorem leaves_iff_reach (edges : ∀ r ∈ t.rows, ∀ m ∈ r.2, MemberOf groups r.1.name m.name)
    (kids : ∀ r ∈ t.rows, ∀ g ∈ groups, r.1.name = g.name → r.2 = g.members)
    (some_ : ∀ r ∈ t.rows, ∀ g ∈ groups, r.1.name = g.name → g.members ≠ []) (u : List Char) :
    u ∈ t.leaves.map Node.name ↔
      ¬ IsGroup groups u ∧ ∃ x ∈ t.tops, ReflTransGen (MemberOf groups) x.1.name u := by
  induction t with
  | nil => simp [Forest.leaves, Forest.tops]
  | node d children next below beside =>
    rw [Forest.rows] at edges kids some_
    rw [forall_mem_cons, forall_mem_append] at edges kids some_
    have inner := below edges.2.1 kids.2.1 some_.2.1
    have outer := beside edges.2.2 kids.2.2 some_.2.2
    have first : u ∈ (if children.isNil then [d] else children.leaves).map Node.name ↔
        ¬ IsGroup groups u ∧ ReflTransGen (MemberOf groups) d.name u := by
      cases children with
      | nil =>
        have user : ¬ IsGroup groups d.name := by
          rintro ⟨g, mem, same⟩
          exact some_.1 g mem same.symm (kids.1 g mem same.symm).symm
        rw [Forest.isNil, if_pos rfl, map_singleton, mem_singleton]
        constructor
        · rintro rfl
          exact ⟨user, .refl⟩
        · rintro ⟨-, chain⟩
          rcases ReflTransGen.cases_head chain with same | ⟨m, ⟨g, mem, same, -⟩, -⟩
          · exact same.symm
          · exact absurd ⟨g, mem, same⟩ user
      | node a children' next' =>
        rw [Forest.isNil, if_neg Bool.false_ne_true, inner]
        refine and_congr_right fun user => ⟨?_, fun chain => ?_⟩
        · rintro ⟨x, top, chain⟩
          exact .head (edges.1 x.1 (mem_map_of_mem top)) chain
        · rcases ReflTransGen.cases_head chain with
            rfl | ⟨m, ⟨g, mem, same, x, isMember, rfl⟩, chain⟩
          · obtain ⟨g, mem, same, -⟩ := edges.1 a (by simp [Forest.tops])
            exact absurd ⟨g, mem, same⟩ user
          · rw [← kids.1 g mem same.symm] at isMember
            obtain ⟨y, top, rfl⟩ := mem_map.mp isMember
            exact ⟨y, top, chain⟩
    rw [Forest.leaves_node, map_append, mem_append, first, outer, Forest.tops, ← and_or_left]
    simp only [mem_cons, exists_eq_or_imp]

theorem userBelow_iff (mem : g ∈ groups) (distinct : (groups.map Group.name).Nodup)
    (u : List Char) :
    UserBelow groups g.name u ↔
      ¬ IsGroup groups u ∧ ∃ m ∈ g.members, ReflTransGen (MemberOf groups) m.name u := by
  rw [UserBelow, and_comm, TransGen.head'_iff]
  refine and_congr_right fun _ => ⟨?_, ?_⟩
  · rintro ⟨n, ⟨g', mem', same, m, isMember, rfl⟩, chain⟩
    cases inj_on_of_nodup_map distinct mem' mem same
    exact ⟨m, isMember, chain⟩
  · rintro ⟨m, isMember, chain⟩
    exact ⟨m.name, ⟨g, mem, rfl, m, isMember, rfl⟩, chain⟩

theorem ShowsGroups.listedOnce (defs : Definitions) (shows_ : ShowsGroups defs.groups) :
    ListedOnce defs.groups := by
  obtain ⟨held, attached, holders⟩ := initTree_attached defs
  have kids : ∀ g ∈ defs.groups, ∀ r ∈ shape (defs.groups.foldl insertGroup ⟨.nil, 0⟩).proot,
      r.name = g.name → r.kids = g.members := by
    intro g mem
    exact (all_initTree defs.groups (Q := fun n kids => n = g.name → kids = g.members)).mp
      (shows_.children g mem)
  intro g mem
  split
  · rename_i empty
    rw [Nat.le_zero, count_eq_zero]
    intro listed
    obtain ⟨g', mem', isMember⟩ := mem_flatMap.mp listed
    obtain ⟨m, isMember, same⟩ := mem_map.mp isMember
    obtain ⟨i, ⟨r, node, -, name⟩, -⟩ := holders.owner g' mem'
    have users := (updateDescendant_all_iff (initTree_fresh defs.groups)
      (Q := fun n table => n = g'.name → ∀ u, table u ↔ UserBelow defs.groups g'.name u)).mp
      (shows_.users g' mem')
    have absent : (initTree defs.groups).All fun d children => d.name ≠ g'.name := by
      refine ((shows_.children g' mem').and (users.and (shows_.children g mem).deep)).mono ?_
      rintro d children ⟨here, table, -, below⟩ eq
      rw [← here eq] at isMember
      obtain ⟨x, top, rfl⟩ := mem_map.mp isMember
      have leaf : x.2 = .nil := by
        have none_ := (below.top top).1 same
        rwa [empty, map_eq_nil_iff, Forest.tops_eq_nil] at none_
      have isLeaf : x.1 ∈ children.leaves := Forest.mem_leaves_iff.mpr (.inl (leaf ▸ top))
      exact ((table eq g.name).mp (mem_map.mpr ⟨x.1, isLeaf, same⟩)).2 ⟨g, mem, rfl⟩
    exact (all_initTree defs.groups (Q := fun n _ => n ≠ g'.name)).mp absent r node name
  · rename_i some_
    exact attached.once_of_kids holders some_ (kids g mem)

theorem ListedOnce.shows (defs : Definitions) (once : ListedOnce defs.groups) :
    ShowsGroups defs.groups := by
  obtain ⟨held, attached, holders⟩ := initTree_attached defs
  have kids : ∀ g ∈ defs.groups, ∀ r ∈ shape (defs.groups.foldl insertGroup ⟨.nil, 0⟩).proot,
      r.name = g.name → r.kids = g.members := by
    intro g mem r node same
    have bound := once g mem
    refine attached.kids_of_once holders defs.distinct mem ?_ node same
    split at bound
    · exact .inl ‹_›
    · exact .inr bound
  have lists : ∀ n m, MemberOf defs.groups n m →
      ∀ g ∈ defs.groups, m = g.name → g.members ≠ [] := by
    rintro n m ⟨g', mem', -, x, isMember, rfl⟩ g mem same empty
    have bound := once g mem
    rw [if_pos empty, Nat.le_zero, count_eq_zero] at bound
    exact bound (mem_flatMap.mpr ⟨g', mem', mem_map.mpr ⟨x, isMember, same⟩⟩)
  have children : ∀ g ∈ defs.groups, (initTree defs.groups).All fun d children =>
      d.name = g.name → children.tops.map Prod.fst = g.members := by
    intro g mem
    exact (all_initTree defs.groups (Q := fun n kids => n = g.name → kids = g.members)).mpr
      (kids g mem)
  have right : ∀ r ∈ (initTree defs.groups).rows,
      (∀ m ∈ r.2, MemberOf defs.groups r.1.name m.name) ∧
        ∀ g ∈ defs.groups, r.1.name = g.name → r.2 = g.members := by
    refine (rows_initTree defs.groups (Q := fun n kids =>
      (∀ m ∈ kids, MemberOf defs.groups n m.name) ∧
        ∀ g ∈ defs.groups, n = g.name → kids = g.members)).mpr ?_
    exact fun r node => ⟨attached.edges r node, fun g mem => kids g mem r node⟩
  refine ⟨children, fun g mem => ?_⟩
  refine (updateDescendant_all_iff (initTree_fresh defs.groups)
    (Q := fun n table => n = g.name → ∀ u, table u ↔ UserBelow defs.groups g.name u)).mpr ?_
  refine (Forest.all_of_rows right).mono ?_
  rintro d children ⟨⟨edges, kids⟩, below⟩ same u
  have some_ : ∀ r ∈ children.rows, ∀ g ∈ defs.groups, r.1.name = g.name → g.members ≠ [] := by
    intro r node
    rcases Forest.mem_rows_cases node with top | ⟨r', node', kid⟩
    · exact lists _ _ (edges r.1 top)
    · exact lists _ _ ((below r' node').1 r.1 kid)
  change u ∈ children.leaves.map Node.name ↔ _
  rw [leaves_iff_reach (fun r node => (below r node).1) (fun r node => (below r node).2) some_ u,
    userBelow_iff mem defs.distinct, ← kids g mem same]
  simp

/-- The tree shows all groups just when each is listed once at most. -/
theorem initTree_shows_iff (defs : Definitions) :
    ShowsGroups defs.groups ↔ ListedOnce defs.groups :=
  ⟨ShowsGroups.listedOnce defs, ListedOnce.shows defs⟩

end Shows

theorem acyclic_of_rank {groups : List Group} (rank : List Char → Nat)
    (falls : ∀ g ∈ groups, ∀ m ∈ g.members, rank m.name < rank g.name) (n : List Char) :
    ¬ TransGen (MemberOf groups) n n := by
  have less : ∀ a b, TransGen (MemberOf groups) a b → rank b < rank a := by
    intro a b chain
    induction chain with
    | single edge =>
      obtain ⟨g, mem, rfl, m, isMember, rfl⟩ := edge
      exact falls g mem m isMember
    | tail _ edge ih =>
      obtain ⟨g, mem, rfl, m, isMember, rfl⟩ := edge
      exact (falls g mem m isMember).trans ih
  exact fun cycle => Nat.lt_irrefl _ (less n n cycle)

def oneMember (name member : Char) : Group where
  name := [name]
  type := .group
  share := -1
  members := [nodeNewUser [member] 1]
  named := by simp
  made := by simp [nodeNewUser]

/-- The group `g` of the user `u` is a member of the groups `a` and `b`. -/
def twoParents : Definitions where
  groups := [oneMember 'g' 'u', oneMember 'a' 'g', oneMember 'b' 'g']
  distinct := by simp [oneMember]
  acyclic := acyclic_of_rank (fun n => if n = ['u'] then 0 else if n = ['g'] then 1 else 2)
    (by simp [oneMember, nodeNewUser])

/-- The node of `g` under `b` has no children, and the table of `b` has the group `g` as a user. -/
theorem initTree_drops_members :
    (initTree twoParents.groups).rows.map (fun r => (r.1.name, r.2.map Node.name)) =
        [(['a'], [['g']]), (['g'], [['u']]), (['u'], []), (['b'], [['g']]), (['g'], [])] ∧
      ((updateDescendantOfTreeNode (initTree twoParents.groups)).rows.filter
        (·.1.name = ['b'])).map (·.1.pDescendant) = [[['g']]] := by
  decide +kernel

end Jhlava.Share
