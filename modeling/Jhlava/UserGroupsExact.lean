import Jhlava.UserGroups

/-! What the sets of user data have when `setuDataCreate` is done: the groups are followed from
every group but those whose names begin with `others`, and for the groups that are reached so the
sets are exact. -/
namespace Jhlava.UGrp
open QueueTraversal List

variable {G : Type}

namespace UserGroups
variable (groups : UserGroups G)

/-! ### What the sets should have -/

/-- A group from which `setuDataCreate` starts. -/
def Root (g : G) : Prop := isOthers (groups.group g) = false

def Visited (g : G) : Prop := ∃ r, groups.Root r ∧ Below groups.gPtr r g

def Direct (g : G) (x : Name) : Prop :=
  x ∈ groups.memberTab g ∨ ∃ h ∈ groups.gPtr g, groups.group h = x

def Contains (g : G) (x : Name) : Prop := ∃ h, Below groups.gPtr g h ∧ groups.Direct h x

structure Exact (s : Users G) : Prop where
  parents : ∀ n x, x ∈ (s.sets n).parents ↔
    ∃ g, groups.group g = x ∧ groups.Visited g ∧ groups.Direct g n
  ancestors : ∀ n x, x ∈ (s.sets n).ancestors ↔
    ∃ g, groups.group g = x ∧ groups.Visited g ∧ groups.Contains g n
  children : ∀ g x, x ∈ (s.sets (groups.group g)).children ↔ groups.Visited g ∧ groups.Direct g x
  descendants : ∀ g x, x ∈ (s.sets (groups.group g)).descendants ↔
    groups.Visited g ∧ groups.Contains g x

end UserGroups

variable {groups : UserGroups G} {s s' : Users G} {e : Entry G} {g h p r : G} {n x cur u : Name}

open UserGroups

theorem direct_contains (direct : groups.Direct g x) : groups.Contains g x := ⟨g, .refl, direct⟩

theorem contains_below (below : Below groups.gPtr g h) (contains : groups.Contains h x) :
    groups.Contains g x := by
  obtain ⟨k, reaches, direct⟩ := contains
  exact ⟨k, below.trans reaches, direct⟩

theorem contains_group (contains : groups.Contains g (groups.group h)) : Below groups.gPtr g h := by
  obtain ⟨k, reaches, member | ⟨j, isSub, same⟩⟩ := contains
  · exact absurd member (groups.users k h)
  · rw [← groups.named same]
    exact reaches.tail isSub

/-! ### One member -/

@[simp] theorem getUserData_sets (s : Users G) (user : Name) :
    (getUserData s user).sets = s.sets := by
  unfold getUserData
  split_ifs <;> rfl

theorem modify_sets (s : Users G) (user n : Name) (f : USets → USets) :
    (s.modify user f).sets n = if n = user then f (s.sets user) else s.sets n := by
  simp only [Users.modify, Function.update_apply]

theorem mem_enter_ancestors : x ∈ ((enter cur s u).sets n).ancestors ↔
    x ∈ (s.sets n).ancestors ∨ n = u ∧ (x = cur ∨ x ∈ (s.sets cur).ancestors) := by
  simp only [enter, modify_sets, getUserData_sets]
  split_ifs <;> simp_all
  tauto

theorem mem_enter_parents : x ∈ ((enter cur s u).sets n).parents ↔
    x ∈ (s.sets n).parents ∨ n = u ∧ x = cur := by
  simp only [enter, modify_sets, getUserData_sets]
  split_ifs <;> simp_all <;> tauto

theorem mem_enter_children : x ∈ ((enter cur s u).sets n).children ↔
    x ∈ (s.sets n).children ∨ n = cur ∧ x = u := by
  simp only [enter, modify_sets, getUserData_sets]
  split_ifs <;> simp_all <;> tauto

theorem mem_enter_descendants : x ∈ ((enter cur s u).sets n).descendants ↔
    x ∈ (s.sets n).descendants ∨ n = cur ∧ x = u := by
  simp only [enter, modify_sets, getUserData_sets]
  split_ifs <;> simp_all <;> tauto

/-! ### Sets only grow -/

structure Grows (s s' : Users G) : Prop where
  parents : ∀ n, (s.sets n).parents ⊆ (s'.sets n).parents
  ancestors : ∀ n, (s.sets n).ancestors ⊆ (s'.sets n).ancestors
  children : ∀ n, (s.sets n).children ⊆ (s'.sets n).children
  descendants : ∀ n, (s.sets n).descendants ⊆ (s'.sets n).descendants

theorem Grows.refl (s : Users G) : Grows s s :=
  ⟨fun _ => subset_rfl, fun _ => subset_rfl, fun _ => subset_rfl, fun _ => subset_rfl⟩

theorem Grows.trans {s₁ s₂ s₃ : Users G} (first : Grows s₁ s₂) (second : Grows s₂ s₃) :
    Grows s₁ s₃ where
  parents n := (first.parents n).trans (second.parents n)
  ancestors n := (first.ancestors n).trans (second.ancestors n)
  children n := (first.children n).trans (second.children n)
  descendants n := (first.descendants n).trans (second.descendants n)

variable {i : Nat} {ι : Type*} {step : Users G → ι → Users G}

theorem foldl_grows (grows : ∀ s i, Grows s (step s i)) (l : List ι) (s : Users G) :
    Grows s (l.foldl step s) := by
  induction l generalizing s with
  | nil => exact .refl s
  | cons i rest ih => exact (grows s i).trans (ih (step s i))

theorem getUserData_grows (s : Users G) (user : Name) : Grows s (getUserData s user) := by
  refine ⟨fun _ => ?_, fun _ => ?_, fun _ => ?_, fun _ => ?_⟩ <;> rw [getUserData_sets]

theorem enter_grows (cur : Name) (s : Users G) (u : Name) : Grows s (enter cur s u) where
  parents _ _ mem := mem_enter_parents.2 (.inl mem)
  ancestors _ _ mem := mem_enter_ancestors.2 (.inl mem)
  children _ _ mem := mem_enter_children.2 (.inl mem)
  descendants _ _ mem := mem_enter_descendants.2 (.inl mem)

theorem visit_grows (s : Users G) (e : Entry G) : Grows s (groups.visit s e) :=
  (foldl_grows (enter_grows _) _ _).trans (foldl_grows (fun s _ => enter_grows _ s _) _ _)

theorem mem_unite_descendants (isParent : e.parent = some p) :
    x ∈ ((groups.unite s e).sets n).descendants ↔ x ∈ (s.sets n).descendants ∨
      n = groups.group p ∧ x ∈ (s.sets (groups.group e.my)).descendants := by
  simp only [unite, isParent, modify_sets]
  split_ifs with same
  · simp [same]
  · simp [same]

theorem unite_others (s : Users G) (e : Entry G) (n : Name) : (groups.unite s e).sets n =
    { s.sets n with descendants := ((groups.unite s e).sets n).descendants } := by
  unfold unite
  split
  · rfl
  · rw [modify_sets]
    split_ifs with same
    · rw [same]
    · rfl

theorem unite_grows (s : Users G) (e : Entry G) : Grows s (groups.unite s e) := by
  cases isParent : e.parent with
  | none =>
    simp only [unite, isParent]
    exact .refl s
  | some p =>
    refine ⟨fun n => ?_, fun n => ?_, fun n => ?_, fun n => ?_⟩
    · rw [unite_others]
    · rw [unite_others]
    · rw [unite_others]
    · exact fun x mem => (mem_unite_descendants isParent).2 (.inl mem)

/-! ### Nothing else gets in -/

/-- Whatever the sets have, they should have. -/
structure Sound (groups : UserGroups G) (s : Users G) : Prop where
  parents : ∀ n x, x ∈ (s.sets n).parents →
    ∃ g, groups.group g = x ∧ groups.Visited g ∧ groups.Direct g n
  ancestors : ∀ n x, x ∈ (s.sets n).ancestors →
    ∃ g, groups.group g = x ∧ groups.Visited g ∧ groups.Contains g n
  children : ∀ n x, x ∈ (s.sets n).children →
    ∃ g, groups.group g = n ∧ groups.Visited g ∧ groups.Direct g x
  descendants : ∀ n x, x ∈ (s.sets n).descendants →
    ∃ g, groups.group g = n ∧ groups.Visited g ∧ groups.Contains g x

theorem foldl_sound {l : List ι} (keeps : ∀ s, ∀ i ∈ l, Sound groups s → Sound groups (step s i))
    (sound : Sound groups s) : Sound groups (l.foldl step s) := by
  induction l generalizing s with
  | nil => exact sound
  | cons i rest ih =>
    exact ih (fun s j mem => keeps s j (mem_cons_of_mem _ mem))
      (keeps s i mem_cons_self sound)

section

variable (sound : Sound groups s)
include sound

theorem getUserData_sound (user : Name) : Sound groups (getUserData s user) := by
  obtain ⟨parents, ancestors, children, descendants⟩ := sound
  constructor <;> rwa [getUserData_sets]

theorem enter_sound (visited : groups.Visited g) (direct : groups.Direct g u) :
    Sound groups (enter (groups.group g) s u) where
  parents n x mem := by
    rcases mem_enter_parents.1 mem with mem | ⟨rfl, rfl⟩
    · exact sound.parents n x mem
    · exact ⟨g, rfl, visited, direct⟩
  ancestors n x mem := by
    rcases mem_enter_ancestors.1 mem with mem | ⟨rfl, rfl | mem⟩
    · exact sound.ancestors n x mem
    · exact ⟨g, rfl, visited, direct_contains direct⟩
    · obtain ⟨a, isName, isVisited, contains⟩ := sound.ancestors _ _ mem
      exact ⟨a, isName, isVisited, contains_below (contains_group contains)
        (direct_contains direct)⟩
  children n x mem := by
    rcases mem_enter_children.1 mem with mem | ⟨rfl, rfl⟩
    · exact sound.children n x mem
    · exact ⟨g, rfl, visited, direct⟩
  descendants n x mem := by
    rcases mem_enter_descendants.1 mem with mem | ⟨rfl, rfl⟩
    · exact sound.descendants n x mem
    · exact ⟨g, rfl, visited, direct_contains direct⟩

theorem visit_sound (visited : groups.Visited e.my) : Sound groups (groups.visit s e) := by
  refine foldl_sound (fun s h mem sound => ?_) (foldl_sound (fun s u mem sound => ?_) sound)
  · exact enter_sound sound visited (.inr ⟨h, mem, rfl⟩)
  · exact enter_sound sound visited (.inl mem)

theorem unite_sound (parent : ∀ p, e.parent = some p → e.my ∈ groups.gPtr p ∧ groups.Visited p) :
    Sound groups (groups.unite s e) := by
  cases isParent : e.parent with
  | none =>
    simp only [unite, isParent]
    exact sound
  | some p =>
    obtain ⟨isSub, visited⟩ := parent p isParent
    refine ⟨fun n x mem => ?_, fun n x mem => ?_, fun n x mem => ?_, fun n x mem => ?_⟩
    · rw [unite_others] at mem
      exact sound.parents n x mem
    · rw [unite_others] at mem
      exact sound.ancestors n x mem
    · rw [unite_others] at mem
      exact sound.children n x mem
    · rcases (mem_unite_descendants isParent).1 mem with own | ⟨rfl, below⟩
      · exact sound.descendants n x own
      · obtain ⟨k, isName, -, contains⟩ := sound.descendants _ _ below
        rw [groups.named isName] at contains
        exact ⟨p, rfl, visited, contains_below (.single isSub) contains⟩

end

/-! ### Everything gets in -/

/-- The sets have all members of the group. -/
structure Complete (groups : UserGroups G) (s : Users G) (g : G) : Prop where
  parents : ∀ x, groups.Direct g x → groups.group g ∈ (s.sets x).parents
  ancestors : ∀ x, groups.Contains g x → groups.group g ∈ (s.sets x).ancestors
  children : ∀ x, groups.Direct g x → x ∈ (s.sets (groups.group g)).children
  descendants : ∀ x, groups.Contains g x → x ∈ (s.sets (groups.group g)).descendants

theorem Complete.grows (complete : Complete groups s g) (grows : Grows s s') :
    Complete groups s' g where
  parents x direct := grows.parents x (complete.parents x direct)
  ancestors x contains := grows.ancestors x (complete.ancestors x contains)
  children x direct := grows.children _ (complete.children x direct)
  descendants x contains := grows.descendants _ (complete.descendants x contains)

/-- What one visit does for a direct member. -/
structure Entered (cur : Name) (s s' : Users G) (x : Name) : Prop where
  parent : cur ∈ (s'.sets x).parents
  ancestor : cur ∈ (s'.sets x).ancestors
  ancestors : (s.sets cur).ancestors ⊆ (s'.sets x).ancestors
  child : x ∈ (s'.sets cur).children
  descendant : x ∈ (s'.sets cur).descendants

theorem enter_entered (cur : Name) (s : Users G) (u : Name) : Entered cur s (enter cur s u) u where
  parent := mem_enter_parents.2 (.inr ⟨rfl, rfl⟩)
  ancestor := mem_enter_ancestors.2 (.inr ⟨rfl, .inl rfl⟩)
  ancestors _ mem := mem_enter_ancestors.2 (.inr ⟨rfl, .inr mem⟩)
  child := mem_enter_children.2 (.inr ⟨rfl, rfl⟩)
  descendant := mem_enter_descendants.2 (.inr ⟨rfl, rfl⟩)

theorem Entered.widen {s₁ s₂ s₃ s₄ : Users G} (entered : Entered cur s₂ s₃ x)
    (before : Grows s₁ s₂) (behind : Grows s₃ s₄) : Entered cur s₁ s₄ x where
  parent := behind.parents _ entered.parent
  ancestor := behind.ancestors _ entered.ancestor
  ancestors := ((before.ancestors _).trans entered.ancestors).trans (behind.ancestors _)
  child := behind.children _ entered.child
  descendant := behind.descendants _ entered.descendant

theorem foldl_entered (name : ι → Name) {l : List ι} {i : ι} (mem : i ∈ l) (s : Users G) :
    Entered cur s (l.foldl (fun s i => enter cur s (name i)) s) (name i) := by
  obtain ⟨before, behind, rfl⟩ := append_of_mem mem
  rw [foldl_append]
  exact (enter_entered cur _ (name i)).widen (foldl_grows (fun s i => enter_grows cur s _) _ _)
    (foldl_grows (fun s i => enter_grows cur s _) _ _)

theorem visit_entered (direct : groups.Direct e.my x) :
    Entered (groups.group e.my) s (groups.visit s e) x := by
  rcases direct with member | ⟨h, isSub, rfl⟩
  · exact (foldl_entered id member s).widen (.refl s)
      (foldl_grows (fun s _ => enter_grows _ s _) _ _)
  · exact (foldl_entered groups.group isSub _).widen (foldl_grows (enter_grows _) _ _) (.refl _)

/-- The group `k` is `a` or has it as an ancestor. -/
def HasAncestor (groups : UserGroups G) (a : G) (s : Users G) (k : G) : Prop :=
  k = a ∨ groups.group a ∈ (s.sets (groups.group k)).ancestors

theorem HasAncestor.keeps {a k : G} (has : HasAncestor groups a s k) (grows : Grows s s') :
    HasAncestor groups a s' k :=
  has.imp_right fun mem => grows.ancestors _ mem

theorem HasAncestor.hands {a : G} (has : HasAncestor groups a s e.my)
    (direct : groups.Direct e.my x) :
    groups.group a ∈ ((groups.visit s e).sets x).ancestors := by
  have entered : Entered (groups.group e.my) s (groups.visit s e) x := visit_entered direct
  rcases has with same | mem
  · rw [← same]
    exact entered.ancestor
  · exact entered.ancestors mem

variable {l : List (Entry G)}

theorem pass_ancestors (closed : Closed groups.gPtr l) (isEntry : e ∈ l)
    (contains : groups.Contains e.my x) :
    groups.group e.my ∈ ((l.foldl groups.visit s).sets x).ancestors := by
  obtain ⟨before, behind, split⟩ := append_of_mem isEntry
  obtain ⟨h, reaches, direct⟩ := contains
  have start : HasAncestor groups e.my (before.foldl groups.visit s) e.my := .inl rfl
  obtain ⟨before', f, behind', split', rfl, has⟩ :=
    pass_down (HasAncestor groups e.my) (fun s f k has => has.keeps (visit_grows s f))
      (fun s f k has isSub => .inr (has.hands (.inr ⟨k, isSub, rfl⟩))) closed split rfl start
        reaches
  rw [split', foldl_append, foldl_cons]
  exact (foldl_grows visit_grows _ _).ancestors x (has.hands direct)

theorem pass_entered (isEntry : e ∈ l) (direct : groups.Direct e.my x) :
    Entered (groups.group e.my) s (l.foldl groups.visit s) x := by
  obtain ⟨before, behind, rfl⟩ := append_of_mem isEntry
  rw [foldl_append]
  exact (visit_entered direct).widen (foldl_grows visit_grows _ _) (foldl_grows visit_grows _ _)

theorem unite_hands (isParent : e.parent = some p)
    (mem : x ∈ (s.sets (groups.group e.my)).descendants) :
    x ∈ ((groups.unite s e).sets (groups.group p)).descendants :=
  (mem_unite_descendants isParent).2 (.inr ⟨rfl, mem⟩)

theorem pass_descendants (closed : Closed groups.gPtr l) (isEntry : e ∈ l)
    (contains : groups.Contains e.my x) :
    x ∈ ((l.tail.reverse.foldl groups.unite (l.foldl groups.visit s)).sets
      (groups.group e.my)).descendants := by
  obtain ⟨h, reaches, direct⟩ := contains
  obtain ⟨f, isBelow, rfl⟩ := closed.entry isEntry reaches
  have start : x ∈ ((l.foldl groups.visit s).sets (groups.group f.my)).descendants :=
    (pass_entered isBelow direct).descendant
  obtain ⟨before, behind, split⟩ := append_of_mem isEntry
  have collected := pass_up (fun s k => x ∈ (s.sets (groups.group k)).descendants)
    (fun s f k mem => (unite_grows s f).descendants _ mem)
    (fun s f p isParent mem => unite_hands isParent mem) closed split rfl reaches start
  cases before with
  | nil =>
    have tail : l.tail = behind := by rw [split, nil_append, tail_cons]
    rw [tail]
    exact collected
  | cons a before =>
    have tail : l.tail = before ++ e :: behind := by rw [split, cons_append, tail_cons]
    rw [tail, reverse_append, foldl_append, reverse_cons, foldl_append]
    refine (foldl_grows unite_grows _ _).descendants _ ?_
    exact (foldl_grows unite_grows _ _).descendants _ collected

/-! ### One traversal -/

/-- The chains of subgroups from the group have room in `uStack`. -/
def Fits (groups : UserGroups G) (g : G) : Prop := ∀ k, chains groups.gPtr k g ≤ maxGroups

/-- What a traversal does, with the user data it adds. -/
structure Traversed (groups : UserGroups G) (r : G) (s s' : Users G) : Prop where
  sound : Sound groups s → groups.Root r → Sound groups s'
  grows : Grows s s'
  complete : ∀ g, Below groups.gPtr r g → Complete groups s' g

theorem traverseGroupTree_traversed (done : groups.traverseGroupTree s r = some s') :
    Traversed groups r s s' := by
  obtain ⟨⟨l, after⟩, walked, rfl⟩ := Option.map_eq_some_iff.1 done
  obtain ⟨rfl, begins, closed⟩ := walk_spec walked
  have found := walk_found (Below groups.gPtr r) (fun g h below isSub => below.tail isSub)
    (fun e mem => by rw [mem_singleton.1 mem]) walked
  have isRoot : (⟨r, none⟩ : Entry G) ∈ l := begins.subset mem_cons_self
  refine ⟨fun sound root => ?_, ?_, fun g below => ?_⟩
  · have visited : ∀ e ∈ l, groups.Visited e.my := fun e mem => ⟨r, root, (found e mem).1⟩
    refine foldl_sound (fun s e mem sound => unite_sound sound fun p isParent => ?_)
      (foldl_sound (fun s e mem sound => visit_sound sound (visited e mem))
        (getUserData_sound sound _))
    have isEntry := mem_of_mem_tail (mem_reverse.1 mem)
    rcases (found e isEntry).2 with first | ⟨q, isQ, isSub, below⟩
    · rw [mem_singleton.1 first] at isParent
      cases isParent
    · obtain rfl := Option.some.inj (isQ.symm.trans isParent)
      exact ⟨isSub, r, root, below⟩
  · exact (getUserData_grows s _).trans
      ((foldl_grows visit_grows _ _).trans (foldl_grows unite_grows _ _))
  · obtain ⟨e, isEntry, rfl⟩ := closed.entry isRoot below
    have behind : Grows (l.foldl groups.visit (getUserData s (groups.group r)))
        (l.tail.reverse.foldl groups.unite
          (l.foldl groups.visit (getUserData s (groups.group r)))) :=
      foldl_grows unite_grows _ _
    refine ⟨fun x direct => ?_, fun x contains => ?_, fun x direct => ?_, fun x contains => ?_⟩
    · exact behind.parents _ (pass_entered isEntry direct).parent
    · exact behind.ancestors _ (pass_ancestors closed isEntry contains)
    · exact behind.children _ (pass_entered isEntry direct).child
    · exact pass_descendants closed isEntry contains

theorem traverseGroupTree_isSome_iff (s : Users G) :
    (groups.traverseGroupTree s r).isSome ↔ Fits groups r := by
  rw [traverseGroupTree, Option.isSome_map, walk_isSome_iff (by simp [maxGroups]) (by simp)]
  simp [Fits]

theorem traverseGroupTree_isSome (fits : Fits groups r) (s : Users G) :
    (groups.traverseGroupTree s r).isSome := (traverseGroupTree_isSome_iff s).mpr fits

/-! ### The table -/

/-- Every group has an entry with its flag set. -/
structure Flagged (groups : UserGroups G) (table : List (UData G)) : Prop where
  user : ∀ u ∈ table, ∀ g, u.gData = some g → u.user = groups.group g
  all : ∀ g, ∃ u ∈ table, u.gData = some g

/-- Users of groups have been added to the first table. -/
structure TableOk (groups : UserGroups G) (first table : List (UData G)) : Prop where
  added : ∃ added, table = first ++ added ∧ (added.map UData.user).Nodup ∧
    ∀ u ∈ added, u.gData = none ∧ u.user ∈ groups.usergroups.flatMap groups.memberTab

variable {first : List (UData G)}

section

variable (ok : TableOk groups first s.table)
include ok

theorem TableOk.length_le :
    s.table.length ≤ first.length + (groups.usergroups.flatMap groups.memberTab).length := by
  obtain ⟨added, table, nodup, users⟩ := ok.added
  have part : (added.map UData.user) ⊆ groups.usergroups.flatMap groups.memberTab := by
    intro user mem
    obtain ⟨u, isAdded, rfl⟩ := mem_map.1 mem
    exact (users u isAdded).2
  have le := (subperm_of_subset nodup part).length_le
  rw [length_map] at le
  rw [table, length_append]
  omega

theorem TableOk.flagged {u : UData G} (isEntry : s.table[i]? = some u)
    (isGroup : u.gData = some g) : first[i]? = some u := by
  obtain ⟨added, table, -, users⟩ := ok.added
  rw [table] at isEntry
  rcases lt_or_ge i first.length with inside | beyond
  · rwa [List.getElem?_append_left inside] at isEntry
  · rw [List.getElem?_append_right beyond] at isEntry
    rw [(users u (mem_of_getElem? isEntry)).1] at isGroup
    cases isGroup

theorem TableOk.getElem? {u : UData G} (isFirst : first[i]? = some u) : s.table[i]? = some u := by
  obtain ⟨added, table, -⟩ := ok.added
  rw [table, List.getElem?_append_left (List.getElem?_eq_some_iff.1 isFirst).1]
  exact isFirst

end

theorem getUserData_present (present : ∃ d ∈ s.table, d.user = u) : getUserData s u = s := by
  rw [getUserData, if_pos]
  simpa using present

theorem getUserData_new (new : ¬ ∃ d ∈ s.table, d.user = u) :
    getUserData s u = { s with table := s.table ++ [{ user := u }] } := by
  rw [getUserData, if_neg]
  simpa using new

theorem getUserData_group (flagged : Flagged groups first) (ok : TableOk groups first s.table)
    (g : G) : getUserData s (groups.group g) = s := by
  obtain ⟨added, table, -⟩ := ok.added
  obtain ⟨d, mem, isGroup⟩ := flagged.all g
  exact getUserData_present ⟨d, table ▸ mem_append_left _ mem, flagged.user d mem g isGroup⟩

theorem getUserData_member (ok : TableOk groups first s.table)
    (member : u ∈ groups.usergroups.flatMap groups.memberTab) :
    TableOk groups first (getUserData s u).table := by
  by_cases present : ∃ d ∈ s.table, d.user = u
  · rw [getUserData_present present]
    exact ok
  · obtain ⟨added, table, nodup, users⟩ := ok.added
    rw [getUserData_new present]
    refine ⟨added ++ [{ user := u }], ?_, ?_, ?_⟩
    · rw [table, append_assoc]
    · rw [map_append, nodup_append]
      refine ⟨nodup, nodup_singleton _, fun a mem b isNew same => ?_⟩
      obtain ⟨d, isAdded, rfl⟩ := mem_map.1 mem
      refine present ⟨d, table ▸ mem_append_right _ isAdded, ?_⟩
      rw [same]
      simpa using isNew
    · intro d mem
      rcases mem_append.1 mem with isAdded | isNew
      · exact users d isAdded
      · rw [mem_singleton.1 isNew]
        exact ⟨rfl, member⟩

theorem foldl_tableOk {l : List ι}
    (keeps : ∀ s, ∀ i ∈ l, TableOk groups first s.table → TableOk groups first (step s i).table)
    (ok : TableOk groups first s.table) : TableOk groups first (l.foldl step s).table := by
  induction l generalizing s with
  | nil => exact ok
  | cons i rest ih =>
    exact ih (fun s j mem => keeps s j (mem_cons_of_mem _ mem))
      (keeps s i mem_cons_self ok)

theorem traverseGroupTree_tableOk (flagged : Flagged groups first)
    (ok : TableOk groups first s.table) (done : groups.traverseGroupTree s r = some s') :
    TableOk groups first s'.table := by
  obtain ⟨⟨l, after⟩, walked, rfl⟩ := Option.map_eq_some_iff.1 done
  obtain ⟨rfl, -⟩ := walk_spec walked
  rw [getUserData_group flagged ok]
  refine foldl_tableOk (fun s e _ ok => ?_) (foldl_tableOk (fun s e _ ok => ?_) ok)
  · unfold unite
    split <;> exact ok
  · refine foldl_tableOk (fun s h _ ok => ?_) (foldl_tableOk (fun s u mem ok => ?_) ok)
    · change TableOk groups first (getUserData s (groups.group h)).table
      rw [getUserData_group flagged ok]
      exact ok
    · exact getUserData_member ok (mem_flatMap.2 ⟨e.my, groups.all e.my, mem⟩)

/-! ### The loop over the table -/

/-- The first `i` entries are done. -/
structure LoopInv (groups : UserGroups G) (first : List (UData G)) (i : Nat) (s : Users G) :
    Prop where
  table : TableOk groups first s.table
  sound : Sound groups s
  complete : ∀ j < i, ∀ u g, first[j]? = some u → u.gData = some g → groups.Root g →
    ∀ k, Below groups.gPtr g k → Complete groups s k

theorem LoopInv.next (inv : LoopInv groups first i s)
    (pass : ∀ u g, first[i]? = some u → u.gData = some g → groups.Root g →
      ∀ k, Below groups.gPtr g k → Complete groups s k) : LoopInv groups first (i + 1) s := by
  refine ⟨inv.table, inv.sound, fun j lt u g isEntry isGroup root k below => ?_⟩
  rcases Nat.lt_succ_iff_lt_or_eq.1 lt with lt | rfl
  · exact inv.complete j lt u g isEntry isGroup root k below
  · exact pass u g isEntry isGroup root k below

theorem setuDataLoop_spec (flagged : Flagged groups first)
    (fits : ∀ g, groups.Root g → Fits groups g) {fuel : Nat}
    (enough : first.length + (groups.usergroups.flatMap groups.memberTab).length ≤ i + fuel)
    (inv : LoopInv groups first i s) :
    ∃ s' j, groups.setuDataLoop fuel i s = some s' ∧ LoopInv groups first j s' ∧
      first.length ≤ j := by
  have length := inv.table.length_le
  induction fuel generalizing i s with
  | zero =>
    refine ⟨s, i, ?_, inv, by omega⟩
    rw [setuDataLoop, if_pos (by omega)]
  | succ fuel ih =>
    rw [setuDataLoop]
    cases isEntry : s.table[i]? with
    | none =>
      refine ⟨s, i, rfl, inv, ?_⟩
      rw [List.getElem?_eq_none_iff] at isEntry
      obtain ⟨added, table, -⟩ := inv.table.added
      rw [table, length_append] at isEntry
      omega
    | some u =>
      dsimp only
      have same : ∀ u', first[i]? = some u' → u' = u := fun u' isFirst =>
        Option.some.inj ((inv.table.getElem? isFirst).symm.trans isEntry)
      cases isGroup : u.gData with
      | none =>
        refine ih (by omega) (inv.next fun u' g isFirst isGroup' => ?_) length
        rw [same u' isFirst, isGroup] at isGroup'
        cases isGroup'
      | some g =>
        have isFirst := inv.table.flagged isEntry isGroup
        have isUser := flagged.user u (mem_of_getElem? isFirst) g isGroup
        dsimp only
        split_ifs with others
        · refine ih (by omega) (inv.next fun u' g' isFirst' isGroup' root => ?_) length
          rw [same u' isFirst', isGroup] at isGroup'
          obtain rfl := Option.some.inj isGroup'
          rw [Root, ← isUser, others] at root
          cases root
        · have root : groups.Root g := by
            rw [Root, ← isUser]
            exact Bool.eq_false_iff.2 others
          obtain ⟨s₁, done⟩ := Option.isSome_iff_exists.1 (traverseGroupTree_isSome (fits g root) s)
          have traversed := traverseGroupTree_traversed done
          have table := traverseGroupTree_tableOk flagged inv.table done
          rw [done]
          refine ih (by omega) (LoopInv.next ⟨table, traversed.sound inv.sound root, ?_⟩ ?_)
            table.length_le
          · intro j lt u' g' isFirst' isGroup' root' k below
            exact (inv.complete j lt u' g' isFirst' isGroup' root' k below).grows traversed.grows
          · intro u' g' isFirst' isGroup' _ k below
            rw [same u' isFirst', isGroup] at isGroup'
            obtain rfl := Option.some.inj isGroup'
            exact traversed.complete k below

/-! ### The start -/

/-- User data before the groups are looked at. -/
structure Fresh (s : Users G) : Prop where
  table : ∀ u ∈ s.table, u.gData = none
  sets : ∀ n, s.sets n = {}

theorem getUserData_user (user : ∀ u ∈ s.table, ∀ g, u.gData = some g → u.user = groups.group g)
    (n : Name) : (∃ u ∈ (getUserData s n).table, u.user = n) ∧
      ∀ u ∈ (getUserData s n).table, ∀ g, u.gData = some g → u.user = groups.group g := by
  by_cases present : ∃ d ∈ s.table, d.user = n
  · rw [getUserData_present present]
    exact ⟨present, user⟩
  · rw [getUserData_new present]
    refine ⟨⟨_, mem_append_right _ mem_cons_self, rfl⟩, fun u mem g isGroup => ?_⟩
    rcases mem_append.1 mem with old | new
    · exact user u old g isGroup
    · rw [mem_singleton.1 new] at isGroup
      cases isGroup

theorem getUserData_mem {d : UData G} (mem : d ∈ s.table) : d ∈ (getUserData s n).table := by
  unfold getUserData
  split_ifs
  · exact mem
  · exact mem_append_left _ mem

section

variable (user : ∀ u ∈ s.table, ∀ g, u.gData = some g → u.user = groups.group g)
include user

theorem flag_user (g : G) :
    ∀ u ∈ (groups.flag s g).table, ∀ h, u.gData = some h → u.user = groups.group h := by
  intro u mem h isGroup
  obtain ⟨d, isEntry, rfl⟩ := mem_map.1 mem
  split_ifs at isGroup ⊢ with same
  · rw [← Option.some.inj isGroup]
    exact same
  · exact (getUserData_user user _).2 d isEntry h isGroup

theorem flag_own (g : G) : ∃ u ∈ (groups.flag s g).table, u.gData = some g := by
  obtain ⟨d, isEntry, isUser⟩ := (getUserData_user user (groups.group g)).1
  refine ⟨_, mem_map_of_mem isEntry, ?_⟩
  rw [if_pos isUser]

theorem flag_keeps (has : ∃ u ∈ s.table, u.gData = some h) (g : G) :
    ∃ u ∈ (groups.flag s g).table, u.gData = some h := by
  obtain ⟨d, isEntry, isGroup⟩ := has
  refine ⟨_, mem_map_of_mem (getUserData_mem isEntry), ?_⟩
  split_ifs with same
  · rw [user d isEntry h isGroup] at same
    rw [groups.named same]
  · exact isGroup

end

theorem flag_sets (s : Users G) (g : G) : (groups.flag s g).sets = s.sets := getUserData_sets s _

theorem foldl_flag (l : List G)
    (user : ∀ u ∈ s.table, ∀ g, u.gData = some g → u.user = groups.group g) :
    (∀ u ∈ (l.foldl groups.flag s).table, ∀ g, u.gData = some g → u.user = groups.group g) ∧
      (∀ g, g ∈ l ∨ (∃ u ∈ s.table, u.gData = some g) →
        ∃ u ∈ (l.foldl groups.flag s).table, u.gData = some g) ∧
      (l.foldl groups.flag s).sets = s.sets := by
  induction l generalizing s with
  | nil => exact ⟨user, fun g has => has.resolve_left not_mem_nil, rfl⟩
  | cons g rest ih =>
    obtain ⟨users, all, sets⟩ := ih (flag_user user g)
    refine ⟨users, fun h has => all h ?_, sets.trans (flag_sets s g)⟩
    rcases has with mem | has
    · rcases mem_cons.1 mem with rfl | mem
      · exact .inr (flag_own user h)
      · exact .inl mem
    · exact .inr (flag_keeps user has g)

theorem uDataGroupCreate_flagged (groups : UserGroups G) (fresh : Fresh s) :
    Flagged groups (groups.uDataGroupCreate s).table ∧
      (groups.uDataGroupCreate s).sets = s.sets := by
  have none : ∀ u ∈ s.table, ∀ g, u.gData = some g → u.user = groups.group g := by
    intro u mem g isGroup
    rw [fresh.table u mem] at isGroup
    cases isGroup
  obtain ⟨users, all, sets⟩ := foldl_flag groups.usergroups none
  exact ⟨⟨users, fun g => all g (.inl (groups.all g))⟩, sets⟩

theorem sound_of_empty (empty : ∀ n, s.sets n = {}) : Sound groups s := by
  constructor <;> intro n x mem <;> rw [empty n] at mem <;> cases mem

/-- The sets are exact for the groups that are reached from a group whose name does not begin
with `others`; the other groups get no members and are nobody's ancestors. -/
theorem setuDataCreate_exact (groups : UserGroups G) (s : Users G) (fresh : Fresh s)
    (fits : ∀ g, groups.Root g → Fits groups g) :
    ∃ s', groups.setuDataCreate (groups.uDataGroupCreate s) = some s' ∧ groups.Exact s' := by
  obtain ⟨flagged, sets⟩ := uDataGroupCreate_flagged groups fresh
  have start : LoopInv groups (groups.uDataGroupCreate s).table 0 (groups.uDataGroupCreate s) :=
    ⟨⟨[], (append_nil _).symm, nodup_nil, fun u mem => nomatch mem⟩,
      sound_of_empty fun n => by rw [sets, fresh.sets n], fun j lt => absurd lt (Nat.not_lt_zero j)⟩
  obtain ⟨s', j, done, inv, all⟩ := setuDataLoop_spec flagged fits (Nat.zero_add _).ge start
  have complete : ∀ g, groups.Visited g → Complete groups s' g := by
    rintro g ⟨r, root, below⟩
    obtain ⟨u, mem, isGroup⟩ := flagged.all r
    obtain ⟨i, lt, isEntry⟩ := mem_iff_getElem.1 mem
    exact inv.complete i (Nat.lt_of_lt_of_le lt all) u r (List.getElem?_eq_some_iff.2 ⟨lt, isEntry⟩)
      isGroup root g below
  refine ⟨s', done, fun n x => ⟨inv.sound.parents n x, ?_⟩, fun n x =>
    ⟨inv.sound.ancestors n x, ?_⟩, fun g x => ⟨fun mem => ?_, ?_⟩, fun g x => ⟨fun mem => ?_, ?_⟩⟩
  · rintro ⟨g, rfl, visited, direct⟩
    exact (complete g visited).parents n direct
  · rintro ⟨g, rfl, visited, contains⟩
    exact (complete g visited).ancestors n contains
  · obtain ⟨h, same, holds⟩ := inv.sound.children _ x mem
    rwa [groups.named same] at holds
  · rintro ⟨visited, direct⟩
    exact (complete g visited).children x direct
  · obtain ⟨h, same, holds⟩ := inv.sound.descendants _ x mem
    rwa [groups.named same] at holds
  · rintro ⟨visited, contains⟩
    exact (complete g visited).descendants x contains

/-! ### Two groups -/

def twoGroups (name : Name) (other : name ≠ ['g'] ∧ name ≠ ['a'] ∧ name ≠ ['b']) :
    UserGroups Bool where
  usergroups := [false, true]
  group g := if g then ['g'] else name
  memberTab g := if g then [['b']] else [['a']]
  gPtr g := if g then [] else [true]
  all := by decide
  named := by
    intro g h same
    cases g <;> cases h <;> simp_all
  users := by
    intro g h
    cases g <;> cases h <;> simp_all
  explicit := by decide

def noUsers : Users Bool := ⟨[], fun _ => {}⟩

theorem noUsers_fresh : Fresh noUsers := ⟨(fun _ mem => nomatch mem), fun _ => rfl⟩

theorem twoGroups_fits (name : Name) (other : name ≠ ['g'] ∧ name ≠ ['a'] ∧ name ≠ ['b'])
    (g : Bool) :
    Fits (twoGroups name other) g := by
  intro k
  cases k with
  | zero => exact Nat.zero_le _
  | succ k =>
    cases g with
    | true =>
      change 1 ≤ maxGroups
      decide
    | false =>
      have one : chains (twoGroups name other).gPtr k true ≤ 1 := by
        cases k with
        | zero => exact Nat.zero_le _
        | succ k => exact le_rfl
      change 1 + ([true].map (chains (twoGroups name other).gPtr k)).sum ≤ 150
      simp only [map_cons, map_nil, sum_cons, sum_nil]
      omega

theorem setuDataCreate_exact_twoGroups :
    ∃ s', (twoGroups ['t'] (by decide)).setuDataCreate
        ((twoGroups ['t'] (by decide)).uDataGroupCreate noUsers) = some s' ∧
      (twoGroups ['t'] (by decide)).Exact s' :=
  setuDataCreate_exact _ noUsers noUsers_fresh fun g _ => twoGroups_fits _ _ g

/-- A group with a name that begins with `others` has no children. -/
theorem othersGroup_not_exact :
    (∀ g, Fits (twoGroups "others1".toList (by decide)) g) ∧
      (twoGroups "others1".toList (by decide)).Direct false ['a'] ∧
      ∃ s', (twoGroups "others1".toList (by decide)).setuDataCreate
          ((twoGroups "others1".toList (by decide)).uDataGroupCreate noUsers) = some s' ∧
        ['a'] ∉ (s'.sets "others1".toList).children ∧
        ['a'] ∉ (s'.sets "others1".toList).descendants ∧
        "others1".toList ∉ (s'.sets ['a']).ancestors := by
  refine ⟨twoGroups_fits _ _, .inl mem_cons_self, _, rfl, ?_, ?_, ?_⟩
  · decide +kernel
  · decide +kernel
  · decide +kernel

/-! ### The size of the stack -/

/-- The entries of `uStack` in the traversal from a group, whatever is done with them; there are
none where its array is too small. -/
def uStack (gPtr : G → List G) (grp : G) : Option (List (Entry G)) :=
  (walk gPtr maxGroups (fun s _ => s) maxGroups 0 [⟨grp, none⟩] ()).map Prod.fst

/-- The array is large enough exactly if there are no more chains of subgroups from the group. -/
theorem uStack_isSome_iff (gPtr : G → List G) (grp : G) :
    (uStack gPtr grp).isSome ↔ ∀ k, chains gPtr k grp ≤ maxGroups := by
  rw [uStack, Option.isSome_map, walk_isSome_iff (by simp [maxGroups]) (by simp)]
  simp

def layers (g : Fin 15) : List (Fin 15) :=
  let layer := (g.val + 1) / 2
  if layer < 7 then [Fin.ofNat 15 (2 * layer + 1), Fin.ofNat 15 (2 * layer + 2)] else []

/-- Fifteen groups without a cycle need more entries than there are. -/
theorem layers_overflow :
    Fintype.card (Fin 15) ≤ maxGroups ∧ (∀ g, ∀ h ∈ layers g, g < h) ∧ uStack layers 0 = none := by
  refine ⟨by decide, by decide, by decide +kernel⟩

end Jhlava.UGrp
