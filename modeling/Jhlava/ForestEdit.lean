import Jhlava.SiblingForest

/-! Changes of a forest: nodes are found in post-order or on the first level, unlinked from the
first level and inserted as last children. A forest is described by its rows, the nodes each with
the data of its children. -/
namespace SiblingForest.Forest
open List

variable {α β : Type*}

def postOrder : Forest α → List α
  | nil => []
  | node d children next => children.postOrder ++ d :: next.postOrder

def rows : Forest α → List (α × List α)
  | nil => []
  | node d children next => (d, children.tops.map Prod.fst) :: (children.rows ++ next.rows)

def append : Forest α → Forest α → Forest α
  | nil, s => s
  | node d children next, s => node d children (next.append s)

/-- The nodes `s` as last children of the nodes that are looked for. -/
def insertUnder (p : α → Bool) : Forest α → Forest α → Forest α
  | nil, _ => nil
  | node d children next, s =>
    node d
      (if p d then (children.insertUnder p s).append s else children.insertUnder p s)
      (next.insertUnder p s)

def unlink (p : α → Bool) : Forest α → Forest α
  | nil => nil
  | node d children next => if p d then next else node d children (next.unlink p)

variable {p : α → Bool} {s t : Forest α}

@[simp] theorem tops_append (t s : Forest α) : (t.append s).tops = t.tops ++ s.tops := by
  induction t with
  | nil => rfl
  | node d children next _ beside => rw [append, tops, tops, beside, cons_append]

@[simp] theorem rows_append (t s : Forest α) : (t.append s).rows = t.rows ++ s.rows := by
  induction t with
  | nil => rfl
  | node d children next _ beside =>
    rw [append, rows, rows, beside, cons_append, append_assoc]

theorem tops_eq_nil : t.tops = [] ↔ t = nil := by
  cases t <;> simp [tops]

theorem mem_postOrder {d : α} : d ∈ t.postOrder ↔ ∃ r ∈ t.rows, r.1 = d := by
  induction t with
  | nil => simp [postOrder, rows]
  | node a children next below beside =>
    simp only [postOrder, rows, mem_append, mem_cons, below, beside, or_and_right,
      exists_or, exists_eq_left, @eq_comm _ d a]
    exact or_left_comm

theorem all_iff_rows {Q : α → List α → Prop} :
    (t.All fun d children => Q d (children.tops.map Prod.fst)) ↔ ∀ r ∈ t.rows, Q r.1 r.2 := by
  induction t with
  | nil => simp [All, rows]
  | node d children next below beside =>
    rw [All, below, beside, rows, forall_mem_cons, forall_mem_append]

theorem mem_rows_cases {r : α × List α} (mem : r ∈ t.rows) :
    r.1 ∈ t.tops.map Prod.fst ∨ ∃ r' ∈ t.rows, r.1 ∈ r'.2 := by
  induction t with
  | nil => cases mem
  | node d children next below beside =>
    rw [rows] at mem ⊢
    rcases mem_cons.mp mem with rfl | mem
    · exact .inl (by simp [tops])
    rcases mem_append.mp mem with mem | mem
    · rcases below mem with top | ⟨r', mem', kid⟩
      · exact .inr ⟨_, mem_cons_self, top⟩
      · exact .inr ⟨r', by simp [mem'], kid⟩
    · rcases beside mem with top | ⟨r', mem', kid⟩
      · exact .inl (mem_cons_of_mem _ top)
      · exact .inr ⟨r', by simp [mem'], kid⟩

theorem all_of_rows {R : α × List α → Prop} (all : ∀ r ∈ t.rows, R r) :
    t.All fun d children => R (d, children.tops.map Prod.fst) ∧ ∀ r ∈ children.rows, R r := by
  induction t with
  | nil => trivial
  | node d children next below beside =>
    rw [rows, forall_mem_cons, forall_mem_append] at all
    exact ⟨⟨all.1, all.2.1⟩, below all.2.1, beside all.2.2⟩

def hits (p : α → Bool) (t : Forest α) : Nat := t.rows.countP fun r => p r.1

theorem hits_node (d : α) (children next : Forest α) :
    (node d children next).hits p = (children.hits p + next.hits p) + if p d then 1 else 0 := by
  rw [hits, rows, countP_cons, countP_append]
  rfl

theorem insertUnder_of_hits_zero (none_ : t.hits p = 0) : t.insertUnder p s = t := by
  induction t with
  | nil => rfl
  | node d children next below beside =>
    rw [hits_node] at none_
    by_cases here : p d = true
    · simp [here] at none_
    · simp only [here, Bool.false_eq_true, if_false, Nat.add_zero, Nat.add_eq_zero_iff] at none_
      rw [insertUnder, if_neg here, below none_.1, beside none_.2]

theorem tops_insertUnder : (t.insertUnder p s).tops.map Prod.fst = t.tops.map Prod.fst := by
  induction t with
  | nil => rfl
  | node d children next _ beside =>
    rw [insertUnder, tops, tops, map_cons, map_cons, beside]

def grow (p : α → Bool) (new : List α) (r : α × List α) : α × List α :=
  (r.1, if p r.1 then r.2 ++ new else r.2)

theorem map_grow_of_hits_zero {new : List α} (none_ : t.hits p = 0) :
    t.rows.map (grow p new) = t.rows := by
  refine (map_congr_left fun r mem => ?_).trans t.rows.map_id
  rw [grow, if_neg (countP_eq_zero.mp none_ r mem)]
  rfl

theorem rows_insertUnder (one : t.hits p = 1) :
    (t.insertUnder p s).rows.Perm (t.rows.map (grow p (s.tops.map Prod.fst)) ++ s.rows) := by
  induction t with
  | nil => cases one
  | node d children next below beside =>
    rw [hits_node] at one
    rw [insertUnder, rows, rows, map_cons, map_append, cons_append, grow]
    by_cases here : p d = true
    · simp only [here, if_true, Nat.add_eq_right, Nat.add_eq_zero_iff] at one ⊢
      rw [insertUnder_of_hits_zero one.1, insertUnder_of_hits_zero one.2, tops_append,
        rows_append, map_grow_of_hits_zero one.1, map_grow_of_hits_zero one.2, map_append]
      refine List.Perm.cons _ ?_
      rw [append_assoc, append_assoc]
      exact perm_append_comm.append_left _
    · simp only [here, Bool.false_eq_true, if_false, Nat.add_zero] at one ⊢
      rw [tops_insertUnder]
      refine List.Perm.cons _ ?_
      rcases Nat.add_eq_one_iff.mp one with ⟨none_, one⟩ | ⟨one, none_⟩
      · rw [insertUnder_of_hits_zero none_, map_grow_of_hits_zero none_, append_assoc]
        exact (beside one).append_left _
      · rw [insertUnder_of_hits_zero none_, map_grow_of_hits_zero none_]
        refine ((below one).append_right _).trans ?_
        rw [append_assoc, append_assoc]
        exact perm_append_comm.append_left _

theorem rows_unlink {x : α × Forest α} (found : t.tops.find? (fun x => p x.1) = some x) :
    t.rows.Perm ((node x.1 x.2 nil).rows ++ (t.unlink p).rows) := by
  induction t with
  | nil => cases found
  | node d children next _ beside =>
    rw [tops, List.find?_cons] at found
    rw [unlink]
    by_cases here : p d = true
    · simp only [here, Option.some.injEq] at found
      subst found
      rw [if_pos here, rows, rows, rows, append_nil, cons_append]
    · simp only [here] at found
      have others := @List.perm_append_comm _ ((d, children.tops.map Prod.fst) :: children.rows)
        (node x.1 x.2 nil).rows
      rw [if_neg here]
      calc (node d children next).rows
          = (d, children.tops.map Prod.fst) :: children.rows ++ next.rows := rfl
        _ |>.Perm ((d, children.tops.map Prod.fst) :: children.rows ++
              ((node x.1 x.2 nil).rows ++ (next.unlink p).rows)) :=
            (beside found).append_left _
        _ |>.Perm ((node x.1 x.2 nil).rows ++ (node d children (next.unlink p)).rows) := by
            rw [← append_assoc]
            refine (others.append_right _).trans ?_
            rw [append_assoc]
            rfl

theorem tops_unlink : (t.unlink p).tops = t.tops.eraseP fun x => p x.1 := by
  induction t with
  | nil => rfl
  | node d children next _ beside =>
    rw [unlink, tops]
    by_cases here : p d = true
    · simp [here]
    · rw [if_neg here, tops, beside]
      simp [here]

theorem leaves_node (d : α) (children next : Forest α) :
    (node d children next).leaves =
      (if children.isNil then [d] else children.leaves) ++ next.leaves := by
  cases children <;> rfl

theorem rows_map (f : α → β) (t : Forest α) :
    (t.map fun _ => f).rows = t.rows.map fun r => (f r.1, r.2.map f) := by
  have tops : ∀ t : Forest α,
      (t.map fun _ => f).tops.map Prod.fst = (t.tops.map Prod.fst).map f := by
    intro t
    induction t with
    | nil => rfl
    | node d children next _ beside => simp [map, Forest.tops, beside]
  induction t with
  | nil => rfl
  | node d children next below beside =>
    rw [map, rows, rows, map_cons, map_append, below, beside, tops]

variable {P : α → Prop}

theorem All.append (first : t.All fun d _ => P d) (second : s.All fun d _ => P d) :
    (t.append s).All fun d _ => P d := by
  induction t with
  | nil => exact second
  | node d children next _ beside => exact ⟨first.1, first.2.1, beside first.2.2⟩

theorem All.insertUnder (first : t.All fun d _ => P d) (second : s.All fun d _ => P d) :
    (t.insertUnder p s).All fun d _ => P d := by
  induction t with
  | nil => trivial
  | node d children next below beside =>
    refine ⟨first.1, ?_, beside first.2.2⟩
    split
    · exact All.append (below first.2.1) second
    · exact below first.2.1

theorem All.unlink (all : t.All fun d _ => P d) : (t.unlink p).All fun d _ => P d := by
  induction t with
  | nil => trivial
  | node d children next _ beside =>
    rw [Forest.unlink]
    split
    · exact all.2.2
    · exact ⟨all.1, all.2.1, beside all.2.2⟩

end SiblingForest.Forest
