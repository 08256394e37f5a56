import Mathlib.Algebra.Order.Ring.Rat

/-! Ordered trees in the form that a C program keeps them in: every node has a pointer to its
first child and one to its next sibling. A descent goes from the first of the nodes with the
greatest key to its children, until it is at a leaf. -/
namespace SiblingForest
open List

/-- A pointer to a node: its data, its first child and its next sibling. -/
inductive Forest (α : Type*) where
  | nil
  | node (data : α) (children next : Forest α)
  deriving DecidableEq, Repr

variable {α β κ : Type*}

namespace Forest

def isNil : Forest α → Bool
  | nil => true
  | node _ _ _ => false

def tops : Forest α → List (α × Forest α)
  | nil => []
  | node d children next => (d, children) :: next.tops

def leaves : Forest α → List α
  | nil => []
  | node d nil next => d :: next.leaves
  | node _ (node d children next) next' => (node d children next).leaves ++ next'.leaves

def depth : Forest α → Nat
  | nil => 0
  | node _ children next => max (children.depth + 1) next.depth

def map (f : Bool → α → β) : Forest α → Forest β
  | nil => nil
  | node d children next => node (f children.isNil d) (children.map f) (next.map f)

/-- `P` holds of every node with its children. -/
def All (P : α → Forest α → Prop) : Forest α → Prop
  | nil => True
  | node d children next => P d children ∧ children.All P ∧ next.All P

instance decidableAll (P : α → Forest α → Prop) [∀ d children, Decidable (P d children)] :
    ∀ t : Forest α, Decidable (t.All P)
  | nil => isTrue trivial
  | node d children next =>
    have := decidableAll P children
    have := decidableAll P next
    inferInstanceAs (Decidable (P d children ∧ children.All P ∧ next.All P))

def ofList : List α → Forest α
  | [] => nil
  | d :: rest => node d nil (ofList rest)

variable {P Q : α → Forest α → Prop} {t : Forest α} {x : α × Forest α} {d : α}

@[simp] theorem isNil_iff : t.isNil = true ↔ t = nil := by
  cases t <;> simp [isNil]

@[simp] theorem isNil_map (f : Bool → α → β) (t : Forest α) : (t.map f).isNil = t.isNil := by
  cases t <;> rfl

theorem All.and (first : t.All P) (second : t.All Q) :
    t.All fun d children => P d children ∧ Q d children := by
  induction t with
  | nil => trivial
  | node d children next below beside =>
    exact ⟨⟨first.1, second.1⟩, below first.2.1 second.2.1, beside first.2.2 second.2.2⟩

theorem mem_leaves_iff :
    d ∈ t.leaves ↔ (d, nil) ∈ t.tops ∨ ∃ x ∈ t.tops, x.2 ≠ nil ∧ d ∈ x.2.leaves := by
  induction t with
  | nil => simp [leaves, tops]
  | node a children next _ beside =>
    cases children with
    | nil => simp [leaves, tops, beside, or_assoc]
    | node b below next' => simp [leaves, tops, beside, or_left_comm]

section

variable (all : t.All P)
include all

theorem All.mono (imp : ∀ d children, P d children → Q d children) : t.All Q := by
  induction t with
  | nil => trivial
  | node d children next below beside =>
    exact ⟨imp d children all.1, below all.2.1, beside all.2.2⟩

theorem All.map {f : Bool → α → β} {R : β → Forest β → Prop}
    (step : ∀ d children, P d children → R (f children.isNil d) (children.map f)) :
    (t.map f).All R := by
  induction t with
  | nil => trivial
  | node d children next below beside =>
    exact ⟨step d children all.1, below all.2.1, beside all.2.2⟩

theorem All.top (top : x ∈ t.tops) : P x.1 x.2 ∧ x.2.All P := by
  induction t with
  | nil => cases top
  | node d children next _ beside =>
    rcases mem_cons.1 top with rfl | top
    · exact ⟨all.1, all.2.1⟩
    · exact beside all.2.2 top

theorem All.leaf (leaf : d ∈ t.leaves) : P d nil := by
  induction t with
  | nil => cases leaf
  | node a children next below beside =>
    cases children with
    | nil =>
      rcases mem_cons.1 leaf with rfl | leaf
      · exact all.1
      · exact beside all.2.2 leaf
    | node b children' next' =>
      rcases mem_append.1 leaf with leaf | leaf
      · exact below all.2.1 leaf
      · exact beside all.2.2 leaf

theorem All.deep : t.All fun d children => P d children ∧ children.All P := by
  induction t with
  | nil => trivial
  | node d children next below beside =>
    exact ⟨⟨all.1, all.2.1⟩, below all.2.1, beside all.2.2⟩

end

theorem all_of_leaves {p : α → Prop} (leaves : ∀ d ∈ t.leaves, p d) :
    t.All fun d children => children = nil → p d := by
  induction t with
  | nil => trivial
  | node a children next below beside =>
    cases children with
    | nil =>
      refine ⟨fun _ => leaves a mem_cons_self, trivial, beside fun d leaf => ?_⟩
      exact leaves d (mem_cons_of_mem _ leaf)
    | node b children' next' =>
      refine ⟨(fun leaf => nomatch leaf), below fun d leaf => ?_, beside fun d leaf => ?_⟩
      · exact leaves d (mem_append_left _ leaf)
      · exact leaves d (mem_append_right _ leaf)

theorem leaves_map (f : Bool → α → β) (t : Forest α) :
    (t.map f).leaves = t.leaves.map (f true) := by
  induction t with
  | nil => rfl
  | node d children next below beside =>
    cases children with
    | nil => simp [map, leaves, beside, isNil]
    | node b children' next' =>
      have split : (map f (node d (node b children' next') next)).leaves =
          (map f (node b children' next')).leaves ++ (map f next).leaves := rfl
      rw [split, below, beside, ← map_append]
      rfl

theorem leaves_ofList (l : List α) : (ofList l).leaves = l := by
  induction l with
  | nil => rfl
  | cons d rest ih => rw [ofList, leaves, ih]

theorem all_ofList {l : List α} (all : ∀ d ∈ l, P d nil) : (ofList l).All P := by
  induction l with
  | nil => trivial
  | cons d rest ih =>
    exact ⟨all d mem_cons_self, trivial, ih fun d mem => all d (mem_cons_of_mem _ mem)⟩

theorem depth_top (top : x ∈ t.tops) : x.2.depth < t.depth := by
  induction t with
  | nil => cases top
  | node d children next _ beside =>
    rw [depth]
    rcases mem_cons.1 top with rfl | top
    · exact Nat.lt_of_lt_of_le (Nat.lt_succ_self _) (Nat.le_max_left _ _)
    · have := beside top
      omega

end Forest

/-! ### Descent -/

section Descent
variable [LinearOrder κ] (key : α → κ)

/-- The first of the nodes with the greatest key, starting from `winner`. -/
def strongest (winner : α × Forest α) : Forest α → α × Forest α
  | .nil => winner
  | .node d children next =>
    strongest (if key d > key winner.1 then (d, children) else winner) next

/-- `none` is also the result if there are more levels than `fuel`. -/
def descend : Nat → Option α → Forest α → Option α
  | _, winner, .nil => winner
  | 0, _, .node _ _ _ => none
  | fuel + 1, _, .node d children next =>
    descend fuel (some (strongest key (d, children) next).1) (strongest key (d, children) next).2

theorem strongest_mem (winner : α × Forest α) (t : Forest α) :
    strongest key winner t = winner ∨ strongest key winner t ∈ t.tops := by
  induction t generalizing winner with
  | nil => exact .inl rfl
  | node d children next _ beside =>
    rw [strongest]
    rcases beside (if key d > key winner.1 then (d, children) else winner) with same | top
    · rw [same]
      split_ifs
      · exact .inr mem_cons_self
      · exact .inl rfl
    · exact .inr (mem_cons_of_mem _ top)

theorem strongest_ge (winner : α × Forest α) (t : Forest α) :
    key winner.1 ≤ key (strongest key winner t).1 ∧
    ∀ x ∈ t.tops, key x.1 ≤ key (strongest key winner t).1 := by
  induction t generalizing winner with
  | nil => exact ⟨le_refl _, fun x top => by cases top⟩
  | node d children next _ beside =>
    obtain ⟨own, others⟩ := beside (if key d > key winner.1 then (d, children) else winner)
    have both : key winner.1 ≤ key (if key d > key winner.1 then (d, children) else winner).1 ∧
        key d ≤ key (if key d > key winner.1 then (d, children) else winner).1 := by
      split_ifs with more
      · exact ⟨le_of_lt more, le_refl _⟩
      · exact ⟨le_refl _, le_of_not_gt more⟩
    refine ⟨le_trans both.1 own, fun x top => ?_⟩
    rcases mem_cons.1 top with rfl | top
    · exact le_trans both.2 own
    · exact others x top

variable {key} {t : Forest α} {bound : κ}

/-- Where every node with a key above the bound is a leaf or has such a child, a descent that
starts with such a node ends at such a leaf. -/
theorem descend_above (fuel : Nat) (start : Option α)
    (passes : t.All fun d children => bound < key d →
      children = .nil ∨ ∃ x ∈ children.tops, bound < key x.1)
    (top : ∃ x ∈ t.tops, bound < key x.1) (enough : t.depth ≤ fuel) :
    ∃ d ∈ t.leaves, descend key fuel start t = some d ∧ bound < key d := by
  induction fuel generalizing t start with
  | zero =>
    obtain ⟨x, top, -⟩ := top
    have := Forest.depth_top top
    omega
  | succ fuel ih =>
    cases t with
    | nil =>
      obtain ⟨x, top, -⟩ := top
      cases top
    | node d children next =>
      rw [descend]
      -- the winner has a key above the bound, since one of its siblings has
      have isTop : strongest key (d, children) next ∈ (Forest.node d children next).tops := by
        rcases strongest_mem key (d, children) next with same | top
        · rw [same]
          exact mem_cons_self
        · exact mem_cons_of_mem _ top
      have above : bound < key (strongest key (d, children) next).1 := by
        obtain ⟨own, others⟩ := strongest_ge key (d, children) next
        obtain ⟨x, top, above⟩ := top
        rcases mem_cons.1 top with rfl | top
        · exact lt_of_lt_of_le above own
        · exact lt_of_lt_of_le above (others x top)
      generalize strongest key (d, children) next = best at isTop above
      obtain ⟨pass, below⟩ := passes.top isTop
      rcases pass above with leaf | child
      · refine ⟨best.1, Forest.mem_leaves_iff.2 (.inl ?_), ?_, above⟩
        · rw [← leaf]
          exact isTop
        · rw [leaf]
          cases fuel <;> rfl
      · have := Forest.depth_top isTop
        obtain ⟨l, isLeaf, found, aboveLeaf⟩ := ih (some best.1) below child (by omega)
        refine ⟨l, Forest.mem_leaves_iff.2 (.inr ⟨best, isTop, ?_, isLeaf⟩), found, aboveLeaf⟩
        intro leaf
        rw [leaf] at isLeaf
        cases isLeaf

end Descent

end SiblingForest
