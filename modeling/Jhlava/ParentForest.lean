import Mathlib.Algebra.Order.Ring.Rat

/-! Forests given by parent pointers. The path of a node is the list of nodes met on
the way to its root; it is what a loop that follows the pointers goes through. -/
namespace ParentForest
open List Function

variable {α : Type*}

def up (parent : α → Option α) : Nat → Option α → List α
  | 0, _ => []
  | _ + 1, none => []
  | fuel + 1, some a => a :: up parent fuel (parent a)

/-- A path that ends at a root. -/
inductive Path (parent : α → Option α) : Option α → List α → Prop
  | root : Path parent none []
  | step {a : α} {rest : List α} : Path parent (parent a) rest → Path parent (some a) (a :: rest)

variable {parent parent' : α → Option α} {o : Option α} {a b c p : α} {xs ys : List α}

section

variable (h : Path parent o xs)
include h

theorem Path.unique (h' : Path parent o ys) : xs = ys := by
  induction h generalizing ys with
  | root =>
    cases h'
    rfl
  | step _ ih =>
    cases h' with
    | step h' => rw [ih h']

theorem Path.split (mem : a ∈ xs) :
    ∃ before after, xs = before ++ a :: after ∧ a ∉ before ∧ Path parent (some a) (a :: after) := by
  induction h with
  | root => exact absurd mem not_mem_nil
  | @step b rest path ih =>
    by_cases eq : a = b
    · subst eq
      exact ⟨[], rest, rfl, not_mem_nil, path.step⟩
    · obtain ⟨before, after, split, notIn, tail⟩ := ih ((mem_cons.mp mem).resolve_left eq)
      refine ⟨b :: before, after, by rw [split, cons_append], ?_, tail⟩
      exact fun hm => (mem_cons.mp hm).elim eq notIn

theorem Path.nodup : xs.Nodup := by
  induction h with
  | root => exact nodup_nil
  | @step a rest path ih =>
    refine nodup_cons.mpr ⟨fun mem => ?_, ih⟩
    -- a second visit would give the node a shorter path
    obtain ⟨before, after, split, -, tail⟩ := path.split mem
    have same : a :: after = a :: rest := tail.unique path.step
    have len := congrArg List.length same
    rw [split] at len
    simp at len
    omega

theorem Path.up_eq {fuel : Nat} (enough : xs.length ≤ fuel) : up parent fuel o = xs := by
  induction h generalizing fuel with
  | root => cases fuel <;> rfl
  | step _ ih =>
    obtain ⟨fuel, rfl⟩ := Nat.exists_eq_succ_of_ne_zero
      (Nat.ne_of_gt (Nat.lt_of_lt_of_le (Nat.succ_pos _) enough))
    rw [up, ih (Nat.le_of_succ_le_succ enough)]

theorem Path.congr (same : ∀ a ∈ xs, parent' a = parent a) : Path parent' o xs := by
  induction h with
  | root => exact .root
  | @step a rest path ih =>
    have tail := ih fun b hb => same b (mem_cons_of_mem _ hb)
    refine .step ?_
    rw [same a mem_cons_self]
    exact tail

end

theorem Path.eq_or_parent (h : Path parent (some b) xs) (mem : a ∈ xs) :
    a = b ∨ ∃ c ∈ xs, parent c = some a := by
  generalize start : some b = o at h
  induction h generalizing b with
  | root => exact absurd mem not_mem_nil
  | @step c rest path ih =>
    obtain rfl := Option.some.inj start
    rcases mem_cons.mp mem with rfl | later
    · exact Or.inl rfl
    · right
      cases next : parent b with
      | none =>
        rw [next] at path
        cases path
        exact absurd later not_mem_nil
      | some d =>
        rcases ih later next.symm with rfl | ⟨c, hc, eq⟩
        · exact ⟨b, mem_cons_self, next⟩
        · exact ⟨c, mem_cons_of_mem _ hc, eq⟩

theorem Path.root_mem (h : Path parent o xs) (mem : c ∈ xs) (root : parent c = none)
    (other : a ∈ xs) (path : Path parent (some a) ys) : c ∈ ys := by
  induction h with
  | root => exact absurd mem not_mem_nil
  | @step b rest tail ih =>
    rcases mem_cons.mp other with rfl | later
    · rw [path.unique tail.step]
      exact mem
    · rcases mem_cons.mp mem with rfl | mem
      · rw [root] at tail
        cases tail
        exact absurd later not_mem_nil
      · exact ih mem later

theorem Path.subset (h : Path parent o xs) (mem : a ∈ xs) (path : Path parent (some a) ys) :
    ys ⊆ xs := by
  obtain ⟨before, after, split, -, tail⟩ := h.split mem
  rw [path.unique tail, split]
  exact subset_append_right _ _

section Change

variable [DecidableEq α]

theorem Path.link (h : Path parent o xs) (mem : c ∈ xs) (root : parent c = none)
    (target : Path parent (some p) ys) (apart : c ∉ ys) :
    Path (Function.update parent c (some p)) o (xs ++ ys) := by
  have target' : Path (Function.update parent c (some p)) (some p) ys :=
    target.congr fun b hb => update_of_ne (ne_of_mem_of_not_mem hb apart) _ _
  induction h with
  | root => exact absurd mem not_mem_nil
  | @step a rest path ih =>
    refine .step ?_
    by_cases eq : a = c
    · subst eq
      rw [root] at path
      cases path
      rw [update_self]
      exact target'
    · rw [update_of_ne eq]
      exact ih ((mem_cons.mp mem).resolve_left (Ne.symm eq))

theorem Path.link_other (h : Path parent o xs) (notIn : c ∉ xs) (q : Option α) :
    Path (Function.update parent c q) o xs :=
  h.congr fun _ hb => update_of_ne (ne_of_mem_of_not_mem hb notIn) _ _

theorem Path.cut (h : Path parent o (xs ++ c :: ys)) (first : c ∉ xs) :
    Path (Function.update parent c none) o (xs ++ [c]) := by
  induction xs generalizing o with
  | nil =>
    cases h
    refine .step ?_
    rw [update_self]
    exact .root
  | cons a xs ih =>
    cases h with
    | step tail =>
      obtain ⟨ne, first⟩ := not_or.mp fun hm => first (mem_cons.mpr hm)
      refine .step ?_
      rw [update_of_ne (Ne.symm ne)]
      exact ih tail first

end Change

end ParentForest
