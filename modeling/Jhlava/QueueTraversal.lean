import Mathlib.Algebra.Order.BigOperators.Group.List
import Mathlib.Algebra.Order.Ring.Nat
import Mathlib.Data.List.Nodup

/-! Walking through a graph with a queue in an array of fixed size, in which the entries stay
when they have been taken. Every occurrence of a node gets an entry behind the one it was found
from. A pass over the entries carries a property down the graph, a pass back carries it up. -/
namespace QueueTraversal
open List

variable {G σ : Type*}

/-- A node and the one whose successor it is. -/
structure Entry (G : Type*) where
  my : G
  parent : Option G
  deriving DecidableEq, Repr

def successors (sub : G → List G) (g : G) : List (Entry G) := (sub g).map fun h => ⟨h, some g⟩

/-- The loop when `cur` entries have been taken and others wait: the entries that are taken from
now on and the state after visiting them. There is none where the array has no room for the
successors of a node. -/
def walk (sub : G → List G) (limit : Nat) (visit : σ → Entry G → σ) :
    Nat → Nat → List (Entry G) → σ → Option (List (Entry G) × σ)
  | _, _, [], s => some ([], s)
  | 0, _, _ :: _, _ => none
  | fuel + 1, cur, e :: wait, s =>
    if cur + 1 + (wait ++ successors sub e.my).length > limit then none
    else (walk sub limit visit fuel (cur + 1) (wait ++ successors sub e.my) (visit s e)).map
      fun r => (e :: r.1, r.2)

abbrev Below (sub : G → List G) : G → G → Prop := Relation.ReflTransGen fun g h => h ∈ sub g

variable {sub : G → List G} {limit fuel cur : Nat} {visit : σ → Entry G → σ}
  {wait l : List (Entry G)} {s s' : σ} {root e : Entry G} {g h : G}

/-! ### The list of entries -/

def Closed (sub : G → List G) (l : List (Entry G)) : Prop :=
  ∀ before e behind, l = before ++ e :: behind → ∀ h ∈ sub e.my, ⟨h, some e.my⟩ ∈ behind

theorem mem_successors (mem : h ∈ sub g) : (⟨h, some g⟩ : Entry G) ∈ successors sub g :=
  mem_map_of_mem mem

/-- The entries taken, one at a time: there is room for the successors of each. -/
theorem walk_induct {motive : Nat → List (Entry G) → σ → List (Entry G) → Prop}
    (nil : ∀ cur, motive cur [] s' [])
    (cons : ∀ cur e wait s rest, cur + 1 + (wait ++ successors sub e.my).length ≤ limit →
      motive (cur + 1) (wait ++ successors sub e.my) (visit s e) rest →
      motive cur (e :: wait) s (e :: rest))
    (done : walk sub limit visit fuel cur wait s = some (l, s')) : motive cur wait s l := by
  induction fuel generalizing cur wait l s with
  | zero =>
    cases wait with
    | nil =>
      cases done
      exact nil cur
    | cons e wait => cases done
  | succ fuel ih =>
    cases wait with
    | nil =>
      cases done
      exact nil cur
    | cons e wait =>
      rw [walk] at done
      split_ifs at done with full
      obtain ⟨⟨rest, s''⟩, isRest, eq⟩ := Option.map_eq_some_iff.1 done
      cases eq
      exact cons cur e wait s rest (not_lt.1 full) (ih isRest)

theorem walk_spec (done : walk sub limit visit fuel cur wait s = some (l, s')) :
    s' = l.foldl visit s ∧ wait <+: l ∧ Closed sub l := by
  refine walk_induct (motive := fun _ wait s l => s' = l.foldl visit s ∧ wait <+: l ∧ Closed sub l)
    (fun _ => ⟨rfl, prefix_rfl, fun before e behind split => by simp at split⟩) ?_ done
  rintro _ e wait s rest - ⟨state, begins, closed⟩
  refine ⟨state, ?_, ?_⟩
  · obtain ⟨more, rfl⟩ := begins
    exact ⟨successors sub e.my ++ more, by simp⟩
  · intro before f behind split k mem
    cases before with
    | nil =>
      obtain ⟨rfl, rfl⟩ := List.cons.inj split
      exact begins.subset (mem_append_right _ (mem_successors mem))
    | cons a before => exact closed before f behind (List.cons.inj split).2 k mem

theorem walk_found (R : G → Prop) (down : ∀ g h, R g → h ∈ sub g → R h)
    (start : ∀ e ∈ wait, R e.my) (done : walk sub limit visit fuel cur wait s = some (l, s')) :
    ∀ e ∈ l, R e.my ∧ (e ∈ wait ∨ ∃ p, e.parent = some p ∧ e.my ∈ sub p ∧ R p) := by
  refine walk_induct (motive := fun _ wait _ l => (∀ e ∈ wait, R e.my) → ∀ e ∈ l, R e.my ∧
    (e ∈ wait ∨ ∃ p, e.parent = some p ∧ e.my ∈ sub p ∧ R p)) (by simp) ?_ done start
  intro _ e wait _ rest _ ih start f mem
  have here := start e mem_cons_self
  have next : ∀ f ∈ wait ++ successors sub e.my, R f.my := by
    intro f mem
    rcases mem_append.1 mem with waits | new
    · exact start f (mem_cons_of_mem _ waits)
    · obtain ⟨k, isSub, rfl⟩ := mem_map.1 new
      exact down e.my k here isSub
  rcases mem_cons.1 mem with rfl | mem
  · exact ⟨here, .inl mem_cons_self⟩
  · obtain ⟨holds, waits | found⟩ := ih next f mem
    · refine ⟨holds, ?_⟩
      rcases mem_append.1 waits with waits | new
      · exact .inl (mem_cons_of_mem _ waits)
      · obtain ⟨k, isSub, rfl⟩ := mem_map.1 new
        exact .inr ⟨e.my, rfl, isSub, here⟩
    · exact ⟨holds, .inr found⟩

variable {before behind : List (Entry G)}

theorem Closed.next (closed : Closed sub l) (split : l = before ++ e :: behind)
    (isSub : h ∈ sub e.my) : ∃ left right, behind = left ++ ⟨h, some e.my⟩ :: right ∧
      l = (before ++ e :: left) ++ ⟨h, some e.my⟩ :: right := by
  obtain ⟨left, right, parts⟩ := append_of_mem (closed before e behind split h isSub)
  exact ⟨left, right, parts, by rw [split, parts, append_assoc, cons_append]⟩

theorem Closed.entry (closed : Closed sub l) (mem : e ∈ l) (below : Below sub e.my h) :
    ∃ f ∈ l, f.my = h := by
  induction below with
  | refl => exact ⟨e, mem, rfl⟩
  | @tail g k _ isSub ih =>
    obtain ⟨f, isEntry, rfl⟩ := ih
    obtain ⟨before, behind, split⟩ := append_of_mem isEntry
    obtain ⟨_, _, -, next⟩ := closed.next split isSub
    exact ⟨⟨k, some f.my⟩, next ▸ mem_append_right _ mem_cons_self, rfl⟩

/-! ### Passes over the entries -/

theorem foldl_keeps {Has : σ → Prop} (keeps : ∀ s e, Has s → Has (visit s e)) (has : Has s) :
    Has (l.foldl visit s) := by
  induction l generalizing s with
  | nil => exact has
  | cons e rest ih => exact ih (keeps s e has)

theorem pass_down (Has : σ → G → Prop) (keeps : ∀ s e g, Has s g → Has (visit s e) g)
    (hands : ∀ s e h, Has s e.my → h ∈ sub e.my → Has (visit s e) h) (closed : Closed sub l)
    (split : l = before ++ e :: behind) (isMy : e.my = g) (has : Has (before.foldl visit s) g)
    (below : Below sub g h) :
    ∃ before' f behind', l = before' ++ f :: behind' ∧ f.my = h ∧
      Has (before'.foldl visit s) h := by
  induction below using Relation.ReflTransGen.head_induction_on generalizing before e behind with
  | refl => exact ⟨before, e, behind, split, isMy, has⟩
  | @head g k isSub _ ih =>
    subst isMy
    obtain ⟨left, right, parts, next⟩ := closed.next split isSub
    have handed : Has ((before ++ e :: left).foldl visit s) k := by
      rw [foldl_append, foldl_cons]
      exact foldl_keeps (fun s e => keeps s e k) (hands _ e k has isSub)
    exact ih next rfl handed

theorem pass_up (Has : σ → G → Prop) (keeps : ∀ s e g, Has s g → Has (visit s e) g)
    (hands : ∀ s e p, e.parent = some p → Has s e.my → Has (visit s e) p) (closed : Closed sub l)
    (split : l = before ++ e :: behind) (isMy : e.my = g) (below : Below sub g h) (has : Has s h) :
    Has (behind.reverse.foldl visit s) g := by
  induction below using Relation.ReflTransGen.head_induction_on generalizing before e behind with
  | refl => exact foldl_keeps (fun s e => keeps s e h) has
  | @head g k isSub _ ih =>
    subst isMy
    obtain ⟨left, right, parts, next⟩ := closed.next split isSub
    have reached : Has (right.reverse.foldl visit s) k := ih next rfl
    rw [parts, reverse_append, reverse_cons, foldl_append, foldl_append]
    exact foldl_keeps (fun s f => keeps s f e.my) (hands _ ⟨k, some e.my⟩ e.my rfl reached)

/-! ### Room in the array -/

def chains (sub : G → List G) : Nat → G → Nat
  | 0, _ => 0
  | k + 1, g => 1 + ((sub g).map (chains sub k)).sum

theorem chains_stable (sub : G → List G) (k : Nat) (g : G) :
    k ≤ chains sub k g ∨ chains sub (k + 1) g = chains sub k g := by
  induction k generalizing g with
  | zero => exact .inl (Nat.zero_le _)
  | succ k ih =>
    by_cases long : ∃ h ∈ sub g, k ≤ chains sub k h
    · obtain ⟨h, mem, le⟩ := long
      have part := le_sum_of_mem (mem_map_of_mem (f := chains sub k) mem)
      rw [chains]
      omega
    · refine .inr ?_
      rw [chains]
      congr 2
      refine map_congr_left fun h mem => ?_
      exact (ih h).resolve_left fun le => long ⟨h, mem, le⟩

theorem walk_isSome (room : cur + (wait.map fun e => chains sub (limit + 1) e.my).sum ≤ limit)
    (enough : (wait.map fun e => chains sub (limit + 1) e.my).sum ≤ fuel) :
    (walk sub limit visit fuel cur wait s).isSome := by
  induction fuel generalizing cur wait s with
  | zero =>
    cases wait with
    | nil => rfl
    | cons e wait =>
      rw [map_cons, sum_cons, chains] at enough
      omega
  | succ fuel ih =>
    cases wait with
    | nil => rfl
    | cons e wait =>
      rw [map_cons, sum_cons] at room enough
      have split : chains sub (limit + 1) e.my =
          1 + ((successors sub e.my).map fun e => chains sub (limit + 1) e.my).sum := by
        have stable := (chains_stable sub (limit + 1) e.my).resolve_left (by omega)
        rw [← stable, successors, map_map]
        rfl
      have sum : ((wait ++ successors sub e.my).map fun e => chains sub (limit + 1) e.my).sum =
          (wait.map fun e => chains sub (limit + 1) e.my).sum +
            ((successors sub e.my).map fun e => chains sub (limit + 1) e.my).sum := by
        rw [map_append, sum_append]
      have length : (wait ++ successors sub e.my).length ≤
          ((wait ++ successors sub e.my).map fun e => chains sub (limit + 1) e.my).sum := by
        have each := card_nsmul_le_sum
          ((wait ++ successors sub e.my).map fun e => chains sub (limit + 1) e.my) 1 ?_
        · simpa using each
        · intro n mem
          obtain ⟨f, -, rfl⟩ := mem_map.1 mem
          rw [chains]
          omega
      rw [walk, if_neg (by omega), Option.isSome_map]
      exact ih (by omega) (by omega)

theorem chains_mono (sub : G → List G) (k : Nat) (g : G) :
    chains sub k g ≤ chains sub (k + 1) g := by
  induction k generalizing g with
  | zero => exact Nat.zero_le _
  | succ k ih =>
    exact Nat.add_le_add_left (sum_le_sum fun h _ => ih h) 1

theorem walk_room (done : walk sub limit visit fuel cur wait s = some (l, s'))
    (start : cur + wait.length ≤ limit) : cur + l.length ≤ limit := by
  refine walk_induct (motive := fun cur wait _ l => cur + wait.length ≤ limit →
    cur + l.length ≤ limit) (fun _ => id) ?_ done start
  intro cur e wait _ rest fits ih _
  have room := ih fits
  rw [length_cons]
  omega

theorem chains_le_length (done : walk sub limit visit fuel cur wait s = some (l, s')) (k : Nat) :
    (wait.map fun e => chains sub k e.my).sum ≤ l.length := by
  refine walk_induct (motive := fun _ wait _ l =>
    (wait.map fun e => chains sub k e.my).sum ≤ l.length) (fun _ => Nat.zero_le _) ?_ done
  intro _ e wait _ rest _ later
  rw [map_append, sum_append] at later
  have split : chains sub k e.my ≤
      1 + ((successors sub e.my).map fun e => chains sub k e.my).sum := by
    rw [successors, map_map]
    cases k with
    | zero => exact Nat.zero_le _
    | succ k => exact Nat.add_le_add_left (sum_le_sum fun h _ => chains_mono sub k h) 1
  simp only [map_cons, sum_cons, length_cons]
  omega

theorem walk_isSome_iff (start : cur + wait.length ≤ limit) (enough : limit ≤ cur + fuel) :
    (walk sub limit visit fuel cur wait s).isSome ↔
      ∀ k, cur + (wait.map fun e => chains sub k e.my).sum ≤ limit := by
  constructor
  · intro isSome k
    obtain ⟨⟨l, s'⟩, done⟩ := Option.isSome_iff_exists.1 isSome
    have room := walk_room done start
    have each := chains_le_length done k
    omega
  · intro room
    have all := room (limit + 1)
    exact walk_isSome all (by omega)

end QueueTraversal
