import Mathlib.Algebra.Order.Ring.Rat
import Mathlib.Data.List.Induction
import Mathlib.Data.List.Nodup

/-! Circular doubly linked lists in a memory of forward and backward pointers.
A ring has a head that is no element; its elements are met in order by going
backwards from the head. Several rings may share the memory. -/
namespace LinkedRing
open List Function

variable {α : Type*}

structure Links (α : Type*) where
  fw : α → α
  bw : α → α

/-- Going backwards from `a` one meets `xs` and then `b`, and forwards the way back. -/
def Linked (m : Links α) : α → List α → α → Prop
  | a, [], b => m.bw a = b ∧ m.fw b = a
  | a, x :: xs, b => (m.bw a = x ∧ m.fw x = a) ∧ Linked m x xs b

variable {m m' : Links α} {a b e h : α} {xs ys : List α}

theorem Linked.congr (link : Linked m a xs b) (bw : ∀ x ∈ a :: xs, m'.bw x = m.bw x)
    (fw : ∀ x ∈ xs ++ [b], m'.fw x = m.fw x) : Linked m' a xs b := by
  induction xs generalizing a with
  | nil =>
    refine ⟨?_, ?_⟩
    · rw [bw a mem_cons_self]
      exact link.1
    · rw [fw b mem_cons_self]
      exact link.2
  | cons x xs ih =>
    refine ⟨⟨?_, ?_⟩, ih link.2 ?_ ?_⟩
    · rw [bw a mem_cons_self]
      exact link.1.1
    · rw [fw x mem_cons_self]
      exact link.1.2
    · intro y hy
      exact bw y (mem_cons_of_mem _ hy)
    · intro y hy
      exact fw y (mem_cons_of_mem _ hy)

theorem Linked.split (link : Linked m a (xs ++ e :: ys) b) : Linked m a xs e ∧ Linked m e ys b := by
  induction xs generalizing a with
  | nil => exact link
  | cons x xs ih => exact ⟨⟨link.1, (ih link.2).1⟩, (ih link.2).2⟩

theorem Linked.join (before : Linked m a xs e) (after : Linked m e ys b) :
    Linked m a (xs ++ e :: ys) b := by
  induction xs generalizing a with
  | nil => exact ⟨before, after⟩
  | cons x xs ih => exact ⟨before.1, ih before.2⟩

theorem Linked.last (link : Linked m a xs b) : m.fw b ∈ a :: xs ∧ m.bw (m.fw b) = b := by
  induction xs generalizing a with
  | nil => exact ⟨by rw [link.2]; exact mem_cons_self, by rw [link.2]; exact link.1⟩
  | cons x xs ih => exact ⟨mem_cons_of_mem _ (ih link.2).1, (ih link.2).2⟩

theorem Linked.first (link : Linked m a xs b) : m.bw a ∈ xs ++ [b] ∧ m.fw (m.bw a) = a := by
  cases xs with
  | nil => exact ⟨by rw [link.1]; exact mem_cons_self, by rw [link.1]; exact link.2⟩
  | cons x xs =>
    exact ⟨by rw [link.1.1]; exact mem_cons_self, by rw [link.1.1]; exact link.1.2⟩

/-- A ring with its head and its elements. -/
structure Ring (m : Links α) (h : α) (xs : List α) : Prop where
  linked : Linked m h xs h
  nodup : (h :: xs).Nodup

theorem Ring.congr (ring : Ring m h xs)
    (same : ∀ x ∈ h :: xs, m'.bw x = m.bw x ∧ m'.fw x = m.fw x) :
    Ring m' h xs := by
  refine ⟨ring.linked.congr (fun x hx => (same x hx).1) fun x hx => (same x ?_).2, ring.nodup⟩
  rcases mem_append.mp hx with hx | hx
  · exact mem_cons_of_mem _ hx
  · rw [mem_singleton.mp hx]
    exact mem_cons_self

theorem Ring.rotate (ring : Ring m h (xs ++ e :: ys)) : Ring m e (ys ++ h :: xs) := by
  obtain ⟨before, after⟩ := ring.linked.split
  refine ⟨after.join before, ?_⟩
  have perm : (h :: (xs ++ e :: ys)).Perm (e :: (ys ++ h :: xs)) := by
    have swap : (h :: xs ++ e :: ys).Perm (e :: ys ++ h :: xs) := perm_append_comm
    exact swap
  exact perm.nodup_iff.mp ring.nodup

section Operations

variable [DecidableEq α]

namespace Links

/-- The addresses met going forward from `a` up to `h`, at most `n` of them. -/
def forward (m : Links α) (h : α) : Nat → α → List α
  | 0, _ => []
  | n + 1, a => if a = h then [] else a :: m.forward h n (m.fw a)

/-- The addresses met going backwards from `a` up to `h`, at most `n` of them. -/
def backward (m : Links α) (h : α) : Nat → α → List α
  | 0, _ => []
  | n + 1, a => if a = h then [] else a :: m.backward h n (m.bw a)

def init (m : Links α) (h : α) : Links α :=
  { fw := Function.update m.fw h h, bw := Function.update m.bw h h }

/-- Four assignments put `e` before `d`. -/
def insert (m : Links α) (e d : α) : Links α :=
  let m := { m with bw := Function.update m.bw e (m.bw d) }
  let m := { m with fw := Function.update m.fw e d }
  let m := { m with fw := Function.update m.fw (m.bw d) e }
  { m with bw := Function.update m.bw d e }

/-- Two assignments take `e` out, unless it points to itself. -/
def remove (m : Links α) (e : α) : Links α :=
  if e = m.bw e then m
  else
    let m := { m with bw := Function.update m.bw (m.fw e) (m.bw e) }
    { m with fw := Function.update m.fw (m.bw e) (m.fw e) }

end Links

theorem Linked.forward_eq (link : Linked m h xs b) (notIn : h ∉ xs) {n : Nat}
    (enough : xs.length < n) : m.forward h n (m.fw b) = xs.reverse := by
  induction xs using List.reverseRecOn generalizing b n with
  | nil =>
    obtain ⟨n, rfl⟩ := Nat.exists_eq_succ_of_ne_zero (Nat.ne_of_gt enough)
    rw [link.2]
    exact if_pos rfl
  | append_singleton xs x ih =>
    obtain ⟨before, after⟩ := link.split
    obtain ⟨n, rfl⟩ := Nat.exists_eq_succ_of_ne_zero (Nat.ne_of_gt (Nat.zero_lt_of_lt enough))
    simp only [mem_append, mem_singleton, not_or] at notIn
    simp only [length_append, length_singleton] at enough
    rw [after.2, Links.forward, if_neg (Ne.symm notIn.2), ih before notIn.1 (by omega),
      reverse_append]
    rfl

theorem Ring.forward (ring : Ring m h xs) {n : Nat} (enough : xs.length < n) :
    m.forward h n (m.fw h) = xs.reverse :=
  ring.linked.forward_eq (nodup_cons.mp ring.nodup).1 enough

theorem ring_init (m : Links α) (h : α) : Ring (m.init h) h [] := by
  refine ⟨⟨?_, ?_⟩, by simp⟩ <;> exact update_self _ _ _

theorem insert_bw (ne : e ≠ h) (x : α) :
    (m.insert e h).bw x = if x = h then e else if x = e then m.bw h else m.bw x := by
  simp only [Links.insert, update_apply, if_neg ne.symm]

theorem insert_fw (ne : e ≠ h) (x : α) :
    (m.insert e h).fw x = if x = m.bw h then e else if x = e then h else m.fw x := by
  simp only [Links.insert, update_apply, if_neg ne.symm]

/-- The element after `a` comes after a new one. -/
theorem Linked.insert (link : Linked m a xs b) (ne : e ≠ a) (start : a ∉ xs) (fresh : e ∉ xs ++ [b])
    (nodup : (xs ++ [b]).Nodup) : Linked (m.insert e a) e xs b := by
  cases xs with
  | nil =>
    refine ⟨?_, ?_⟩
    · rw [insert_bw ne, if_neg ne, if_pos rfl, link.1]
    · rw [insert_fw ne, if_pos link.1.symm]
  | cons x xs =>
    refine ⟨⟨?_, ?_⟩, link.2.congr ?_ ?_⟩
    · rw [insert_bw ne, if_neg ne, if_pos rfl, link.1.1]
    · rw [insert_fw ne, if_pos link.1.1.symm]
    · intro y hy
      have ya : y ≠ a := fun eq => start (eq ▸ hy)
      have ye : y ≠ e := fun eq => fresh (eq ▸ mem_append_left _ hy)
      rw [insert_bw ne, if_neg ya, if_neg ye]
    · intro y hy
      have yx : y ≠ m.bw a := fun eq => (nodup_cons.mp nodup).1 (link.1.1 ▸ eq ▸ hy)
      have ye : y ≠ e := fun eq => fresh (eq ▸ mem_cons_of_mem _ hy)
      rw [insert_fw ne, if_neg yx, if_neg ye]

theorem Ring.insert (ring : Ring m h xs) (fresh : e ∉ h :: xs) :
    Ring (m.insert e h) h (e :: xs) := by
  have ne : e ≠ h := fun eq => fresh (mem_cons.mpr (.inl eq))
  have nodup := nodup_cons.mp ring.nodup
  have swap : (xs ++ [h]).Perm (h :: xs) := perm_append_singleton h xs
  have fresh' : e ∉ xs ++ [h] := fun mem => fresh (swap.mem_iff.mp mem)
  have new : e ≠ m.bw h := fun eq => fresh' (eq ▸ ring.linked.first.1)
  refine ⟨⟨⟨?_, ?_⟩, ring.linked.insert ne nodup.1 fresh' (swap.nodup_iff.mpr ring.nodup)⟩, ?_⟩
  · rw [insert_bw ne, if_pos rfl]
  · rw [insert_fw ne, if_neg new, if_pos rfl]
  · simp only [nodup_cons, mem_cons, not_or]
    exact ⟨⟨ne.symm, nodup.1⟩, fun mem => fresh (mem_cons_of_mem _ mem), nodup.2⟩

theorem Ring.insert_other (ring : Ring m h xs) (fresh : e ∉ h :: xs) {x : α} (hx : x ∉ h :: xs)
    (xe : x ≠ e) : (m.insert e h).bw x = m.bw x ∧ (m.insert e h).fw x = m.fw x := by
  have ne : e ≠ h := fun eq => fresh (eq ▸ mem_cons_self)
  have xh : x ≠ h := fun eq => hx (eq ▸ mem_cons_self)
  have xb : x ≠ m.bw h := by
    intro eq
    have first := ring.linked.first.1
    rw [← eq] at first
    rcases mem_append.mp first with mem | mem
    · exact hx (mem_cons_of_mem _ mem)
    · exact xh (mem_singleton.mp mem)
  rw [insert_bw ne, insert_fw ne, if_neg xh, if_neg xe, if_neg xb, if_neg xe]
  exact ⟨rfl, rfl⟩

theorem remove_bw (linked : e ≠ m.bw e) (x : α) :
    (m.remove e).bw x = if x = m.fw e then m.bw e else m.bw x := by
  simp only [Links.remove, if_neg linked, update_apply]

theorem remove_fw (linked : e ≠ m.bw e) (apart : e ≠ m.fw e) (x : α) :
    (m.remove e).fw x = if x = m.bw e then m.fw e else m.fw x := by
  simp only [Links.remove, if_neg linked, update_apply, if_neg apart]

theorem Linked.remove (link : Linked m a xs e) (linked : e ≠ m.bw e) (apart : e ≠ m.fw e)
    (nodup : (a :: xs).Nodup) (notIn : m.bw e ∉ xs) : Linked (m.remove e) a xs (m.bw e) := by
  induction xs generalizing a with
  | nil =>
    refine ⟨?_, ?_⟩
    · rw [remove_bw linked, if_pos link.2.symm]
    · rw [remove_fw linked apart, if_pos rfl, link.2]
  | cons x xs ih =>
    obtain ⟨notHead, rest⟩ := nodup_cons.mp nodup
    obtain ⟨notFirst, notIn⟩ := not_or.mp fun mem => notIn (mem_cons.mpr mem)
    have away : a ≠ m.fw e := fun eq => notHead (eq ▸ link.2.last.1)
    refine ⟨⟨?_, ?_⟩, ih link.2 rest notIn⟩
    · rw [remove_bw linked, if_neg away, link.1.1]
    · rw [remove_fw linked apart, if_neg (Ne.symm notFirst), link.1.2]

omit [DecidableEq α] in
theorem Ring.neighbours (ring : Ring m e xs) (some_ : xs ≠ []) : m.bw e ∈ xs ∧ m.fw e ∈ xs := by
  have next : m.bw e ∈ xs := by
    obtain ⟨x, xs, rfl⟩ := exists_cons_of_ne_nil some_
    rw [ring.linked.1.1]
    exact mem_cons_self
  refine ⟨next, (mem_cons.mp ring.linked.last.1).resolve_left fun self => ?_⟩
  -- then `e` would lead back to itself
  have back := ring.linked.last.2
  rw [self] at back
  exact (nodup_cons.mp ring.nodup).1 (back ▸ next)

/-- The two neighbours of an element are joined, and nothing else changes. -/
theorem Ring.remove_head (ring : Ring m e (a :: xs)) : Ring (m.remove e) a xs ∧
    ∀ x ∉ a :: xs, (m.remove e).bw x = m.bw x ∧ (m.remove e).fw x = m.fw x := by
  obtain ⟨out, nodup⟩ := nodup_cons.mp ring.nodup
  obtain ⟨next, prev⟩ := ring.neighbours (cons_ne_nil _ _)
  have linked : e ≠ m.bw e := fun eq => out (eq ▸ next)
  have apart : e ≠ m.fw e := fun eq => out (eq ▸ prev)
  have first : m.bw e = a := ring.linked.1.1
  have notIn : m.bw e ∉ xs := first ▸ (nodup_cons.mp nodup).1
  refine ⟨⟨first ▸ ring.linked.2.remove linked apart nodup notIn, nodup⟩, fun x hx => ⟨?_, ?_⟩⟩
  · rw [remove_bw linked, if_neg]
    exact fun eq => hx (eq ▸ prev)
  · rw [remove_fw linked apart, if_neg]
    exact fun eq => hx (eq ▸ next)

theorem Ring.remove (ring : Ring m h (xs ++ e :: ys)) : Ring (m.remove e) h (xs ++ ys) ∧
    ∀ x ∉ h :: (xs ++ ys), (m.remove e).bw x = m.bw x ∧ (m.remove e).fw x = m.fw x := by
  have turned := ring.rotate
  cases ys with
  | nil => simpa using turned.remove_head
  | cons y ys =>
    refine ⟨turned.remove_head.1.rotate, fun x hx => turned.remove_head.2 x ?_⟩
    simp only [mem_cons, mem_append, append_eq, not_or] at hx ⊢
    tauto

section Placed
variable {ι κ : Type*}

/-- How the elements and the heads of the rings of a memory are named. -/
structure Names (item : ι → α) (head : κ → α) : Prop where
  apart : ∀ p k, item p ≠ head k
  items : Function.Injective item
  heads : Function.Injective head

/-- A memory of rings, one for each head of a set; an element is in the ring it is placed in. -/
structure Placed (item : ι → α) (head : κ → α) (m : Links α) (heads : Set κ)
    (place : ι → Option κ) (lists : κ → List ι) : Prop where
  names : Names item head
  ring : ∀ k ∈ heads, Ring m (head k) ((lists k).map item)
  mem : ∀ k ∈ heads, ∀ p, p ∈ lists k ↔ place p = some k

variable {item : ι → α} {head : κ → α} {heads : Set κ} {place : ι → Option κ} {lists : κ → List ι}
  {k : κ} {p : ι}

variable (placed : Placed item head m heads place lists)
include placed

omit [DecidableEq α] in
theorem Placed.outside (hk : k ∈ heads) (away : place p ≠ some k) :
    item p ∉ head k :: (lists k).map item := by
  intro mem
  rcases mem_cons.mp mem with eq | mem
  · exact placed.names.apart p k eq
  · obtain ⟨q, hq, eq⟩ := mem_map.mp mem
    exact away ((placed.mem k hk p).mp (placed.names.items eq ▸ hq))

omit [DecidableEq α] in
theorem Placed.nodup (hk : k ∈ heads) : (lists k).Nodup :=
  (nodup_cons.mp (placed.ring k hk).nodup).2.of_map _

variable [DecidableEq ι] [DecidableEq κ]

omit [DecidableEq α] in
/-- One ring changes, in which `p` may be new or missing. -/
theorem Placed.update (hk : k ∈ heads) {ps : List ι} {goal : Option κ}
    (ring : Ring m' (head k) (ps.map item)) (others : ∀ q, q ≠ p → (q ∈ ps ↔ q ∈ lists k))
    (here : p ∈ ps ↔ goal = some k) (away : ∀ j, j ≠ k → place p ≠ some j ∧ goal ≠ some j)
    (frame : ∀ x ∉ head k :: (lists k).map item, x ≠ item p → m'.bw x = m.bw x ∧ m'.fw x = m.fw x) :
    Placed item head m' heads (Function.update place p goal) (Function.update lists k ps) := by
  refine ⟨placed.names, fun j hj => ?_, fun j hj q => ?_⟩
  · rcases eq_or_ne j k with rfl | ne
    · rwa [update_self]
    rw [update_of_ne ne]
    refine (placed.ring j hj).congr fun x hx => ?_
    rcases mem_cons.mp hx with rfl | mem
    · refine frame _ (fun mem => ?_) (Ne.symm (placed.names.apart p j))
      rcases mem_cons.mp mem with eq | mem
      · exact ne (placed.names.heads eq)
      · obtain ⟨q, -, eq⟩ := mem_map.mp mem
        exact placed.names.apart q j eq
    · obtain ⟨q, hq, rfl⟩ := mem_map.mp mem
      rw [placed.mem j hj] at hq
      refine frame _ (placed.outside hk fun eq => ne ?_) fun eq => ?_
      · exact Option.some.inj (hq.symm.trans eq)
      · exact (away j ne).1 (placed.names.items eq ▸ hq)
  · rcases eq_or_ne j k with rfl | ne <;> rcases eq_or_ne q p with rfl | nq
    · rw [update_self, update_self]
      exact here
    · rw [update_self, update_of_ne nq, others q nq, placed.mem j hj]
    · rw [update_self, update_of_ne ne, placed.mem j hj]
      exact iff_of_false (away j ne).1 (away j ne).2
    · rw [update_of_ne ne, update_of_ne nq, placed.mem j hj]

theorem Placed.insert (hk : k ∈ heads) (free : place p = none) :
    Placed item head (m.insert (item p) (head k)) heads (Function.update place p (some k))
      (Function.update lists k (p :: lists k)) := by
  have ring := placed.ring k hk
  have fresh := placed.outside (p := p) hk (by simp [free])
  refine placed.update hk (ring.insert fresh) ?_ (by simp) ?_ fun x => ring.insert_other fresh
  · intro q ne
    simp [ne]
  · intro j ne
    simp [free, ne.symm]

theorem Placed.insertBefore (hk : k ∈ heads) (free : place p = none) {q : ι}
    (at_ : place q = some k) :
    ∃ lists', Placed item head (m.insert (item p) (item q)) heads
      (Function.update place p (some k)) lists' := by
  obtain ⟨xs, ys, split⟩ := append_of_mem ((placed.mem k hk q).mpr at_)
  have ring := placed.ring k hk
  have fresh := placed.outside (p := p) hk (by simp [free])
  have turn : ∀ {x}, x ∉ head k :: (lists k).map item →
      x ∉ item q :: (ys.map item ++ head k :: xs.map item) := by
    intro x out mem
    refine out ?_
    simp only [split, map_append, map_cons, mem_cons, mem_append] at mem ⊢
    tauto
  rw [split, map_append] at ring
  refine ⟨Function.update lists k (xs ++ q :: p :: ys), placed.update hk ?_ ?_ (by simp) ?_ ?_⟩
  · simpa using (ring.rotate.insert (turn fresh)).rotate
  · intro r ne
    simp [split, ne]
  · intro j ne
    simp [free, ne.symm]
  · intro x out
    exact ring.rotate.insert_other (turn fresh) (turn out)

theorem Placed.remove (hk : k ∈ heads) (at_ : place p = some k) :
    Placed item head (m.remove (item p)) heads (Function.update place p none)
      (Function.update lists k ((lists k).erase p)) := by
  have ring := placed.ring k hk
  obtain ⟨xs, ys, -, split, erased⟩ := exists_erase_eq ((placed.mem k hk p).mpr at_)
  rw [split, map_append] at ring
  have removed := ring.remove
  rw [← map_append, ← erased] at removed
  refine placed.update hk removed.1 (fun q ne => mem_erase_of_ne ne) ?_ ?_ ?_
  · exact iff_of_false (placed.nodup hk).not_mem_erase (Option.some_ne_none k).symm
  · intro j ne
    simp [at_, ne.symm]
  · intro x out _
    refine removed.2 x fun mem => out ?_
    exact ((erase_sublist.map item).cons_cons (head k)).subset mem

omit [DecidableEq ι] in
theorem Placed.init (new : k ∉ heads) (empty : ∀ p, place p ≠ some k) :
    Placed item head (m.init (head k)) (Insert.insert k heads) place
      (Function.update lists k []) := by
  have other : ∀ j ∈ heads, j ≠ k := fun j hj eq => new (eq ▸ hj)
  refine ⟨placed.names, ?_, ?_⟩
  · rintro j (rfl | hj)
    · rw [update_self]
      exact ring_init m _
    · rw [update_of_ne (other j hj)]
      refine (placed.ring j hj).congr fun x hx => ?_
      have ne : x ≠ head k := by
        rintro rfl
        rcases mem_cons.mp hx with eq | mem
        · exact other j hj (placed.names.heads eq).symm
        · obtain ⟨q, -, eq⟩ := mem_map.mp mem
          exact placed.names.apart q k eq
      exact ⟨update_of_ne ne _ _, update_of_ne ne _ _⟩
  · rintro j (rfl | hj) p
    · simp [empty p]
    · rw [update_of_ne (other j hj), placed.mem j hj]

omit [DecidableEq α] [DecidableEq ι] [DecidableEq κ] in
theorem Placed.mono {heads' : Set κ} {lists' : κ → List ι}
    (sub : ∀ k ∈ heads', k ∈ heads ∧ lists' k = lists k) :
    Placed item head m heads' place lists' := by
  refine ⟨placed.names, fun k hk => ?_, fun k hk => ?_⟩
  · rw [(sub k hk).2]
    exact placed.ring k (sub k hk).1
  · rw [(sub k hk).2]
    exact placed.mem k (sub k hk).1

end Placed

end Operations

end LinkedRing
