import Mathlib.Algebra.Order.Ring.Rat
import Mathlib.Data.List.Perm.Basic
import Mathlib.Data.Prod.Lex

/-! Lists put in order by a key, with the entries of one key in the order in which they were;
passes of exchanges of neighbours from the end, as a loop that stops at a pass without one. -/
namespace StableSort
open List

variable {α κ κ' : Type*} [LinearOrder κ] [LinearOrder κ']

/-- The list `r` is `l` in the order of the keys. -/
structure StablySorted (key : α → κ) (l r : List α) : Prop where
  same : ∀ v, r.filter (key · = v) = l.filter (key · = v)
  sorted : r.Pairwise fun a b => key a ≤ key b

variable {s : List α}

namespace StablySorted

variable {key : α → κ} {key' : α → κ'} {l m r : List α}

theorem perm (h : StablySorted key l r) : r.Perm l := by
  classical
  refine perm_iff_count.mpr fun a => ?_
  have here := congrArg (List.count a) (h.same (key a))
  rwa [count_filter (by simp), count_filter (by simp)] at here

theorem of_sorted (sorted : l.Pairwise fun a b => key a ≤ key b) : StablySorted key l l :=
  ⟨fun _ => rfl, sorted⟩

theorem pairwise_same_iff (P : α → α → Prop) :
    (l.Pairwise fun a b => key a = key b → P a b) ↔ ∀ v, (l.filter (key · = v)).Pairwise P := by
  constructor
  · intro pairs v
    refine pairwise_filter.mpr (pairs.imp ?_)
    intro a b here keyA keyB
    exact here ((of_decide_eq_true keyA).trans (of_decide_eq_true keyB).symm)
  · intro lists
    induction l with
    | nil => exact List.Pairwise.nil
    | cons a l ih =>
      refine pairwise_cons.mpr ⟨?_, ih fun v => ?_⟩
      · intro b mem eq
        have here := lists (key a)
        rw [filter_cons_of_pos (by simp)] at here
        exact rel_of_pairwise_cons here (mem_filter.mpr ⟨mem, by simp [eq]⟩)
      · refine (lists v).sublist ?_
        exact (sublist_cons_self a l).filter _

theorem pairwise_iff (h : StablySorted key l r) (P : α → α → Prop) :
    r.Pairwise P ↔ l.Pairwise fun a b => (key a ≤ key b → P a b) ∧ (key b < key a → P b a) := by
  let apart : α → α → Prop := fun a b => (key a < key b → P a b) ∧ (key b < key a → P b a)
  have symmetric : ∀ {a b}, apart a b → apart b a := fun here => ⟨here.2, here.1⟩
  have ties : (r.Pairwise fun a b => key a = key b → P a b) ↔
      l.Pairwise fun a b => key a = key b → P a b := by
    rw [pairwise_same_iff, pairwise_same_iff]
    simp only [h.same]
  have split : (l.Pairwise fun a b => (key a ≤ key b → P a b) ∧ (key b < key a → P b a)) ↔
      l.Pairwise apart ∧ l.Pairwise fun a b => key a = key b → P a b := by
    rw [← pairwise_and_iff]
    refine List.Pairwise.iff fun {a b} => ?_
    constructor
    · rintro ⟨before, behind⟩
      exact ⟨⟨fun less => before less.le, behind⟩, fun eq => before eq.le⟩
    · rintro ⟨⟨before, behind⟩, tie⟩
      exact ⟨fun le => le.lt_or_eq.elim before tie, behind⟩
  rw [split, ← h.perm.pairwise_iff symmetric, ← ties, ← pairwise_and_iff]
  constructor
  · intro pairs
    refine (pairs.and h.sorted).imp ?_
    rintro a b ⟨here, le⟩
    exact ⟨⟨fun _ => here, fun less => absurd le (not_le.mpr less)⟩, fun _ => here⟩
  · intro pairs
    refine (pairs.and h.sorted).imp ?_
    rintro a b ⟨⟨⟨before, -⟩, tie⟩, le⟩
    exact le.lt_or_eq.elim before tie

theorem lex (first : StablySorted key' l m) (second : StablySorted key m r) :
    StablySorted (fun a => toLex (key a, key' a)) l r := by
  refine ⟨fun v => ?_, ?_⟩
  · have both : ∀ s : List α, s.filter (fun a => toLex (key a, key' a) = v) =
        (s.filter (key' · = (ofLex v).2)).filter (key · = (ofLex v).1) := by
      intro s
      rw [filter_filter]
      refine filter_congr fun a _ => ?_
      rw [← Bool.decide_and]
      refine decide_eq_decide.mpr ?_
      rw [← toLex_ofLex v, toLex_inj, Prod.ext_iff]
      rfl
    rw [both, both, filter_comm, second.same, filter_comm, first.same]
  · refine (second.pairwise_iff _).mpr (first.sorted.imp ?_)
    intro a b le
    refine ⟨fun le' => ?_, fun less => ?_⟩
    · exact Prod.Lex.toLex_le_toLex.mpr (le'.lt_or_eq.imp_right fun eq => ⟨eq, le⟩)
    · exact Prod.Lex.toLex_le_toLex.mpr (Or.inl less)

/-- Two parts of a list, one with lesser keys than the other, are sorted apart. -/
theorem append {p q : α → Bool} (first : StablySorted key (l.filter p) r)
    (second : StablySorted key (l.filter q) s)
    (apart : ∀ a ∈ l, ∀ b ∈ l, p a = true → q b = true → key a < key b) :
    StablySorted key (l.filter fun a => p a || q a) (r ++ s) := by
  refine ⟨fun v => ?_, pairwise_append.mpr ⟨first.sorted, second.sorted, ?_⟩⟩
  · simp only [filter_append, first.same, second.same, filter_filter]
    by_cases some_ : ∃ a ∈ l, key a = v ∧ p a = true
    · obtain ⟨a, mem, rfl, left⟩ := some_
      have none_ : ∀ b ∈ l, key b = key a → q b = false := fun b mem' eq =>
        Bool.eq_false_of_not_eq_true fun right => (apart a mem b mem' left right).ne eq.symm
      rw [filter_eq_nil_iff (p := fun b => decide (key b = key a) && q b) |>.mpr, append_nil]
      · refine filter_congr fun b mem' => ?_
        by_cases eq : key b = key a <;> simp [eq, none_ b mem']
      · simpa using none_
    · push Not at some_
      rw [filter_eq_nil_iff (p := fun b => decide (key b = v) && p b) |>.mpr, nil_append]
      · refine filter_congr fun b mem => ?_
        by_cases eq : key b = v <;> simp [eq, some_ b mem]
      · simpa using some_
  · intro a left b right
    obtain ⟨mem, here⟩ := mem_filter.mp (first.perm.subset left)
    obtain ⟨mem', there⟩ := mem_filter.mp (second.perm.subset right)
    exact (apart a mem b mem' here there).le

theorem unique {r' : List α} (one : StablySorted key l r) (other : StablySorted key l r') :
    r = r' := by
  have same : ∀ v, r.filter (key · = v) = r'.filter (key · = v) :=
    fun v => (one.same v).trans (other.same v).symm
  have perm := one.perm.trans other.perm.symm
  have sorted := one.sorted
  have sorted' := other.sorted
  clear one other
  induction r generalizing r' with
  | nil => exact (nil_perm.mp perm).symm
  | cons a r ih =>
    cases r' with
    | nil => exact absurd (perm_nil.mp perm) (cons_ne_nil a r)
    | cons b r' =>
      obtain ⟨least, rest⟩ := pairwise_cons.mp sorted
      obtain ⟨least', rest'⟩ := pairwise_cons.mp sorted'
      have le : key a ≤ key b := by
        rcases mem_cons.mp (perm.symm.subset mem_cons_self) with rfl | mem
        · exact le_refl _
        · exact least b mem
      have ge : key b ≤ key a := by
        rcases mem_cons.mp (perm.subset mem_cons_self) with rfl | mem
        · exact le_refl _
        · exact least' a mem
      have keys := le_antisymm le ge
      -- the first entry with the least key is the first of both lists
      have first := same (key a)
      rw [filter_cons_of_pos (by simp), filter_cons_of_pos (by simp [keys])] at first
      obtain ⟨rfl, -⟩ := cons.inj first
      refine congrArg (a :: ·) (ih (fun v => ?_) ((perm_cons a).mp perm) rest rest')
      have here := same v
      rw [filter_cons, filter_cons] at here
      split at here
      · exact (cons.inj here).2
      · exact here

theorem map {β : Type*} {f : β → α} {t u : List β} (h : StablySorted (key ∘ f) t u) :
    StablySorted key (t.map f) (u.map f) := by
  refine ⟨fun v => ?_, pairwise_map.mpr h.sorted⟩
  rw [filter_map, filter_map]
  exact congrArg (List.map f) (h.same v)

theorem mergeSort (key : α → κ) (l : List α) :
    StablySorted key l (l.mergeSort fun a b => key a ≤ key b) := by
  have trans : ∀ a b c, decide (key a ≤ key b) = true → decide (key b ≤ key c) = true →
      decide (key a ≤ key c) = true := by
    intro a b c first second
    exact decide_eq_true ((of_decide_eq_true first).trans (of_decide_eq_true second))
  have total : ∀ a b, (decide (key a ≤ key b) || decide (key b ≤ key a)) = true := by
    intro a b
    simpa using le_total (key a) (key b)
  have perm := mergeSort_perm l fun a b => decide (key a ≤ key b)
  refine ⟨fun v => ?_, (pairwise_mergeSort trans total l).imp of_decide_eq_true⟩
  -- the entries of one key are a sublist already in order
  have ties : (l.filter (key · = v)).Pairwise fun a b => decide (key a ≤ key b) = true := by
    refine pairwise_filter.mpr (pairwise_of_forall fun a b keyA keyB => decide_eq_true ?_)
    exact ((of_decide_eq_true keyA).trans (of_decide_eq_true keyB).symm).le
  have sub := (sublist_mergeSort trans total ties filter_sublist).filter (key · = v)
  rw [filter_filter] at sub
  simp only [Bool.and_self] at sub
  exact (sub.eq_of_length (perm.filter _).length_eq.symm).symm

end StablySorted

/-! ### Exchanges of neighbours -/

section Bubble

variable (out : α → α → Bool)

def bubble : List α → List α × Bool
  | [] => ([], false)
  | a :: l =>
    match bubble l with
    | ([], swap) => ([a], swap)
    | (b :: rest, swap) => if out a b then (b :: a :: rest, true) else (a :: b :: rest, swap)

/-- At most `n` passes, each from the end to the place that the last one filled. -/
def passes : Nat → List α → List α
  | 0, l => l
  | n + 1, l =>
    if (bubble out l).2 then
      match (bubble out l).1 with
      | [] => []
      | a :: rest => a :: passes n rest
    else (bubble out l).1

variable {out} {key : α → κ} {l : List α}

theorem bubble_cases (out : α → α → Bool) (a : α) (l : List α) :
    (bubble out l).1 = [] ∧ bubble out (a :: l) = ([a], (bubble out l).2) ∨
      ∃ b rest, (bubble out l).1 = b :: rest ∧
        (out a b = true ∧ bubble out (a :: l) = (b :: a :: rest, true) ∨
          ¬out a b = true ∧ bubble out (a :: l) = (a :: b :: rest, (bubble out l).2)) := by
  rw [bubble]
  generalize bubble out l = r
  obtain ⟨_ | ⟨b, rest⟩, swap⟩ := r
  · exact Or.inl ⟨rfl, rfl⟩
  · refine Or.inr ⟨b, rest, rfl, ?_⟩
    by_cases exchanged : out a b = true
    · exact Or.inl ⟨exchanged, if_pos exchanged⟩
    · exact Or.inr ⟨exchanged, if_neg exchanged⟩

variable (out) in
theorem bubble_perm (l : List α) : (bubble out l).1.Perm l := by
  induction l with
  | nil => exact List.Perm.refl _
  | cons a l ih =>
    obtain ⟨front, eq⟩ | ⟨b, rest, front, ⟨-, eq⟩ | ⟨-, eq⟩⟩ := bubble_cases out a l <;>
      rw [front] at ih <;> rw [eq]
    · exact ih.cons a
    · exact (List.Perm.swap a b rest).trans (ih.cons a)
    · exact ih.cons a

variable (out) in
theorem passes_perm (n : Nat) (l : List α) : (passes out n l).Perm l := by
  induction n generalizing l with
  | zero => exact List.Perm.refl l
  | succ n ih =>
    have perm := bubble_perm out l
    rw [passes]
    split
    case isFalse => exact perm
    case isTrue =>
      revert perm
      generalize (bubble out l).1 = r
      cases r with
      | nil => exact fun perm => perm
      | cons a rest => exact fun perm => ((ih rest).cons a).trans perm

def ByKey (out : α → α → Bool) (key : α → κ) (l : List α) : Prop :=
  ∀ a ∈ l, ∀ b ∈ l, (out a b = true ↔ key b < key a)

theorem ByKey.subset (h : ByKey out key l) (sub : s ⊆ l) : ByKey out key s :=
  fun a first b second => h a (sub first) b (sub second)

theorem filter_cons_congr {p : α → Bool} {t : List α} (same : s.filter p = t.filter p) (a : α) :
    (a :: s).filter p = (a :: t).filter p := by
  rw [filter_cons, filter_cons, same]

theorem bubble_same (exact_ : ByKey out key l) (v : κ) :
    (bubble out l).1.filter (key · = v) = l.filter (key · = v) := by
  induction l with
  | nil => rfl
  | cons a l ih =>
    have rest_ := ih (exact_.subset (subset_cons_self a l))
    have perm := bubble_perm out l
    obtain ⟨front, eq⟩ | ⟨b, rest, front, ⟨exchanged, eq⟩ | ⟨-, eq⟩⟩ := bubble_cases out a l <;>
      rw [front] at rest_ perm <;> rw [eq]
    · exact filter_cons_congr rest_ a
    · have mem : b ∈ a :: l := mem_cons_of_mem a (perm.subset mem_cons_self)
      have less := (exact_ a mem_cons_self b mem).mp exchanged
      by_cases here : key a = v
      · have other : key b ≠ v := fun eq => less.ne (eq.trans here.symm)
        rw [filter_cons_of_neg (by simp [other])] at rest_ ⊢
        rw [filter_cons_of_pos (by simp [here]), filter_cons_of_pos (by simp [here]), rest_]
      · have skip : ∀ s : List α, (a :: s).filter (key · = v) = s.filter (key · = v) :=
          fun _ => filter_cons_of_neg (by simp [here])
        rw [skip, ← rest_]
        exact filter_cons_congr (skip rest) b
    · exact filter_cons_congr rest_ a

theorem bubble_least (exact_ : ByKey out key l) {a : α} {rest : List α}
    (front : (bubble out l).1 = a :: rest) : ∀ b ∈ rest, key a ≤ key b := by
  induction l generalizing a rest with
  | nil => cases front
  | cons c l ih =>
    obtain ⟨-, eq⟩ | ⟨b, behind, front', here⟩ := bubble_cases out c l
    · rw [eq] at front
      obtain ⟨-, rfl⟩ := List.cons.inj front
      simp
    · have least := ih (exact_.subset (subset_cons_self c l)) front'
      have mem : b ∈ l := (bubble_perm out l).subset (front' ▸ mem_cons_self)
      have wrong := exact_ c mem_cons_self b (mem_cons_of_mem c mem)
      obtain ⟨exchanged, eq⟩ | ⟨kept, eq⟩ := here <;> rw [eq] at front <;>
        obtain ⟨rfl, rfl⟩ := List.cons.inj front
      · exact forall_mem_cons.mpr ⟨(wrong.mp exchanged).le, least⟩
      · have le : key c ≤ key b := not_lt.mp fun less => kept (wrong.mpr less)
        exact forall_mem_cons.mpr ⟨le, fun d mem' => le.trans (least d mem')⟩

theorem bubble_still (exact_ : ByKey out key l) (still : (bubble out l).2 = false) :
    (bubble out l).1 = l ∧ l.Pairwise fun a b => key a ≤ key b := by
  induction l with
  | nil => exact ⟨rfl, List.Pairwise.nil⟩
  | cons a l ih =>
    have rest_ := ih (exact_.subset (subset_cons_self a l))
    obtain ⟨front, eq⟩ | ⟨b, behind, front, ⟨-, eq⟩ | ⟨-, eq⟩⟩ := bubble_cases out a l
    · obtain ⟨same, -⟩ := rest_ (by rwa [eq] at still)
      rw [eq, ← same, front]
      exact ⟨rfl, pairwise_singleton _ _⟩
    · simp [eq] at still
    · obtain ⟨same, sorted⟩ := rest_ (by rwa [eq] at still)
      have whole : (bubble out (a :: l)).1 = a :: l := by rw [eq, ← same, front]
      exact ⟨whole, pairwise_cons.mpr ⟨bubble_least exact_ whole, sorted⟩⟩

theorem passes_sorted {n : Nat} (enough : l.length ≤ n) (exact_ : ByKey out key l) :
    StablySorted key l (passes out n l) := by
  induction n generalizing l with
  | zero =>
    obtain rfl := length_eq_zero_iff.mp (Nat.le_zero.mp enough)
    exact StablySorted.of_sorted List.Pairwise.nil
  | succ n ih =>
    have perm := bubble_perm out l
    have same := bubble_same exact_
    have least := @bubble_least _ _ _ _ _ _ exact_
    rw [passes]
    split
    case isFalse still =>
      obtain ⟨eq, sorted⟩ := bubble_still exact_ (Bool.eq_false_of_not_eq_true still)
      rw [eq]
      exact StablySorted.of_sorted sorted
    case isTrue =>
      revert perm same least
      generalize (bubble out l).1 = r
      cases r with
      | nil => exact fun _ same _ => ⟨same, List.Pairwise.nil⟩
      | cons a rest =>
        intro perm same least
        have short : rest.length ≤ n := by
          have lengths := perm.length_eq
          rw [length_cons] at lengths
          omega
        have sub : rest ⊆ l := fun b mem => perm.subset (mem_cons_of_mem a mem)
        have later := ih short (exact_.subset sub)
        refine ⟨fun v => ?_, pairwise_cons.mpr ⟨fun b mem => ?_, later.sorted⟩⟩
        · rw [← same v]
          exact filter_cons_congr (later.same v) a
        · exact least rfl b (later.perm.subset mem)

/-! After some passes -/

/-- How many entries with `p` stand behind the first one without it. -/
def behindFirst (p : α → Bool) (l : List α) : Nat := (l.dropWhile p).countP p

variable {p : α → Bool}

theorem behindFirst_cons_pos {a : α} (here : p a = true) (l : List α) :
    behindFirst p (a :: l) = behindFirst p l := by
  rw [behindFirst, dropWhile_cons_of_pos here, behindFirst]

theorem behindFirst_cons_neg {a : α} (here : p a = false) (l : List α) :
    behindFirst p (a :: l) = l.countP p := by
  have not_ : ¬p a = true := by simp [here]
  rw [behindFirst, dropWhile_cons_of_neg not_, countP_cons_of_neg not_]

theorem behindFirst_eq_zero (none_ : ∀ a ∈ l, p a = false) : behindFirst p l = 0 := by
  refine countP_eq_zero.mpr fun a mem => ?_
  simp [none_ a ((dropWhile_sublist p).subset mem)]

/-- The entries with `p` have the lesser keys. -/
def Lower (p : α → Bool) (key : α → κ) (l : List α) : Prop :=
  ∀ a ∈ l, ∀ b ∈ l, p a = true → p b = false → key a < key b

theorem Lower.subset (h : Lower p key l) (sub : s ⊆ l) : Lower p key s :=
  fun a first b second => h a (sub first) b (sub second)

/-- Behind a least entry without `p` there are only such. -/
theorem Lower.all_neg {a : α} (lower : Lower p key (a :: l)) (least : ∀ b ∈ l, key a ≤ key b)
    (here : p a = false) : ∀ b ∈ l, p b = false := by
  intro b mem
  refine Bool.eq_false_of_not_eq_true fun with_ => ?_
  exact absurd (least b mem)
    (not_le.mpr (lower b (mem_cons_of_mem a mem) a mem_cons_self with_ here))

/-- A pass brings one entry with `p` before the first without. -/
theorem bubble_behindFirst (exact_ : ByKey out key l) (lower : Lower p key l) :
    behindFirst p (bubble out l).1 = behindFirst p l - 1 := by
  induction l with
  | nil => rfl
  | cons a l ih =>
    have later := ih (exact_.subset (subset_cons_self a l)) (lower.subset (subset_cons_self a l))
    have perm := bubble_perm out l
    obtain ⟨front, eq⟩ | ⟨b, rest, front, order⟩ := bubble_cases out a l
    · rw [front] at perm
      rw [eq, nil_perm.mp perm]
      cases here : p a <;> simp [behindFirst, here]
    have least := bubble_least (exact_.subset (subset_cons_self a l)) front
    rw [front] at later perm
    have sub : ∀ c ∈ b :: rest, c ∈ a :: l := fun c mem => mem_cons_of_mem a (perm.subset mem)
    have wrong := exact_ a mem_cons_self b (sub b mem_cons_self)
    cases here : p a with
    | true =>
      rw [behindFirst_cons_pos here, ← later]
      obtain ⟨exchanged, eq⟩ | ⟨-, eq⟩ := order <;> rw [eq]
      · have there : p b = true := by
          refine Bool.eq_true_of_not_eq_false fun without => ?_
          exact absurd (wrong.mp exchanged)
            (not_lt.mpr (lower a mem_cons_self b (sub b mem_cons_self) here without).le)
        rw [behindFirst_cons_pos there, behindFirst_cons_pos here, behindFirst_cons_pos there]
      · rw [behindFirst_cons_pos here]
    | false =>
      rw [behindFirst_cons_neg here, ← perm.countP_eq]
      cases there : p b with
      | true =>
        have exchanged := wrong.mpr (lower b (sub b mem_cons_self) a mem_cons_self there here)
        obtain ⟨-, eq⟩ | ⟨kept, -⟩ := order
        · rw [eq, behindFirst_cons_pos there, behindFirst_cons_neg here,
            countP_cons_of_pos there, Nat.add_sub_cancel]
        · exact absurd exchanged kept
      | false =>
        have none_ := (lower.subset sub).all_neg least there
        have all : ∀ c ∈ (bubble out (a :: l)).1, p c = false := by
          obtain ⟨-, eq⟩ | ⟨-, eq⟩ := order <;> simpa [eq, here, there] using none_
        rw [behindFirst_eq_zero all, countP_eq_zero.mpr (by simpa [there] using none_)]

theorem behindFirst_sorted (lower : Lower p key l) (sorted : l.Pairwise fun a b => key a ≤ key b) :
    behindFirst p l = 0 := by
  induction l with
  | nil => rfl
  | cons a l ih =>
    obtain ⟨least, sorted⟩ := pairwise_cons.mp sorted
    cases here : p a with
    | true =>
      rw [behindFirst_cons_pos here]
      exact ih (lower.subset (subset_cons_self a l)) sorted
    | false =>
      exact behindFirst_eq_zero (forall_mem_cons.mpr ⟨here, lower.all_neg least here⟩)

/-- Of the places that the passes have not filled. -/
theorem passes_behindFirst (n : Nat) (exact_ : ByKey out key l) (lower : Lower p key l) :
    behindFirst p ((passes out n l).drop n) = behindFirst p l - n := by
  induction n generalizing l with
  | zero => rfl
  | succ n ih =>
    have perm := bubble_perm out l
    have least := @bubble_least _ _ _ _ _ _ exact_
    have step := bubble_behindFirst exact_ lower
    rw [passes]
    split
    case isFalse still =>
      obtain ⟨eq, sorted⟩ := bubble_still exact_ (Bool.eq_false_of_not_eq_true still)
      rw [eq, behindFirst_sorted lower sorted, Nat.zero_sub]
      exact behindFirst_sorted (lower.subset (drop_subset (n + 1) l)) (sorted.drop)
    case isTrue =>
      revert perm least step
      generalize (bubble out l).1 = r
      cases r with
      | nil =>
        intro perm _ _
        obtain rfl := nil_perm.mp perm
        simp [behindFirst]
      | cons a rest =>
        intro perm least step
        have sub : rest ⊆ l := fun b mem => perm.subset (mem_cons_of_mem a mem)
        have later := ih (exact_.subset sub) (lower.subset sub)
        rw [drop_succ_cons, later]
        cases here : p a with
        | true =>
          rw [behindFirst_cons_pos here] at step
          omega
        | false =>
          have none_ := (lower.subset perm.subset).all_neg (least rfl) here
          rw [behindFirst_eq_zero (forall_mem_cons.mpr ⟨here, none_⟩)] at step
          rw [behindFirst_eq_zero none_]
          omega

end Bubble

end StableSort
