import Mathlib.Algebra.Order.Ring.Rat
import Mathlib.Algebra.Order.BigOperators.Group.Finset
import Mathlib.Order.Interval.Set.OrdConnected

/-! A book of accounts kept beside the entries it sums up. Every entry has a
share in every account, and the book is balanced when each account holds the
sum of the shares. An operation posts to the book when it adds a fixed amount
to each account, provided the account stays within its range. -/
namespace Ledger
open Function Finset

variable {σ ε α κ V : Type*} [AddCommGroup V]

/-- The account `a` holds the sum of the shares of the first `n` entries. -/
def Balanced (share : ε → α → V) (book : α → V) (entry : ℕ → ε) (n : ℕ) (a : α) : Prop :=
  book a = ∑ i ∈ Finset.range n, share (entry i) a

/-- What all entries but the one at `i` hold together. -/
def others (share : ε → α → V) (entry : ℕ → ε) (n i : ℕ) (a : α) : V :=
  ∑ k ∈ (Finset.range n).erase i, share (entry k) a

variable {e : ε}

section Sums

variable {share : ε → α → V} {book : α → V} {entry : ℕ → ε} {n i : ℕ} {a : α}

theorem others_add_share (hi : i < n) (a : α) :
    others share entry n i a + share (entry i) a = ∑ k ∈ Finset.range n, share (entry k) a := by
  rw [add_comm]
  exact add_sum_erase _ (fun k => share (entry k) a) (mem_range.mpr hi)

theorem Balanced.split (h : Balanced share book entry n a) (hi : i < n) :
    book a = others share entry n i a + share (entry i) a := by
  rw [others_add_share hi, h]

theorem Balanced.others_self (h : Balanced share book entry n a) :
    others share entry n n a = book a := by
  rw [others, erase_eq_of_notMem notMem_range_self, h]

theorem others_update (e : ε) (a : α) :
    others share (Function.update entry i e) n i a = others share entry n i a := by
  apply sum_congr rfl
  intro k hk
  rw [update_of_ne (ne_of_mem_erase hk)]

theorem Balanced.join (hi : i < n) (h : book a = others share entry n i a + share e a) :
    Balanced share book (Function.update entry i e) n a := by
  rw [Balanced, ← others_add_share hi, others_update, update_self]
  exact h

theorem Balanced.add (h : Balanced share book entry n a) {book' : α → V}
    (hbook : book' a = others share entry n n a + share e a) :
    Balanced share book' (Function.update entry n e) (n + 1) a := by
  rw [Balanced, sum_range_succ, update_self, hbook, h.others_self, h]
  congr 1
  apply sum_congr rfl
  intro k hk
  rw [update_of_ne (Nat.ne_of_lt (mem_range.mp hk))]

end Sums

section Ordered

variable [LinearOrder V] [IsOrderedAddMonoid V]

theorem others_nonneg {share : ε → α → V} {entry : ℕ → ε} {n : ℕ} {a : α}
    (h : ∀ k < n, 0 ≤ share (entry k) a) (i : ℕ) : 0 ≤ others share entry n i a :=
  sum_nonneg fun k hk => h k (mem_range.mp (mem_of_mem_erase hk))

/-- The operation adds `p` to each account and keeps its count of resets, whenever
the account is in its range before and with `p` added. -/
def Posts (range : α → Set V) (book : σ → α → V) (resets : σ → α → ℕ) (f : σ → σ) (p : α → V) :
    Prop :=
  ∀ s a, book s a ∈ range a → book s a + p a ∈ range a →
    book (f s) a = book s a + p a ∧ resets (f s) a = resets s a

/-- Two amounts that do not work against each other. -/
def Agree (x y : V) : Prop := 0 ≤ x ∧ 0 ≤ y ∨ x ≤ 0 ∧ y ≤ 0

omit [IsOrderedAddMonoid V] in
theorem agree_of_zero {x y : V} (h : x = 0 ∨ y = 0) : Agree x y := by
  rcases h with rfl | rfl
  · exact (le_total 0 y).imp (fun h => ⟨le_refl 0, h⟩) fun h => ⟨le_refl 0, h⟩
  · exact (le_total 0 x).imp (fun h => ⟨h, le_refl 0⟩) fun h => ⟨h, le_refl 0⟩

variable {range : α → Set V} {book : σ → α → V} {resets : σ → α → ℕ} {f g : σ → σ} {p q : α → V}

omit [IsOrderedAddMonoid V] [LinearOrder V] in
theorem Posts.id : Posts range book resets (fun s => s) (fun _ => 0) := by
  intro s a _ _
  exact ⟨(add_zero _).symm, rfl⟩

variable [∀ a, (range a).OrdConnected]

theorem Posts.comp (hf : Posts range book resets f p) (hg : Posts range book resets g q)
    (agree : ∀ a, Agree (p a) (q a)) :
    Posts range book resets (fun s => g (f s)) (fun a => p a + q a) := by
  intro s a start finish
  rw [← add_assoc] at finish ⊢
  have middle : book s a + p a ∈ range a := by
    rcases agree a with ⟨hp, hq⟩ | ⟨hp, hq⟩
    · exact Set.Icc_subset (range a) start finish
        ⟨le_add_of_nonneg_right hp, le_add_of_nonneg_right hq⟩
    · exact Set.Icc_subset (range a) finish start
        ⟨add_le_of_nonpos_right hq, add_le_of_nonpos_right hp⟩
  obtain ⟨bookf, resetsf⟩ := hf s a start middle
  obtain ⟨bookg, resetsg⟩ := hg (f s) a (by rwa [bookf]) (by rwa [bookf])
  exact ⟨by rw [bookg, bookf], by rw [resetsg, resetsf]⟩

theorem Posts.foldl {f : σ → κ → σ} {p : κ → α → V}
    (h : ∀ k, Posts range book resets (fun s => f s k) (p k))
    (agree : ∀ a, (∀ k, 0 ≤ p k a) ∨ ∀ k, p k a ≤ 0) (ks : List κ) :
    Posts range book resets (fun s => ks.foldl f s) (fun a => (ks.map (p · a)).sum) := by
  induction ks with
  | nil => exact Posts.id
  | cons k ks ih =>
    refine (h k).comp ih fun a => ?_
    refine (agree a).imp (fun hp => ⟨hp k, ?_⟩) fun hp => ⟨hp k, ?_⟩
    · exact List.sum_nonneg (by simpa using fun k' _ => hp k')
    · calc (ks.map (p · a)).sum ≤ (ks.map fun _ => (0 : V)).sum :=
            List.sum_le_sum (fun k' _ => hp k')
        _ = 0 := by simp

end Ordered

end Ledger
