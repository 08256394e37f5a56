import Jhlava.LinkedRing

/-! `lsQueueSort_` of lib.queue.c. Each round moves the least entry from `q1` on to the front of
the queue and goes on behind it, so the loop ends only when nothing is behind a moved entry. -/
namespace Jhlava.LsQueue
open LinkedRing List Function

/-- A queue with its entries in the order of `forw`. The fields `forw` and `back` of an entry
are `bw` and `fw` of its links, and 0 is NULL. -/
structure Queue where
  links : Links Nat
  start : Nat
  entries : List Nat
  ring : Ring links start entries
  start_ne : start ≠ 0

def lsQueueEntryRemove (m : Links Nat) (entry : Nat) : Links Nat :=
  let m := { m with bw := Function.update m.bw (m.fw entry) (m.bw entry) }
  let m := { m with fw := Function.update m.fw (m.bw entry) (m.fw entry) }
  { bw := Function.update m.bw entry 0, fw := Function.update m.fw entry 0 }

def lsQueueEntryAddFront (m : Links Nat) (entry start : Nat) : Links Nat :=
  if start = 0 then m else m.insert entry start

variable (compare : Nat → Nat → Int → Int) (hint : Int)

/-- The loop over `q2`; `none` if it has not ended in time. -/
def selectFrom (m : Links Nat) (start : Nat) : Nat → Nat → Nat → Option Nat
  | 0, _, _ => none
  | fuel + 1, selected, q2 =>
    if q2 = start then some selected
    else selectFrom m start fuel (if compare selected q2 hint > 0 then q2 else selected) (m.bw q2)

/-- The loop over `q1`. -/
def sortFrom (start : Nat) : Nat → Nat → Links Nat → Option (Links Nat)
  | 0, _, _ => none
  | fuel + 1, q1, m =>
    if q1 = start then some m
    else
      (selectFrom compare hint m start fuel q1 (m.bw q1)).bind fun selected =>
        let m := lsQueueEntryAddFront (lsQueueEntryRemove m selected) selected start
        sortFrom start fuel (m.bw selected) m

def lsQueueSort (fuel : Nat) (m : Links Nat) (start : Nat) : Option (Links Nat) :=
  sortFrom compare hint start fuel (m.bw start) m

variable {compare hint} {m : Links Nat} {start : Nat} {xs ys : List Nat}

theorem bw_mem {x : Nat} (ring : Ring m start xs) (mem : x ∈ xs) : m.bw x ∈ start :: xs := by
  obtain ⟨ys, zs, rfl⟩ := append_of_mem mem
  have next := (ring.rotate.neighbours (by simp)).1
  simp only [mem_cons, mem_append] at next ⊢
  tauto

theorem selectFrom_mem (ring : Ring m start xs) {fuel selected q2 r : Nat} (known : selected ∈ xs)
    (met : q2 ∈ start :: xs) (done : selectFrom compare hint m start fuel selected q2 = some r) :
    r ∈ xs := by
  induction fuel generalizing selected q2 with
  | zero => cases done
  | succ fuel ih =>
    rw [selectFrom] at done
    split at done
    · exact Option.some.inj done ▸ known
    · rename_i inside
      have mem := (mem_cons.mp met).resolve_left inside
      refine ih ?_ (bw_mem ring mem) done
      split
      · exact mem
      · exact known

theorem ring_moved {entry : Nat} (ring : Ring m start (xs ++ entry :: ys)) (ne : start ≠ 0) :
    Ring (lsQueueEntryAddFront (lsQueueEntryRemove m entry) entry start) start
      (entry :: (xs ++ ys)) := by
  have out := nodup_cons.mp ring.rotate.nodup
  have linked : entry ≠ m.bw entry :=
    fun eq => out.1 (eq ▸ (ring.rotate.neighbours (by simp)).1)
  have fresh : entry ∉ start :: (xs ++ ys) := by
    have := out.1
    simp only [mem_cons, mem_append] at this ⊢
    tauto
  have removed : Ring (lsQueueEntryRemove m entry) start (xs ++ ys) := by
    refine ring.remove.1.congr fun x hx => ?_
    have other : x ≠ entry := fun eq => fresh (eq ▸ hx)
    simp [lsQueueEntryRemove, Links.remove, if_neg linked, update_of_ne other]
  rw [lsQueueEntryAddFront, if_neg ne]
  exact removed.insert fresh

/-- With two entries there is always one behind the moved entry. -/
theorem sortFrom_none (ring : Ring m start xs) (ne : start ≠ 0) (two : 2 ≤ xs.length) {q1 : Nat}
    (mem : q1 ∈ xs) (fuel : Nat) : sortFrom compare hint start fuel q1 m = none := by
  induction fuel generalizing q1 m xs with
  | zero => rfl
  | succ fuel ih =>
    have inside : q1 ≠ start := fun eq => (nodup_cons.mp ring.nodup).1 (eq ▸ mem)
    rw [sortFrom, if_neg inside]
    cases select : selectFrom compare hint m start fuel q1 (m.bw q1) with
    | none => rfl
    | some selected =>
      have known := selectFrom_mem ring mem (bw_mem ring mem) select
      obtain ⟨ys, zs, rfl⟩ := append_of_mem known
      have moved := ring_moved ring ne
      have size : 1 ≤ (ys ++ zs).length := by simp at two ⊢; omega
      obtain ⟨x, rest, eq⟩ := exists_cons_of_ne_nil (length_pos_iff.mp size)
      rw [eq] at moved size
      refine ih moved (by simp at size ⊢) ?_
      rw [moved.linked.2.1.1]
      simp

/-- Sorting ends, with the same entries in ascending order, exactly when there is at most one. -/
theorem lsQueueSort_sorts_iff (q : Queue) (compare : Nat → Nat → Int → Int) (hint : Int) :
    (∃ fuel m sorted, lsQueueSort compare hint fuel q.links q.start = some m ∧
      Ring m q.start sorted ∧ sorted.Perm q.entries ∧
        sorted.Pairwise fun a b => compare a b hint ≤ 0) ↔ q.entries.length ≤ 1 := by
  obtain ⟨m, start, entries, ring, ne⟩ := q
  cases entries with
  | nil =>
    refine iff_of_true ⟨1, m, [], ?_, ring, .nil, .nil⟩ (by simp)
    rw [lsQueueSort, sortFrom, if_pos ring.linked.1]
  | cons x xs =>
    rw [length_cons, Nat.succ_le_succ_iff, Nat.le_zero, length_eq_zero_iff]
    constructor
    · rintro ⟨fuel, _, _, done, -⟩
      by_contra some_
      have two : 2 ≤ (x :: xs).length := Nat.succ_le_succ (length_pos_iff.mpr some_)
      rw [lsQueueSort, ring.linked.1.1, sortFrom_none ring ne two mem_cons_self] at done
      cases done
    · rintro rfl
      have other : x ≠ start := fun eq => (nodup_cons.mp ring.nodup).1 (by simp [eq])
      have moved := @ring_moved m start [] [] x ring ne
      refine ⟨2, _, [x], ?_, moved, .refl _, pairwise_singleton ..⟩
      rw [lsQueueSort, ring.linked.1.1, sortFrom, if_neg other, selectFrom, if_pos ring.linked.2.1]
      exact if_pos moved.linked.2.1

/-- Two entries, as `lsQueueEntryAppend_` links them. -/
def twoEntries : Queue where
  links := (((⟨id, id⟩ : Links Nat).init 1).insert 3 1).insert 2 1
  start := 1
  entries := [2, 3]
  ring := ((ring_init _ 1).insert (by decide)).insert (by decide)
  start_ne := by decide

theorem twoEntries_never_sorted : twoEntries.entries = [2, 3] ∧
    ∀ fuel, lsQueueSort (fun a b _ => a - b) 0 fuel twoEntries.links twoEntries.start = none :=
  ⟨rfl, sortFrom_none twoEntries.ring (by decide) (by decide) (by decide)⟩

end Jhlava.LsQueue
