import Mathlib.Algebra.Order.BigOperators.Group.List
import Jhlava.MbdSlots

/-! The entries that `getNumProcs` makes of the candidates: those of its plain
branch, and what is given back when the job cannot start. -/
namespace Jhlava.Mbd
open List

def availSum (cands : List Cand) : Nat := (cands.map (·.numAvailSlots)).sum

/-! The entries of the plain branch, beside the candidates they are made of -/

def Beside (R : Cand → ExecCand → Prop) : List Cand → List ExecCand → Prop
  | _, [] => True
  | [], _ :: _ => False
  | c :: cs, x :: xs => R c x ∧ Beside R cs xs

/-- An entry with only available slots of its host. -/
structure TakenOn (c : Cand) (x : ExecCand) : Prop where
  host : x.hData = some c.hData
  nonneg : 0 ≤ x.numSlots
  le : x.numSlots ≤ c.numAvailSlots
  same : x.numAvailSlots = x.numSlots

def execSum (xs : List ExecCand) : Int := (xs.map (·.numSlots)).sum

namespace Beside

variable {R : Cand → ExecCand → Prop} {cs : List Cand} {xs : List ExecCand}

theorem exists_cand (h : Beside R cs xs) {x : ExecCand} (hx : x ∈ xs) : ∃ c ∈ cs, R c x := by
  induction cs generalizing xs with
  | nil => cases xs <;> simp_all [Beside]
  | cons c cs ih =>
    cases xs with
    | nil => cases hx
    | cons y xs =>
      rcases mem_cons.mp hx with rfl | hx
      · exact ⟨c, by simp, h.1⟩
      · obtain ⟨d, hd, hR⟩ := ih h.2 hx
        exact ⟨d, by simp [hd], hR⟩

end Beside

section Plain

variable {l : Limits} {cands : List Cand} {t : Int}

theorem takeAvail_beside (cands : List Cand) : Beside TakenOn cands (takeAvail l t cands).2 := by
  induction cands generalizing t with
  | nil => trivial
  | cons c cs ih =>
    rw [takeAvail]
    split
    · exact ⟨⟨rfl, by dsimp only; omega, by dsimp only; omega, rfl⟩, ih⟩
    · trivial

theorem takeAvail_sum (cands : List Cand) :
    (takeAvail l t cands).1 = t + execSum (takeAvail l t cands).2 := by
  induction cands generalizing t with
  | nil => simp [takeAvail, execSum]
  | cons c cs ih =>
    rw [takeAvail]
    split
    · simp only [ih, execSum, map_cons, sum_cons]
      omega
    · simp [execSum]

theorem plainProcs_avail : (plainProcs l cands).numAvailEligProc = (takeAvail l 0 cands).1 := by
  simp only [plainProcs]
  split <;> rfl

theorem plainProcs_enough (enough : l.numProcessors ≤ (plainProcs l cands).numAvailEligProc) :
    plainProcs l cands =
      ⟨(takeAvail l 0 cands).1, (takeAvail l 0 cands).1, (takeAvail l 0 cands).2⟩ := by
  rw [plainProcs_avail] at enough
  rw [plainProcs, if_neg (Int.not_lt.mpr enough)]

end Plain

/-! The candidates by their index -/

section Index

variable {c : Cand} {cands : List Cand} {i : Nat}

theorem candAt_eq (h : i < cands.length) : candAt cands i = cands[i] := by
  rw [candAt, getD_eq_getElem?_getD, List.getElem?_eq_getElem h, Option.getD_some]

theorem candAt_mem {i : Nat} (h : i < cands.length) : candAt cands i ∈ cands := by
  rw [candAt_eq h]
  exact getElem_mem h

theorem candAt_zipIdx (h : (c, i) ∈ cands.zipIdx) : i < cands.length ∧ candAt cands i = c := by
  obtain ⟨hi, hc⟩ := mem_zipIdx' h
  exact ⟨hi, (candAt_eq hi).trans hc.symm⟩

end Index

theorem mem_insertIntoSortedBackfilleeList {diff : Nat × CandBackfillee → Int}
    {item p : Nat × CandBackfillee} {bs : List (Nat × CandBackfillee)}
    (h : p ∈ insertIntoSortedBackfilleeList diff item bs) : p = item ∨ p ∈ bs := by
  induction bs with
  | nil => exact .inl (mem_singleton.mp h)
  | cons b bs ih =>
    rw [insertIntoSortedBackfilleeList] at h
    split at h
    · exact mem_cons.mp h
    · rcases mem_cons.mp h with rfl | h
      · exact .inr (by simp)
      · exact (ih h).imp_right fun h => by simp [h]

/-! Slots given back -/

theorem removeFromExec_avail (cands : List Cand) (x : ExecCand) :
    0 ≤ (removeFromExec cands x).2.2 := by
  rw [removeFromExec]
  cases x.backfilleeList with
  | none => exact Int.le_refl 0
  | some bs =>
    apply List.foldlRecOn bs _ (motive := fun r : ExecCand × Int × Int => 0 ≤ r.2.2)
    · exact Int.le_refl 0
    · intro r taken b _
      simp only [removeBackfillSlots]
      omega

theorem doBackfill_avail (l : Limits) (cands : List Cand) (p : Procs) :
    (doBackfill l cands p).numAvailEligProc ≤ p.numAvailEligProc := by
  rw [doBackfill]
  split
  · exact Int.le_refl _
  · have total : 0 ≤ ((p.execCandPtr.map (removeFromExec cands)).map (·.2.2)).sum := by
      apply sum_nonneg
      simp only [mem_map, forall_exists_index, and_imp]
      rintro _ _ x _ rfl rfl
      exact removeFromExec_avail cands x
    simp only [removeBackfillSlotsFromBackfiller]
    omega

/-! A job for which the limits leave two slots -/

def freeCand (hData numSlots numAvailSlots : Nat) : Cand :=
  ⟨hData, infinitInt, 0, 1, numSlots, numAvailSlots, numSlots, numAvailSlots, none⟩

def twoSlotsLeft : PendJob where
  jp := { pendingJob 1 with
    jobBill := { (pendingJob 1).jobBill with numProcessors := 2, maxNumProcessors := 4 } }
  resValPtr := none
  qResValPtr := none
  askedPtr := []
  qAskedPtr := []
  numSlots := 2
  numAvailSlots := 2
  wants := by decide
  wants_le := by decide
  avail_le := by decide

end Jhlava.Mbd
