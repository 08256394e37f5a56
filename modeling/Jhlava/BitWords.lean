import Mathlib.Algebra.Order.Ring.Rat
import Mathlib.Data.BitVec

/-! Sets of numbers kept as words: number `x` is bit `x % w` of word `x / w`. -/
namespace BitWords

variable {w : Nat}

def bit (ws : List (BitVec w)) (x : Nat) : Bool := (ws[x / w]?.getD 0).getLsbD (x % w)

def members (ws : List (BitVec w)) : Finset Nat :=
  (Finset.range (w * ws.length)).filter fun x => bit ws x

def setBit (ws : List (BitVec w)) (x : Nat) : List (BitVec w) :=
  ws.modify (x / w) (· ||| BitVec.twoPow w (x % w))

def clearBit (ws : List (BitVec w)) (x : Nat) : List (BitVec w) :=
  ws.modify (x / w) (· &&& ~~~BitVec.twoPow w (x % w))

theorem bit_append_zeros (ws : List (BitVec w)) (n x : Nat) :
    bit (ws ++ List.replicate n 0) x = bit ws x := by
  rw [bit, bit]
  by_cases inside : x / w < ws.length
  · rw [List.getElem?_append_left inside]
  · rw [List.getElem?_append_right (not_lt.mp inside), List.getElem?_eq_none (not_lt.mp inside),
      List.getElem?_replicate]
    split <;> rfl

variable {x : Nat}

theorem same_place (w x y : Nat) : y = x ↔ y / w = x / w ∧ y % w = x % w := by
  constructor
  · rintro rfl
    exact ⟨rfl, rfl⟩
  · rintro ⟨word, place⟩
    rw [← Nat.div_add_mod y w, word, place, Nat.div_add_mod]

section Words

variable (pos : 0 < w)
include pos

variable {ws : List (BitVec w)}

theorem bit_lt (set : bit ws x = true) : x < w * ws.length := by
  by_contra large
  have beyond : ws.length ≤ x / w := by
    rw [Nat.le_div_iff_mul_le pos, Nat.mul_comm]
    exact not_lt.mp large
  rw [bit, List.getElem?_eq_none beyond] at set
  simp at set

theorem mem_members : x ∈ members ws ↔ bit ws x = true := by
  rw [members, Finset.mem_filter, Finset.mem_range]
  exact ⟨And.right, fun set => ⟨bit_lt pos set, set⟩⟩

theorem members_append_zeros (ws : List (BitVec w)) (n : Nat) :
    members (ws ++ List.replicate n 0) = members ws := by
  ext x
  rw [mem_members pos, mem_members pos, bit_append_zeros]

theorem members_zeros (n : Nat) : members (List.replicate n (0 : BitVec w)) = ∅ := by
  have zeros := members_append_zeros pos [] n
  rw [List.nil_append] at zeros
  rw [zeros]
  rfl

section

variable (inside : x < w * ws.length)
include inside

theorem bit_modify (f : BitVec w → BitVec w) (y : Nat) :
    bit (ws.modify (x / w) f) y =
      if y / w = x / w then (f (ws[x / w]?.getD 0)).getLsbD (y % w) else bit ws y := by
  have word : x / w < ws.length := by
    rw [Nat.div_lt_iff_lt_mul pos, Nat.mul_comm]
    exact inside
  rw [bit, bit, List.getElem?_modify]
  by_cases same : y / w = x / w
  · rw [same, List.getElem?_eq_getElem word]
    simp
  · rw [if_neg same]
    simp [Ne.symm same]

theorem members_setBit : members (setBit ws x) = insert x (members ws) := by
  ext y
  rw [Finset.mem_insert, mem_members pos, mem_members pos, setBit, bit_modify pos inside]
  by_cases word : y / w = x / w
  · rw [BitVec.getLsbD_or, bit, word]
    by_cases place : y % w = x % w
    · simp [same_place w x y, word, place, Nat.mod_lt x pos]
    · simp [same_place w x y, place, Ne.symm place]
  · simp [same_place w x y, word]

theorem members_clearBit : members (clearBit ws x) = (members ws).erase x := by
  ext y
  rw [Finset.mem_erase, mem_members pos, mem_members pos, clearBit, bit_modify pos inside]
  have small := Nat.mod_lt y pos
  by_cases word : y / w = x / w
  · rw [BitVec.getLsbD_and, BitVec.getLsbD_not, bit, word]
    by_cases place : y % w = x % w
    · simp [same_place w x y, word, place, Nat.mod_lt x pos]
    · simp [same_place w x y, place, small]
  · simp [same_place w x y, word]

end

variable {d s : List (BitVec w)}

theorem mem_combine (le : s.length ≤ d.length) (f : BitVec w → BitVec w → BitVec w)
    (g : Bool → Bool → Bool) (tail : BitVec w → BitVec w)
    (each : ∀ a b i, (f a b).getLsbD i = g (a.getLsbD i) (b.getLsbD i))
    (last : ∀ a i, (tail a).getLsbD i = g (a.getLsbD i) false) (zero : g false false = false)
    (x : Nat) :
    x ∈ members (List.zipWith f d s ++ (d.drop s.length).map tail) ↔
      g (decide (x ∈ members d)) (decide (x ∈ members s)) = true := by
  simp only [mem_members pos, Bool.decide_eq_true]
  suffices h : bit (List.zipWith f d s ++ (d.drop s.length).map tail) x = g (bit d x) (bit s x) by
    rw [h]
  have short : (List.zipWith f d s).length = s.length := by
    rw [List.length_zipWith, Nat.min_eq_right le]
  simp only [bit]
  by_cases inside : x / w < s.length
  · rw [List.getElem?_append_left (short ▸ inside), List.getElem?_zipWith,
      List.getElem?_eq_getElem inside, List.getElem?_eq_getElem (lt_of_lt_of_le inside le)]
    exact each _ _ _
  · have outside := not_lt.mp inside
    rw [List.getElem?_append_right (short ▸ outside), short, List.getElem?_map, List.getElem?_drop,
      Nat.add_sub_cancel' outside, List.getElem?_eq_none outside]
    by_cases known : x / w < d.length
    · rw [List.getElem?_eq_getElem known]
      simp [last]
    · rw [List.getElem?_eq_none (not_lt.mp known)]
      simp [zero]

theorem eq_of_members (length : d.length = s.length) (same : members d = members s) : d = s := by
  refine List.ext_getElem length fun i inD inS => ?_
  refine BitVec.eq_of_getLsbD_eq fun k inside => ?_
  have word : (w * i + k) / w = i := by
    rw [Nat.mul_add_div pos, Nat.div_eq_of_lt inside, Nat.add_zero]
  have place : (w * i + k) % w = k := by
    rw [Nat.mul_add_mod, Nat.mod_eq_of_lt inside]
  have bits : bit d (w * i + k) = bit s (w * i + k) := by
    rw [Bool.eq_iff_iff, ← mem_members pos, ← mem_members pos, same]
  simpa [bit, word, place, inD, inS] using bits

end Words

end BitWords
