import Mathlib.Algebra.Order.Ring.Rat

/-! A block of memory that is read and written as an XDR stream, with the primitives that
the other readers and writers are made of: bytes, words and padded bytes. The position is
where the block is cut. -/
namespace Xdr
open List

/-- The bytes before and behind the position. -/
structure Mem where
  before : List UInt8
  left : List UInt8
  small : before.length + left.length < 2 ^ 31

theorem Mem.ext {m n : Mem} (before : m.before = n.before) (left : m.left = n.left) : m = n := by
  cases n
  subst before
  subst left
  rfl

def Mem.pos (m : Mem) : Nat := m.before.length

def Mem.block (m : Mem) : List UInt8 := m.before ++ m.left

def Mem.setPos (m : Mem) (pos : Int) : Mem :=
  if 0 ≤ pos ∧ pos ≤ m.block.length then
    ⟨m.block.take pos.toNat, m.block.drop pos.toNat, by
      rw [← length_append, take_append_drop, block, length_append]
      exact m.small⟩
  else m

def getBytes (n : Nat) (m : Mem) : Option (List UInt8) × Mem :=
  if n ≤ m.left.length then
    (some (m.left.take n), ⟨m.before ++ m.left.take n, m.left.drop n, by
      have := m.small
      simp only [length_append, length_take, length_drop]
      omega⟩)
  else (none, m)

def putBytes (w : List UInt8) (m : Mem) : Bool × Mem :=
  if fits : w.length ≤ m.left.length then
    (true, ⟨m.before ++ w, m.left.drop w.length, by
      have := m.small
      simp only [length_append, length_drop]
      omega⟩)
  else (false, m)

/-! ### What is read and written -/

/-- The bytes `w` have been written at the position. -/
structure Written (m : Mem) (w : List UInt8) (m' : Mem) : Prop where
  before : m'.before = m.before ++ w
  left : ∃ old, old.length = w.length ∧ m.left = old ++ m'.left

/-- The bytes `w` stood at the position and have been passed. -/
structure Passed (m : Mem) (w : List UInt8) (m' : Mem) : Prop where
  before : m'.before = m.before ++ w
  left : m.left = w ++ m'.left

variable {m m₁ m₂ m' : Mem} {w w₁ w₂ : List UInt8}

theorem Written.nil (m : Mem) : Written m [] m := ⟨by simp, [], rfl, rfl⟩

theorem Written.append (first : Written m w₁ m₁) (second : Written m₁ w₂ m₂) :
    Written m (w₁ ++ w₂) m₂ := by
  obtain ⟨old₁, len₁, left₁⟩ := first.left
  obtain ⟨old₂, len₂, left₂⟩ := second.left
  refine ⟨by rw [second.before, first.before, append_assoc], old₁ ++ old₂, ?_, ?_⟩
  · rw [length_append, length_append, len₁, len₂]
  · rw [left₁, left₂, append_assoc]

theorem passed_append_iff : Passed m (w₁ ++ w₂) m₂ ↔ ∃ m₁, Passed m w₁ m₁ ∧ Passed m₁ w₂ m₂ := by
  constructor
  · rintro ⟨before, left⟩
    have small := m.small
    rw [left] at small
    refine ⟨⟨m.before ++ w₁, w₂ ++ m₂.left, ?_⟩, ⟨rfl, ?_⟩, ?_, rfl⟩
    · simp only [length_append] at small ⊢
      omega
    · exact left.trans (append_assoc _ _ _)
    · exact before.trans (append_assoc _ _ _).symm
  · rintro ⟨m₁, first, second⟩
    refine ⟨?_, ?_⟩
    · rw [second.before, first.before, append_assoc]
    · rw [first.left, second.left, append_assoc]

theorem Written.length_le (written : Written m w m') : w.length ≤ m.left.length := by
  obtain ⟨old, len, left⟩ := written.left
  rw [left, length_append]
  omega

theorem Passed.length_le (passed : Passed m w m') : w.length ≤ m.left.length := by
  rw [passed.left, length_append]
  omega

theorem Written.left_length (written : Written m w m') :
    m'.left.length = m.left.length - w.length := by
  obtain ⟨old, len, left⟩ := written.left
  rw [left, length_append]
  omega

theorem putBytes_written (written : putBytes w m = (true, m')) : Written m w m' := by
  unfold putBytes at written
  split_ifs at written with fits
  case neg => cases (Prod.mk.inj written).1
  obtain rfl := (Prod.mk.inj written).2
  refine ⟨rfl, m.left.take w.length, ?_, (take_append_drop _ _).symm⟩
  rw [length_take]
  omega

theorem putBytes_fits (fits : w.length ≤ m.left.length) : ∃ m', putBytes w m = (true, m') := by
  rw [putBytes, dif_pos fits]
  exact ⟨_, rfl⟩

theorem putBytes_fails (fails : (putBytes w m).1 = false) :
    m.left.length < w.length ∧ (putBytes w m).2 = m := by
  unfold putBytes at fails ⊢
  split_ifs at fails ⊢ with fits
  exact ⟨Nat.lt_of_not_le fits, rfl⟩

theorem getBytes_passed (passed : Passed m w m') : getBytes w.length m = (some w, m') := by
  have fits := passed.length_le
  rw [getBytes, if_pos fits]
  have taken : m.left.take w.length = w := by rw [passed.left, take_left]
  refine Prod.ext (congrArg some taken) (Mem.ext ?_ ?_) <;> dsimp only
  · rw [passed.before, taken]
  · rw [passed.left, drop_left]

variable {n : Nat}

theorem getBytes_short (short : m.left.length < n) : getBytes n m = (none, m) := by
  rw [getBytes, if_neg (Nat.not_le_of_lt short)]

theorem getBytes_cases (n : Nat) (m : Mem) :
    (m.left.length < n ∧ getBytes n m = (none, m)) ∨
      ∃ w m', w.length = n ∧ Passed m w m' ∧ getBytes n m = (some w, m') := by
  by_cases fits : n ≤ m.left.length
  · refine .inr ⟨m.left.take n, (getBytes n m).2, by simp; omega, ?_, ?_⟩
    · rw [getBytes, if_pos fits]
      exact ⟨rfl, (take_append_drop _ _).symm⟩
    · rw [getBytes, if_pos fits]
  · exact .inl ⟨Nat.lt_of_not_le fits, getBytes_short (Nat.lt_of_not_le fits)⟩

theorem getBytes_some (read : getBytes n m = (some w, m')) : w.length = n ∧ Passed m w m' := by
  rcases getBytes_cases n m with ⟨-, fails⟩ | ⟨w₁, m₁, len, passed, bytes⟩
  · rw [fails] at read
    cases read
  · rw [bytes] at read
    cases read
    exact ⟨len, passed⟩

/-! ### Positions -/

theorem setPos_self (m : Mem) : m.setPos m.pos = m := by
  rw [Mem.setPos]
  refine Mem.ext ?_ ?_ <;> simp [Mem.block, Mem.pos]

theorem setPos_congr (same : m.block = m'.block) {pos : Int}
    (fits : 0 ≤ pos ∧ pos ≤ m.block.length) :
    m.setPos pos = m'.setPos pos := by
  have fits' : 0 ≤ pos ∧ pos ≤ m'.block.length := same ▸ fits
  rw [Mem.setPos, Mem.setPos, if_pos fits, if_pos fits']
  exact Mem.ext (by simp only [same]) (by simp only [same])

theorem Written.pos (written : Written m w m') : m'.pos = m.pos + w.length := by
  rw [Mem.pos, Mem.pos, written.before, length_append]

section

variable (passed : Passed m w m')
include passed

theorem Passed.block : m'.block = m.block := by
  rw [Mem.block, Mem.block, passed.before, passed.left, append_assoc]

theorem Passed.pos : m'.pos = m.pos + w.length := by
  rw [Mem.pos, Mem.pos, passed.before, length_append]

theorem Passed.setPos : m.setPos (m.pos + w.length) = m' := by
  have fits : (0 : Int) ≤ m.pos + w.length ∧ (m.pos : Int) + w.length ≤ m.block.length := by
    have := passed.length_le
    unfold Mem.pos Mem.block
    rw [length_append]
    omega
  rw [setPos_congr passed.block.symm fits, ← Int.natCast_add, ← passed.pos, setPos_self]

theorem Passed.toWritten : Written m w m' :=
  ⟨passed.before, w, rfl, passed.left⟩

end

theorem Written.rewind (written : Written m w m') :
    (m'.setPos m.pos).before = m.before ∧ Passed (m'.setPos m.pos) w m' := by
  have fits : (0 : Int) ≤ m.pos ∧ (m.pos : Int) ≤ m'.block.length := by
    simp only [Mem.pos, Mem.block, written.before, length_append]
    omega
  rw [Mem.setPos, if_pos fits]
  refine ⟨?_, ?_, ?_⟩ <;> simp [Mem.block, Mem.pos, written.before]

theorem Written.left_eq (written : Written m w₁ m₁) (passed : Passed m w₂ m₂)
    (same : w₁.length = w₂.length) : m₁.left = m₂.left := by
  obtain ⟨old, len, left⟩ := written.left
  exact (append_inj (left.symm.trans passed.left) (len.trans same)).2

theorem setPos_outside {pos : Int} (outside : m.block.length < pos) : m.setPos pos = m := by
  rw [Mem.setPos, if_neg]
  omega

/-! ### Words -/

def be32 (x : BitVec 32) : List UInt8 :=
  [UInt8.ofNat (x.toNat / 2 ^ 24), UInt8.ofNat (x.toNat / 2 ^ 16), UInt8.ofNat (x.toNat / 2 ^ 8),
    UInt8.ofNat x.toNat]

def ofBe32 : List UInt8 → BitVec 32
  | [b3, b2, b1, b0] =>
    BitVec.ofNat 32 (b3.toNat * 2 ^ 24 + b2.toNat * 2 ^ 16 + b1.toNat * 2 ^ 8 + b0.toNat)
  | _ => 0

@[simp] theorem be32_length (x : BitVec 32) : (be32 x).length = 4 := rfl

theorem ofBe32_be32 (x : BitVec 32) : ofBe32 (be32 x) = x := by
  apply BitVec.eq_of_toNat_eq
  simp only [be32, ofBe32, BitVec.toNat_ofNat, UInt8.toNat_ofNat']
  omega

theorem be32_ofBe32 (len : w.length = 4) : be32 (ofBe32 w) = w := by
  match w, len with
  | [b3, b2, b1, b0], _ =>
    have := b3.toNat_lt
    have := b2.toNat_lt
    have := b1.toNat_lt
    have := b0.toNat_lt
    simp only [be32, ofBe32, BitVec.toNat_ofNat, List.cons.injEq, and_true]
    refine ⟨?_, ?_, ?_, ?_⟩ <;> apply UInt8.toNat.inj <;> rw [UInt8.toNat_ofNat'] <;> omega

def getWord (m : Mem) : Option (BitVec 32) × Mem :=
  ((getBytes 4 m).1.map ofBe32, (getBytes 4 m).2)

def putWord (x : BitVec 32) (m : Mem) : Bool × Mem := putBytes (be32 x) m

theorem getWord_passed {x : BitVec 32} (passed : Passed m (be32 x) m') :
    getWord m = (some x, m') := by
  have read : getBytes 4 m = (some (be32 x), m') := getBytes_passed passed
  rw [getWord, read]
  exact Prod.ext (congrArg some (ofBe32_be32 x)) rfl

theorem getWord_short (short : m.left.length < 4) : getWord m = (none, m) := by
  rw [getWord, getBytes_short short]
  rfl

theorem getWord_cases (m : Mem) :
    (m.left.length < 4 ∧ getWord m = (none, m)) ∨
      ∃ x w m', w.length = 4 ∧ Passed m w m' ∧ getWord m = (some x, m') := by
  rcases getBytes_cases 4 m with ⟨short, -⟩ | ⟨w, m', len, passed, read⟩
  · exact .inl ⟨short, getWord_short short⟩
  · refine .inr ⟨ofBe32 w, w, m', len, passed, ?_⟩
    rw [getWord, read]
    rfl

theorem getWord_some {x : BitVec 32} (read : getWord m = (some x, m')) :
    Passed m (be32 x) m' := by
  rcases getBytes_cases 4 m with ⟨-, fails⟩ | ⟨w, m₁, len, passed, bytes⟩
  · rw [getWord, fails] at read
    cases (Prod.mk.inj read).1
  · rw [getWord, bytes] at read
    cases read
    rw [be32_ofBe32 len]
    exact passed

/-! ### Padded bytes -/

/-- The zeros that fill the last word of `n` bytes. -/
def padding (n : Nat) : List UInt8 := List.replicate ((4 - n % 4) % 4) 0

def getPadded (n : Nat) (m : Mem) : Option (List UInt8) × Mem :=
  match getBytes n m with
  | (none, m) => (none, m)
  | (some w, m) => ((getBytes (padding n).length m).1.map fun _ => w,
      (getBytes (padding n).length m).2)

def putPadded (w : List UInt8) (m : Mem) : Bool × Mem :=
  match putBytes w m with
  | (false, m) => (false, m)
  | (true, m) => putBytes (padding w.length) m

theorem putPadded_written (written : putPadded w m = (true, m')) :
    Written m (w ++ padding w.length) m' := by
  unfold putPadded at written
  split at written
  · cases written
  next m₁ first => exact (putBytes_written first).append (putBytes_written written)

theorem putPadded_fits (fits : (w ++ padding w.length).length ≤ m.left.length) :
    ∃ m', putPadded w m = (true, m') := by
  rw [length_append] at fits
  obtain ⟨m₁, first⟩ := putBytes_fits (show w.length ≤ m.left.length by omega)
  have rest := (putBytes_written first).left_length
  rw [putPadded, first]
  exact putBytes_fits (by omega)

theorem getPadded_filled {fill : List UInt8} (len : fill.length = (padding w.length).length)
    (passed : Passed m (w ++ fill) m') : getPadded w.length m = (some w, m') := by
  obtain ⟨m₁, first, second⟩ := passed_append_iff.1 passed
  rw [getPadded, getBytes_passed first, ← len]
  dsimp only
  rw [getBytes_passed second]
  rfl

theorem getPadded_passed (passed : Passed m (w ++ padding w.length) m') :
    getPadded w.length m = (some w, m') :=
  getPadded_filled rfl passed

theorem getPadded_some (read : getPadded n m = (some w, m')) :
    w.length = n ∧ ∃ fill, fill.length = (padding n).length ∧ Passed m (w ++ fill) m' := by
  unfold getPadded at read
  split at read
  · cases read
  next w₁ m₁ first =>
    obtain ⟨len, passed⟩ := getBytes_some first
    cases second : getBytes (padding n).length m₁ with
    | mk fill m₂ =>
      rw [second] at read
      cases fill with
      | none => cases (Prod.mk.inj read).1
      | some fill =>
        cases read
        obtain ⟨fillLen, rest⟩ := getBytes_some second
        exact ⟨len, fill, fillLen, passed_append_iff.2 ⟨m₁, passed, rest⟩⟩

theorem getPadded_short (short : m.left.length < n + (padding n).length) :
    (getPadded n m).1 = none := by
  unfold getPadded
  rcases getBytes_cases n m with ⟨-, fails⟩ | ⟨w, m₁, len, passed, read⟩
  · rw [fails]
  · rw [read]
    have rest : m₁.left.length < (padding n).length := by
      have := congrArg List.length passed.left
      rw [length_append] at this
      omega
    dsimp only
    rw [getBytes_short rest]
    rfl

end Xdr
