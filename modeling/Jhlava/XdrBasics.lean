import Jhlava.XdrCodec

/-! The codecs of lib.xdr.c and lib.xdrmisc.c that the messages are made of. Each function
of the source is one codec; a record is the row of its fields in the order in which they
are sent. Memory is granted for every length that is not negative. -/
namespace Jhlava.Message
open Xdr List

/-- `MAXHOSTNAMELEN`. -/
def maxHostNameLen : Nat := 64

/-- `MAXFILENAMELEN`. -/
def maxFileNameLen : Nat := 256

/-- `MAXLINELEN`. -/
def maxLineLen : Nat := 512

/-- `MAX_LSB_NAME_LEN`. -/
def maxLsbNameLen : Nat := 60

/-- `MAXPATHLEN`. -/
def maxPathLen : Nat := 4096

/-- `xdr_time_t` is `xdr_long`, which refuses to send what is not a 32-bit number. -/
def xdrTime : Codec (BitVec 64) :=
  xdrWord.via (BitVec.signExtend 64)
    (fun t => if (t.setWidth 32).signExtend 64 = t then some (t.setWidth 32) else none)
    fun t x parts => by
      split_ifs at parts with fits
      rw [← Option.some.inj parts, fits]

/-! ### Array elements -/

variable {α : Type}

/-- `xdr_arrayElement` when it writes: the place of the offset is passed over and filled
when the element has been written. -/
def encodeElement (c : Codec α) (v : α) (m : Mem) : Bool × Mem :=
  let pos := m.pos
  match c.encode v (m.setPos (pos + 4)) with
  | (false, m) => (false, m)
  | (true, m) =>
    let nextElementOffset := BitVec.ofNat 32 (m.pos - pos)
    match putWord nextElementOffset (m.setPos pos) with
    | (false, m) => (false, m)
    | (true, m) => (true, m.setPos (pos + nextElementOffset.toInt))

/-- `xdr_arrayElement` when it reads. -/
def decodeElement (c : Codec α) (m : Mem) : Option α × Mem :=
  let pos := m.pos
  match getWord m with
  | (none, m) => (none, m)
  | (some nextElementOffset, m) =>
    match c.decode m with
    | (none, m) => (none, m)
    | (some v, m) => (some v, m.setPos (pos + nextElementOffset.toInt))

theorem encodeElement_short (c : Codec α) (v : α) {m : Mem} (short : m.left.length < 4) :
    (encodeElement c v m).1 = false := by
  have stays : m.setPos (m.pos + 4) = m := setPos_outside (by
    simp only [Mem.block, Mem.pos, length_append]
    omega)
  unfold encodeElement
  dsimp only
  rw [stays]
  split
  · rfl
  next m₁ encoded =>
    obtain ⟨w, -, written⟩ := c.written v m m₁ encoded
    have rewound := congrArg List.length written.rewind.2.left
    have left := written.left_length
    have le := written.length_le
    rw [length_append] at rewound
    split
    · rfl
    next m₂ put =>
      have room := (putBytes_written put).length_le
      rw [be32_length] at room
      omega

/-- With room for the offset the element is written behind it. -/
theorem encodeElement_eq (c : Codec α) (v : α) {m m₀ : Mem} {gap : List UInt8}
    (four : gap.length = 4) (passed : Passed m gap m₀) {m₁ : Mem}
    (encoded : c.encode v m₀ = (true, m₁)) {w : List UInt8} (written : Written m₀ w m₁) :
    ∃ m', encodeElement c v m = (true, m') ∧
      Written m (be32 (BitVec.ofNat 32 (w.length + 4)) ++ w) m' := by
  have start : m.setPos (m.pos + 4) = m₀ := by
    have := passed.setPos
    rwa [four] at this
  have whole := passed.toWritten.append written
  have offset : m₁.pos - m.pos = w.length + 4 := by
    have := whole.pos
    rw [length_append] at this
    omega
  have small : w.length + 4 < 2 ^ 31 := by
    have bound := m.small
    have le := whole.length_le
    rw [length_append] at le
    omega
  obtain ⟨sameBefore, rewound⟩ := whole.rewind
  obtain ⟨m₂, overGap, overElement⟩ := passed_append_iff.1 rewound
  have room : (be32 (BitVec.ofNat 32 (w.length + 4))).length ≤ (m₁.setPos m.pos).left.length := by
    rw [be32_length, ← four]
    exact overGap.length_le
  obtain ⟨m₃, put⟩ := putBytes_fits room
  have filled := putBytes_written put
  have behind : m₃.left = m₂.left := filled.left_eq overGap (by rw [be32_length, four])
  -- the element stands behind the offset, where it was written
  obtain ⟨m', passed⟩ : ∃ m', Passed m₃ w m' := by
    refine ⟨⟨m₃.before ++ w, m₁.left, ?_⟩, rfl, by rw [behind, overElement.left]⟩
    have bound := m₃.small
    rw [behind, overElement.left, length_append] at bound
    rw [length_append]
    omega
  have atEnd : m₃.setPos (m.pos + (BitVec.ofNat 32 (w.length + 4)).toInt) = m' := by
    have pos := filled.pos
    rw [be32_length, Mem.pos, Mem.pos, sameBefore] at pos
    rw [toInt_ofNat_small small, ← passed.setPos]
    congr 1
    simp only [Mem.pos, pos]
    omega
  refine ⟨m', ?_, ?_⟩
  · unfold encodeElement
    dsimp only
    rw [start, encoded]
    dsimp only
    rw [offset, putWord, put]
    dsimp only
    rw [atEnd]
  · obtain ⟨old, len, left⟩ := whole.left
    refine ⟨?_, old, ?_, ?_⟩
    · rw [passed.before, filled.before, sameBefore, append_assoc]
    · rw [len, length_append, length_append, four, be32_length]
    · have rest : m'.left = m₁.left := by
        have same := passed.left
        rw [behind, overElement.left] at same
        exact (append_cancel_left same).symm
      rw [left, rest]

/-- `xdr_arrayElement`. -/
def xdrArrayElement (c : Codec α) : Codec α where
  encode := encodeElement c
  decode := decodeElement c
  bytes v := (c.bytes v).bind fun w =>
    if w.length + 4 < 2 ^ 31 then some (be32 (BitVec.ofNat 32 (w.length + 4)) ++ w) else none
  layout := .framed c.layout
  written v m m' encoded := by
    rcases getBytes_cases 4 m with ⟨short, -⟩ | ⟨gap, m₀, four, passed, -⟩
    · have fails := encodeElement_short c v short
      rw [encoded] at fails
      cases fails
    · have start : m.setPos (m.pos + 4) = m₀ := by
        have := passed.setPos
        rwa [four] at this
      cases inner : c.encode v m₀ with
      | mk ok m₁ =>
        cases ok with
        | false =>
          have fails : encodeElement c v m = (false, m₁) := by
            unfold encodeElement
            dsimp only
            rw [start, inner]
          rw [encoded] at fails
          cases (Prod.mk.inj fails).1
        | true =>
          obtain ⟨w, isBytes, written⟩ := c.written v m₀ m₁ inner
          obtain ⟨m₂, encoded', whole⟩ := encodeElement_eq c v four passed inner written
          obtain rfl := (Prod.mk.inj (encoded.symm.trans encoded')).2
          have bound := m.small
          have le := whole.length_le
          rw [length_append, be32_length] at le
          refine ⟨_, ?_, whole⟩
          rw [isBytes]
          exact if_pos (by omega)
  fits v w m isBytes fits := by
    obtain ⟨w₂, isSecond, rest⟩ := Option.bind_eq_some_iff.1 isBytes
    split_ifs at rest
    obtain rfl := Option.some.inj rest
    rw [length_append, be32_length] at fits
    rcases getBytes_cases 4 m with ⟨short, -⟩ | ⟨gap, m₀, four, passed, -⟩
    · omega
    · have left := congrArg List.length passed.left
      rw [length_append] at left
      have encoded : c.encode v m₀ = (true, _) := Prod.ext (c.fits v w₂ m₀ isSecond (by omega)) rfl
      obtain ⟨w, isBytes, written⟩ := c.written v m₀ _ encoded
      obtain ⟨m', whole, -⟩ := encodeElement_eq c v four passed encoded written
      rw [whole]
  passed v w m m' isBytes passed := by
    obtain ⟨w₂, isSecond, rest⟩ := Option.bind_eq_some_iff.1 isBytes
    split_ifs at rest with small
    obtain rfl := Option.some.inj rest
    obtain ⟨m₁, first, second⟩ := passed_append_iff.1 passed
    have atEnd : m'.setPos (m.pos + (BitVec.ofNat 32 (w₂.length + 4)).toInt) = m' := by
      have pos := passed.pos
      rw [length_append, be32_length] at pos
      have same : (m.pos : Int) + (BitVec.ofNat 32 (w₂.length + 4)).toInt = m'.pos := by
        rw [toInt_ofNat_small small, pos]
        omega
      rw [same, setPos_self]
    unfold decodeElement
    dsimp only
    rw [getWord_passed first]
    dsimp only
    rw [c.passed v w₂ m₁ m' isSecond second]
    dsimp only
    rw [atEnd]
  cut v w m isBytes part proper := by
    obtain ⟨w₂, isSecond, rest⟩ := Option.bind_eq_some_iff.1 isBytes
    split_ifs at rest with small
    obtain rfl := Option.some.inj rest
    unfold decodeElement
    dsimp only
    rcases cut_append part proper with ⟨inFirst, short⟩ | ⟨m₁, first, inSecond, short⟩
    · have lt := inFirst.length_le.lt_of_ne fun eq => short (inFirst.eq_of_length eq)
      rw [getWord_short lt]
    · rw [getWord_passed first]
      dsimp only
      have fails := c.cut v w₂ m₁ isSecond inSecond short
      split
      · rfl
      next read => simp [read] at fails
  accepts m := by
    unfold decodeElement
    rw [Layout.skip]
    dsimp only
    rcases getWord_cases m with ⟨-, fails⟩ | ⟨x, w, m₁, -, -, read⟩
    · rw [fails]
      rfl
    · rw [read]
      dsimp only
      rw [c.accepts m₁]
      cases c.decode m₁ with
      | mk v m₂ => cases v <;> rfl

/-! ### Texts and data of any length -/

/-- `malloc(len + 1)` gives no memory. -/
def mallocFails (len : BitVec 32) : Prop := len.toInt < -1 ∨ len.toInt = 2 ^ 31 - 1

instance (len : BitVec 32) : Decidable (mallocFails len) := inferInstanceAs (Decidable (_ ∨ _))

/-- `xdr_var_string` when it reads: the length is read once for the memory and once more
with the string. -/
def decodeVarString (m : Mem) : Option CString × Mem :=
  let pos := m.pos
  match getWord m with
  | (none, m) => (none, m)
  | (some len, m) =>
    if mallocFails len then (none, m)
    else (xdrString (len + 1).toNat).decode (m.setPos pos)

/-- What `xdr_var_string` does, without the second reading. -/
def varStringOnce : Codec CString :=
  (Codec.sized fun len =>
    if mallocFails len then .refused
    else if len.toNat > (len + 1).toNat then .refused
    else .padded len.toNat).iso cString Subtype.val cString_val

theorem decodeVarString_eq (m : Mem) : decodeVarString m = varStringOnce.decode m := by
  unfold decodeVarString varStringOnce
  rcases getWord_cases m with ⟨-, fails⟩ | ⟨len, w, m₁, -, passed, read⟩
  · simp only [fails, Codec.iso, Codec.via, Codec.sized, Codec.word]
    rfl
  · have rewound : m₁.setPos m.pos = m := by
      rw [← setPos_congr passed.block.symm, setPos_self]
      simp only [Mem.pos, Mem.block, length_append]
      omega
    rw [read]
    dsimp only
    rw [rewound]
    by_cases fails : mallocFails len
    · simp only [if_pos fails, Codec.iso, Codec.via, Codec.sized, Codec.word, read]
      rfl
    · simp only [if_neg fails, xdrString, xdrBytes, Codec.iso, Codec.via, Codec.sized, Codec.word,
        read]

/-- `xdr_var_string` when it writes. -/
def encodeVarString (s : CString) (m : Mem) : Bool × Mem := (xdrString (s.1.length + 1)).encode s m

theorem encodeVarString_eq (s : CString) (m : Mem) :
    encodeVarString s m = varStringOnce.encode s m := by
  unfold encodeVarString varStringOnce
  simp only [xdrString, xdrBytes, Codec.iso, Codec.via, Codec.sized, Codec.word, putBehindWord]
  split
  · rfl
  next m₁ put =>
    have written := putBytes_written put
    by_cases small : s.1.length < 2 ^ 31 - 1
    · have size := toNat_ofNat_small (show s.1.length < 2 ^ 31 by omega)
      have granted : ¬mallocFails (BitVec.ofNat 32 s.1.length) := by
        rw [mallocFails, toInt_ofNat_small (by omega)]
        omega
      have more : ¬(BitVec.ofNat 32 s.1.length).toNat > (BitVec.ofNat 32 s.1.length + 1).toNat := by
        rw [BitVec.toNat_add, size]
        change ¬s.1.length > (s.1.length + 1) % 2 ^ 32
        omega
      rw [if_neg (by omega), if_neg granted, if_neg more]
    · -- such a text has no room in any block, whatever its length is sent as
      have noRoom : ∀ n, (Codec.padded n).encode s.1 m₁ = (false, m₁) := by
        intro n
        have bound := m₁.small
        have before := congrArg List.length written.before
        rw [length_append, be32_length] at before
        simp only [Codec.padded, putPadded]
        split_ifs
        · rw [putBytes, dif_neg (by omega)]
        · rfl
      have refused : (Codec.refused : Codec (List UInt8)).encode s.1 m₁ = (false, m₁) := rfl
      split_ifs <;> simp only [noRoom, refused]

/-- `xdr_var_string`. -/
def xdrVarString : Codec CString :=
  varStringOnce.withFunctions encodeVarString decodeVarString encodeVarString_eq decodeVarString_eq

/-- `xdr_lenData`: the length is sent twice, unless it is zero. -/
def xdrLenData : Codec (List UInt8) :=
  Codec.sized fun len =>
    if len = 0 then .padded 0
    else if len.toInt < 0 then .refused
    else xdrBytes len.toNat

end Jhlava.Message
