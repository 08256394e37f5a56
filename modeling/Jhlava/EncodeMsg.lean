import Jhlava.ChannelBase
import Jhlava.XdrMem

/-! `xdr_encodeMsg` of lib.xdr.c: the header is written in front of a body that is already there. -/
namespace Jhlava.Channel
open Xdr List

/-- A packed pair of short fields, as `encodeHdr` builds it. The lower one is widened with its
sign when its type has one, and masked. -/
def packPair (high low : BitVec 16) (signed : Bool) : BitVec 32 :=
  high.zeroExtend 32 <<< 16 |||
    ((if signed then low.signExtend 32 else low.zeroExtend 32) &&& 0x0000FFFF#32)

/-- The words of `encodeHdr`; `opCode` is the only field with a sign. -/
def encodeHdr (header : LSFHeader) : List (BitVec 32) :=
  [packPair header.refCode header.opCode true, header.length,
    packPair header.version header.reserved false, header.reserved0]

/-- The calls are joined by `&&`: after a failure nothing more is written. -/
def next (r : Bool × Mem) (f : Mem → Bool × Mem) : Bool × Mem := if r.1 then f r.2 else r

def putWords : List (BitVec 32) → Mem → Bool × Mem
  | [], m => (true, m)
  | word :: words, m => next (putWord word m) (putWords words)

/-- What a body is written with: any writer that moves forward over what it writes. -/
structure Encoder where
  run : Mem → Bool × Mem
  writes : ∀ m m', run m = (true, m') → ∃ w, Written m w m'

/-- A body or an `auth` that is `NULL` is left out. -/
def encodePart (part : Option Encoder) (m : Mem) : Bool × Mem :=
  (part.map fun e => e.run m).getD (true, m)

def jhlavaVersion : BitVec 16 := 10

/-- `xdr_encodeMsg`, with `ENMSG_USE_LENGTH` of its options. -/
def xdrEncodeMsg (m : Mem) (hdr : LSFHeader) (useLength : Bool) (auth data : Option Encoder) :
    Bool × Mem :=
  next (encodePart auth (m.setPos lsfHeaderLen)) fun m =>
    next (encodePart data m) fun m =>
      let len : Int := m.pos
      let hdr := { hdr with
        version := jhlavaVersion
        length := if useLength then hdr.length else BitVec.ofInt 32 (len - lsfHeaderLen) }
      next (putWords (encodeHdr hdr) (m.setPos 0)) fun m => (true, m.setPos len)

theorem packPair_high (high low : BitVec 16) (signed : Bool) :
    (packPair high low signed >>> 16).truncate 16 = high := by
  ext i hi
  have inside : 16 + i < 32 := by omega
  have above : ∀ i < 16, (0x0000FFFF#32).getLsbD (16 + i) = false := by decide
  have masked : (0x0000FFFF#32)[16 + i] = false := above i hi
  simp [packPair, masked, inside, hi]

theorem packPair_low (high low : BitVec 16) (signed : Bool) :
    (packPair high low signed &&& 0xFFFF#32).truncate 16 = low := by
  ext i hi
  have ones : ∀ i, (h : i < 16) → (0xFFFF#16)[i] = true := by decide
  have inside : i < 32 := by omega
  cases signed <;> simp [packPair, BitVec.getElem_signExtend, ones i hi, inside, hi]

theorem toNat_append {n k : Nat} (x : BitVec n) (y : BitVec k) :
    (x ++ y).toNat = x.toNat * 2 ^ k + y.toNat := by
  rw [BitVec.toNat_append, ← Nat.shiftLeft_add_eq_or_of_lt y.isLt, Nat.shiftLeft_eq]

theorem xdrUInt_be32 (x : BitVec 32) (rest : List UInt8) :
    xdrUInt (be32 x ++ rest) = some (x, rest) := by
  refine congrArg (fun x => some (x, rest)) (BitVec.eq_of_toNat_eq ?_)
  simp only [toNat_append, UInt8.toNat_toBitVec, UInt8.toNat_ofNat']
  omega

theorem xdrLSFHeader_words (header : LSFHeader) (rest : List UInt8) :
    xdrLSFHeader ((encodeHdr header).flatMap be32 ++ rest) = some header := by
  simp only [encodeHdr, flatMap_cons, flatMap_nil, append_assoc, xdrLSFHeader,
    xdrUInt_be32, Option.bind_eq_bind, Option.bind_some, packPair_high, packPair_low]
  rfl

variable {m m' : Mem} {w : List UInt8}

theorem next_eq_true {r : Bool × Mem} {f : Mem → Bool × Mem}
    (h : next r f = (true, m')) : ∃ m, r = (true, m) ∧ f m = (true, m') := by
  obtain ⟨done, m⟩ := r
  cases done with
  | false => cases (Prod.mk.inj h).1
  | true => exact ⟨m, rfl, h⟩

theorem putWords_written {words : List (BitVec 32)} (h : putWords words m = (true, m')) :
    Written m (words.flatMap be32) m' := by
  induction words generalizing m with
  | nil =>
    obtain rfl := (Prod.mk.inj h).2
    exact .nil _
  | cons word words ih =>
    obtain ⟨m₁, first, rest⟩ := next_eq_true h
    exact (putBytes_written first).append (ih rest)

theorem length_block (written : Written m w m') : m'.block.length = m.block.length := by
  obtain ⟨old, len, left⟩ := written.left
  simp only [Mem.block, length_append, written.before, left, len]
  omega

theorem setPos_before {pos : Nat} (fits : pos ≤ m.block.length) :
    (m.setPos pos).before = m.block.take pos := by
  rw [Mem.setPos, if_pos (by omega)]
  rfl

theorem setPos_block (pos : Int) : (m.setPos pos).block = m.block := by
  rw [Mem.setPos]
  split
  · exact take_append_drop _ _
  · rfl

theorem encodePart_pos {part : Option Encoder} (h : encodePart part m = (true, m')) :
    m.pos ≤ m'.pos ∧ m'.block.length = m.block.length := by
  cases part with
  | none =>
    obtain rfl := (Prod.mk.inj h).2
    exact ⟨le_rfl, rfl⟩
  | some e =>
    obtain ⟨w, written⟩ := e.writes m m' h
    exact ⟨by rw [written.pos]; omega, length_block written⟩

/-- The header that is sent is the caller's but for the version, and for the length unless the
caller asks to keep it. -/
theorem xdrEncodeMsg_header {hdr : LSFHeader} {useLength : Bool} {auth data : Option Encoder}
    (h : xdrEncodeMsg m hdr useLength auth data = (true, m')) :
    lsfHeaderLen ≤ m'.before.length ∧
      xdrLSFHeader m'.before = some { hdr with
        version := jhlavaVersion
        length := if useLength then hdr.length
          else BitVec.ofNat 32 (m'.before.length - lsfHeaderLen) } := by
  obtain ⟨m₁, authDone, h⟩ := next_eq_true h
  obtain ⟨m₂, dataDone, h⟩ := next_eq_true h
  obtain ⟨m₃, header, h⟩ := next_eq_true h
  obtain rfl := (Prod.mk.inj h).2
  have written := putWords_written header
  obtain ⟨pos₁, block₁⟩ := encodePart_pos authDone
  obtain ⟨pos₂, block₂⟩ := encodePart_pos dataDone
  have block₃ := length_block written
  rw [setPos_block] at block₁ block₃
  -- the header fits, so the block was long enough for the first `XDR_SETPOS`
  have front : m₃.before = _ := written.before
  rw [show m₂.setPos 0 = m₂.setPos (0 : Nat) from rfl, setPos_before (Nat.zero_le _)] at front
  have len : m₃.before.length = 16 := by rw [front]; rfl
  have room : 16 ≤ m₃.block.length := by
    rw [Mem.block, length_append]
    omega
  have start : (m.setPos lsfHeaderLen).pos = 16 := by
    rw [Mem.pos, setPos_before (by rw [lsfHeaderLen]; omega), length_take, lsfHeaderLen]
    omega
  have fits : m₂.pos ≤ m₂.block.length := by
    rw [Mem.pos, Mem.block, length_append]
    omega
  have sent : (m₃.setPos m₂.pos).before = m₃.before ++ m₃.left.take (m₂.pos - 16) := by
    rw [setPos_before (by omega), Mem.block, take_append, len,
      take_of_length_le (by omega)]
  have count : (m₃.setPos m₂.pos).before.length = m₂.pos := by
    rw [setPos_before (by omega), length_take]
    omega
  refine ⟨by rw [lsfHeaderLen]; omega, ?_⟩
  rw [count, sent, front, take_zero, nil_append, xdrLSFHeader_words]
  have whole : ((m₂.pos : Int) - lsfHeaderLen) = ((m₂.pos - lsfHeaderLen : Nat) : Int) := by
    rw [lsfHeaderLen]
    omega
  rw [whole, BitVec.ofInt_natCast]

def wordEncoder (word : BitVec 32) : Encoder :=
  ⟨putWord word, fun _ _ h => ⟨be32 word, putBytes_written h⟩⟩

def smallBlock : Mem := ⟨[], List.replicate 24 0, by decide⟩

def oldHeader : LSFHeader := ⟨-1, 7, 5, 3, 0, 0⟩

theorem xdrEncodeMsg_header_twoWords :
    let sent := xdrEncodeMsg smallBlock oldHeader false (some (wordEncoder 1))
      (some (wordEncoder 9))
    sent.1 = true ∧ sent.2.before.drop 16 = [0, 0, 0, 1, 0, 0, 0, 9] ∧
      xdrLSFHeader sent.2.before = some ⟨-1, 7, 8, 10, 0, 0⟩ := by
  have done : (xdrEncodeMsg smallBlock oldHeader false (some (wordEncoder 1))
      (some (wordEncoder 9))).1 = true := by decide +kernel
  exact ⟨done, by decide +kernel, (xdrEncodeMsg_header (Prod.ext done rfl)).2⟩

/-- The version of the caller is not sent, and a length that is kept need not be the body's. -/
theorem oldHeader_changed :
    let sent := xdrEncodeMsg smallBlock oldHeader true none (some (wordEncoder 9))
    sent.1 = true ∧ sent.2.before.length = 20 ∧
      xdrLSFHeader sent.2.before = some ⟨-1, 7, 5, 10, 0, 0⟩ := by
  decide +kernel

end Jhlava.Channel
