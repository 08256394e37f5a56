import Mathlib.Algebra.Order.Ring.Nat
import Jhlava.CValues
import Jhlava.SubmitXdr

/-! `xdrSubReqSize` of lsb.sub.c, the size of the buffer for a request, and the bytes that
`xdr_submitReq` writes. -/
namespace Jhlava.Message
open Xdr CValues Option List

/-! ### Bounds of encodings -/

/-- An encoding of `v` that has room in a block has at most `n` bytes. -/
def AtMost {α : Type} (c : Codec α) (v : α) (n : Nat) : Prop :=
  ∀ w, c.bytes v = some w → w.length < 2 ^ 31 → w.length ≤ n

namespace AtMost

variable {α β : Type} {c : Codec α} {d : Codec β} {a : α} {b : β} {n k : Nat}

theorem seq (first : AtMost c a n) (second : AtMost d b k) : AtMost (c.seq d) (a, b) (n + k) := by
  intro w isBytes room
  obtain ⟨w₁, isFirst, rest⟩ := bind_eq_some_iff.1 isBytes
  obtain ⟨w₂, isSecond, rfl⟩ := map_eq_some_iff.1 rest
  rw [length_append] at room ⊢
  exact Nat.add_le_add (first w₁ isFirst (by omega)) (second w₂ isSecond (by omega))

theorem iso {make : α → β} {parts : β → α} {back : ∀ b, make (parts b) = b}
    (h : AtMost c (parts b) n) : AtMost (c.iso make parts back) b n := h

theorem behindWord {γ : BitVec 32 → Type} {c : (x : BitVec 32) → Codec (γ x)}
    {v : (x : BitVec 32) × γ x} (h : AtMost (c v.1) v.2 n) : AtMost (Codec.word c) v (4 + n) := by
  intro w isBytes room
  obtain ⟨w₂, isSecond, rfl⟩ := map_eq_some_iff.1 isBytes
  rw [length_append, be32_length] at room ⊢
  exact Nat.add_le_add_left (h w₂ isSecond (by omega)) 4

theorem unit : AtMost Codec.unit () 0 := by
  intro w isBytes _
  cases isBytes
  exact Nat.le_refl 0

theorem word {x : BitVec 32} : AtMost xdrWord x 4 := iso (@behindWord 0 _ _ _ unit)

theorem fixed {m : Nat} {v : Fin m → α} {f : Fin m → Nat} (h : ∀ i, AtMost c (v i) (f i)) :
    AtMost (c.fixed m) v (ofFn f).sum := by
  induction m with
  | zero => exact unit
  | succ m ih =>
    rw [ofFn_succ, sum_cons]
    exact iso ((h 0).seq (ih fun i => h i.succ))

theorem arrayElement (h : AtMost c a n) : AtMost (xdrArrayElement c) a (4 + n) := by
  intro w isBytes room
  obtain ⟨w₂, isSecond, rest⟩ := bind_eq_some_iff.1 isBytes
  split_ifs at rest
  cases rest
  rw [length_append, be32_length] at room ⊢
  exact Nat.add_le_add_left (h w₂ isSecond (by omega)) 4

theorem sized {c : BitVec 32 → Codec (List UInt8)} {d : List UInt8}
    (each : ∀ len, c len = .refused ∨ c len = .padded len.toNat)
    (le : d.length < 2 ^ 31 → 4 + (d.length + 3) / 4 * 4 ≤ n) : AtMost (Codec.sized c) d n := by
  intro w isBytes room
  obtain ⟨w₂, isSecond, rfl⟩ := map_eq_some_iff.1 isBytes
  dsimp only at isSecond
  rcases each (BitVec.ofNat 32 d.length) with refused | padded
  · rw [refused] at isSecond
    cases isSecond
  · rw [padded] at isSecond
    obtain ⟨-, eq⟩ := ite_none_right_eq_some.1 isSecond
    cases eq
    rw [length_append, be32_length, length_append, padding, length_replicate] at room ⊢
    have := le (by omega)
    omega

variable {max : Nat} {s : CString} (le : s.1.length < 2 ^ 31 → 4 + (s.1.length + 3) / 4 * 4 ≤ n)
include le

theorem string : AtMost (xdrString max) s n := iso (sized (fun _ => by split_ifs <;> simp) le)

theorem varString : AtMost xdrVarString s n :=
  show AtMost varStringOnce s n from iso (sized (fun _ => by split_ifs <;> simp) le)

end AtMost

/-! ### The estimate -/

/-- `ALIGNWORD_`. -/
def alignWord (s : Nat) : Nat := (s &&& 0xfffffffc) + 4

/-- `sizeof(struct submitReq)`, with pointers and times of eight bytes. -/
def sizeofSubmitReq : Nat := 336

/-- `sizeof(struct xFile)`. -/
def sizeofXFile : Nat := 2 * maxFileNameLen + 4

/-- What is reserved for most of the texts. -/
def textSize (s : CString) : Nat := alignWord (s.1.length + 1) + 4

/-- What `xdrSubReqSize` adds up. -/
def subReqSum (r : SubmitReq) : Nat :=
  1024 + alignWord sizeofSubmitReq + textSize r.queue + (alignWord r.resReq.1.length + 4) +
    textSize r.fromHost + textSize r.dependCond + textSize r.jobName + textSize r.command +
    textSize r.jobFile + textSize r.inFile + textSize r.outFile + textSize r.errFile +
    textSize r.inFileSpool + textSize r.commandSpool + textSize r.preExecCmd +
    textSize r.hostSpec + textSize r.chkpntDir + textSize r.subHomeDir + textSize r.cwd +
    textSize r.mailUser + textSize r.projectName +
    (ofFn fun i => alignWord ((r.askedHosts.2 i).1.length + 1 + 4)).sum +
    (ofFn fun _ : Fin r.xf.1.toInt.toNat => alignWord (sizeofXFile + 4 * 4)).sum

def xdrSubReqSize (r : SubmitReq) : Int := toInt32 (subReqSum r)

theorem alignWord_eq {s : Nat} (small : s < 2 ^ 32) : alignWord s = s / 4 * 4 + 4 := by
  have high : (s &&& 0xfffffffc) / 2 ^ 2 = s / 2 ^ 2 := by
    rw [← Nat.shiftRight_eq_div_pow, Nat.shiftRight_and_distrib, Nat.shiftRight_eq_div_pow]
    exact (Nat.and_two_pow_sub_one_eq_mod _ 30).trans (Nat.mod_eq_of_lt (by omega))
  have low : (s &&& 0xfffffffc) % 2 ^ 2 = 0 := by
    rw [Nat.and_mod_two_pow]
    exact Nat.and_zero _
  rw [alignWord]
  omega

section Estimate

variable {rLimits : Fin nLimits → BitVec 32} {r : SubmitReq} {max : Nat} {s : CString}

theorem le_textSize (short : s.1.length < 2 ^ 31) : 4 + (s.1.length + 3) / 4 * 4 ≤ textSize s := by
  rw [textSize, alignWord_eq (by omega)]
  omega

theorem xFile_size {x : XFile} (subFn : x.subFn.1.length < maxFileNameLen)
    (execFn : x.execFn.1.length < maxFileNameLen) :
    AtMost (xdrArrayElement xdrXFile) x (alignWord (sizeofXFile + 4 * 4)) := by
  rw [maxFileNameLen] at subFn execFn
  have name : ∀ {s : CString}, s.1.length < 256 → AtMost (xdrString maxFileNameLen) s 260 :=
    fun lt => .string fun _ => by omega
  have fields : AtMost xdrXFile x _ := .iso (.seq (name subFn) (.seq (name execFn) .word))
  exact fun w isBytes room => (fields.arrayElement w isBytes room).trans (by decide)

theorem xdrSubmitReq_size (shell : r.loginShell.1.length < maxLsbNameLen)
    (files : ∀ i, (r.xf.2 i).subFn.1.length < maxFileNameLen ∧
      (r.xf.2 i).execFn.1.length < maxFileNameLen)
    (host : r.schedHostType.1.length ≤ 1172) {w : List UInt8} (small : w.length < 2 ^ 31)
    (isBytes : (xdrSubmitReq rLimits).bytes r = some w) : w.length + 16 ≤ subReqSum r := by
  rw [maxLsbNameLen] at shell
  have text : ∀ {max s}, AtMost (xdrString max) s (textSize s) := .string le_textSize
  have var : ∀ {s}, AtMost xdrVarString s (textSize s) := .varString le_textSize
  have resReq : AtMost xdrVarString r.resReq (alignWord r.resReq.1.length + 4) :=
    .varString fun short => by rw [alignWord_eq (by omega)]; omega
  have login : AtMost xdrVarString r.loginShell 64 := .varString fun _ => by omega
  have type : AtMost xdrVarString r.schedHostType 1176 := .varString fun _ => by omega
  have name : ∀ s : CString, AtMost xdrVarString s (alignWord (s.1.length + 1 + 4)) :=
    fun s => .varString fun short => by rw [alignWord_eq (by omega)]; omega
  have asked : AtMost xdrVarString.counted r.askedHosts _ := .behindWord (.fixed fun _ => name _)
  have xf : AtMost (xdrArrayElement xdrXFile).counted r.xf _ :=
    .behindWord (.fixed fun i => xFile_size (files i).1 (files i).2)
  have limits : AtMost (xdrLimits xdrWord rLimits) r.rLimits (4 + 44) :=
    .iso (.behindWord (.fixed fun _ => .word))
  have time : ∀ {t}, AtMost xdrTime t 4 := by
    intro t w isBytes
    obtain ⟨x, -, isBytes⟩ := bind_eq_some_iff.1 isBytes
    exact AtMost.word w isBytes
  have fields : AtMost (xdrSubmitReq rLimits) r _ := .iso <| .seq .word <| .seq var <|
    .seq resReq <| .seq .word <| .seq text <| .seq var <| .seq var <| .seq var <| .seq text <|
    .seq text <| .seq text <| .seq text <| .seq var <| .seq text <| .seq asked <| .seq limits <|
    .seq time <| .seq time <| .seq time <| .seq .word <| .seq .word <| .seq .word <| .seq time <|
    .seq text <| .seq text <| .seq text <| .seq xf <| .seq var <| .seq var <| .seq .word <|
    .seq .word <| .seq login <| .seq type <| .seq .word <| .seq text <| .seq text .word
  have size := fields w isBytes small
  have base : alignWord sizeofSubmitReq = 340 := by decide
  rw [subReqSum, base]
  omega

/-- The buffer is large enough for the header and the request. -/
theorem xdrSubReqSize_enough (shell : r.loginShell.1.length < maxLsbNameLen)
    (files : ∀ i, (r.xf.2 i).subFn.1.length < maxFileNameLen ∧
      (r.xf.2 i).execFn.1.length < maxFileNameLen)
    (host : r.schedHostType.1.length ≤ 1172) (int : subReqSum r < 2 ^ 31) {m m' : Mem}
    (header : m.pos = 16) (encoded : (xdrSubmitReq rLimits).encode r m = (true, m')) :
    m'.pos ≤ xdrSubReqSize r := by
  obtain ⟨w, isBytes, written⟩ := (xdrSubmitReq rLimits).written r m m' encoded
  have room := written.length_le
  have small := m.small
  have size := xdrSubmitReq_size shell files host (by omega) isBytes
  rw [xdrSubReqSize, toInt32_of_bounds (by omega) (by omega), written.pos, header]
  omega

end Estimate

def headedBlock : Mem :=
  ⟨List.replicate 16 0, List.replicate 2000 0, by simp only [length_replicate]; decide⟩

theorem xdrSubReqSize_enough_plainRequest :
    ∃ m', (xdrSubmitReq fun _ => 0).encode plainRequest headedBlock = (true, m') ∧
      m'.pos ≤ xdrSubReqSize plainRequest := by
  have written : ((xdrSubmitReq fun _ => 0).encode plainRequest headedBlock).1 = true := by
    decide +kernel
  have header : headedBlock.pos = 16 := length_replicate
  obtain ⟨m', encoded⟩ := exists_of_fst written
  exact ⟨m', encoded, xdrSubReqSize_enough (by decide +kernel) (by decide +kernel)
    (by decide +kernel) (by decide +kernel) header encoded⟩

/-- A request with a long name of a host type. -/
def longHostType : SubmitReq :=
  { plainRequest with
    xf := ⟨0, Fin.elim0⟩
    schedHostType := cString (List.replicate 1400 65) }

theorem longHostType_over : longHostType.loginShell.1.length < maxLsbNameLen ∧
    ((xdrSubmitReq fun _ => 0).encode longHostType headedBlock).1 = true ∧
    xdrSubReqSize longHostType <
      ((xdrSubmitReq fun _ => 0).encode longHostType headedBlock).2.pos := by
  decide +kernel

end Jhlava.Message
