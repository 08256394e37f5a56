import Mathlib.Data.Fin.Tuple.Basic
import Mathlib.Data.List.TakeWhile
import Jhlava.XdrMem

/-! Codecs for XDR streams. A function of an XDR library writes or reads, as the stream
asks; here it is the pair of the two, together with the bytes it stands for and the layout
of what it accepts. A codec carries the proofs that these agree, so that codecs put
together agree as well. -/
namespace Xdr
open List Option BitVec

/-! ### Layouts -/

/-- The form of a message, as far as it decides whether it can be read. -/
inductive Layout where
  | nothing
  | refused
  | bytes (n : Nat)
  | word (rest : BitVec 32 → Layout)
  | seq (first second : Layout)
  /-- A word, then `content`; the word tells how far it is to what follows. -/
  | framed (content : Layout)

def Layout.skip : Layout → Mem → Option Mem
  | nothing, m => some m
  | refused, _ => none
  | bytes n, m => (getBytes n m).1.map fun _ => (getBytes n m).2
  | word rest, m =>
    match getWord m with
    | (none, _) => none
    | (some x, m) => (rest x).skip m
  | seq first second, m => (first.skip m).bind second.skip
  | framed content, m =>
    match getWord m with
    | (none, _) => none
    | (some x, m₁) => (content.skip m₁).map fun m₂ => m₂.setPos (m.pos + x.toInt)

/-! ### Codecs -/

def next {α : Type} (r : Option α × Mem) : Option Mem := r.1.map fun _ => r.2

structure Codec (α : Type) where
  encode : α → Mem → Bool × Mem
  decode : Mem → Option α × Mem
  /-- The encoding of a value that has one. -/
  bytes : α → Option (List UInt8)
  layout : Layout
  written : ∀ v m m', encode v m = (true, m') → ∃ w, bytes v = some w ∧ Written m w m'
  fits : ∀ v w m, bytes v = some w → w.length ≤ m.left.length → (encode v m).1 = true
  passed : ∀ v w m m', bytes v = some w → Passed m w m' → decode m = (some v, m')
  cut : ∀ v w m, bytes v = some w → m.left <+: w → m.left ≠ w → (decode m).1 = none
  accepts : ∀ m, layout.skip m = next (decode m)

variable {α β : Type}

variable {c : Codec α} {d : Codec β} {m m' : Mem} {max n : Nat} {γ : BitVec 32 → Type}

theorem Codec.round_trip (c : Codec α) {v : α} (encoded : c.encode v m = (true, m')) :
    c.decode (m'.setPos m.pos) = (some v, m') := by
  obtain ⟨w, isBytes, written⟩ := c.written v m m' encoded
  exact c.passed v w _ _ isBytes written.rewind.2

variable {w₁ w₂ : List UInt8}

theorem Codec.fits_first (c : Codec α) {v : α} (isBytes : c.bytes v = some w₁)
    (fits : (w₁ ++ w₂).length ≤ m.left.length) :
    ∃ m₁, c.encode v m = (true, m₁) ∧ w₂.length ≤ m₁.left.length := by
  rw [length_append] at fits
  have encoded : c.encode v m = (true, _) := Prod.ext (c.fits v w₁ m isBytes (by omega)) rfl
  obtain ⟨w, isBytes', written⟩ := c.written v m _ encoded
  obtain rfl := Option.some.inj (isBytes.symm.trans isBytes')
  have left := written.left_length
  exact ⟨_, encoded, by omega⟩

theorem cut_append (part : m.left <+: w₁ ++ w₂) (proper : m.left ≠ w₁ ++ w₂) :
    (m.left <+: w₁ ∧ m.left ≠ w₁) ∨ ∃ m₁, Passed m w₁ m₁ ∧ m₁.left <+: w₂ ∧ m₁.left ≠ w₂ := by
  by_cases inFirst : m.left <+: w₁ ∧ m.left ≠ w₁
  · exact .inl inFirst
  right
  have whole : w₁ <+: m.left := by
    rcases prefix_or_prefix_of_prefix part (prefix_append w₁ w₂) with before | after
    · by_cases same : m.left = w₁
      · exact same ▸ prefix_rfl
      · exact absurd ⟨before, same⟩ inFirst
    · exact after
  obtain ⟨rest, eq⟩ := whole
  have small := m.small
  rw [← eq, length_append] at small
  refine ⟨⟨m.before ++ w₁, rest, by rw [length_append]; omega⟩, ⟨rfl, eq.symm⟩, ?_, ?_⟩
  · rw [← eq] at part
    exact (prefix_append_right_inj w₁).1 part
  · rintro rfl
    exact proper eq.symm

/-! ### Nothing, words, and one behind the other -/

def Codec.unit : Codec Unit where
  encode _ m := (true, m)
  decode m := (some (), m)
  bytes _ := some []
  layout := .nothing
  written _ m m' eq := by
    obtain rfl := (Prod.mk.inj eq).2
    exact ⟨[], rfl, .nil m⟩
  fits _ _ _ _ _ := rfl
  passed _ w m m' isBytes passed := by
    obtain rfl := Option.some.inj isBytes
    rw [Mem.ext (by simpa using passed.before) (by simpa using passed.left.symm) (m := m') (n := m)]
  cut _ w m isBytes part proper := by
    obtain rfl := Option.some.inj isBytes
    exact absurd (prefix_nil.1 part) proper
  accepts _ := rfl

def putBehindWord (x : BitVec 32) (next : Mem → Bool × Mem) (m : Mem) : Bool × Mem :=
  match putWord x m with
  | (false, m) => (false, m)
  | (true, m) => next m

/-- A word, and behind it what the word asks for. -/
def Codec.word (c : (x : BitVec 32) → Codec (γ x)) :
    Codec ((x : BitVec 32) × γ x) where
  encode v m := putBehindWord v.1 ((c v.1).encode v.2) m
  decode m :=
    match getWord m with
    | (none, m) => (none, m)
    | (some x, m) => (((c x).decode m).1.map fun v => ⟨x, v⟩, ((c x).decode m).2)
  bytes v := ((c v.1).bytes v.2).map fun w => be32 v.1 ++ w
  layout := .word fun x => (c x).layout
  written v m m' encoded := by
    unfold putBehindWord at encoded
    split at encoded
    · cases (Prod.mk.inj encoded).1
    next m₁ first =>
      obtain ⟨w, isBytes, second⟩ := (c v.1).written v.2 m₁ m' encoded
      exact ⟨be32 v.1 ++ w, by rw [isBytes]; rfl, (putBytes_written first).append second⟩
  fits v w m isBytes fits := by
    obtain ⟨w₂, isSecond, rfl⟩ := map_eq_some_iff.1 isBytes
    rw [length_append, be32_length] at fits
    obtain ⟨m₁, first⟩ := putBytes_fits (show (be32 v.1).length ≤ m.left.length by
      rw [be32_length]; omega)
    have rest := (putBytes_written first).left_length
    rw [be32_length] at rest
    rw [putBehindWord, putWord, first]
    exact (c v.1).fits v.2 w₂ m₁ isSecond (by omega)
  passed v w m m' isBytes passed := by
    obtain ⟨w₂, isSecond, rfl⟩ := map_eq_some_iff.1 isBytes
    obtain ⟨m₁, first, second⟩ := passed_append_iff.1 passed
    rw [getWord_passed first]
    dsimp only
    rw [(c v.1).passed v.2 w₂ m₁ m' isSecond second]
    rfl
  cut v w m isBytes part proper := by
    obtain ⟨w₂, isSecond, rfl⟩ := map_eq_some_iff.1 isBytes
    rcases cut_append part proper with ⟨inFirst, short⟩ | ⟨m₁, first, inSecond, short⟩
    · have lt := inFirst.length_le.lt_of_ne fun eq => short (inFirst.eq_of_length eq)
      rw [getWord_short lt]
    · rw [getWord_passed first]
      dsimp only
      rw [(c v.1).cut v.2 w₂ m₁ isSecond inSecond short]
      rfl
  accepts m := by
    rw [Layout.skip]
    rcases getWord_cases m with ⟨-, fails⟩ | ⟨x, w, m₁, -, -, read⟩
    · rw [fails]
      rfl
    · rw [read]
      dsimp only
      rw [(c x).accepts m₁]
      simp [next, Option.map_map, Function.comp_def]

def Codec.seq (c : Codec α) (d : Codec β) : Codec (α × β) where
  encode v m :=
    match c.encode v.1 m with
    | (false, m) => (false, m)
    | (true, m) => d.encode v.2 m
  decode m :=
    match c.decode m with
    | (none, m) => (none, m)
    | (some v₁, m) => ((d.decode m).1.map fun v₂ => (v₁, v₂), (d.decode m).2)
  bytes v := (c.bytes v.1).bind fun w₁ => (d.bytes v.2).map fun w₂ => w₁ ++ w₂
  layout := c.layout.seq d.layout
  written v m m' encoded := by
    split at encoded
    · cases (Prod.mk.inj encoded).1
    next m₁ first =>
      obtain ⟨w₁, isFirst, first⟩ := c.written v.1 m m₁ first
      obtain ⟨w₂, isSecond, second⟩ := d.written v.2 m₁ m' encoded
      exact ⟨w₁ ++ w₂, by simp [isFirst, isSecond], first.append second⟩
  fits v w m isBytes fits := by
    obtain ⟨w₁, isFirst, rest⟩ := bind_eq_some_iff.1 isBytes
    obtain ⟨w₂, isSecond, rfl⟩ := map_eq_some_iff.1 rest
    obtain ⟨m₁, first, room⟩ := c.fits_first isFirst fits
    rw [first]
    exact d.fits v.2 w₂ m₁ isSecond room
  passed v w m m' isBytes passed := by
    obtain ⟨w₁, isFirst, rest⟩ := bind_eq_some_iff.1 isBytes
    obtain ⟨w₂, isSecond, rfl⟩ := map_eq_some_iff.1 rest
    obtain ⟨m₁, first, second⟩ := passed_append_iff.1 passed
    rw [c.passed v.1 w₁ m m₁ isFirst first]
    dsimp only
    rw [d.passed v.2 w₂ m₁ m' isSecond second]
    rfl
  cut v w m isBytes part proper := by
    obtain ⟨w₁, isFirst, rest⟩ := bind_eq_some_iff.1 isBytes
    obtain ⟨w₂, isSecond, rfl⟩ := map_eq_some_iff.1 rest
    rcases cut_append part proper with ⟨inFirst, short⟩ | ⟨m₁, first, inSecond, short⟩
    · have fails := c.cut v.1 w₁ m isFirst inFirst short
      split
      · rfl
      next read => simp [read] at fails
    · rw [c.passed v.1 w₁ m m₁ isFirst first]
      dsimp only
      rw [d.cut v.2 w₂ m₁ isSecond inSecond short]
      rfl
  accepts m := by
    rw [Layout.skip, c.accepts m]
    cases read : c.decode m with
    | mk v₁ m₁ =>
      cases v₁ with
      | none => rfl
      | some v₁ =>
        change d.layout.skip m₁ = _
        rw [d.accepts m₁]
        simp [next, Option.map_map, Function.comp_def]

theorem Codec.seq_some {v : α × β} (read : ((c.seq d).decode m).1 = some v) :
    ∃ m₁, (d.decode m₁).1 = some v.2 := by
  simp only [Codec.seq] at read
  split at read
  · cases read
  next m₁ _ =>
    obtain ⟨v₂, second, rfl⟩ := map_eq_some_iff.1 read
    exact ⟨m₁, second⟩

/-- The same bytes for other values; a value without `parts` is not sent. -/
def Codec.via (c : Codec α) (make : α → β) (parts : β → Option α)
    (back : ∀ b a, parts b = some a → make a = b) : Codec β where
  encode b m :=
    match parts b with
    | none => (false, m)
    | some a => c.encode a m
  decode m := ((c.decode m).1.map make, (c.decode m).2)
  bytes b := (parts b).bind c.bytes
  layout := c.layout
  written b m m' encoded := by
    split at encoded
    · cases (Prod.mk.inj encoded).1
    next a isPart =>
      obtain ⟨w, isBytes, written⟩ := c.written a m m' encoded
      exact ⟨w, by simp [isPart, isBytes], written⟩
  fits b w m isBytes fits := by
    obtain ⟨a, isPart, isBytes⟩ := bind_eq_some_iff.1 isBytes
    rw [isPart]
    exact c.fits a w m isBytes fits
  passed b w m m' isBytes passed := by
    obtain ⟨a, isPart, isBytes⟩ := bind_eq_some_iff.1 isBytes
    rw [c.passed a w m m' isBytes passed]
    simp [back b a isPart]
  cut b w m isBytes part proper := by
    obtain ⟨a, isPart, isBytes⟩ := bind_eq_some_iff.1 isBytes
    rw [c.cut a w m isBytes part proper]
    rfl
  accepts m := by
    rw [c.accepts m]
    simp [next, Option.map_map, Function.comp_def]

def Codec.iso (c : Codec α) (make : α → β) (parts : β → α) (back : ∀ b, make (parts b) = b) :
    Codec β :=
  c.via make (fun b => some (parts b)) fun b a isPart => by
    rw [← Option.some.inj isPart]
    exact back b

/-- Other functions that do the same. -/
def Codec.withFunctions (c : Codec α) (encode : α → Mem → Bool × Mem)
    (decode : Mem → Option α × Mem) (sameEncode : ∀ v m, encode v m = c.encode v m)
    (sameDecode : ∀ m, decode m = c.decode m) : Codec α where
  encode := encode
  decode := decode
  bytes := c.bytes
  layout := c.layout
  written v m m' encoded := c.written v m m' (sameEncode v m ▸ encoded)
  fits v w m isBytes fits := by
    rw [sameEncode]
    exact c.fits v w m isBytes fits
  passed v w m m' isBytes passed := (sameDecode m).trans (c.passed v w m m' isBytes passed)
  cut v w m isBytes part proper := by
    rw [sameDecode]
    exact c.cut v w m isBytes part proper
  accepts m := by rw [sameDecode, c.accepts]

/-! ### Words and arrays -/

def xdrWord : Codec (BitVec 32) :=
  (Codec.word fun _ => Codec.unit).iso Sigma.fst (fun x => ⟨x, ()⟩) fun _ => rfl

theorem setWidth_signExtend {k : Nat} (le : n ≤ k) (x : BitVec n) :
    (x.signExtend k).setWidth n = x := by
  apply eq_of_getLsbD_eq
  intro i lt
  simp only [getLsbD_setWidth, getLsbD_signExtend, lt, show i < k by omega,
    decide_true, Bool.true_and, if_true]

def xdrShort : Codec (BitVec 16) :=
  xdrWord.iso (BitVec.setWidth 16) (BitVec.signExtend 32) (setWidth_signExtend (by decide))

def xdrDouble : Codec (BitVec 64) :=
  (xdrWord.seq xdrWord).iso (fun x => x.1 ++ x.2)
    (fun x => (x.extractLsb' 32 32, x.extractLsb' 0 32)) fun x => by
    apply BitVec.eq_of_getLsbD_eq
    intro i lt
    simp only [BitVec.getLsbD_append, BitVec.getLsbD_extractLsb']
    by_cases low : i < 32
    · simp [low]
    · simp [low, show i - 32 < 32 by omega, show 32 + (i - 32) = i by omega]

/-- `n` values one behind the other. -/
def Codec.fixed (c : Codec α) : (n : Nat) → Codec (Fin n → α)
  | 0 => Codec.unit.iso (fun _ => Fin.elim0) (fun _ => ()) fun _ => funext fun i => i.elim0
  | n + 1 => (c.seq (c.fixed n)).iso (fun v => Fin.cons v.1 v.2) (fun v => (v 0, Fin.tail v))
      fun v => Fin.cons_self_tail v

abbrev Counted (α : Type) := (num : BitVec 32) × (Fin num.toInt.toNat → α)

def Codec.counted (c : Codec α) : Codec (Counted α) := Codec.word fun num => c.fixed num.toInt.toNat

/-! ### Results that are not looked at -/

/-- The codec fails only where no word is left, and stays there. -/
structure Starves (c : Codec α) : Prop where
  decode : ∀ m, (c.decode m).1 = none → (c.decode m).2.left.length < 4
  encode : ∀ v m, (c.encode v m).1 = false → (c.encode v m).2.left.length < 4

/-- The codec fails where no word is left. -/
structure NeedsWord (c : Codec α) : Prop where
  decode : ∀ m : Mem, m.left.length < 4 → (c.decode m).1 = none
  encode : ∀ v (m : Mem), m.left.length < 4 → (c.encode v m).1 = false

theorem Starves.unit : Starves Codec.unit where
  decode _ fails := by cases fails
  encode _ _ fails := by cases fails

theorem Starves.word {c : (x : BitVec 32) → Codec (γ x)} (starves : ∀ x, Starves (c x)) :
    Starves (Codec.word c) where
  decode m fails := by
    simp only [Codec.word] at fails ⊢
    rcases getWord_cases m with ⟨short, read⟩ | ⟨x, w, m₁, -, -, read⟩
    · rw [read]
      exact short
    · rw [read] at fails ⊢
      exact (starves x).decode m₁ (map_eq_none_iff.1 fails)
  encode v m fails := by
    simp only [Codec.word, putBehindWord] at fails ⊢
    cases put : putWord v.1 m with
    | mk ok m₁ =>
      rw [put] at fails
      cases ok with
      | true => exact (starves v.1).encode v.2 m₁ fails
      | false =>
        have failed := putBytes_fails (w := be32 v.1) (m := m) (congrArg Prod.fst put)
        have same : m₁ = m := (congrArg Prod.snd put).symm.trans failed.2
        rw [same]
        exact failed.1

theorem Starves.seq (first : Starves c) (second : Starves d) :
    Starves (c.seq d) where
  decode m fails := by
    simp only [Codec.seq] at fails ⊢
    cases read : c.decode m with
    | mk v m₁ =>
      rw [read] at fails
      cases v with
      | none => simpa [read] using first.decode m (by rw [read])
      | some v => exact second.decode m₁ (map_eq_none_iff.1 fails)
  encode v m fails := by
    simp only [Codec.seq] at fails ⊢
    cases put : c.encode v.1 m with
    | mk ok m₁ =>
      rw [put] at fails
      cases ok with
      | false => simpa [put] using first.encode v.1 m (by rw [put])
      | true => exact second.encode v.2 m₁ fails

theorem Starves.iso (starves : Starves c) {make : α → β} {parts : β → α}
    (back : ∀ b, make (parts b) = b) : Starves (c.iso make parts back) where
  decode m fails := starves.decode m (map_eq_none_iff.1 fails)
  encode b m fails := starves.encode (parts b) m fails

theorem Starves.xdrWord : Starves xdrWord := (Starves.word fun _ => .unit).iso _

theorem Starves.fixed (starves : Starves c) (n : Nat) : Starves (c.fixed n) := by
  induction n with
  | zero => exact Starves.unit.iso _
  | succ n ih => exact (starves.seq ih).iso _

theorem NeedsWord.word (c : (x : BitVec 32) → Codec (γ x)) :
    NeedsWord (Codec.word c) where
  decode m short := by simp only [Codec.word, getWord_short short]
  encode v m short := by
    have noRoom : putWord v.1 m = (false, m) := by
      rw [putWord, putBytes, dif_neg]
      rw [be32_length]
      omega
    simp only [Codec.word, putBehindWord, noRoom]

theorem NeedsWord.seq (first : NeedsWord c) (d : Codec β) : NeedsWord (c.seq d) where
  decode m short := by
    have fails := first.decode m short
    simp only [Codec.seq]
    split
    · rfl
    next read => simp [read] at fails
  encode v m short := by
    have fails := first.encode v.1 m short
    simp only [Codec.seq]
    split
    · rfl
    next put => simp [put] at fails

/-- The second codec goes on whatever the result of the first one was. It fails when the
first one has failed. -/
def Codec.ignoring (c : Codec α) (d : Codec β) (starves : Starves c) (needs : NeedsWord d) :
    Codec (Option α × β) where
  encode v m :=
    match v.1 with
    | none => (false, m)
    | some a => d.encode v.2 (c.encode a m).2
  decode m :=
    ((d.decode (c.decode m).2).1.map fun v₂ => ((c.decode m).1, v₂), (d.decode (c.decode m).2).2)
  bytes v := (v.1.bind c.bytes).bind fun w₁ => (d.bytes v.2).map fun w₂ => w₁ ++ w₂
  layout := c.layout.seq d.layout
  written v m m' encoded := by
    split at encoded
    · cases (Prod.mk.inj encoded).1
    next a isPart =>
      cases first : c.encode a m with
      | mk ok m₁ =>
        rw [first] at encoded
        cases ok with
        | false =>
          have short := starves.encode a m (by rw [first])
          rw [first] at short
          have fails := needs.encode v.2 m₁ short
          rw [encoded] at fails
          cases fails
        | true =>
          obtain ⟨w₁, isFirst, written₁⟩ := c.written a m m₁ first
          obtain ⟨w₂, isSecond, written₂⟩ := d.written v.2 m₁ m' encoded
          exact ⟨w₁ ++ w₂, by simp [isPart, isFirst, isSecond], written₁.append written₂⟩
  fits v w m isBytes fits := by
    obtain ⟨w₁, isFirst, rest⟩ := bind_eq_some_iff.1 isBytes
    obtain ⟨a, isPart, isFirst⟩ := bind_eq_some_iff.1 isFirst
    obtain ⟨w₂, isSecond, rfl⟩ := map_eq_some_iff.1 rest
    obtain ⟨m₁, first, room⟩ := c.fits_first isFirst fits
    rw [isPart]
    dsimp only
    rw [first]
    exact d.fits v.2 w₂ m₁ isSecond room
  passed v w m m' isBytes passed := by
    obtain ⟨w₁, isFirst, rest⟩ := bind_eq_some_iff.1 isBytes
    obtain ⟨a, isPart, isFirst⟩ := bind_eq_some_iff.1 isFirst
    obtain ⟨w₂, isSecond, rfl⟩ := map_eq_some_iff.1 rest
    obtain ⟨m₁, first, second⟩ := passed_append_iff.1 passed
    rw [c.passed a w₁ m m₁ isFirst first]
    dsimp only
    rw [d.passed v.2 w₂ m₁ m' isSecond second, ← isPart]
    rfl
  cut v w m isBytes part proper := by
    obtain ⟨w₁, isFirst, rest⟩ := bind_eq_some_iff.1 isBytes
    obtain ⟨a, isPart, isFirst⟩ := bind_eq_some_iff.1 isFirst
    obtain ⟨w₂, isSecond, rfl⟩ := map_eq_some_iff.1 rest
    dsimp only
    rcases cut_append part proper with ⟨inFirst, short⟩ | ⟨m₁, first, inSecond, short⟩
    · have fails := c.cut a w₁ m isFirst inFirst short
      rw [needs.decode _ (starves.decode m fails)]
      rfl
    · rw [c.passed a w₁ m m₁ isFirst first]
      dsimp only
      rw [d.cut v.2 w₂ m₁ isSecond inSecond short]
      rfl
  accepts m := by
    rw [Layout.skip, c.accepts m]
    cases read : c.decode m with
    | mk v₁ m₁ =>
      cases v₁ with
      | none =>
        have short := starves.decode m (by rw [read])
        rw [read] at short
        simp [next, needs.decode m₁ short]
      | some v₁ =>
        change d.layout.skip m₁ = _
        rw [d.accepts m₁]
        simp [next, Option.map_map, Function.comp_def]

theorem Codec.ignoring_isSome (starves : Starves c) (needs : NeedsWord d) {v : Option α × β}
    (read : ((c.ignoring d starves needs).decode m).1 = some v) : v.1.isSome = true := by
  obtain ⟨v₂, second, rfl⟩ := map_eq_some_iff.1 read
  cases first : (c.decode m).1 with
  | some a => rfl
  | none =>
    have fails := needs.decode _ (starves.decode m first)
    rw [second] at fails
    cases fails

/-! ### Texts -/

abbrev CString := { s : List UInt8 // 0 ∉ s }

def cString (w : List UInt8) : CString :=
  ⟨w.takeWhile (· ≠ 0), fun mem => by simpa using mem_takeWhile_imp mem⟩

theorem cString_val (s : CString) : cString s.1 = s := by
  apply Subtype.ext
  exact takeWhile_eq_self_iff.2 fun x mem => by
    simpa using fun zero : x = 0 => s.2 (zero ▸ mem)

def Codec.refused : Codec α where
  encode _ m := (false, m)
  decode m := (none, m)
  bytes _ := none
  layout := .refused
  written _ _ _ encoded := by cases (Prod.mk.inj encoded).1
  fits _ _ _ isBytes := by cases isBytes
  passed _ _ _ _ isBytes := by cases isBytes
  cut _ _ _ _ _ _ := rfl
  accepts _ := rfl

/-- `n` bytes and their padding. -/
def Codec.padded (n : Nat) : Codec (List UInt8) where
  encode d m := if d.length = n then putPadded d m else (false, m)
  decode := getPadded n
  bytes d := if d.length = n then some (d ++ padding d.length) else none
  layout := .seq (.bytes n) (.bytes (padding n).length)
  written d m m' encoded := by
    split_ifs at encoded with len
    · exact ⟨_, if_pos len, putPadded_written encoded⟩
    · cases (Prod.mk.inj encoded).1
  fits d w m isBytes fits := by
    split_ifs at isBytes with len
    obtain rfl := Option.some.inj isBytes
    obtain ⟨m', put⟩ := putPadded_fits fits
    rw [if_pos len, put]
  passed d w m m' isBytes passed := by
    split_ifs at isBytes with len
    obtain rfl := Option.some.inj isBytes
    rw [← len]
    exact getPadded_passed passed
  cut d w m isBytes part proper := by
    split_ifs at isBytes with len
    obtain rfl := Option.some.inj isBytes
    have lt := part.length_le.lt_of_ne fun eq => proper (part.eq_of_length eq)
    rw [length_append, len] at lt
    exact getPadded_short lt
  accepts m := by
    unfold getPadded
    rw [Layout.skip, Layout.skip]
    cases read : getBytes n m with
    | mk w m₁ =>
      cases w with
      | none => rfl
      | some w =>
        change Layout.skip _ m₁ = _
        rw [Layout.skip]
        simp [next, Option.map_map, Function.comp_def]

theorem toNat_ofNat_small (small : n < 2 ^ 31) : (BitVec.ofNat 32 n).toNat = n := by
  rw [toNat_ofNat]
  omega

theorem toInt_ofNat_small (small : n < 2 ^ 31) : (BitVec.ofNat 32 n).toInt = n := by
  rw [toInt_eq_toNat_of_lt, toNat_ofNat_small small]
  rw [toNat_ofNat_small small]
  omega

def Codec.sized (c : BitVec 32 → Codec (List UInt8)) : Codec (List UInt8) :=
  (Codec.word c).iso (fun v => v.2) (fun d => ⟨BitVec.ofNat 32 d.length, d⟩) fun _ => rfl

/-- At most `max` bytes. -/
def xdrBytes (max : Nat) : Codec (List UInt8) :=
  Codec.sized fun size => if size.toNat > max then .refused else .padded size.toNat

/-- A text of at most `max` bytes. -/
def xdrString (max : Nat) : Codec CString := (xdrBytes max).iso cString Subtype.val cString_val

theorem xdrString_of_word {m₁ : Mem} {size : BitVec 32} (first : getWord m = (some size, m₁)) :
    (xdrString max).decode m =
      if size.toNat > max then (none, m₁)
      else ((getPadded size.toNat m₁).1.map cString, (getPadded size.toNat m₁).2) := by
  simp only [xdrString, xdrBytes, Codec.sized, Codec.iso, Codec.via, Codec.word, first]
  split_ifs
  · rfl
  · simp [Codec.padded, Function.comp_def]

theorem xdrString_some {s : CString} (read : (xdrString max).decode m = (some s, m')) :
    ∃ w fill : List UInt8, w.length ≤ max ∧ fill.length = (padding w.length).length ∧
      Passed m (be32 (BitVec.ofNat 32 w.length) ++ (w ++ fill)) m' := by
  cases first : getWord m with
  | mk size m₁ =>
    cases size with
    | none =>
      simp only [xdrString, xdrBytes, Codec.sized, Codec.iso, Codec.via, Codec.word, first] at read
      cases (Prod.mk.inj read).1
    | some size =>
      rw [xdrString_of_word first] at read
      split_ifs at read with more
      · cases (Prod.mk.inj read).1
      · obtain ⟨isText, rfl⟩ := Prod.mk.inj read
        obtain ⟨w, isBytes, -⟩ := map_eq_some_iff.1 isText
        obtain ⟨len, fill, fillLen, passed⟩ := getPadded_some (Prod.ext isBytes rfl)
        refine ⟨w, fill, by omega, by rw [len, fillLen], passed_append_iff.2 ⟨m₁, ?_, passed⟩⟩
        rw [len, ofNat_toNat]
        exact getWord_some first

theorem xdrString_filled {w fill : List UInt8} (le : w.length ≤ max)
    (len : fill.length = (padding w.length).length)
    (passed : Passed m (be32 (BitVec.ofNat 32 w.length) ++ (w ++ fill)) m') :
    (xdrString max).decode m = (some (cString w), m') := by
  obtain ⟨m₁, first, second⟩ := passed_append_iff.1 passed
  have small : w.length < 2 ^ 31 := by
    have := m₁.small
    have := second.length_le
    rw [length_append] at this
    omega
  rw [xdrString_of_word (getWord_passed first), toNat_ofNat_small small, if_neg (Nat.not_lt.2 le),
    getPadded_filled len second]
  rfl

end Xdr
