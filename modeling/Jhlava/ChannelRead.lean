import Jhlava.TransitionRun
import Jhlava.ChannelBase

/-! `doread` of lib.channel.c, one call at a time, and its runs. What the
kernel and the allocator answer is an input of each call, so a run covers every
byte sequence in every split. -/
namespace Jhlava.Channel
open CValues TransitionRun List

/-- The answer of one `read`: the bytes ready, 0 with EINTR, 0 at end of file,
-1 for a `VALID_IO_ERR` errno, -1 for any other. -/
inductive ReadResult where
  | got (bs : List UInt8)
  | interrupted
  | eof
  | retry
  | broken
  deriving DecidableEq, Repr

structure ReadCall where
  newBufOk : Bool
  mallocOk : Bool
  reallocOk : Bool
  result : ReadResult
  deriving DecidableEq, Repr

/-- The count given to `read` and the bytes of the block left from `pos` on. -/
structure Request where
  count : Int
  room : Int
  deriving DecidableEq, Repr

structure Effect where
  asked : Option Request
  rmask : Bool
  emask : Bool
  deriving DecidableEq, Repr

/-- `read` gives at most the count asked; a negative count is a huge `size_t`. -/
def takeRead (count : Int) (bs : List UInt8) : List UInt8 :=
  if 0 ≤ count then bs.take count.toNat else bs

def Chan.setHead (c : Chan) (b : Buffer) : Chan := { c with recv := b :: c.recv.tail }

/-- `FD_SET` in `emask` together with `chanerr`. -/
def Chan.fail (c : Chan) (e : ChanErr) : Chan := { c with chanerr := some e, shut := true }

/-- The block `doread` allocates for the header of the next message. -/
def headerBuf : Buffer := { data := [], size := lsfHeaderLen, pos := 0, len := lsfHeaderLen }

/-- End of `doread`: a complete buffer is announced in `rmask`. -/
def announce (c : Chan) (b : Buffer) (r : Request) : Chan × Effect :=
  (c.setHead b, { asked := some r, rmask := b.pos == b.len, emask := false })

def refuse (c : Chan) (b : Buffer) (r : Request) (e : ChanErr) : Chan × Effect :=
  ((c.setHead b).fail e, { asked := some r, rmask := false, emask := true })

/-- The header is in: the length of the whole message is stored in an `int`
before the block is enlarged. -/
def growBuf (c : Chan) (b : Buffer) (r : Request) (reallocOk : Bool) (hdr : LSFHeader) :
    Chan × Effect :=
  if hdr.length = 0 then announce c b r
  else
    let b := { b with len := toInt32 (hdr.length.toNat + lsfHeaderLen) }
    if reallocOk then announce c { b with size := b.len } r
    else refuse c b r .lseMalloc

def storeBytes (c : Chan) (b : Buffer) (r : Request) (reallocOk : Bool) (bs : List UInt8) :
    Chan × Effect :=
  let b := { b with data := b.data ++ bs, pos := toInt32 (b.pos + bs.length) }
  if b.len = (lsfHeaderLen : Int) ∧ b.pos = b.len then
    match xdrLSFHeader b.data with
    | none => refuse c b r .chaneBadHdr
    | some hdr => growBuf c b r reallocOk hdr
  else announce c b r

/-- `doread` from the test `pos == len` on. -/
def readBuf (c : Chan) (b : Buffer) (call : ReadCall) : Chan × Effect :=
  if b.pos = b.len then (c.setHead b, { asked := none, rmask := true, emask := false })
  else
    let r : Request := { count := b.len - b.pos, room := b.size - b.pos }
    match call.result with
    | .interrupted | .retry => (c.setHead b, { asked := some r, rmask := false, emask := false })
    | .eof | .broken => refuse c b r .chaneConnReset
    | .got bs =>
      match takeRead r.count bs with
      | [] => refuse c b r .chaneConnReset
      | bs => storeBytes c b r call.reallocOk bs

/-- `doread` once a buffer is queued: an empty one first gets its header block. -/
def readHead (c : Chan) (b : Buffer) (call : ReadCall) : Chan × Effect :=
  if b.len = 0 then
    if call.mallocOk then readBuf c headerBuf call
    else (((c.setHead { b with data := [], size := 0 }).fail .lseMalloc),
      { asked := none, rmask := false, emask := true })
  else readBuf c b call

def doread (c : Chan) (call : ReadCall) : Chan × Effect :=
  match c.recv with
  | [] =>
    if call.newBufOk then readHead { c with recv := [newBuf] } newBuf call
    else (c.fail .lseMalloc, { asked := none, rmask := false, emask := true })
  | b :: _ => readHead c b call

/-- `chanDequeue_` on a connected channel; an empty queue is `CHANE_NOMSG`. -/
def chanDequeue (c : Chan) : Option (Buffer × Chan) :=
  match c.recv with
  | [] => none
  | b :: rest => some (b, { c with recv := rest })

inductive ChanOp where
  | doread (call : ReadCall)
  | dequeue
  deriving DecidableEq, Repr

def chanStep (c : Chan) (op : ChanOp) : Chan :=
  if c.shut then c
  else match op with
    | .doread call => (doread c call).1
    | .dequeue => match chanDequeue c with
        | none => c
        | some (_, c') => c'

def chanAsked (c : Chan) (op : ChanOp) : Option Request :=
  if c.shut then none
  else match op with
    | .doread call => (doread c call).2.asked
    | .dequeue => none

def Buffer.PosInRange (b : Buffer) : Prop := 0 ≤ b.pos ∧ b.pos ≤ b.len

def Request.InRange (r : Request) : Prop := 0 ≤ r.count ∧ r.count ≤ r.room

/-- What is asked of one step: the positions after it, and its `read`. -/
def StepSafe (c : Chan) (op : ChanOp) : Prop :=
  (∀ b ∈ (chanStep c op).recv, b.PosInRange) ∧ ∀ r, chanAsked c op = some r → r.InRange

def headBlock (b : Buffer) (call : ReadCall) : Option Buffer :=
  if b.len = 0 then if call.mallocOk then some headerBuf else none
  else some b

def rcvbuf (c : Chan) (call : ReadCall) : Option Buffer :=
  if c.shut then none
  else match c.recv with
    | [] => if call.newBufOk then headBlock newBuf call else none
    | b :: _ => headBlock b call

/-- The sixteen header bytes, when a call that reads into `b` completes them. -/
def completes (b : Buffer) (call : ReadCall) : Option (List UInt8) :=
  match call.result with
  | .got bs =>
    let data := b.data ++ takeRead (b.len - b.pos) bs
    if b.len = (lsfHeaderLen : Int) ∧ b.pos < b.len ∧ data.length = lsfHeaderLen then some data
    else none
  | _ => none

def headerCompleted (c : Chan) : ChanOp → Option (List UInt8)
  | .dequeue => none
  | .doread call => (rcvbuf c call).bind (completes · call)

/-- The largest message an `int` length can hold is 2^31 - 17 bytes of body. -/
def SmallHeader (c : Chan) (op : ChanOp) : Prop :=
  ∀ bs hdr, headerCompleted c op = some bs → xdrLSFHeader bs = some hdr →
    hdr.length.toNat < 2 ^ 31 - lsfHeaderLen


/-- What holds of a queued buffer while the channel is open. -/
structure Buffer.Good (b : Buffer) : Prop where
  inRange : b.PosInRange
  small : b.len < 2 ^ 31
  stored : (b.data.length : Int) = b.pos
  block : b.size = b.len

def Chan.Inv (c : Chan) : Prop :=
  (∀ b ∈ c.recv, b.PosInRange) ∧ (c.shut = false → ∀ b ∈ c.recv, b.Good)

theorem init_inv : Chan.init.Inv := by
  constructor
  · intro b hb
    cases hb
  · intro _ b hb
    cases hb

theorem headerBuf_good : headerBuf.Good := by
  refine ⟨⟨?_, ?_⟩, ?_, rfl, rfl⟩ <;> simp [headerBuf, lsfHeaderLen]

theorem newBuf_good : newBuf.Good := by
  refine ⟨⟨?_, ?_⟩, ?_, rfl, rfl⟩ <;> simp [newBuf]

theorem toInt32_small {n : Nat} (h : n < 2 ^ 31 - lsfHeaderLen) :
    toInt32 (n + lsfHeaderLen) = n + lsfHeaderLen := by
  apply toInt32_of_bounds <;> omega

theorem toInt32_large {n : Nat} (lo : ¬ n < 2 ^ 31 - lsfHeaderLen) (hi : n < 2 ^ 32) :
    toInt32 (n + lsfHeaderLen) < lsfHeaderLen := by
  unfold toInt32
  rw [Int.bmod_def]
  split <;> omega

theorem takeRead_length {count : Int} (h : 0 ≤ count) (bs : List UInt8) :
    ((takeRead count bs).length : Int) ≤ count := by
  simp only [takeRead, h, if_true, length_take]
  omega

theorem setHead_recv (c : Chan) (b : Buffer) : (c.setHead b).recv = b :: c.recv.tail := rfl

variable {b : Buffer} {bs : List UInt8} {c : Chan} {call : ReadCall} {hdr : LSFHeader} {op : ChanOp}

theorem forall_setHead {p : Buffer → Prop} (hb : p b) (hc : ∀ x ∈ c.recv, p x) :
    ∀ x ∈ (c.setHead b).recv, p x := by
  intro x hx
  rcases mem_cons.mp hx with rfl | hx
  · exact hb
  · exact hc x (mem_of_mem_tail hx)

theorem setHead_inv (hc : c.Inv) (hb : b.PosInRange) (hg : c.shut = false → b.Good) :
    (c.setHead b).Inv :=
  ⟨forall_setHead hb hc.1, fun open_ => forall_setHead (hg open_) (hc.2 open_)⟩

theorem fail_inv (e : ChanErr) (hc : c.Inv) (hb : b.PosInRange) : ((c.setHead b).fail e).Inv :=
  ⟨forall_setHead hb hc.1, fun open_ => by cases open_⟩

theorem growBuf_inv (r : Request) (reallocOk : Bool) (hc : c.Inv) (hb : b.Good)
    (hpos : b.pos = lsfHeaderLen) (small : hdr.length.toNat < 2 ^ 31 - lsfHeaderLen) :
    (growBuf c b r reallocOk hdr).1.Inv := by
  have hp := hb.inRange
  have hlen := toInt32_small small
  have hgrown :
    ({ b with len := toInt32 (hdr.length.toNat + lsfHeaderLen) } : Buffer).PosInRange := by
    refine ⟨hp.1, ?_⟩
    dsimp only
    omega
  unfold growBuf
  split
  · exact setHead_inv hc hb.inRange (fun _ => hb)
  · dsimp only
    split
    · refine setHead_inv hc ⟨hgrown.1, hgrown.2⟩
        (fun _ => ⟨⟨hgrown.1, hgrown.2⟩, ?_, hb.stored, rfl⟩)
      dsimp only
      omega
    · exact fail_inv _ hc hgrown

theorem growBuf_large (r : Request) (reallocOk : Bool) (hpos : b.pos = lsfHeaderLen)
    (large : ¬ hdr.length.toNat < 2 ^ 31 - lsfHeaderLen) :
    ∃ x ∈ (growBuf c b r reallocOk hdr).1.recv, ¬ x.PosInRange := by
  have hwrap := toInt32_large large hdr.length.isLt
  have hne : hdr.length ≠ 0 := by
    intro h
    simp [h, lsfHeaderLen] at large
  unfold growBuf
  rw [if_neg hne]
  split
  · refine ⟨_, mem_cons_self, fun h => ?_⟩
    have := h.2
    dsimp only at this
    omega
  · refine ⟨_, mem_cons_self, fun h => ?_⟩
    have := h.2
    dsimp only at this
    omega

theorem growBuf_asked (c : Chan) (b : Buffer) (r : Request) (reallocOk : Bool) (hdr : LSFHeader) :
    (growBuf c b r reallocOk hdr).2.asked = some r := by
  unfold growBuf
  split
  · rfl
  · split <;> rfl

theorem storeBytes_asked (c : Chan) (b : Buffer) (r : Request) (reallocOk : Bool)
    (bs : List UInt8) : (storeBytes c b r reallocOk bs).2.asked = some r := by
  unfold storeBytes
  dsimp only
  split
  · split
    · rfl
    · exact growBuf_asked _ _ _ _ _
  · rfl

section

variable (hbs : (bs.length : Int) ≤ b.len - b.pos)
include hbs

theorem stored_pos (hb : b.Good) : toInt32 (b.pos + bs.length) = b.pos + bs.length := by
  have h := hb.inRange
  have hs := hb.small
  unfold Buffer.PosInRange at h
  apply toInt32_of_bounds <;> omega

theorem stored_good (hb : b.Good) :
    ({ b with data := b.data ++ bs, pos := b.pos + bs.length } : Buffer).Good := by
  have hd := hb.stored
  refine ⟨⟨?_, ?_⟩, hb.small, ?_, hb.block⟩
  · change 0 ≤ b.pos + bs.length
    omega
  · change b.pos + bs.length ≤ b.len
    omega
  · simp only [length_append]
    omega

theorem storeBytes_inv (r : Request) (reallocOk : Bool) (hc : c.Inv) (hb : b.Good)
    (small : ∀ hdr, b.len = lsfHeaderLen → (b.data ++ bs).length = lsfHeaderLen →
      xdrLSFHeader (b.data ++ bs) = some hdr → hdr.length.toNat < 2 ^ 31 - lsfHeaderLen) :
    (storeBytes c b r reallocOk bs).1.Inv := by
  have hgood := stored_good hbs hb
  unfold storeBytes
  dsimp only
  rw [stored_pos hbs hb]
  split
  · rename_i full
    have hdata : (b.data ++ bs).length = lsfHeaderLen := by
      have := hgood.stored
      dsimp only at this
      omega
    split
    · exact fail_inv _ hc hgood.inRange
    · rename_i hdr decoded
      exact growBuf_inv r reallocOk hc hgood (full.2.trans full.1) (small hdr full.1 hdata decoded)
  · exact setHead_inv hc hgood.inRange (fun _ => hgood)

theorem storeBytes_large (r : Request) (reallocOk : Bool) (hb : b.Good)
    (hlen : b.len = lsfHeaderLen) (hdata : (b.data ++ bs).length = lsfHeaderLen)
    (decoded : xdrLSFHeader (b.data ++ bs) = some hdr)
    (large : ¬ hdr.length.toNat < 2 ^ 31 - lsfHeaderLen) :
    ∃ x ∈ (storeBytes c b r reallocOk bs).1.recv, ¬ x.PosInRange := by
  have hpos : b.pos + bs.length = lsfHeaderLen := by
    have := hb.stored
    simp only [length_append] at hdata
    omega
  unfold storeBytes
  rw [stored_pos hbs hb, if_pos ⟨hlen, hpos.trans hlen.symm⟩, decoded]
  exact growBuf_large r reallocOk hpos large

end

/-- The length condition on a call that reads into `b`. -/
def CompletesSmall (b : Buffer) (call : ReadCall) : Prop :=
  ∀ bs hdr, completes b call = some bs → xdrLSFHeader bs = some hdr →
    hdr.length.toNat < 2 ^ 31 - lsfHeaderLen

theorem readBuf_asked (hb : b.Good) {r : Request} (h : (readBuf c b call).2.asked = some r) :
    r.InRange := by
  have hp := hb.inRange
  have hs := hb.block
  unfold Buffer.PosInRange at hp
  have hr : ({ count := b.len - b.pos, room := b.size - b.pos } : Request).InRange := by
    constructor <;> dsimp only <;> omega
  unfold readBuf at h
  split at h
  · cases h
  · dsimp only at h
    split at h
    · cases h; exact hr
    · cases h; exact hr
    · cases h; exact hr
    · cases h; exact hr
    · split at h
      · cases h; exact hr
      · rw [storeBytes_asked] at h
        cases h
        exact hr

theorem readBuf_large (hb : b.Good) (large : ¬ CompletesSmall b call) :
    ∃ x ∈ (readBuf c b call).1.recv, ¬ x.PosInRange := by
  simp only [CompletesSmall, not_forall] at large
  obtain ⟨bs, hdr, hdone, decoded, hbig⟩ := large
  unfold completes at hdone
  split at hdone
  · rename_i got hres
    dsimp only at hdone
    split at hdone
    · rename_i full
      cases hdone
      have hbs := takeRead_length (show 0 ≤ b.len - b.pos by omega) got
      unfold readBuf
      rw [if_neg (by omega)]
      simp only [hres]
      split
      · -- no byte came in, so the header was complete before the call
        rename_i hnone
        have := hb.stored
        rw [hnone] at full
        simp only [append_nil] at full
        omega
      · exact storeBytes_large hbs _ _ hb full.1 full.2.2 decoded hbig
    · cases hdone
  · cases hdone

theorem headBlock_good {b' : Buffer} (hb : b.Good) (h : headBlock b call = some b') : b'.Good := by
  unfold headBlock at h
  split at h
  · split at h
    · cases h
      exact headerBuf_good
    · cases h
  · cases h
    exact hb

theorem readHead_some {b' : Buffer} (h : headBlock b call = some b') :
    readHead c b call = readBuf c b' call := by
  unfold headBlock at h
  unfold readHead
  split at h
  · rename_i hlen
    split at h
    · rename_i hok
      cases h
      rw [if_pos hlen, if_pos hok]
    · cases h
  · rename_i hlen
    cases h
    rw [if_neg hlen]

theorem newBuf_inv (c : Chan) : ({ c with recv := [newBuf] } : Chan).Inv := by
  have hn : ∀ b ∈ [newBuf], b.Good := by
    intro b hb
    rw [mem_singleton.mp hb]
    exact newBuf_good
  exact ⟨fun b hb => (hn b hb).inRange, fun _ => hn⟩

section

variable (hc : c.Inv)
include hc

theorem readBuf_inv (hb : b.Good) (small : CompletesSmall b call) : (readBuf c b call).1.Inv := by
  have hp := hb.inRange
  unfold Buffer.PosInRange at hp
  unfold readBuf
  split
  · exact setHead_inv hc hb.inRange (fun _ => hb)
  · dsimp only
    split
    · exact setHead_inv hc hb.inRange (fun _ => hb)
    · exact setHead_inv hc hb.inRange (fun _ => hb)
    · exact fail_inv _ hc hb.inRange
    · exact fail_inv _ hc hb.inRange
    · rename_i bs hres
      have hbs := takeRead_length (show 0 ≤ b.len - b.pos by omega) bs
      split
      · exact fail_inv _ hc hb.inRange
      · refine storeBytes_inv hbs _ _ hc hb (fun hdr hlen hdata decoded => ?_)
        refine small _ hdr ?_ decoded
        simp only [completes, hres]
        rw [if_pos ⟨hlen, by omega, hdata⟩]

theorem readHead_none (hb : b.Good) (h : headBlock b call = none) :
    (readHead c b call).1.Inv ∧ (readHead c b call).2.asked = none := by
  unfold headBlock at h
  unfold readHead
  split at h
  · rename_i hlen
    split at h
    · cases h
    · rename_i hok
      rw [if_pos hlen, if_neg hok]
      exact ⟨fail_inv _ hc ⟨hb.inRange.1, hb.inRange.2⟩, rfl⟩
  · cases h

theorem doread_cases (call : ReadCall) (hopen : c.shut = false) :
    (rcvbuf c call = none ∧ (doread c call).1.Inv ∧ (doread c call).2.asked = none) ∨
    ∃ c' b, rcvbuf c call = some b ∧ doread c call = readBuf c' b call ∧ c'.Inv ∧ b.Good := by
  unfold rcvbuf doread
  rw [if_neg (by simp [hopen])]
  cases hrecv : c.recv with
  | nil =>
    cases hnew : call.newBufOk with
    | false =>
      refine Or.inl ⟨rfl, ⟨fun b hb => hc.1 b hb, fun h => ?_⟩, rfl⟩
      cases h
    | true =>
      cases hb : headBlock newBuf call with
      | none =>
        obtain ⟨hinv, hasked⟩ := readHead_none (newBuf_inv c) newBuf_good hb
        exact Or.inl ⟨rfl, hinv, hasked⟩
      | some b =>
        exact Or.inr ⟨_, b, rfl, readHead_some hb, newBuf_inv c, headBlock_good newBuf_good hb⟩
  | cons b rest =>
    have hb : b.Good := hc.2 hopen b (by rw [hrecv]; exact mem_cons_self)
    cases hblock : headBlock b call with
    | none =>
      obtain ⟨hinv, hasked⟩ := readHead_none hc hb hblock
      exact Or.inl ⟨hblock, hinv, hasked⟩
    | some b' =>
      exact Or.inr ⟨c, b', hblock, readHead_some hblock, hc, headBlock_good hb hblock⟩

theorem chanDequeue_inv {c' : Chan} (h : chanDequeue c = some (b, c')) : c'.Inv := by
  unfold chanDequeue at h
  split at h
  · cases h
  · rename_i x rest hrecv
    cases h
    have sub : ∀ y ∈ rest, y ∈ c.recv := fun y hy => by rw [hrecv]; exact mem_cons_of_mem b hy
    exact ⟨fun y hy => hc.1 y (sub y hy), fun hopen y hy => hc.2 hopen y (sub y hy)⟩

theorem chanStep_inv (small : SmallHeader c op) : (chanStep c op).Inv := by
  unfold chanStep
  split
  · exact hc
  · rename_i hshut
    have hopen : c.shut = false := by simpa using hshut
    cases op with
    | dequeue =>
      dsimp only
      split
      · exact hc
      · rename_i b c' hq
        exact chanDequeue_inv hc hq
    | doread call =>
      rcases doread_cases hc call hopen with ⟨_, hinv, _⟩ | ⟨c', b, hb, heq, hc', hgood⟩
      · exact hinv
      · dsimp only
        rw [heq]
        refine readBuf_inv hc' hgood (fun bs hdr hdone decoded => small bs hdr ?_ decoded)
        simp only [headerCompleted, hb, Option.bind_some, hdone]

theorem chanAsked_inRange {r : Request} (h : chanAsked c op = some r) : r.InRange := by
  unfold chanAsked at h
  split at h
  · cases h
  · rename_i hshut
    have hopen : c.shut = false := by simpa using hshut
    cases op with
    | dequeue => cases h
    | doread call =>
      rcases doread_cases hc call hopen with ⟨_, _, hnone⟩ | ⟨c', b, _, heq, _, hgood⟩
      · dsimp only at h
        rw [hnone] at h
        cases h
      · dsimp only at h
        rw [heq] at h
        exact readBuf_asked hgood h

theorem stepSafe_iff : StepSafe c op ↔ SmallHeader c op := by
  constructor
  · intro safe
    by_contra large
    cases op with
    | dequeue => exact large (fun bs hdr h => by cases h)
    | doread call =>
      cases hshut : c.shut with
      | true =>
        refine large (fun bs hdr h => ?_)
        simp [headerCompleted, rcvbuf, hshut] at h
      | false =>
        rcases doread_cases hc call hshut with ⟨hnone, _, _⟩ | ⟨c', b, hb, heq, _, hgood⟩
        · refine large (fun bs hdr h => ?_)
          simp [headerCompleted, hnone] at h
        · have hbig : ¬ CompletesSmall b call := fun h => large (fun bs hdr hdone =>
            h bs hdr (by simpa only [headerCompleted, hb, Option.bind_some] using hdone))
          obtain ⟨x, hx, hbad⟩ := readBuf_large (c := c') hgood hbig
          refine hbad (safe.1 x ?_)
          simp only [chanStep, hshut, Bool.false_eq_true, if_false, heq]
          exact hx
  · intro small
    exact ⟨(chanStep_inv hc small).1, fun r h => chanAsked_inRange hc h⟩

end

/-- On every run, `doread` keeps `0 ≤ pos ≤ len` and asks `read` for what the
buffer still holds, exactly when no completed header has a length of
2^31 - 16 or more. -/
theorem doread_run_safe_iff (ops : List ChanOp) :
    Along chanStep StepSafe Chan.init ops ↔ Along chanStep SmallHeader Chan.init ops :=
  along_congr Chan.Inv (fun _ _ hc safe => chanStep_inv hc ((stepSafe_iff hc).mp safe))
    (fun _ _ hc => stepSafe_iff hc) init_inv ops

def wrappingHeader : List UInt8 := [0, 0, 0, 1, 0xFF, 0xFF, 0xFF, 0xF5, 0, 0, 0, 0, 0, 0, 0, 0]

def readAll (bs : List UInt8) : ChanOp :=
  .doread { newBufOk := true, mallocOk := true, reallocOk := true, result := .got bs }

/-- The message length wraps to 5 with 16 bytes already stored, and the next
call asks `read` for -11 bytes. -/
theorem doread_wrapping_header :
    ¬ (∀ ops, Along chanStep StepSafe Chan.init ops) ∧
    chanAsked (run chanStep Chan.init [readAll wrappingHeader]) (readAll []) =
      some { count := -11, room := -11 } := by
  constructor
  · intro h
    have h1 := (h [readAll wrappingHeader]).1.1
    have hrecv : (chanStep Chan.init (readAll wrappingHeader)).recv =
        [{ data := wrappingHeader, size := 5, pos := 16, len := 5 }] := by decide
    rw [hrecv] at h1
    have := (h1 _ mem_cons_self).2
    dsimp only at this
    omega
  · decide

end Jhlava.Channel
