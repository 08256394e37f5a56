import Jhlava.ChannelRead

/-! Whole messages out of `doread` and `chanDequeue_`. The stream is what the
peer wrote; each call finds some of it ready, and a buffer is dequeued once
`rmask` announced it. -/
namespace Jhlava.Channel
open CValues TransitionRun List

/-- What a `read` finds on the socket: some bytes, or nothing yet. -/
inductive Arrival where
  | bytes (n : Nat)
  | interrupted
  | retry
  deriving DecidableEq, Repr

inductive RecvOp where
  | doread (newBufOk mallocOk reallocOk : Bool) (arrival : Arrival)
  | dequeue
  deriving DecidableEq, Repr

/-- `ready` is the bit of the channel in the last `rmask`, `rest` what was not
read yet and `got` what the caller dequeued. -/
structure Receiver where
  chan : Chan
  ready : Bool
  rest : List UInt8
  got : List (List UInt8)
  deriving DecidableEq, Repr

def Receiver.init (stream : List UInt8) : Receiver :=
  { chan := Chan.init, ready := false, rest := stream, got := [] }

/-- The peer keeps its end open, so a `read` of nothing has to be retried. -/
def readResult (rest : List UInt8) : Arrival → ReadResult
  | .bytes n => if rest.take n = [] then .retry else .got (rest.take n)
  | .interrupted => .interrupted
  | .retry => .retry

def consumed (rest : List UInt8) (arrival : Arrival) (asked : Option Request) : Nat :=
  match arrival, asked with
  | .bytes n, some r => (takeRead r.count (rest.take n)).length
  | _, _ => 0

def recvStep (s : Receiver) (op : RecvOp) : Receiver :=
  if s.chan.shut then s
  else match op with
    | .doread newBufOk mallocOk reallocOk arrival =>
      let out := doread s.chan
        { newBufOk, mallocOk, reallocOk, result := readResult s.rest arrival }
      { s with
        chan := out.1
        ready := out.2.rmask
        rest := s.rest.drop (consumed s.rest arrival out.2.asked) }
    | .dequeue =>
      if s.ready then
        match chanDequeue s.chan with
        | none => s
        | some (b, chan) => { s with chan, ready := false, got := s.got ++ [b.data] }
      else s

def WellFormed (m : List UInt8) : Prop :=
  ∃ hdr, xdrLSFHeader (m.take lsfHeaderLen) = some hdr ∧
    m.length = lsfHeaderLen + hdr.length.toNat ∧ hdr.length.toNat < 2 ^ 31 - lsfHeaderLen

def RecvOp.Allocates : RecvOp → Prop
  | .doread newBufOk mallocOk reallocOk _ =>
    newBufOk = true ∧ mallocOk = true ∧ reallocOk = true
  | .dequeue => True

/-- The buffer being filled from a stream of messages: it asks for the header of
the next one, or its header is in and it has the length of that message. -/
structure Reading (todo : List (List UInt8)) (b : Buffer) (rest : List UInt8) : Prop where
  bytes : todo.flatten = b.data ++ rest
  stored : (b.data.length : Int) = b.pos
  phase : (b.pos < lsfHeaderLen ∧ b.len = lsfHeaderLen) ∨
    ∃ m more, todo = m :: more ∧ lsfHeaderLen ≤ b.pos ∧ b.pos ≤ b.len ∧ b.len = m.length

/-- The channel after a call of `doread` that took the buffer on from `c`: it
goes on reading, or the block could not be allocated. -/
def Served (todo : List (List UInt8)) (rest : List UInt8) (allocated : Prop) (c : Chan)
    (out : Chan × Effect) : Prop :=
  ∃ b, (out.1 = c.setHead b ∧ Reading todo b rest ∧ out.2.rmask = (b.pos == b.len)) ∨
    (out.1 = (c.setHead b).fail .lseMalloc ∧ todo.flatten = b.data ++ rest ∧
      out.2.rmask = false ∧ ¬ allocated)

def pending (recv : List Buffer) : List UInt8 := recv.flatMap Buffer.data

structure Receiver.Serving (msgs : List (List UInt8)) (s : Receiver)
    (todo : List (List UInt8)) : Prop where
  delivered : msgs = s.got ++ todo
  bytes : todo.flatten = pending s.chan.recv ++ s.rest
  idle : s.chan.shut = true → s.ready = false
  reading : s.chan.shut = false → (s.chan.recv = [] ∧ s.ready = false) ∨
    ∃ b, s.chan.recv = [b] ∧ Reading todo b s.rest ∧ s.ready = (b.pos == b.len)

variable {b : Buffer} {c : Chan} {msgs todo : List (List UInt8)} {rest : List UInt8} {s : Receiver}

theorem Reading.bounds (h : Reading todo b rest) : 0 ≤ b.pos ∧ b.pos ≤ b.len := by
  have hs := h.stored
  rcases h.phase with ⟨lo, len⟩ | ⟨m, more, _, lo, hi, _⟩ <;> constructor <;> omega

theorem growBuf_served {more : List (List UInt8)} {m : List UInt8} {hdr : LSFHeader} (r : Request)
    (reallocOk : Bool) (bytes : todo.flatten = b.data ++ rest)
    (stored : (b.data.length : Int) = b.pos) (pos : b.pos = lsfHeaderLen)
    (len : b.len = lsfHeaderLen) (head : todo = m :: more)
    (mlen : m.length = lsfHeaderLen + hdr.length.toNat)
    (small : hdr.length.toNat < 2 ^ 31 - lsfHeaderLen) :
    Served todo rest (reallocOk = true) c (growBuf c b r reallocOk hdr) := by
  have grown := toInt32_small small
  unfold growBuf
  split
  · rename_i empty
    have none_ : (0 : BitVec 32).toNat = 0 := rfl
    rw [empty] at mlen
    refine ⟨b, Or.inl ⟨rfl, ⟨bytes, stored, Or.inr ⟨m, more, head, ?_, ?_, ?_⟩⟩, rfl⟩⟩
    all_goals omega
  · split
    · refine ⟨_, Or.inl ⟨rfl, ⟨bytes, stored, Or.inr ⟨m, more, head, ?_, ?_, ?_⟩⟩, rfl⟩⟩
      · exact Int.le_of_eq pos.symm
      · dsimp only
        omega
      · dsimp only
        omega
    · rename_i refused
      exact ⟨_, Or.inr ⟨rfl, bytes, rfl, refused⟩⟩

theorem takeRead_split {count : Int} (h : 0 ≤ count) (n : Nat) (rest : List UInt8) :
    rest = takeRead count (rest.take n) ++ rest.drop (takeRead count (rest.take n)).length := by
  have front : takeRead count (rest.take n) = rest.take (min count.toNat n) := by
    rw [takeRead, if_pos h, take_take]
  rw [front]
  generalize min count.toNat n = k
  by_cases le : k ≤ rest.length
  · rw [length_take_of_le le, take_append_drop]
  · rw [take_of_length_le (by omega), drop_length, append_nil]

theorem takeRead_ne_nil {count : Int} (h : 0 < count) {bs : List UInt8} (some_ : bs ≠ []) :
    takeRead count bs ≠ [] := by
  have count_pos : count.toNat ≠ 0 := by omega
  rw [takeRead, if_pos (by omega)]
  simp [count_pos, some_]

theorem readBuf_asked_eq (c : Chan) (b : Buffer) (call : ReadCall) :
    (readBuf c b call).2.asked =
      if b.pos = b.len then none else some { count := b.len - b.pos, room := b.size - b.pos } := by
  unfold readBuf
  split
  · rfl
  · dsimp only
    split
    · rfl
    · rfl
    · rfl
    · rfl
    · split
      · rfl
      · exact storeBytes_asked _ _ _ _ _

section

variable (wf : ∀ m ∈ todo, WellFormed m)
include wf

theorem Reading.small (h : Reading todo b rest) : b.len < 2 ^ 31 := by
  rcases h.phase with ⟨_, len⟩ | ⟨m, more, rfl, _, _, len⟩
  · simp only [len, lsfHeaderLen]
    omega
  · obtain ⟨hdr, _, hlen, hsmall⟩ := wf m mem_cons_self
    omega

theorem header_of_bytes {data : List UInt8} (bytes : todo.flatten = data ++ rest)
    (full : data.length = lsfHeaderLen) :
    ∃ m more, todo = m :: more ∧ m.take lsfHeaderLen = data := by
  cases todo with
  | nil =>
    have := congrArg List.length bytes
    simp only [flatten_nil, length_nil, length_append, full, lsfHeaderLen] at this
    omega
  | cons m more =>
    obtain ⟨hdr, _, hlen, _⟩ := wf m mem_cons_self
    refine ⟨m, more, rfl, ?_⟩
    have := congrArg (List.take lsfHeaderLen) bytes
    rw [flatten_cons, take_append_of_le_length (by omega), ← full, take_left] at this
    rw [← full]
    exact this

theorem storeBytes_served {bs : List UInt8} (r : Request) (reallocOk : Bool)
    (h : Reading todo b (bs ++ rest)) (hbs : (bs.length : Int) ≤ b.len - b.pos) :
    Served todo rest (reallocOk = true) c (storeBytes c b r reallocOk bs) := by
  have bounds := h.bounds
  have small := h.small wf
  have moved : toInt32 (b.pos + bs.length) = b.pos + bs.length := by
    apply toInt32_of_bounds <;> omega
  have bytes : todo.flatten = (b.data ++ bs) ++ rest := by
    rw [h.bytes, append_assoc]
  have stored : ((b.data ++ bs).length : Int) = b.pos + bs.length := by
    have := h.stored
    rw [length_append]
    omega
  unfold storeBytes
  dsimp only
  rw [moved]
  split
  · rename_i full
    obtain ⟨m, more, head, data⟩ := header_of_bytes wf bytes (by omega)
    obtain ⟨hdr, decoded, mlen, hsmall⟩ := wf m (by rw [head]; exact mem_cons_self)
    rw [data] at decoded
    rw [decoded]
    exact growBuf_served r reallocOk bytes stored (full.2.trans full.1) full.1 head mlen hsmall
  · refine ⟨_, Or.inl ⟨rfl, ⟨bytes, stored, ?_⟩, rfl⟩⟩
    rcases h.phase with ⟨_, len⟩ | ⟨m, more, head, lo, hi, len⟩
    · dsimp only
      omega
    · refine Or.inr ⟨m, more, head, ?_, ?_, len⟩ <;> dsimp only <;> omega

theorem readBuf_served {arrival : Arrival} (h : Reading todo b rest) (call : ReadCall)
    (result : call.result = readResult rest arrival) :
    Served todo (rest.drop (consumed rest arrival (readBuf c b call).2.asked))
      (call.reallocOk = true) c (readBuf c b call) := by
  have bounds := h.bounds
  rw [readBuf_asked_eq]
  by_cases full : b.pos = b.len
  · have nothing : consumed rest arrival none = 0 := by cases arrival <;> rfl
    rw [if_pos full, nothing]
    unfold readBuf
    rw [if_pos full]
    exact ⟨b, Or.inl ⟨rfl, h, by simp [full]⟩⟩
  · have kept : Served todo rest (call.reallocOk = true) c
        (c.setHead b,
          { asked := some { count := b.len - b.pos, room := b.size - b.pos }
            rmask := false
            emask := false }) :=
      ⟨b, Or.inl ⟨rfl, h, by simp [full]⟩⟩
    rw [if_neg full]
    unfold readBuf
    rw [if_neg full, result]
    cases arrival with
    | interrupted => exact kept
    | retry => exact kept
    | bytes n =>
      dsimp only [readResult, consumed]
      by_cases none_ : rest.take n = []
      · rw [none_]
        have : takeRead (b.len - b.pos) [] = [] := by simp [takeRead]
        rw [this]
        exact kept
      · rw [if_neg none_]
        have hbs := takeRead_length (show 0 ≤ b.len - b.pos by omega) (rest.take n)
        have split_ := takeRead_split (show 0 ≤ b.len - b.pos by omega) n rest
        have some_ := takeRead_ne_nil (show 0 < b.len - b.pos by omega) none_
        dsimp only
        split
        · contradiction
        · rw [split_] at h
          exact storeBytes_served wf _ _ h hbs

end

theorem headerBuf_reading (bytes : todo.flatten = rest) : Reading todo headerBuf rest := by
  refine ⟨bytes, rfl, Or.inl ⟨?_, rfl⟩⟩
  simp [headerBuf, lsfHeaderLen]

theorem Served.serving {allocated : Prop} {out : Chan × Effect} (delivered : msgs = s.got ++ todo)
    (single : c.recv.tail = []) (hopen : c.shut = false) (h : Served todo rest allocated c out) :
    ({ s with chan := out.1, ready := out.2.rmask, rest } : Receiver).Serving msgs todo ∧
    (allocated → out.1.shut = false) := by
  obtain ⟨b, ⟨chan, reading, rmask⟩ | ⟨chan, bytes, rmask, failed⟩⟩ := h
  · have recv : out.1.recv = [b] := by rw [chan, setHead_recv, single]
    have shut : out.1.shut = false := by rw [chan]; exact hopen
    refine ⟨⟨delivered, ?_, ?_, fun _ => Or.inr ⟨b, recv, reading, rmask⟩⟩, fun _ => shut⟩
    · simp only [recv, pending, flatMap_cons, flatMap_nil, append_nil]
      exact reading.bytes
    · intro h
      rw [shut] at h
      cases h
  · have recv : out.1.recv = [b] := by
      rw [chan]
      change b :: c.recv.tail = [b]
      rw [single]
    have shut : out.1.shut = true := by rw [chan]; rfl
    refine ⟨⟨delivered, ?_, fun _ => rmask, ?_⟩, fun h => absurd h failed⟩
    · simp only [recv, pending, flatMap_cons, flatMap_nil, append_nil]
      exact bytes
    · intro h
      rw [shut] at h
      cases h

theorem Reading.len_ne_zero (h : Reading todo b rest) : b.len ≠ 0 := by
  rcases h.phase with ⟨_, len⟩ | ⟨m, more, _, lo, hi, _⟩ <;> unfold lsfHeaderLen at * <;> omega

theorem Reading.complete (h : Reading todo b rest) (full : b.pos = b.len) :
    ∃ more, todo = b.data :: more ∧ more.flatten = rest := by
  rcases h.phase with ⟨lo, len⟩ | ⟨m, more, head, _, _, len⟩
  · omega
  · have bytes := h.bytes
    rw [head] at bytes
    have stored := h.stored
    obtain ⟨hm, hmore⟩ := append_inj bytes (by omega)
    exact ⟨more, by rw [head, hm], hmore⟩

theorem dequeue_serving (h : s.Serving msgs todo) (hopen : s.chan.shut = false) :
    (∃ todo, (recvStep s .dequeue).Serving msgs todo) ∧ (recvStep s .dequeue).chan.shut = false ∧
    (recvStep s .dequeue).ready = false ∧ (recvStep s .dequeue).rest = s.rest := by
  simp only [recvStep, hopen, Bool.false_eq_true, if_false]
  cases ready : s.ready with
  | false =>
    exact ⟨⟨todo, h⟩, hopen, ready, rfl⟩
  | true =>
    rcases h.reading hopen with ⟨_, idle⟩ | ⟨b, single, reading, flag⟩
    · rw [idle] at ready
      cases ready
    · have full : b.pos = b.len := by
        rw [flag] at ready
        exact eq_of_beq ready
      obtain ⟨more, head, bytes⟩ := reading.complete full
      simp only [if_true, chanDequeue, single]
      refine ⟨⟨more, ?_, bytes, fun _ => rfl, fun _ => Or.inl ⟨rfl, rfl⟩⟩, hopen, trivial, trivial⟩
      rw [h.delivered, head, append_assoc]
      rfl

theorem init_serving (msgs : List (List UInt8)) : (Receiver.init msgs.flatten).Serving msgs msgs :=
  ⟨rfl, rfl, fun _ => rfl, fun _ => Or.inl ⟨rfl, rfl⟩⟩

section

variable (wf : ∀ m ∈ msgs, WellFormed m)
include wf

theorem doread_serving (h : s.Serving msgs todo) (hopen : s.chan.shut = false)
    (newBufOk mallocOk reallocOk : Bool) (arrival : Arrival) :
    (recvStep s (.doread newBufOk mallocOk reallocOk arrival)).Serving msgs todo ∧
    ((RecvOp.doread newBufOk mallocOk reallocOk arrival).Allocates →
      (recvStep s (.doread newBufOk mallocOk reallocOk arrival)).chan.shut = false) := by
  have wf_todo : ∀ m ∈ todo, WellFormed m := by
    intro m hm
    exact wf m (by rw [h.delivered]; exact mem_append_right _ hm)
  have nothing : consumed s.rest arrival none = 0 := by cases arrival <;> rfl
  simp only [recvStep, hopen, Bool.false_eq_true, if_false]
  rcases h.reading hopen with ⟨empty, _⟩ | ⟨b, single, reading, _⟩
  · have bytes : todo.flatten = s.rest := by
      rw [h.bytes, empty]
      rfl
    simp only [doread, empty]
    cases newBufOk with
    | false =>
      simp only [Bool.false_eq_true, if_false, nothing, drop_zero]
      refine ⟨⟨h.delivered, ?_, fun _ => rfl, fun h => by cases h⟩, fun h => by cases h.1⟩
      exact h.bytes
    | true =>
      simp only [if_true, readHead, show newBuf.len = 0 from rfl]
      cases mallocOk with
      | false =>
        simp only [Bool.false_eq_true, if_false, nothing, drop_zero]
        refine ⟨⟨h.delivered, ?_, fun _ => rfl, fun h => by cases h⟩, fun h => by cases h.2.1⟩
        exact bytes
      | true =>
        have served := readBuf_served (c := { s.chan with recv := [newBuf] }) wf_todo
          (headerBuf_reading bytes)
          { newBufOk := true, mallocOk := true, reallocOk,
            result := readResult s.rest arrival } rfl
        have fresh : ({ s.chan with recv := [newBuf] } : Chan).shut = false := hopen
        have next := served.serving (s := s) h.delivered rfl fresh
        exact ⟨next.1, fun h => next.2 h.2.2⟩
  · simp only [doread, single, readHead, if_neg reading.len_ne_zero]
    have served := readBuf_served (c := s.chan) wf_todo reading
      { newBufOk, mallocOk, reallocOk, result := readResult s.rest arrival } rfl
    have next := served.serving (s := s) h.delivered (by rw [single]; rfl) hopen
    exact ⟨next.1, fun h => next.2 h.2.2⟩

theorem recvStep_serving (h : ∃ todo, s.Serving msgs todo) (op : RecvOp) :
    (∃ todo, (recvStep s op).Serving msgs todo) ∧
    (op.Allocates → s.chan.shut = false → (recvStep s op).chan.shut = false) := by
  obtain ⟨todo, h⟩ := h
  cases shut : s.chan.shut with
  | true =>
    have same : recvStep s op = s := by simp [recvStep, shut]
    rw [same]
    exact ⟨⟨todo, h⟩, fun _ h => by cases h⟩
  | false =>
    cases op with
    | doread newBufOk mallocOk reallocOk arrival =>
      have next := doread_serving wf h shut newBufOk mallocOk reallocOk arrival
      exact ⟨⟨todo, next.1⟩, fun allocates _ => next.2 allocates⟩
    | dequeue =>
      have next := dequeue_serving h shut
      exact ⟨next.1, fun _ _ => next.2.1⟩

theorem recvRun_serving (h : ∃ todo, s.Serving msgs todo) (ops : List RecvOp) :
    (∃ todo, (run recvStep s ops).Serving msgs todo) ∧
    ((∀ op ∈ ops, op.Allocates) → s.chan.shut = false →
      (run recvStep s ops).chan.shut = false) := by
  induction ops generalizing s with
  | nil => exact ⟨h, fun _ hopen => hopen⟩
  | cons op ops ih =>
    have step := recvStep_serving wf h op
    have later := ih step.1
    refine ⟨later.1, ?_⟩
    intro allocates hopen
    exact later.2 (fun x hx => allocates x (mem_cons_of_mem op hx))
      (step.2 (allocates op mem_cons_self) hopen)

theorem Receiver.Serving.all_delivered (h : s.Serving msgs todo) (hopen : s.chan.shut = false)
    (waits : s.ready = false) (done : s.rest = []) : s.got = msgs := by
  cases todo with
  | nil => rw [h.delivered, append_nil]
  | cons m more =>
    obtain ⟨hdr, _, hlen, _⟩ := wf m
      (by rw [h.delivered]; exact mem_append_right _ mem_cons_self)
    have header : lsfHeaderLen = 16 := rfl
    rcases h.reading hopen with ⟨empty, _⟩ | ⟨b, single, reading, flag⟩
    · have bytes := congrArg List.length h.bytes
      rw [empty, done] at bytes
      simp only [flatten_cons, length_append, pending, flatMap_nil, length_nil] at bytes
      omega
    · have bytes := congrArg List.length reading.bytes
      rw [done, append_nil, flatten_cons, length_append] at bytes
      have stored := reading.stored
      have unfinished : b.pos ≠ b.len := by
        rw [flag] at waits
        simpa using waits
      rcases reading.phase with ⟨lo, _⟩ | ⟨x, xs, head, _, hi, len⟩
      · omega
      · cases head
        omega

end

theorem doread_progress (h : s.Serving msgs todo) (hopen : s.chan.shut = false)
    (waits : s.ready = false) (more : s.rest ≠ []) (n : Nat) :
    (recvStep s (.doread true true true (.bytes (n + 1)))).rest.length < s.rest.length := by
  have some_ : s.rest.take (n + 1) ≠ [] := by simpa using more
  have shrinks : ∀ b : Buffer, b.pos < b.len → ∀ room,
      (s.rest.drop (consumed s.rest (.bytes (n + 1))
        (some { count := b.len - b.pos, room }))).length < s.rest.length := by
    intro b lt room
    have taken := length_pos_iff.mpr
      (takeRead_ne_nil (show 0 < b.len - b.pos by omega) some_)
    have := length_pos_iff.mpr more
    simp only [consumed, length_drop]
    omega
  simp only [recvStep, hopen, Bool.false_eq_true, if_false]
  rcases h.reading hopen with ⟨empty, _⟩ | ⟨b, single, reading, flag⟩
  · simp only [doread, empty, if_true, readHead, show newBuf.len = 0 from rfl, readBuf_asked_eq]
    exact shrinks headerBuf (by decide) _
  · have unfinished : b.pos ≠ b.len := by
      rw [flag] at waits
      simpa using waits
    have bounds := reading.bounds
    simp only [doread, single, readHead, if_neg reading.len_ne_zero, readBuf_asked_eq,
      if_neg unfinished]
    exact shrinks b (by omega) _

/-- However the stream of well-formed messages is split over the reads, what is
dequeued are the first messages, each byte is in one place, and a reader that
goes on gets all of them. -/
theorem received_messages (msgs : List (List UInt8)) (wf : ∀ m ∈ msgs, WellFormed m)
    (ops : List RecvOp) :
    let s := run recvStep (Receiver.init msgs.flatten) ops
    s.got <+: msgs ∧ s.got.flatten ++ pending s.chan.recv ++ s.rest = msgs.flatten ∧
    ((∀ op ∈ ops, op.Allocates) →
      (s.rest = [] → (recvStep s .dequeue).got = msgs) ∧
      ∀ n, s.ready = false → s.rest ≠ [] →
        (recvStep s (.doread true true true (.bytes (n + 1)))).rest.length < s.rest.length) := by
  obtain ⟨⟨todo, serving⟩, stays_open⟩ := recvRun_serving wf ⟨msgs, init_serving msgs⟩ ops
  refine ⟨⟨todo, serving.delivered.symm⟩, ?_, ?_⟩
  · rw [append_assoc, ← serving.bytes, ← flatten_append, ← serving.delivered]
  · intro allocates
    have hopen := stays_open allocates rfl
    refine ⟨?_, fun n waits more => doread_progress serving hopen waits more n⟩
    intro done
    obtain ⟨⟨rest_todo, after⟩, still, waits, rest⟩ := dequeue_serving serving hopen
    exact after.all_delivered wf still waits (rest.trans done)

def twoFrames : List (List UInt8) :=
  [[0, 0, 0, 1, 0, 0, 0, 0, 0, 0, 0, 0, 0, 0, 0, 0],
   [0, 0, 0, 2, 0, 0, 0, 2, 0, 0, 0, 0, 0, 0, 0, 0, 88, 89]]

def splitReads : List RecvOp :=
  [.doread true true true (.bytes 7), .doread true true true .retry,
   .doread true true true (.bytes 20), .dequeue, .doread true true true (.bytes 30),
   .doread true true true (.bytes 30)]

theorem received_messages_twoFrames :
    (∀ m ∈ twoFrames, WellFormed m) ∧ (∀ op ∈ splitReads, op.Allocates) ∧
    (run recvStep (Receiver.init twoFrames.flatten) splitReads).rest = [] ∧
    (recvStep (run recvStep (Receiver.init twoFrames.flatten) splitReads) .dequeue).got =
      twoFrames := by
  have wf : ∀ m ∈ twoFrames, WellFormed m := by
    intro m hm
    simp only [twoFrames, mem_cons, not_mem_nil, or_false] at hm
    rcases hm with rfl | rfl
    · exact ⟨_, rfl, by decide, by decide⟩
    · exact ⟨_, rfl, by decide, by decide⟩
  have allocates : ∀ op ∈ splitReads, op.Allocates := by
    simp [splitReads, RecvOp.Allocates]
  have read : (run recvStep (Receiver.init twoFrames.flatten) splitReads).rest = [] := by
    decide +kernel
  exact ⟨wf, allocates, read, ((received_messages twoFrames wf splitReads).2.2 allocates).1 read⟩

end Jhlava.Channel
