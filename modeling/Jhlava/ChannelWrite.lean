import Jhlava.TransitionRun
import Jhlava.ChannelBase

/-! `chanEnqueue_` and `dowrite` of lib.channel.c: the send queue of a connected
channel and the bytes its socket accepted. What each `write` answers is an
input of the call. -/
namespace Jhlava.Channel
open TransitionRun List

/-- The answer of one `write`: some of the bytes offered, -1 for a
`VALID_IO_ERR` errno, -1 for any other. -/
inductive WriteResult where
  | accepted (n : Nat)
  | retry
  | broken
  deriving DecidableEq, Repr

/-- The send side of `struct chanData` and what went into the socket; `emask`
stands for the exception that `LSE_MSG_SYS` goes with. -/
structure Sender where
  send : List Buffer
  socket : List UInt8
  emask : Bool
  deriving DecidableEq, Repr

def Sender.init : Sender := { send := [], socket := [], emask := false }

/-- A message handed to `chanEnqueue_`. -/
def msgBuf (msg : List UInt8) : Buffer :=
  { data := msg, size := msg.length, pos := 0, len := msg.length }

def chanEnqueue (s : Sender) (msg : List UInt8) : Sender :=
  { s with send := s.send ++ [msgBuf msg] }

/-- The byte at an offset from `data`; outside the block it is whatever the
memory holds there. -/
def byteAt (memory : Int → UInt8) (b : Buffer) (i : Int) : UInt8 :=
  if 0 ≤ i then b.data.getD i.toNat (memory i) else memory i

/-- `count` bytes from `data + pos` on. -/
def offered (memory : Int → UInt8) (b : Buffer) (count : Nat) : List UInt8 :=
  (List.range count).map fun (k : Nat) => byteAt memory b (b.pos + k)

/-- The end of `dowrite`: `pos += cc`, and a buffer that is sent leaves the
queue. -/
def advance (s : Sender) (b : Buffer) (rest : List Buffer) (cc : Int) : Sender :=
  if b.pos + cc = b.len then { s with send := rest }
  else { s with send := { b with pos := b.pos + cc } :: rest }

/-- `dowrite`: only an errno that is not retryable returns before the position
is moved. -/
def dowrite (memory : Int → UInt8) (s : Sender) (result : WriteResult) : Sender :=
  match s.send with
  | [] => s
  | b :: rest =>
    match result with
    | .broken => { s with emask := true }
    | .retry => advance s b rest (-1)
    | .accepted n =>
      let cc := min n (b.len - b.pos).toNat
      advance { s with socket := s.socket ++ offered memory b cc } b rest cc

inductive SendOp where
  | enqueue (msg : List UInt8)
  | write (result : WriteResult)
  deriving DecidableEq, Repr

def sendStep (memory : Int → UInt8) (s : Sender) : SendOp → Sender
  | .enqueue msg => chanEnqueue s msg
  | .write result => dowrite memory s result

def enqueued : List SendOp → List UInt8
  | [] => []
  | .enqueue msg :: ops => msg ++ enqueued ops
  | .write _ :: ops => enqueued ops

/-- No `write` fails while there is something to send. -/
def NoFailedWrite (s : Sender) (op : SendOp) : Prop := op = .write .retry → s.send = []

/-- The position of a queued buffer is within the message. -/
structure Buffer.Sendable (b : Buffer) : Prop where
  pos_nonneg : 0 ≤ b.pos
  pos_le : b.pos ≤ b.len
  len_eq : b.len = b.data.length

def unsent (send : List Buffer) : List UInt8 := send.flatMap fun b => b.data.drop b.pos.toNat

/-- What was enqueued is what the socket took and what is still unsent. -/
structure Sender.Accounts (s : Sender) (q : List UInt8) : Prop where
  sendable : ∀ b ∈ s.send, b.Sendable
  total : q = s.socket ++ unsent s.send

theorem offered_eq (memory : Int → UInt8) {b : Buffer} (hb : b.Sendable) {count : Nat}
    (fits : b.pos + count ≤ b.len) :
    offered memory b count = (b.data.drop b.pos.toNat).take count := by
  have lo := hb.pos_nonneg
  have len := hb.len_eq
  apply ext_getElem
  · simp only [offered, length_map, length_range, length_take, length_drop]
    omega
  · intro i h1 h2
    simp only [offered, length_map, length_range] at h1
    have index : (b.pos + i).toNat = b.pos.toNat + i := by omega
    have inside : b.pos.toNat + i < b.data.length := by omega
    simp only [offered, getElem_map, getElem_range, getElem_take, getElem_drop, byteAt]
    rw [if_pos (by omega), index, ← getElem_eq_getD (h := inside)]

variable {q : List UInt8} {s : Sender}

theorem chanEnqueue_accounts (h : s.Accounts q) (msg : List UInt8) :
    (chanEnqueue s msg).Accounts (q ++ msg) where
  sendable := by
    intro b hb
    rcases mem_append.mp hb with old | new
    · exact h.sendable b old
    · rw [mem_singleton.mp new]
      exact ⟨Int.le_refl 0, Int.natCast_nonneg _, rfl⟩
  total := by
    rw [h.total]
    simp [chanEnqueue, unsent, msgBuf]

theorem advance_accounts {b : Buffer} {rest : List Buffer} {cc : Nat} (hb : b.Sendable)
    (hrest : ∀ x ∈ rest, x.Sendable) (fits : b.pos + cc ≤ b.len)
    (total : q = s.socket ++ unsent ({ b with pos := b.pos + cc } :: rest)) :
    (advance s b rest cc).Accounts q := by
  have lo := hb.pos_nonneg
  have len := hb.len_eq
  unfold advance
  split
  · have none_left : b.data.drop (b.pos + cc).toNat = [] := drop_eq_nil_of_le (by omega)
    refine ⟨hrest, ?_⟩
    rw [total]
    simp [unsent, none_left]
  · refine ⟨?_, total⟩
    intro x hx
    rcases mem_cons.mp hx with rfl | hx
    · exact ⟨by dsimp only; omega, fits, len⟩
    · exact hrest x hx

theorem dowrite_accounts (memory : Int → UInt8) (h : s.Accounts q) {result : WriteResult}
    (ok : NoFailedWrite s (.write result)) :
    (dowrite memory s result).Accounts q := by
  unfold dowrite
  split
  · exact h
  · rename_i b rest queue
    have hb : b.Sendable := h.sendable b (by rw [queue]; exact mem_cons_self)
    have hrest : ∀ x ∈ rest, x.Sendable := by
      intro x hx
      exact h.sendable x (by rw [queue]; exact mem_cons_of_mem b hx)
    cases result with
    | broken => exact ⟨h.sendable, h.total⟩
    | retry =>
      have empty := ok rfl
      rw [queue] at empty
      cases empty
    | accepted n =>
      have lo := hb.pos_nonneg
      have hi := hb.pos_le
      have fits : b.pos + (min n (b.len - b.pos).toNat : Nat) ≤ b.len := by omega
      apply advance_accounts hb hrest fits
      have later : (b.pos + (min n (b.len - b.pos).toNat : Nat)).toNat =
          b.pos.toNat + min n (b.len - b.pos).toNat := by omega
      rw [h.total, queue, offered_eq memory hb fits]
      simp only [unsent, flatMap_cons, later, ← drop_drop, append_assoc]
      rw [← append_assoc (List.take _ _), take_append_drop]

theorem sendStep_accounts (memory : Int → UInt8) (h : s.Accounts q) {op : SendOp}
    (ok : NoFailedWrite s op) :
    (sendStep memory s op).Accounts (q ++ enqueued [op]) := by
  cases op with
  | enqueue msg =>
    rw [enqueued, enqueued, append_nil]
    exact chanEnqueue_accounts h msg
  | write result =>
    rw [enqueued, enqueued, append_nil]
    exact dowrite_accounts memory h ok

theorem enqueued_cons (op : SendOp) (ops : List SendOp) :
    enqueued (op :: ops) = enqueued [op] ++ enqueued ops := by
  cases op <;> simp [enqueued]

theorem sendRun_accounts (memory : Int → UInt8) (h : s.Accounts q) {ops : List SendOp}
    (ok : Along (sendStep memory) NoFailedWrite s ops) :
    (run (sendStep memory) s ops).Accounts (q ++ enqueued ops) := by
  induction ops generalizing s q with
  | nil =>
    rw [enqueued, append_nil]
    exact h
  | cons op ops ih =>
    have next := ih (sendStep_accounts memory h ok.1) ok.2
    rw [enqueued_cons, ← append_assoc]
    exact next

/-- In every run in which no `write` fails while a buffer is queued, the bytes
the socket accepted are the first ones of the enqueued buffers, and all of them
when the queue is empty. -/
theorem socket_is_prefix (memory : Int → UInt8) (ops : List SendOp)
    (ok : Along (sendStep memory) NoFailedWrite Sender.init ops) :
    (run (sendStep memory) Sender.init ops).socket <+: enqueued ops ∧
    ((run (sendStep memory) Sender.init ops).send = [] →
      (run (sendStep memory) Sender.init ops).socket = enqueued ops) := by
  have start : Sender.init.Accounts [] := by
    refine ⟨?_, rfl⟩
    intro b hb
    cases hb
  have accounts := sendRun_accounts memory start ok
  refine ⟨⟨_, accounts.total.symm⟩, ?_⟩
  intro empty
  have total := accounts.total
  rw [empty] at total
  simpa [unsent] using total.symm

def twoMessages : List SendOp :=
  [.enqueue [65, 66], .write (.accepted 1), .enqueue [67], .write (.accepted 5),
    .write (.accepted 1), .write .retry]

theorem socket_is_prefix_twoMessages :
    Along (sendStep fun _ => 0) NoFailedWrite Sender.init twoMessages ∧
    (run (sendStep fun _ => 0) Sender.init twoMessages).send = [] ∧
    (run (sendStep fun _ => 0) Sender.init twoMessages).socket = enqueued twoMessages := by
  have ok : Along (sendStep fun _ => 0) NoFailedWrite Sender.init twoMessages := by
    simp [twoMessages, Along, NoFailedWrite, sendStep, chanEnqueue, dowrite, advance, msgBuf,
      Sender.init]
  have empty : (run (sendStep fun _ => 0) Sender.init twoMessages).send = [] := by decide +kernel
  have sent := socket_is_prefix (fun _ => 0) twoMessages ok
  exact ⟨ok, empty, sent.2 empty⟩

/-- A `write` that is interrupted after the first byte moves the position back,
and that byte is sent twice. -/
def interruptedWrite : List SendOp :=
  [.enqueue [65, 66], .write (.accepted 1), .write .retry, .write (.accepted 2)]

theorem interruptedWrite_sends_twice :
    (run (sendStep fun _ => 0) Sender.init interruptedWrite).socket = [65, 65, 66] ∧
    (run (sendStep fun _ => 0) Sender.init interruptedWrite).send = [] ∧
    enqueued interruptedWrite = [65, 66] := by
  decide +kernel

end Jhlava.Channel
