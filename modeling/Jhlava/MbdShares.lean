import Jhlava.MbdBook
import Jhlava.MbdStatus

/-! The slots a job contributes for its status, and the updates of the counters
as postings of the difference between two contributions. `Held` says that the
book holds what a job contributes beside the rest; each function that changes a
job keeps it. -/
namespace Jhlava.Mbd
open Ledger TransitionRun

theorem forall_counter {p : Counter → Prop} :
    (∀ c, p c) ↔ p .numJobs ∧ p .numPEND ∧ p .numRUN ∧ p .numSSUSP ∧ p .numUSUSP ∧
      p .numRESERVE := by
  constructor
  · intro h
    exact ⟨h _, h _, h _, h _, h _, h _⟩
  · rintro ⟨jobs, pend, run, ssusp, ususp, reserve⟩ c
    cases c <;> assumption

/-- What a job with `num` hosts that asks for `numReq` slots contributes. -/
def slotsOf (state : JobState) (reserve : Bool) (num numReq : Int) : Counters :=
  match state, reserve with
  | .pend, false | .psusp, false => slots numReq numReq 0 0 0 0
  | .pend, true | .psusp, true => slots numReq (numReq - num) 0 0 0 num
  | .run, _ | .runWait, _ => slots num 0 num 0 0 0
  | .ssusp, false => slots num 0 0 num 0 0
  | .ususp, false => slots num 0 0 0 num 0
  | .ssusp, true | .ususp, true => slots num 0 0 0 0 num
  | .exit, _ | .done, _ => slots 0 0 0 0 0 0

def hostSlotsOf (state : JobState) (reserve : Bool) : Counters :=
  match state, reserve with
  | .pend, false | .psusp, false => hostSlots 0 0 0 0 0
  | .run, _ | .runWait, _ => hostSlots 1 1 0 0 0
  | .ssusp, false => hostSlots 1 0 1 0 0
  | .ususp, false => hostSlots 1 0 0 1 0
  | .pend, true | .psusp, true | .ssusp, true | .ususp, true => hostSlots 1 0 0 0 1
  | .exit, _ | .done, _ => hostSlots 0 0 0 0 0

def JobState.base : JobState → JobState
  | .psusp => .pend
  | .runWait => .run
  | .done => .exit
  | state => state

section

variable (state : JobState)
include state

theorem slotsOf_base (reserve : Bool) : slotsOf state reserve = slotsOf state.base reserve := by
  cases state <;> cases reserve <;> rfl

theorem hostSlotsOf_base (reserve : Bool) :
    hostSlotsOf state reserve = hostSlotsOf state.base reserve := by
  cases state <;> cases reserve <;> rfl

theorem slotsOf_started (reserve : Bool) (num numReq : Int) (c : Counter) :
    onlyStarted (slotsOf state reserve num numReq) c =
      num * onlyStarted (hostSlotsOf state reserve) c := by
  cases state <;> cases reserve <;> cases c <;>
    simp [slotsOf, hostSlotsOf, onlyStarted, slots, hostSlots]

theorem hostSlotsOf_bit (reserve : Bool) (c : Counter) :
    onlyStarted (hostSlotsOf state reserve) c = 0 ∨
      onlyStarted (hostSlotsOf state reserve) c = 1 := by
  cases state <;> cases reserve <;> cases c <;> decide

end

/-- The difference between two contributions is counted once for each host. -/
theorem perHost_diff {num hnum : Counters} {hPtr : List Nat} {old new : JobState} {r r' : Bool}
    {numReq numReq' : Int}
    (slots : ∀ c, slotsOf new r' hPtr.length numReq' c = slotsOf old r hPtr.length numReq c + num c)
    (hosts : ∀ c, hostSlotsOf new r' c = hostSlotsOf old r c + hnum c) :
    PerHost hPtr num hnum := by
  intro some_ c
  have many : (0 : Int) < hPtr.length := Int.natCast_pos.2 (List.length_pos_iff.2 some_)
  have total := slotsOf_started new r' hPtr.length numReq' c
  rw [funext slots, funext hosts, onlyStarted_add, onlyStarted_add, slotsOf_started,
    mul_add] at total
  have bits := hostSlotsOf_bit new r' c
  rw [funext hosts, onlyStarted_add] at bits
  have unit : onlyStarted hnum c = -1 ∨ onlyStarted hnum c = 0 ∨ onlyStarted hnum c = 1 := by
    rcases hostSlotsOf_bit old r c with bit | bit <;> omega
  rw [add_left_cancel total, addOneAbs]
  rcases unit with unit | unit | unit <;> rw [unit] <;> split_ifs <;> omega

def JData.slots (jp : JData) : Counters :=
  slotsOf jp.jStatus.state jp.jStatus.reserve jp.hPtr.length jp.jobBill.maxNumProcessors

def JData.hostSlots (jp : JData) : Counters := hostSlotsOf jp.jStatus.state jp.jStatus.reserve

def share (cf : Config) (jp : JData) : Cell → Int := post cf jp jp.slots jp.hostSlots

/-- A pending job reserves no more slots than it asks for, a running job holds
no reservation, and only a started job can be out of touch. -/
structure JobOk (jp : JData) : Prop where
  reserved : jp.jStatus.state.isPend → jp.jStatus.reserve →
    jp.hPtr.length ≤ jp.jobBill.maxNumProcessors
  running : jp.jStatus.state = .run ∨ jp.jStatus.state = .runWait → jp.jStatus.reserve = false
  known : jp.jStatus.state.isPend → jp.jStatus.unkwn = false

theorem JData.slots_nonneg {jp : JData} (ok : JobOk jp) (c : Counter) : 0 ≤ jp.slots c := by
  have reserved := ok.reserved
  unfold JData.slots
  cases state : jp.jStatus.state <;> cases reserve : jp.jStatus.reserve <;>
    simp only [state, reserve, JobState.isPend, forall_const] at reserved <;>
    cases c <;> simp only [slotsOf, Mbd.slots] <;> omega

theorem JData.hostSlots_nonneg (jp : JData) (c : Counter) : 0 ≤ jp.hostSlots c := by
  unfold JData.hostSlots
  cases jp.jStatus.state <;> cases jp.jStatus.reserve <;> cases c <;> decide

theorem share_nonneg (cf : Config) {jp : JData} (ok : JobOk jp) (a : Cell) :
    0 ≤ share cf jp a :=
  post_nonneg cf jp (JData.slots_nonneg ok) jp.hostSlots_nonneg a

/-- The slots that the job asks for, holds, or asked for before it was modified once. -/
def JData.need (jp : JData) : Nat :=
  max jp.jobBill.maxNumProcessors
    (max jp.hPtr.length (jp.newSub.elim 0 SubmitReq.maxNumProcessors))

theorem JData.need_le {jp : JData} {n : Nat} :
    jp.need ≤ n ↔ jp.jobBill.maxNumProcessors ≤ n ∧ jp.hPtr.length ≤ n ∧
      ∀ sub ∈ jp.newSub, sub.maxNumProcessors ≤ n := by
  rw [JData.need, max_le_iff, max_le_iff]
  cases jp.newSub <;> simp

theorem JData.slots_le (jp : JData) (c : Counter) : jp.slots c ≤ jp.need := by
  obtain ⟨asked, placed, -⟩ := JData.need_le.mp (Nat.le_refl jp.need)
  unfold JData.slots
  cases jp.jStatus.state <;> cases jp.jStatus.reserve <;> cases c <;>
    simp only [slotsOf, Mbd.slots] <;> omega

/-- No user is listed twice among the records that count its jobs. -/
def Config.Once (cf : Config) : Prop :=
  ∀ u, (u :: (cf.user u).gPtr).Nodup ∧ (u :: (cf.user u).ancestors).Nodup

theorem share_le {cf : Config} (once : cf.Once) (jp : JData) {a : Cell} (wraps : a.1.wraps) :
    share cf jp a ≤ jp.need := by
  have bound : ∀ (l : List Nat) (u : Nat) {x : Int}, l.Nodup → x ≤ jp.need →
      (l.count u : Int) * x ≤ jp.need := by
    intro l u x nodup le
    have once := List.nodup_iff_count_le_one.mp nodup u
    rcases Nat.le_one_iff_eq_zero_or_eq_one.mp once with none | one
    · simp [none]
    · simpa [one] using le
  obtain ⟨listed, above⟩ := once jp.uPtr
  obtain ⟨a, c⟩ := a
  have slots := jp.slots_le c
  cases a with
  | queue q =>
    simp only [share, post]
    split <;> omega
  | user u => exact bound _ u listed slots
  | queueUser q u =>
    have part : noJobs jp.slots c ≤ jp.need := by
      cases c with
      | numJobs => exact Int.natCast_nonneg _
      | _ => exact slots
    simp only [share, post]
    split
    · exact bound _ u above part
    · exact Int.natCast_nonneg _
  | _ => exact absurd wraps Bool.false_ne_true

def Accounts.view (acc : Accounts) : (Cell → Int) × (Cell → Nat) := (acc.book, acc.negative)

/-- What the other jobs hold of one counter; a counter that can wrap has room for `most` slots
beside them. -/
structure OtherJobs (cf : Config) where
  cell : Cell
  amount : Int
  nonneg : 0 ≤ amount
  most : Nat
  room : cell.1.wraps → cf.Once ∧ amount + most ≤ intMax

def OtherJobs.Fits {cf : Config} (rest : OtherJobs cf) (jp : JData) : Prop :=
  rest.cell.1.wraps → jp.need ≤ rest.most

theorem OtherJobs.inRange {cf : Config} (rest : OtherJobs cf) {jp : JData} (ok : JobOk jp)
    (fits : rest.Fits jp) : rest.amount + share cf jp rest.cell ∈ cellRange rest.cell := by
  have nonneg := add_nonneg rest.nonneg (share_nonneg cf ok rest.cell)
  unfold cellRange
  split
  · rename_i wraps
    obtain ⟨once, room⟩ := rest.room wraps
    have share := share_le once jp wraps
    have need := fits wraps
    exact ⟨nonneg, by omega⟩
  · exact nonneg

/-- The counter holds the share of the job beside those of the others, and has not been reset. -/
structure Held (cf : Config) (rest : OtherJobs cf) (r : Accounts × JData) : Prop where
  ok : JobOk r.2
  fits : rest.Fits r.2
  book : r.1.book rest.cell = rest.amount + share cf r.2 rest.cell
  kept : r.1.negative rest.cell = 0

variable {hnum num : Counters} {jp' : JData}

section Held

variable {cf : Config} {rest : OtherJobs cf} {acc : Accounts} {jp : JData}

theorem Held.pair {r : Accounts × JData} (h : Held cf rest r) : Held cf rest (r.1, r.2) := h

def SamePlace (jp jp' : JData) : Prop :=
  jp'.qPtr = jp.qPtr ∧ jp'.uPtr = jp.uPtr ∧ jp'.hPtr = jp.hPtr

theorem post_place (place : SamePlace jp jp') (num hnum : Counters) :
    post cf jp' num hnum = post cf jp num hnum := by
  obtain ⟨queue, user, hosts⟩ := place
  funext a
  cases a
  simp only [post, queue, user, hosts]

theorem share_diff (place : SamePlace jp jp') (slots : ∀ c, jp'.slots c = jp.slots c + num c)
    (hosts : ∀ c, jp'.hostSlots c = jp.hostSlots c + hnum c) (a : Cell) :
    share cf jp' a = share cf jp a + post cf jp num hnum a := by
  rw [share, post_place place, funext slots, funext hosts, post_add]
  rfl

section

variable (h : Held cf rest (acc, jp))
include h

theorem Held.posted {f : Accounts → Accounts} {p : Cell → Int} (books : Books f p)
    (ok : JobOk jp') (fits : rest.Fits jp')
    (diff : ∀ a, share cf jp' a = share cf jp a + p a) : Held cf rest (f acc, jp') := by
  have start := rest.inRange h.ok h.fits
  have finish := rest.inRange ok fits
  rw [diff, ← add_assoc] at finish
  rw [← h.book] at start finish
  obtain ⟨book, negative⟩ := books acc rest.cell start finish
  exact ⟨ok, fits, by rw [book, h.book, diff, add_assoc], negative.trans h.kept⟩

theorem Held.same {acc' : Accounts} (ok : JobOk jp') (fits : rest.Fits jp')
    (view : acc'.view = acc.view) (shares : ∀ a, share cf jp' a = share cf jp a) :
    Held cf rest (acc', jp') := by
  have book : acc'.book = acc.book := congrArg Prod.fst view
  have negative : acc'.negative = acc.negative := congrArg Prod.snd view
  exact ⟨ok, fits, by rw [book, h.book, shares], by rw [negative, h.kept]⟩

theorem Held.moved {x : JData} (ok : JobOk jp') (fits : rest.Fits jp') (place : SamePlace jp jp')
    (atx : SamePlace jp x)
    (pend : hnum .numPEND = 0) (slots : ∀ c, jp'.slots c = jp.slots c + num c)
    (hosts : ∀ c, jp'.hostSlots c = jp.hostSlots c + hnum c) :
    Held cf rest (updAll cf acc x num hnum, jp') := by
  have same : PerHost x.hPtr num hnum := by
    rw [atx.2.2]
    simp only [JData.slots, place.2.2] at slots
    exact perHost_diff slots hosts
  apply h.posted (updAll_books cf x num hnum pend same) ok fits
  intro a
  rw [post_place atx]
  exact share_diff place slots hosts a

theorem Held.unmoved (ok : JobOk jp') (fits : rest.Fits jp') (place : SamePlace jp jp')
    (slots : jp'.slots = jp.slots) (hosts : jp'.hostSlots = jp.hostSlots) :
    Held cf rest (acc, jp') := by
  apply h.same ok fits rfl
  intro a
  rw [share, share, post_place place, slots, hosts]

end

theorem updPend_books (jp : JData) (num : Int) :
    Books (fun acc => updPend cf acc jp num)
      (post cf jp (slots num num 0 0 0 0) fun _ => 0) := by
  have same : PerHost jp.hPtr (slots num num 0 0 0 0) fun _ => 0 := by
    intro _ c
    cases c <;> rfl
  have nothing : ∀ a, (jp.hPtr.map (postHost cf jp.uPtr (fun _ => 0) · a)).sum = 0 := by
    rintro ⟨a, c⟩
    cases a <;> simp [postHost, noJobs_zero]
  rw [funext (post_eq_parts cf jp _ _ same)]
  simp only [nothing, add_zero]
  exact updQueueUser_books cf jp (slots num num 0 0 0 0)

end Held

/-! Reservations -/

section Reserve

variable {cf : Config} {rest : OtherJobs cf} {acc : Accounts} {jp : JData}

theorem book_update_host (acc : Accounts) (h : Nat) {hp : HData}
    (count : hp.count = (acc.hosts h).count) (uAcct : hp.uAcct = (acc.hosts h).uAcct) :
    ({ acc with hosts := Function.update acc.hosts h hp } : Accounts).book = acc.book := by
  funext a
  obtain ⟨a, c⟩ := a
  cases a with
  | host h' =>
    by_cases hh : h' = h
    · subst hh
      simp [Accounts.book, count]
    · simp [Accounts.book, Function.update_of_ne hh]
  | hostUser h' u =>
    by_cases hh : h' = h
    · subst hh
      simp [Accounts.book, uAcct]
    · simp [Accounts.book, Function.update_of_ne hh]
  | _ => rfl

theorem addProxy_view (job : JData) (acc : Accounts) (h : Nat) :
    (addProxy cf job acc h).view = acc.view := by
  unfold addProxy
  dsimp only
  split
  · rfl
  · exact congrArg (·, acc.negative) (book_update_host acc h rfl rfl)

theorem removeProxy_view (job : JData) (acc : Accounts) (h : Nat) :
    (removeProxy cf job acc h).view = acc.view := by
  unfold removeProxy
  split
  · rfl
  · exact congrArg (·, acc.negative) (book_update_host acc h rfl rfl)

theorem bumpDispJobs_view (d : Int) (acc : Accounts) (h : Nat) :
    (bumpDispJobs d acc h).view = acc.view :=
  congrArg (·, acc.negative) (book_update_host acc h rfl rfl)

theorem chargeUsable_view (acc : Accounts) (jp : JData) :
    (chargeUsable cf acc jp).view = acc.view := by
  unfold chargeUsable
  split
  · rfl
  · refine congrArg (·, acc.negative) (funext ?_)
    rintro ⟨a, c⟩
    cases a with
    | queue q =>
      by_cases hq : q = jp.qPtr
      · subst hq
        simp [Accounts.book]
      · simp [Accounts.book, Function.update_of_ne hq]
    | queueUser q u =>
      by_cases hq : q = jp.qPtr
      · subst hq
        simp [Accounts.book]
      · simp [Accounts.book, Function.update_of_ne hq]
    | queueHost q h =>
      by_cases hq : q = jp.qPtr
      · subst hq
        simp [Accounts.book]
      · simp [Accounts.book, Function.update_of_ne hq]
    | _ => rfl

/-- States in which `updResCounters` counts the reservation bit. -/
def JobState.canReserve : JobState → Bool
  | .pend | .psusp | .ssusp | .ususp => true
  | _ => false

theorem JobOk.setReserve (ok : JobOk jp) {on : Bool} (can : jp.jStatus.state.canReserve)
    (fits : on → jp.jStatus.state.isPend → jp.hPtr.length ≤ jp.jobBill.maxNumProcessors) :
    JobOk (jp.setReserve on) := by
  refine ⟨fun pend held => fits held pend, ?_, ok.known⟩
  rintro (run | wait)
  · simp [show jp.jStatus.state = .run from run, JobState.canReserve] at can
  · simp [show jp.jStatus.state = .runWait from wait, JobState.canReserve] at can

theorem JobOk.canReserve (ok : JobOk jp) (held : jp.jStatus.reserve = true)
    (live : jp.jStatus.state.isFinish = false) : jp.jStatus.state.canReserve := by
  have running := ok.running
  rw [held] at running
  cases state : jp.jStatus.state with
  | run => exact absurd (running (.inl state)) (by decide)
  | runWait => exact absurd (running (.inr state)) (by decide)
  | exit | done => simp [state, JobState.isFinish] at live
  | _ => rfl

theorem turnReserve_held (h : Held cf rest (acc, jp)) (on : Bool)
    (was : jp.jStatus.reserve = !on) (can : jp.jStatus.state.canReserve)
    (fits : on → jp.jStatus.state.isPend → jp.hPtr.length ≤ jp.jobBill.maxNumProcessors) :
    Held cf rest (turnReserve cf acc jp on) := by
  have ok := h.ok.setReserve can fits
  have counted : ∀ {num hnum : Counters}, hnum .numPEND = 0 →
      (∀ c, (jp.setReserve on).slots c = jp.slots c + num c) →
      (∀ c, (jp.setReserve on).hostSlots c = jp.hostSlots c + hnum c) →
      Held cf rest (updAll cf acc jp num hnum, jp.setReserve on) :=
    fun pend slots hosts => h.moved ok h.fits ⟨rfl, rfl, rfl⟩ ⟨rfl, rfl, rfl⟩ pend slots hosts
  have added : ∀ {acc'}, Held cf rest (acc', jp.setReserve on) →
      Held cf rest (proxyHRsvJLAddEntry cf acc' jp, jp.setReserve on) := fun {acc'} h' =>
    h'.same ok h.fits (foldl_view Accounts.view (addProxy_view jp) jp.hPtr acc') fun _ => rfl
  have removed : ∀ {acc'}, Held cf rest (acc', jp.setReserve on) →
      Held cf rest (proxyHRsvJLRemoveEntry cf acc' jp, jp.setReserve on) := fun {acc'} h' =>
    h'.same ok h.fits (foldl_view Accounts.view (removeProxy_view jp) jp.hPtr acc') fun _ => rfl
  have slots : ∀ {num : Counters},
      (∀ c, slotsOf jp.jStatus.state on jp.hPtr.length jp.jobBill.maxNumProcessors c =
        slotsOf jp.jStatus.state (!on) jp.hPtr.length jp.jobBill.maxNumProcessors c + num c) →
      ∀ c, (jp.setReserve on).slots c = jp.slots c + num c := by
    intro num diff c
    rw [JData.slots, JData.slots, was]
    exact diff c
  have hosts : ∀ {hnum : Counters},
      (∀ c, hostSlotsOf jp.jStatus.state on c = hostSlotsOf jp.jStatus.state (!on) c + hnum c) →
      ∀ c, (jp.setReserve on).hostSlots c = jp.hostSlots c + hnum c := by
    intro hnum diff c
    rw [JData.hostSlots, JData.hostSlots, was]
    exact diff c
  cases state : jp.jStatus.state <;> cases on <;>
    simp [turnReserve, updResCounters, state, was, JobState.canReserve, JobState.isStart,
      JobState.isPend] at can ⊢ <;>
    rw [state] at slots hosts
  case pend.false | psusp.false =>
    exact removed (counted rfl (slots (by simp [forall_counter, slotsOf, Mbd.slots]))
      (hosts (by simp [forall_counter, hostSlotsOf, hostSlots, Mbd.slots])))
  case pend.true | psusp.true =>
    exact added (counted rfl (slots (by simp [forall_counter, slotsOf, Mbd.slots]; omega))
      (hosts (by simp [forall_counter, hostSlotsOf, hostSlots, Mbd.slots])))
  all_goals
    exact counted rfl (slots (by simp [forall_counter, slotsOf, Mbd.slots]))
      (hosts (by simp [forall_counter, hostSlotsOf, hostSlots, Mbd.slots]))

end Reserve

/-! Changes of the status -/

section Status

variable {cf : Config} {rest : OtherJobs cf} {acc : Accounts} {jp : JData}

/-- The changes of state that `updCounters` counts. The others it only logs:
to `WAIT` from any but a running job, to `PSUSP` from a started job, from
`PSUSP` to another suspended state, and back from a finished one. -/
def counted : JobState → JobState → Bool
  | .exit, new | .done, new => new.isFinish
  | old, .runWait => old = .run || old = .runWait
  | old, .psusp => old.isPend
  | .psusp, .ssusp | .psusp, .ususp => false
  | _, _ => true

def between (old new : JobState) (num numReq : Int) : Counters :=
  fun c => slotsOf new false num numReq c - slotsOf old false num numReq c

def hostBetween (old new : JobState) : Counters :=
  fun c => hostSlotsOf new false c - hostSlotsOf old false c

/-- The amounts of `between` for the job, posted everywhere. -/
def transit (cf : Config) (jp : JData) (old new : JobState) : Cell → Int :=
  post cf jp (between old new jp.hPtr.length jp.jobBill.maxNumProcessors) (hostBetween old new)

variable {new old : JobState}

theorem transit_eq
    (slots : ∀ c, num c = between old new jp.hPtr.length jp.jobBill.maxNumProcessors c)
    (hosts : ∀ c, hnum c = hostBetween old new c) :
    transit cf jp old new = post cf jp num hnum := by
  rw [transit, funext slots, funext hosts]

theorem updAll_transit
    (slots : ∀ c, num c = between old new jp.hPtr.length jp.jobBill.maxNumProcessors c := by
      simp [forall_counter, between, slotsOf, slots] <;> omega)
    (hosts : ∀ c, hnum c = hostBetween old new c := by exact forall_counter.mpr (by decide)) :
    Books (fun acc => updAll cf acc jp num hnum) (transit cf jp old new) := by
  have pend : hnum .numPEND = 0 := by
    rw [hosts]
    cases old <;> cases new <;> rfl
  have slots' : ∀ c, slotsOf new false jp.hPtr.length jp.jobBill.maxNumProcessors c =
      slotsOf old false jp.hPtr.length jp.jobBill.maxNumProcessors c + num c := by
    intro c
    rw [slots, between, add_sub_cancel]
  have hosts' : ∀ c, hostSlotsOf new false c = hostSlotsOf old false c + hnum c := by
    intro c
    rw [hosts, hostBetween, add_sub_cancel]
  rw [transit_eq slots hosts]
  exact updAll_books cf jp num hnum pend (perHost_diff slots' hosts')

theorem updPend_transit (pend : old.isPend) :
    Books (fun acc => updPend cf acc jp (-jp.jobBill.maxNumProcessors))
      (transit cf jp old .exit) := by
  have amounts : transit cf jp old .exit =
      post cf jp (slots (-jp.jobBill.maxNumProcessors) (-jp.jobBill.maxNumProcessors) 0 0 0 0)
        fun _ => 0 := by
    cases old with
    | pend | psusp =>
      apply transit_eq
      · simp [forall_counter, between, slotsOf, slots]
      · exact forall_counter.mpr (by decide)
    | _ => exact absurd pend (by decide)
  rw [amounts]
  exact updPend_books jp _

theorem still_transit (same : old.base = new.base) :
    Books (fun acc => acc) (transit cf jp old new) := by
  have zero : transit cf jp old new = post cf jp (fun _ => 0) (fun _ => 0) := by
    apply transit_eq
    · intro c
      rw [between, slotsOf_base new, slotsOf_base old, same, sub_self]
    · intro c
      rw [hostBetween, hostSlotsOf_base new, hostSlotsOf_base old, same, sub_self]
  rw [zero, funext (post_zero cf jp)]
  exact Posts.id

theorem countRun_books (tr : counted old .run) :
    Books (fun acc => countRun cf acc jp old) (transit cf jp old .run) := by
  cases old with
  | run | runWait => exact still_transit rfl
  | exit | done => exact absurd tr (by decide)
  | _ => exact updAll_transit

theorem countSsusp_books (tr : counted old .ssusp) :
    Books (fun acc => countSsusp cf acc jp old) (transit cf jp old .ssusp) := by
  cases old with
  | ssusp => exact still_transit rfl
  | psusp | exit | done => exact absurd tr (by decide)
  | _ => exact updAll_transit

theorem countUsusp_books (tr : counted old .ususp) :
    Books (fun acc => countUsusp cf acc jp old) (transit cf jp old .ususp) := by
  cases old with
  | ususp => exact still_transit rfl
  | psusp | exit | done => exact absurd tr (by decide)
  | _ => exact updAll_transit

theorem countFinish_books (fin : new.isFinish) :
    Books (fun acc => countFinish cf acc jp old) (transit cf jp old new) := by
  have same : transit cf jp old new = transit cf jp old .exit := by
    cases new <;> first | rfl | exact absurd fin (by decide)
  rw [same]
  cases old with
  | exit | done => exact still_transit rfl
  | pend | psusp =>
    exact updPend_transit rfl
  | _ => exact updAll_transit

theorem countPend_books (tr : counted old .pend) :
    Books (fun acc => countPend cf acc jp old) (transit cf jp old .pend) := by
  cases old with
  | pend | psusp => exact still_transit rfl
  | exit | done => exact absurd tr (by decide)
  | _ => exact updAll_transit

theorem updCounters_books (tr : counted old jp.jStatus.state) :
    Books (fun acc => updCounters cf acc jp old) (transit cf jp old jp.jStatus.state) := by
  unfold updCounters
  dsimp only
  generalize jp.jStatus.state = new at tr
  split
  · -- the source returns at once, and rightly: both states contribute the same
    rename_i early
    apply still_transit
    revert tr early
    cases old <;> cases new <;> decide
  · rename_i late
    cases new with
    | run => exact countRun_books tr
    | ssusp => exact countSsusp_books tr
    | ususp => exact countUsusp_books tr
    | pend => exact countPend_books tr
    | exit | done => exact countFinish_books rfl
    | psusp | runWait =>
      apply still_transit
      revert tr late
      cases old <;> decide

theorem updCounters_held (h : Held cf rest (acc, jp)) (place : SamePlace jp jp')
    (off : jp.jStatus.reserve = false) (off' : jp'.jStatus.reserve = false)
    (known : jp'.jStatus.unkwn = false) (fits : rest.Fits jp')
    (numReq : jp.jStatus.state.isPend → jp'.jobBill.maxNumProcessors = jp.jobBill.maxNumProcessors)
    (tr : counted jp.jStatus.state jp'.jStatus.state) :
    Held cf rest (updCounters cf acc jp' jp.jStatus.state, jp') := by
  have ok : JobOk jp' := by
    refine ⟨?_, fun _ => off', fun _ => known⟩
    intro _ held
    exact absurd held (by simp [off'])
  have request : slotsOf jp.jStatus.state false jp.hPtr.length jp'.jobBill.maxNumProcessors =
      slotsOf jp.jStatus.state false jp.hPtr.length jp.jobBill.maxNumProcessors := by
    cases state : jp.jStatus.state with
    | pend | psusp => rw [numReq (by rw [state]; rfl)]
    | _ => rfl
  apply h.posted (updCounters_books tr) ok fits
  rw [transit, post_place place]
  apply share_diff place
  · intro c
    rw [JData.slots, JData.slots, off, off', place.2.2, between, request]
    omega
  · intro c
    rw [JData.hostSlots, JData.hostSlots, off, off', hostBetween]
    omega

end Status

end Jhlava.Mbd
