import Jhlava.JobMoves

/-! Runs over the job lists: whatever the functions are called with, a job in core
is linked in exactly one list; the list is the one for its status as long as
`jStatusChange` is asked for possible changes only. -/
namespace Jhlava.Core
open TransitionRun List Function

def Mbd.core (s : Mbd) : List Nat := s.jobIdHT.map Prod.snd

/-- Calls of the four functions, and what the code around them writes in a job: flags
of the status word, the reason of its state, and events that wait for it. -/
inductive Step where
  | handleNewJob (g : Globals) (sub : Submission) (job : NewJob)
  | jStatusChange (g : Globals) (jp : Nat) (newStatus : Status) (eventTime : Int)
  | handleRequeueJob (g : Globals) (jp : Nat) (requeueTime : Int)
  | jobInQueueEnd (g : Globals) (jp : Nat) (qp : QData)
  | setFlag (jp : Nat) (flag : Flag)
  | clearFlag (jp : Nat) (flag : Flag)
  | setReason (jp : Nat) (newReason : Int)
  | setPendEvent (jp : Nat) (requeue : Bool) (sig1Flags : Status)
  deriving DecidableEq, Repr

/-- The job a step is about, and the state it leaves. -/
def onJob (s : Mbd) : Step → Option (Nat × Mbd)
  | .handleNewJob .. => none
  | .jStatusChange g jp newStatus eventTime => some (jp, jStatusChange g s jp newStatus eventTime)
  | .handleRequeueJob g jp requeueTime => some (jp, handleRequeueJob g s jp requeueTime)
  | .jobInQueueEnd g jp qp => some (jp, jobInQueueEnd g s jp qp)
  | .setFlag jp flag => some (jp, s.setJob jp fun j => { j with jStatus := flag.set j.jStatus })
  | .clearFlag jp flag => some (jp, s.setJob jp fun j => { j with jStatus := flag.clear j.jStatus })
  | .setReason jp newReason => some (jp, s.setJob jp fun j => { j with newReason })
  | .setPendEvent jp requeue sig1Flags =>
    some (jp, s.setJob jp fun j => { j with requeue, sig1Flags })

/-- A job that is not in core is not touched; a `handleNewJob` that does not return
reaches no further state. -/
def step (s : Mbd) (i : Step) : Mbd :=
  match i with
  | .handleNewJob g sub job => (handleNewJob g s sub job).getD s
  | i =>
    match onJob s i with
    | some (jp, s') => if jp ∈ s.core then s' else s
    | none => s

def Mbd.Filed (s : Mbd) (jp : Nat) : Prop :=
  (∃! l, jp ∈ s.list l) ∧ ∀ l, jp ∈ s.list l →
    ((l = .pjl ∨ l = .mjl) ↔ isPend (s.jobs jp).jStatus = true) ∧
    (l = .sjl ↔ isStart (s.jobs jp).jStatus = true) ∧
    (l = .fjl ↔ isFinish (s.jobs jp).jStatus = true)

/-- A change of status that the lists follow: none at all, the one that a replay turns
back, or one to a status of one class, not from finished to unfinished, and not from
started to pending without `JOB_STAT_PEND`. -/
def PossibleChange (g : Globals) (oldStatus newStatus : Status) (eventTime : Int) : Prop :=
  sameStatus oldStatus newStatus = true ∨
  putsBack g oldStatus (maskStatus newStatus) eventTime = true ∨
  (∃ l : ListNo, classes (maskStatus newStatus) = l.kind) ∧
    (isFinish oldStatus = true → isFinish (maskStatus newStatus) = true) ∧
    (isStart oldStatus = true → isPend (maskStatus newStatus) = true →
      has (maskStatus newStatus) jobStatPend = true)

def Possible (s : Mbd) : Step → Prop
  | .jStatusChange g jp newStatus eventTime =>
    jp ∈ s.core → PossibleChange g (s.jobs jp).jStatus newStatus eventTime
  | _ => True

/-! ### The invariant -/

/-- The table has the ids of its jobs, and no job is an array. -/
structure Known (s : Mbd) (place : Nat → Option ListNo) : Prop where
  arranged : Arranged s place
  ids : ∀ id p, (id, p) ∈ s.jobIdHT → (s.jobs p).jobId = id
  noArrays : NoArrays s

/-- The jobs in the table are placed in a list. -/
structure Sound (s : Mbd) (place : Nat → Option ListNo) : Prop extends Known s place where
  core : ∀ p ∈ s.core, ∃ l, place p = some l

def Matches (s : Mbd) (place : Nat → Option ListNo) : Prop :=
  ∀ p ∈ s.core, ∀ l, place p = some l → classes (s.jobs p).jStatus = l.kind

variable {s s' : Mbd} {place place' : Nat → Option ListNo} {p : Nat} {l : ListNo}

theorem classes_eq_kind (st : Status) (l : ListNo) :
    classes st = l.kind ↔
      ((l = .pjl ∨ l = .mjl) ↔ isPend st = true) ∧ (l = .sjl ↔ isStart st = true) ∧
      (l = .fjl ↔ isFinish st = true) := by
  cases l <;> simp [classes, ListNo.kind, and_comm]

theorem Sound.filed_iff (sound : Sound s place) (at_ : place p = some l) :
    s.Filed p ↔ classes (s.jobs p).jStatus = l.kind := by
  constructor
  · intro filed
    exact (classes_eq_kind _ l).mpr (filed.2 l (sound.arranged.mem_list.mpr at_))
  · intro eq
    refine ⟨sound.arranged.existsUnique at_, fun k hk => ?_⟩
    rw [sound.arranged.mem_list, at_] at hk
    rw [← Option.some.inj hk]
    exact (classes_eq_kind _ l).mp eq

theorem Sound.matches_iff (sound : Sound s place) : Matches s place ↔ ∀ p ∈ s.core, s.Filed p := by
  refine forall₂_congr fun p inCore => ?_
  obtain ⟨l, at_⟩ := sound.core p inCore
  rw [sound.filed_iff at_, at_]
  simp

theorem Known.frame (known : Known s place) (frame : Frame p s s') (arr : Arranged s' place') :
    Known s' place' := by
  refine ⟨arr, fun id q hq => ?_, frame.noArrays known.noArrays⟩
  rw [frame.jobIdHT] at hq
  rw [frame.ids, known.ids id q hq]

theorem Frame.core (frame : Frame p s s') : s'.core = s.core :=
  congrArg (List.map Prod.snd) frame.jobIdHT

variable {kind : Bool × Bool × Bool → Bool × Bool × Bool} {status : Bool × Bool × Bool}

theorem Sound.moves (sound : Sound s place) (moves : Moves p s s' kind status)
    (inCore : p ∈ s.core) :
    ∃ place', Sound s' place' ∧ (Matches s place →
      (Matches s' place' ↔ kind (classes (s.jobs p).jStatus) = status)) := by
  obtain ⟨l, at_⟩ := sound.core p inCore
  obtain ⟨k, hk, arr⟩ := moves.placed place l sound.arranged at_
  have core := moves.frame.core
  refine ⟨_, ⟨sound.frame moves.frame arr, fun q hq => ?_⟩, fun all => ?_⟩
  · by_cases eq : q = p
    · exact ⟨k, eq ▸ update_self ..⟩
    · rw [update_of_ne eq]
      exact sound.core q (core ▸ hq)
  · rw [all p inCore l at_, ← hk, ← moves.status]
    constructor
    · intro all'
      exact (all' p (core ▸ inCore) k (update_self ..)).symm
    · intro eq q hq k' at'
      by_cases qp : q = p
      · rw [qp, update_self] at at'
        rw [qp, ← Option.some.inj at', eq]
      · rw [update_of_ne qp] at at'
        rw [moves.frame.others q qp]
        exact all q (core ▸ hq) k' at'

/-! ### The steps on one job -/

theorem exists_kind (c : Bool × Bool × Bool) :
    (∃ l : ListNo, c = l.kind) ↔
      c = (true, false, false) ∨ c = (false, true, false) ∨ c = (false, false, true) := by
  constructor
  · rintro ⟨l, rfl⟩
    cases l <;> simp [ListNo.kind]
  · rintro (rfl | rfl | rfl)
    · exact ⟨.pjl, rfl⟩
    · exact ⟨.sjl, rfl⟩
    · exact ⟨.fjl, rfl⟩

theorem movedKind_eq_iff {oldStatus : Status} (newStatus : Status)
    (at_ : classes oldStatus = l.kind) :
    movedKind oldStatus newStatus (classes oldStatus) = classes newStatus ↔
      (∃ k : ListNo, classes newStatus = k.kind) ∧
      (isFinish oldStatus = true → isFinish newStatus = true) ∧
      (isStart oldStatus = true → isPend newStatus = true → has newStatus jobStatPend = true) := by
  have pend : has newStatus jobStatPend = true → isPend newStatus = true := by
    intro has
    rw [isPend, has, Bool.true_or]
  rw [exists_kind]
  simp only [classes] at at_
  unfold movedKind classes
  generalize isPend newStatus = pending at *
  generalize isStart newStatus = started at *
  generalize isFinish newStatus = finished at *
  generalize has newStatus jobStatPend = bit at *
  generalize isPend oldStatus = a at *
  generalize isStart oldStatus = b at *
  generalize isFinish oldStatus = c at *
  cases l <;> simp only [ListNo.kind, Prod.mk.injEq] at at_ <;> obtain ⟨rfl, rfl, rfl⟩ := at_ <;>
    cases pending <;> cases started <;> cases finished <;> cases bit <;> simp_all [ListNo.kind]

theorem changedKind_eq_iff (g : Globals) {oldStatus : Status} (newStatus : Status) (eventTime : Int)
    (at_ : classes oldStatus = l.kind) (changes : sameStatus oldStatus newStatus = false) :
    changedKind g oldStatus (maskStatus newStatus) eventTime (classes oldStatus) =
      changedStatus g oldStatus (maskStatus newStatus) eventTime ↔
    PossibleChange g oldStatus newStatus eventTime := by
  unfold changedKind changedStatus PossibleChange
  rw [changes]
  cases putsBack g oldStatus (maskStatus newStatus) eventTime with
  | true => simp
  | false => simpa using movedKind_eq_iff (maskStatus newStatus) at_

section

variable (sound : Sound s place)
include sound

theorem jStatusChange_sound (inCore : p ∈ s.core) (g : Globals) (newStatus : Status)
    (eventTime : Int) :
    ∃ place', Sound (jStatusChange g s p newStatus eventTime) place' ∧
      (Matches s place → (Matches (jStatusChange g s p newStatus eventTime) place' ↔
        PossibleChange g (s.jobs p).jStatus newStatus eventTime)) := by
  cases changes : sameStatus (s.jobs p).jStatus newStatus with
  | true =>
    rw [jStatusChange, if_pos changes]
    exact ⟨place, sound, fun all => iff_of_true all (Or.inl changes)⟩
  | false =>
    obtain ⟨place', sound', iff⟩ :=
      sound.moves (jStatusChange_moves g s p newStatus eventTime changes) inCore
    obtain ⟨l, at_⟩ := sound.core p inCore
    refine ⟨place', sound', fun all => (iff all).trans ?_⟩
    exact changedKind_eq_iff g newStatus eventTime (all p inCore l at_) changes

theorem Sound.follows (moves : Moves p s s' kind status) (inCore : p ∈ s.core)
    (right : ∀ l : ListNo, classes (s.jobs p).jStatus = l.kind →
      kind (classes (s.jobs p).jStatus) = status) :
    ∃ place', Sound s' place' ∧ (Matches s place → Matches s' place') := by
  obtain ⟨place', sound', iff⟩ := sound.moves moves inCore
  obtain ⟨l, at_⟩ := sound.core p inCore
  exact ⟨place', sound', fun all => (iff all).mpr (right l (all p inCore l at_))⟩

theorem jobInQueueEnd_sound (inCore : p ∈ s.core) (g : Globals) (qp : QData) :
    ∃ place', Sound (jobInQueueEnd g s p qp) place' ∧
      (Matches s place → Matches (jobInQueueEnd g s p qp) place') := by
  refine sound.follows (jobInQueueEnd_moves g s p qp) inCore fun l eq => ?_
  have := (classes_eq_kind _ l).mp eq
  cases l <;> simp_all [ListNo.kind]

theorem setJob_sound (inCore : p ∈ s.core) {f : JData → JData}
    (status : ∀ j, classes (f j).jStatus = classes j.jStatus)
    (keeps : ∀ j, (f j).jobId = j.jobId ∧ (f j).nodeType = j.nodeType :=
      by intro; exact ⟨rfl, rfl⟩) :
    ∃ place', Sound (s.setJob p f) place' ∧ (Matches s place → Matches (s.setJob p f) place') := by
  refine sound.follows (moves_of_quiet (quiet_setJob s p keeps)) inCore fun _ _ => ?_
  rw [setJob_self, status]
  rfl

end

/-! ### New jobs -/

variable {id : Int}

theorem mem_core (mem : (id, p) ∈ s.jobIdHT) : p ∈ s.core :=
  mem_map.mpr ⟨(id, p), mem, rfl⟩

theorem Sound.bound_core (sound : Sound s place) (inCore : p ∈ s.core) : p < s.numJobs := by
  obtain ⟨l, at_⟩ := sound.core p inCore
  exact sound.arranged.bound p l at_

theorem mem_of_getJobData (found : getJobData s id = some p) : (id, p) ∈ s.jobIdHT := by
  rw [getJobData] at found
  split at found
  · exact absurd found (by simp)
  · obtain ⟨xs, ys, split, -⟩ := lookup_eq_some_iff.mp found
    rw [split]
    simp

theorem newJData_sound (sound : Sound s place) (sub : Submission) :
    Sound (newJData s sub) place ∧ (Matches s place → Matches (newJData s sub) place) := by
  have old : ∀ q ∈ s.core, (newJData s sub).jobs q = s.jobs q := fun q inCore =>
    update_of_ne (Nat.ne_of_lt (sound.bound_core inCore)) _ _
  refine ⟨⟨⟨⟨sound.arranged.layout, fun q l hq => ?_⟩, fun id q hq => ?_, sound.noArrays.1,
    fun q => ?_⟩, sound.core⟩, fun all q hq l at_ => ?_⟩
  · exact Nat.lt_succ_of_lt (sound.arranged.bound q l hq)
  · rw [old q (mem_core hq)]
    exact sound.ids id q hq
  · by_cases eq : q = s.numJobs
    · simp [newJData, eq, Submission.jData]
    · rw [show (newJData s sub).jobs q = s.jobs q from update_of_ne eq _ _]
      exact sound.noArrays.2 q
  · rw [old q hq]
    exact all q hq l at_

theorem removeFromTree_treeOnly (noArrays : NoArrays s) (p : Nat) :
    TreeOnly s (removeFromTree s p) := by
  rw [removeFromTree]
  split
  · exact .refl s
  · rename_i n _
    rw [if_neg (noArrays.1 n)]
    exact treeOnly_treeClip s n

/-- The jobs are those of `s`, and fewer of them have a place or are in the table. -/
structure Less (s : Mbd) (place : Nat → Option ListNo) (s' : Mbd) (place' : Nat → Option ListNo) :
    Prop where
  jobs : s'.jobs = s.jobs
  numJobs : s'.numJobs = s.numJobs
  core : ∀ q ∈ s'.core, q ∈ s.core
  place : ∀ q l, place' q = some l → place q = some l

/-- The job with an id leaves the table and its list. -/
theorem removeJob_sound (sound : Sound s place) (id : Int) :
    ∃ place', Sound (removeJob s id) place' ∧ Less s place (removeJob s id) place' := by
  rw [removeJob]
  split
  · exact ⟨place, sound, rfl, rfl, fun _ h => h, fun _ _ h => h⟩
  · rename_i jp found
    have mem := mem_of_getJobData found
    obtain ⟨l, at_⟩ := sound.core jp (mem_core mem)
    have job : ¬(s.jobs jp).nodeType = .array := by
      rw [sound.noArrays.2 jp]
      exact NodeType.noConfusion
    rw [if_neg job, sound.ids id jp mem]
    have noArrays : NoArrays (offJobList (remvMemb s id) jp .fjl) := sound.noArrays
    have only := removeFromTree_treeOnly noArrays jp
    generalize removeFromTree (offJobList (remvMemb s id) jp .fjl) jp = s' at only ⊢
    have table : s'.jobIdHT = s.jobIdHT.filter fun ent => ent.1 ≠ id := only.jobIdHT
    have arr : Arranged (remvMemb s id) place := ⟨sound.arranged.layout, sound.arranged.bound⟩
    have left : ∀ q ∈ s'.core, q ≠ jp ∧ q ∈ s.core := by
      intro q hq
      obtain ⟨⟨id', q⟩, entry, rfl⟩ := mem_map.mp hq
      rw [table, mem_filter] at entry
      refine ⟨?_, mem_core entry.1⟩
      rintro rfl
      exact of_decide_eq_true entry.2 ((sound.ids id' q entry.1).symm.trans (sound.ids id q mem))
    refine ⟨Function.update place jp none, ⟨⟨(only.quiet jp).arranged (arr.offJobList at_),
      fun id' q hq => ?_, (only.quiet jp).frame.noArrays sound.noArrays⟩, fun q hq => ?_⟩,
      only.jobs, only.numJobs, fun q hq => (left q hq).2, fun q l' hq => ?_⟩
    · rw [table] at hq
      rw [only.jobs]
      exact sound.ids id' q (mem_filter.mp hq).1
    · rw [update_of_ne (left q hq).1]
      exact sound.core q (left q hq).2
    · by_cases eq : q = jp
      · rw [eq] at hq
        exact absurd hq (by simp)
      · rwa [update_of_ne eq] at hq

/-- A job that is in the table, and not yet in a list. -/
structure Entering (s : Mbd) (place : Nat → Option ListNo) (p : Nat) : Prop
    extends Known s place where
  allocated : p < s.numJobs
  mem : p ∈ s.core
  free : place p = none
  core : ∀ q ∈ s.core, q = p ∨ ∃ l, place q = some l

theorem Sound.enter (sound : Sound s place) (allocated : p < s.numJobs) (free : place p = none)
    (own : (s.jobs p).jobId = id) :
    Entering { s with jobIdHT := (id, p) :: s.jobIdHT } place p := by
  refine ⟨⟨⟨sound.arranged.layout, sound.arranged.bound⟩, fun id' q hq => ?_, sound.noArrays⟩,
    allocated, mem_cons_self, free, fun q hq => (mem_cons.mp hq).imp_right (sound.core q)⟩
  rcases mem_cons.mp hq with eq | hq
  · obtain ⟨rfl, rfl⟩ := Prod.mk.inj eq
    exact own
  · exact sound.ids id' q hq

theorem addJobIdHT_entering (sound : Sound s place) (allocated : p < s.numJobs)
    (free : place p = none) (added : addJobIdHT s p = some s') :
    s'.jobs = s.jobs ∧ ∃ place', Entering s' place' p ∧
      ∀ q ∈ s'.core, ∀ l, place' q = some l → q ∈ s.core ∧ place q = some l := by
  have enters : ∀ {s₁ place₁}, Sound s₁ place₁ → Less s place s₁ place₁ →
      some { s₁ with jobIdHT := ((s.jobs p).jobId, p) :: s₁.jobIdHT } = some s' →
      s'.jobs = s.jobs ∧ ∃ place', Entering s' place' p ∧
        ∀ q ∈ s'.core, ∀ l, place' q = some l → q ∈ s.core ∧ place q = some l := by
    rintro s₁ place₁ sound₁ less ⟨⟩
    have free₁ : place₁ p = none := by
      cases at_ : place₁ p with
      | none => rfl
      | some l => rw [less.place p l at_] at free; exact free
    refine ⟨less.jobs, place₁, sound₁.enter (less.numJobs ▸ allocated) free₁
      (by rw [less.jobs]), ?_⟩
    intro q hq l at_
    refine ⟨?_, less.place q l at_⟩
    rcases mem_cons.mp hq with rfl | hq
    · exact absurd (free₁.symm.trans at_) (by simp)
    · exact less.core q hq
  rw [addJobIdHT] at added
  split at added
  · exact enters sound ⟨rfl, rfl, fun _ h => h, fun _ _ h => h⟩ added
  split at added
  · rename_i found
    obtain ⟨l, at_⟩ := sound.core p (mem_core (mem_of_getJobData found))
    exact absurd (free.symm.trans at_) (by simp)
  · obtain ⟨place₁, sound₁, less⟩ := removeJob_sound sound (s.jobs p).jobId
    dsimp only at added
    split at added
    · exact enters sound₁ less added
    · exact absurd added (by simp)

theorem Entering.inPend (entering : Entering s place p) (g : Globals) :
    Sound (inPendJobList g s p .pjl 0) (Function.update place p (some .pjl)) := by
  refine ⟨entering.frame (frame_inPendJobList g s p .pjl 0)
    (arranged_inPendJobList g 0 entering.arranged entering.free entering.allocated), fun q hq => ?_⟩
  rcases eq_or_ne q p with rfl | ne
  · exact ⟨.pjl, update_self ..⟩
  · rw [update_of_ne ne]
    exact (entering.core q hq).resolve_left ne

theorem replayPriority_moves (g : Globals) (s : Mbd) (p : Nat) :
    Moves p s (replayPriority g s p) (fun _ => ListNo.kind .pjl) (classes (s.jobs p).jStatus) := by
  refine Moves.after (quiet_setJob s p) ((moves_inPend g _ p .pjl .pjl 0).of_eq ?_)
  rw [setJob_self]

def StaysPending (p : Nat) (s s' : Mbd) : Prop :=
  classes (s.jobs p).jStatus = ListNo.kind .pjl →
    ∃ kind, kind (ListNo.kind .pjl) = ListNo.kind .pjl ∧ Moves p s s' kind (ListNo.kind .pjl)

theorem StaysPending.trans {s'' : Mbd} (h : StaysPending p s s') (h' : StaysPending p s' s'') :
    StaysPending p s s'' := by
  intro pending
  obtain ⟨kind, same, moves⟩ := h pending
  obtain ⟨kind', same', moves'⟩ := h' moves.status
  exact ⟨_, (congrArg kind' same).trans same', moves.trans moves'⟩

theorem staysPending_of_quiet (quiet : Quiet p s s')
    (same : classes (s'.jobs p).jStatus = classes (s.jobs p).jStatus) : StaysPending p s s' := by
  intro pending
  exact ⟨id, rfl, (moves_of_quiet quiet).of_eq (same.trans pending)⟩

theorem staysPending_hold (g : Globals) (s : Mbd) (p : Nat) (eventTime : Int) :
    StaysPending p s (jStatusChange g s p jobStatPsusp eventTime) := by
  intro pending
  cases changes : sameStatus (s.jobs p).jStatus jobStatPsusp with
  | true =>
    rw [jStatusChange, if_pos changes]
    exact staysPending_of_quiet (.refl p s) rfl pending
  | false =>
    have moves := jStatusChange_moves g s p jobStatPsusp eventTime changes
    have notRun : has (s.jobs p).jStatus jobStatRun = false := by
      have start : isStart (s.jobs p).jStatus = false := congrArg (·.2.1) pending
      rw [isStart, Bool.or_eq_false_iff, Bool.or_eq_false_iff] at start
      exact start.1.1
    have stays : putsBack g (s.jobs p).jStatus (maskStatus jobStatPsusp) eventTime = false := by
      simp [putsBack, notRun]
    refine ⟨_, ?_, moves.of_eq ?_⟩
    · rw [changedKind]
      have bits : isStart (maskStatus jobStatPsusp) = false ∧
          isFinish (maskStatus jobStatPsusp) = false ∧
          has (maskStatus jobStatPsusp) jobStatPend = false := by decide
      simp [movedKind, bits]
    · rw [changedStatus, stays]
      exact (classes_maskStatus _).trans classes_psusp

theorem enterNewJob_staysPending (g : Globals) (s : Mbd) (p : Nat) (job : NewJob)
    (noArrays : NoArrays s) :
    StaysPending p (inPendJobList g s p .pjl 0) (enterNewJob g s p job) := by
  have frame := frame_inPendJobList g s p .pjl 0
  obtain ⟨quiet, status, -⟩ := quiet_putOntoTree _ p (frame.noArrays noArrays)
  have put := staysPending_of_quiet quiet (congrArg classes status)
  rw [enterNewJob]
  generalize putOntoTree (inPendJobList g s p .pjl 0) p [] = s1 at put ⊢
  have replayed : StaysPending p s1
      (if job = .replay ∧ g.maxUserPriority > 0 then replayPriority g s1 p else s1) := by
    split
    · intro pending
      exact ⟨_, rfl, (replayPriority_moves g s1 p).of_eq pending⟩
    · exact staysPending_of_quiet (.refl p s1) rfl
  refine (put.trans replayed).trans ?_
  generalize (if job = .replay ∧ g.maxUserPriority > 0 then replayPriority g s1 p else s1) = s2
  split
  · refine StaysPending.trans (staysPending_of_quiet (quiet_setJob s2 p) ?_)
      (staysPending_hold g _ p (-1))
    rw [setJob_self]
  · exact staysPending_of_quiet (.refl p s2) rfl

theorem handleNewJob_sound (sound : Sound s place) (g : Globals) (sub : Submission) (job : NewJob) :
    ∃ place', Sound ((handleNewJob g s sub job).getD s) place' ∧
      (Matches s place → Matches ((handleNewJob g s sub job).getD s) place') := by
  obtain ⟨sound1, match1⟩ := newJData_sound sound sub
  rw [handleNewJob]
  cases added : addJobIdHT (newJData s sub) s.numJobs with
  | none => exact ⟨place, sound, id⟩
  | some s2 =>
    have free : place s.numJobs = none := by
      cases at_ : place s.numJobs with
      | none => rfl
      | some l => exact absurd (sound.arranged.bound _ l at_) (Nat.lt_irrefl _)
    obtain ⟨jobs, place2, entering, less⟩ :=
      addJobIdHT_entering sound1 (Nat.lt_succ_self s.numJobs) free added
    have status : (s2.jobs s.numJobs).jStatus = jobStatPend := by
      rw [jobs]
      simp [newJData, Submission.jData]
    have pending : classes ((inPendJobList g s2 s.numJobs .pjl 0).jobs s.numJobs).jStatus =
        ListNo.kind .pjl := by
      rw [inPendJobList_jobs, setJob_self]
      exact (congrArg classes status).trans classes_pend
    have frame := frame_inPendJobList g s2 s.numJobs .pjl 0
    obtain ⟨kind, stays, moves⟩ :=
      enterNewJob_staysPending g s2 s.numJobs job entering.noArrays pending
    obtain ⟨place', sound', iff⟩ :=
      (entering.inPend g).moves moves (frame.core ▸ entering.mem)
    rw [pending] at iff
    refine ⟨place', sound', fun all => (iff fun q hq l at_ => ?_).mpr stays⟩
    rcases eq_or_ne q s.numJobs with rfl | ne
    · rw [update_self] at at_
      rw [pending, Option.some.inj at_]
    · rw [update_of_ne ne] at at_
      obtain ⟨inCore, at_⟩ := less q (frame.core ▸ hq) l at_
      rw [frame.others q ne, jobs]
      exact match1 all q inCore l at_

/-! ### Runs -/

theorem initial_sound : Sound initial fun _ => none :=
  ⟨⟨initial_arranged, by simp [initial], fun _ => NodeType.noConfusion, fun _ => rfl⟩,
    by simp [Mbd.core, initial]⟩

/-- One step: the placing stays sound, and matching lists match after it exactly when
the step is possible. -/
theorem step_sound (sound : Sound s place) (i : Step) :
    ∃ place', Sound (step s i) place' ∧
      (Matches s place → (Matches (step s i) place' ↔ Possible s i)) := by
  have always : ∀ {s' : Mbd}, (∃ place', Sound s' place' ∧ (Matches s place → Matches s' place')) →
      ∃ place', Sound s' place' ∧ (Matches s place → (Matches s' place' ↔ True)) := by
    rintro s' ⟨place', sound', keeps⟩
    exact ⟨place', sound', fun all => iff_true_intro (keeps all)⟩
  have onCore : ∀ (jp : Nat) (s' : Mbd), (jp ∈ s.core →
      ∃ place', Sound s' place' ∧ (Matches s place → Matches s' place')) →
      ∃ place', Sound (if jp ∈ s.core then s' else s) place' ∧
        (Matches s place → (Matches (if jp ∈ s.core then s' else s) place' ↔ True)) := by
    intro jp s' moved
    split
    · rename_i inCore
      exact always (moved inCore)
    · exact always ⟨place, sound, id⟩
  cases i with
  | handleNewJob g sub job => exact always (handleNewJob_sound sound g sub job)
  | jStatusChange g jp newStatus eventTime =>
    simp only [step, onJob, Possible]
    split
    · rename_i inCore
      obtain ⟨place', sound', iff⟩ := jStatusChange_sound sound inCore g newStatus eventTime
      refine ⟨place', sound', fun all => (iff all).trans ?_⟩
      exact ⟨fun h _ => h, fun h => h inCore⟩
    · rename_i out
      exact ⟨place, sound, fun all => iff_of_true all fun inCore => absurd inCore out⟩
  | handleRequeueJob g jp requeueTime =>
    exact onCore jp _ fun inCore =>
      sound.follows (handleRequeueJob_moves g s jp requeueTime) inCore fun _ _ => rfl
  | jobInQueueEnd g jp qp => exact onCore jp _ fun inCore => jobInQueueEnd_sound sound inCore g qp
  | setFlag jp flag =>
    exact onCore jp _ fun inCore =>
      setJob_sound sound inCore fun j => classes_set flag _
  | clearFlag jp flag =>
    exact onCore jp _ fun inCore =>
      setJob_sound sound inCore fun j => classes_clear flag _
  | setReason jp newReason =>
    exact onCore jp _ fun inCore =>
      setJob_sound sound inCore fun j => rfl
  | setPendEvent jp requeue sig1Flags =>
    exact onCore jp _ fun inCore =>
      setJob_sound sound inCore fun j => rfl

theorem run_sound (steps : List Step) : ∃ place, Sound (run step initial steps) place := by
  refine run_keeps (fun s => ∃ place, Sound s place) ?_ ⟨_, initial_sound⟩ steps
  rintro s i ⟨place, sound⟩
  obtain ⟨place', sound', -⟩ := step_sound sound i
  exact ⟨place', sound'⟩

/-- In every run each list is a ring of allocated jobs, and reading it finds them. -/
theorem job_lists_stay_rings (steps : List Step) (l : ListNo) :
    let s := run step initial steps
    ∃ ps : List Nat, LinkedRing.Ring s.links (.head l) (ps.map .job) ∧
      (∀ p, p ∈ s.list l ↔ p ∈ ps) ∧ ∀ p ∈ ps, p < s.numJobs := by
  obtain ⟨place, sound⟩ := run_sound steps
  obtain ⟨ps, ring, -, mem⟩ := sound.arranged.ring l
  refine ⟨ps, ring, fun p => ?_, fun p here => ?_⟩
  · rw [sound.arranged.mem_list, mem]
  · exact sound.arranged.bound p l ((mem p).1 here)

/-- In every state of every run a job in core is linked in exactly one list. It is the
list for its status throughout the run exactly when every call of `jStatusChange` is
given a status that is possible for the job. -/
theorem job_lists_follow_status_iff (steps : List Step) :
    (∀ before, before <+: steps → ∀ jp ∈ (run step initial before).core,
      ∃! l, jp ∈ (run step initial before).list l) ∧
    ((∀ before, before <+: steps → ∀ jp ∈ (run step initial before).core,
      (run step initial before).Filed jp) ↔ Along step Possible initial steps) := by
  constructor
  · intro before _ jp inCore
    obtain ⟨place, sound⟩ := run_sound before
    obtain ⟨l, at_⟩ := sound.core jp inCore
    exact sound.arranged.existsUnique at_
  · have start : ∀ jp ∈ initial.core, initial.Filed jp := by simp [Mbd.core, initial]
    refine (forall_prefix_iff fun s : Mbd => ∀ jp ∈ s.core, s.Filed jp).trans ?_
    rw [and_iff_right start]
    refine along_congr (fun s => (∃ place, Sound s place) ∧ ∀ jp ∈ s.core, s.Filed jp) ?_ ?_
      ⟨⟨_, initial_sound⟩, start⟩ steps
    · rintro s i ⟨⟨place, sound⟩, -⟩ filed
      obtain ⟨place', sound', -⟩ := step_sound sound i
      exact ⟨⟨place', sound'⟩, filed⟩
    · rintro s i ⟨⟨place, sound⟩, filed⟩
      obtain ⟨place', sound', iff⟩ := step_sound sound i
      rw [← sound'.matches_iff]
      exact iff (sound.matches_iff.mpr filed)

def liveGlobals : Globals where
  replay := false
  now := 100
  glMigToPendFlag := false
  requeueToBottom := false
  arraySchedOrder := false
  maxUserPriority := -1
  jobPriorityValue := -1
  jobPriorityTime := -1

/-- A job is submitted, starts, and is asked to be `JOB_STAT_PSUSP`. -/
def stopStarted : List Step :=
  [.handleNewJob liveGlobals ⟨1, ⟨10, false⟩, 50, -1, -1, false, false, false⟩ .new,
    .jStatusChange liveGlobals 0 jobStatRun logIt,
    .jStatusChange liveGlobals 0 jobStatPsusp logIt]

/-- The job is pending, and linked among the started ones. -/
theorem stopStarted_not_filed :
    (run step initial stopStarted).core = [0] ∧
    0 ∈ (run step initial stopStarted).list .sjl ∧
    isPend ((run step initial stopStarted).jobs 0).jStatus = true ∧
    ¬(run step initial stopStarted).Filed 0 := by
  have linked : 0 ∈ (run step initial stopStarted).list .sjl := by decide +kernel
  have pending : isPend ((run step initial stopStarted).jobs 0).jStatus = true := by decide +kernel
  refine ⟨by decide +kernel, linked, pending, fun filed => ?_⟩
  have wrong := (filed.2 .sjl linked).1.mpr pending
  exact absurd wrong (by decide)

end Jhlava.Core
