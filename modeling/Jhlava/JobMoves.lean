import Jhlava.JobLinks

/-! What the functions of mbd.job.c do to the place and to the status of a job. Each
of them changes one job, and leaves it linked in one list. -/
namespace Jhlava.Core
open List Function

def ListNo.kind : ListNo → Bool × Bool × Bool
  | .pjl | .mjl => (true, false, false)
  | .sjl => (false, true, false)
  | .fjl => (false, false, true)

theorem classes_pend : classes jobStatPend = ListNo.kind .pjl := by decide

theorem classes_psusp : classes jobStatPsusp = ListNo.kind .pjl := by decide

/-! ### Frames -/

def NoArrays (s : Mbd) : Prop :=
  (∀ n, (s.tree n).nodeType ≠ .array) ∧ ∀ q, (s.jobs q).nodeType = .job

/-- Only job `p` changes, and neither its id nor the table of ids. -/
structure Frame (p : Nat) (s s' : Mbd) : Prop where
  others : ∀ q, q ≠ p → s'.jobs q = s.jobs q
  jobId : (s'.jobs p).jobId = (s.jobs p).jobId
  numJobs : s'.numJobs = s.numJobs
  jobIdHT : s'.jobIdHT = s.jobIdHT
  noArrays : NoArrays s → NoArrays s'

/-- A change that leaves the links alone too. -/
structure Quiet (p : Nat) (s s' : Mbd) : Prop where
  frame : Frame p s s'
  links : s'.links = s.links

section Frames

variable {p : Nat} {s s' s'' : Mbd}

theorem Frame.refl (p : Nat) (s : Mbd) : Frame p s s :=
  ⟨fun _ _ => rfl, rfl, rfl, rfl, id⟩

theorem Frame.trans (h : Frame p s s') (h' : Frame p s' s'') : Frame p s s'' where
  others q ne := (h'.others q ne).trans (h.others q ne)
  jobId := h'.jobId.trans h.jobId
  numJobs := h'.numJobs.trans h.numJobs
  jobIdHT := h'.jobIdHT.trans h.jobIdHT
  noArrays := h'.noArrays ∘ h.noArrays

theorem Frame.ids (h : Frame p s s') (q : Nat) : (s'.jobs q).jobId = (s.jobs q).jobId := by
  rcases eq_or_ne q p with rfl | ne
  · exact h.jobId
  · rw [h.others q ne]

theorem Quiet.refl (p : Nat) (s : Mbd) : Quiet p s s := ⟨.refl p s, rfl⟩

theorem Quiet.trans (h : Quiet p s s') (h' : Quiet p s' s'') : Quiet p s s'' :=
  ⟨h.frame.trans h'.frame, h'.links.trans h.links⟩

theorem Quiet.arranged (h : Quiet p s s') {place : Nat → Option ListNo} (arr : Arranged s place) :
    Arranged s' place := by
  refine ⟨by rw [h.links]; exact arr.layout, fun q l hq => ?_⟩
  rw [h.frame.numJobs]
  exact arr.bound q l hq

@[simp] theorem setJob_self (s : Mbd) (p : Nat) (f : JData → JData) :
    (s.setJob p f).jobs p = f (s.jobs p) := update_self ..

theorem quiet_setJob (s : Mbd) (p : Nat) {f : JData → JData}
    (keeps : ∀ j, (f j).jobId = j.jobId ∧ (f j).nodeType = j.nodeType :=
      by intro; exact ⟨rfl, rfl⟩) :
    Quiet p s (s.setJob p f) := by
  refine ⟨⟨fun q ne => update_of_ne ne _ _, ?_, rfl, rfl, ?_⟩, rfl⟩
  · rw [setJob_self]
    exact (keeps _).1
  · intro none
    refine ⟨none.1, fun q => ?_⟩
    by_cases eq : q = p
    · rw [eq, setJob_self, (keeps _).2]
      exact none.2 p
    · rw [show (s.setJob p f).jobs q = s.jobs q from update_of_ne eq _ _]
      exact none.2 q

theorem frame_offJobList (s : Mbd) (p : Nat) (l : ListNo) : Frame p s (offJobList s p l) :=
  ⟨fun _ _ => rfl, rfl, rfl, rfl, id⟩

theorem frame_link (s : Mbd) (p : Nat) (succ : Entry) : Frame p s (s.link succ p) :=
  ⟨fun _ _ => rfl, rfl, rfl, rfl, id⟩

end Frames

/-! ### The tree -/

/-- Only the tree changes, and the type of no node. -/
structure TreeOnly (s s' : Mbd) : Prop where
  links : s'.links = s.links
  jobs : s'.jobs = s.jobs
  numJobs : s'.numJobs = s.numJobs
  jobIdHT : s'.jobIdHT = s.jobIdHT
  types : ∀ n, (s'.tree n).nodeType = (s.tree n).nodeType

section Tree

variable {s s' s'' : Mbd}

theorem TreeOnly.refl (s : Mbd) : TreeOnly s s := ⟨rfl, rfl, rfl, rfl, fun _ => rfl⟩

theorem TreeOnly.trans (h : TreeOnly s s') (h' : TreeOnly s' s'') : TreeOnly s s'' :=
  ⟨h'.links.trans h.links, h'.jobs.trans h.jobs, h'.numJobs.trans h.numJobs,
    h'.jobIdHT.trans h.jobIdHT, fun n => (h'.types n).trans (h.types n)⟩

theorem TreeOnly.quiet (h : TreeOnly s s') (p : Nat) : Quiet p s s' := by
  refine ⟨⟨fun q _ => by rw [h.jobs], by rw [h.jobs], h.numJobs, h.jobIdHT, ?_⟩, h.links⟩
  intro none
  refine ⟨fun n => ?_, fun q => ?_⟩
  · rw [h.types]
    exact none.1 n
  · rw [h.jobs]
    exact none.2 q

variable {f : TreeNode → TreeNode}

theorem treeOnly_setNode (s : Mbd) (n : Nat)
    (keeps : (f (s.tree n)).nodeType = (s.tree n).nodeType) : TreeOnly s (s.setNode n f) := by
  refine ⟨rfl, rfl, rfl, rfl, fun k => ?_⟩
  by_cases eq : k = n
  · rw [eq, show (s.setNode n f).tree n = f (s.tree n) from update_self ..]
    exact keeps
  · rw [show (s.setNode n f).tree k = s.tree k from update_of_ne eq _ _]

theorem treeOnly_setNodes (s : Mbd) (nodes : List Nat)
    (keeps : ∀ node, (f node).nodeType = node.nodeType) : TreeOnly s (s.setNodes nodes f) := by
  induction nodes generalizing s with
  | nil => exact .refl s
  | cons n rest ih => exact (treeOnly_setNode s n (keeps _)).trans (ih _)

theorem treeOnly_updJgrpCountByJStatus (s : Mbd) (p : Nat) (old new : Status) :
    TreeOnly s (updJgrpCountByJStatus s p old new) := by
  refine treeOnly_setNodes s _ fun node => ?_
  split <;> rfl

theorem treeOnly_updJgrpCountByOp (s : Mbd) (n : Nat) (factor : Int) :
    TreeOnly s (updJgrpCountByOp s n factor) := by
  refine treeOnly_setNodes s _ fun node => ?_
  split <;> rfl

theorem treeOnly_updJgrpCount (s : Mbd) (n : Nat) (factor : Int) (status : Nat → Status × Status) :
    TreeOnly s (updJgrpCount s n factor status) := by
  rw [updJgrpCount]
  split
  · rename_i isJob
    clear isJob
    generalize (s.tree n).jobs = jobs
    induction jobs generalizing s with
    | nil => exact .refl s
    | cons p rest ih => exact (treeOnly_updJgrpCountByJStatus s p _ _).trans (ih _)
  · exact treeOnly_updJgrpCountByOp s n factor

theorem treeOnly_treeInsertChild (s : Mbd) (parent child : Nat) :
    TreeOnly s (treeInsertChild s parent child) := by
  exact (treeOnly_setNode s child rfl).trans (treeOnly_updJgrpCount _ _ _ _)

theorem treeOnly_treeClip (s : Mbd) (n : Nat) : TreeOnly s (treeClip s n) := by
  rw [treeClip]
  exact (treeOnly_updJgrpCount s n _ _).trans (treeOnly_setNode _ _ rfl)

theorem quiet_putOntoTree (s : Mbd) (p : Nat) (noArrays : NoArrays s) :
    Quiet p s (putOntoTree s p []) ∧
    ((putOntoTree s p []).jobs p).jStatus = (s.jobs p).jStatus ∧
    ((putOntoTree s p []).jobs p).hold = (s.jobs p).hold := by
  rw [putOntoTree, foldl_nil]
  have jobNode : (s.jobs p).nodeType = .job := noArrays.2 p
  rw [jobNode]
  generalize made : treeNewNode s _ = s1
  have new : Quiet p s s1 := by
    subst made
    refine ⟨⟨fun _ _ => rfl, rfl, rfl, rfl, fun none => ⟨fun n => ?_, none.2⟩⟩, rfl⟩
    by_cases eq : n = s.numNodes
    · simp [treeNewNode, eq]
    · rw [treeNewNode]
      simp only [update_of_ne eq]
      exact none.1 n
  have jobs : s1.jobs = s.jobs := by
    subst made
    rfl
  have node := quiet_setJob s1 p (f := fun j => { j with jgrpNode := some s.numNodes })
  have put := treeOnly_treeInsertChild
    (s1.setJob p fun j => { j with jgrpNode := some s.numNodes }) groupRoot s.numNodes
  refine ⟨(new.trans node).trans (put.quiet p), ?_, ?_⟩ <;> rw [put.jobs, setJob_self, jobs]

end Tree

/-! ### The places in the lists -/

theorem pendLoop_mem (g : Globals) (jobs : Nat → JData) (job : JData) (compareTime : Int)
    (list : List Nat) (lastJob : Option Nat) {q : Nat} :
    ((pendLoop g jobs job compareTime list lastJob).1 = some q → q ∈ list) ∧
    ((pendLoop g jobs job compareTime list lastJob).2 = some q → q ∈ list ∨ lastJob = some q) := by
  fun_induction pendLoop g jobs job compareTime list lastJob <;> grind

theorem segmentEnd_mem (jobs : Nat → JData) (lastJob : Nat) (list : List Nat) :
    segmentEnd jobs lastJob list ∈ lastJob :: list := by
  induction list generalizing lastJob with
  | nil => exact mem_cons_self
  | cons next rest ih =>
    rw [segmentEnd]
    split
    · exact mem_cons_of_mem _ (ih next)
    · exact mem_cons_self

theorem pendPlace_mem {g : Globals} {jobs : Nat → JData} {job : JData} {compareTime : Int}
    {list : List Nat} {q : Nat} (found : pendPlace g jobs job compareTime list = some q) :
    q ∈ list := by
  have mem := fun r => @pendLoop_mem g jobs job compareTime list none r
  rw [pendPlace] at found
  split at found
  · rename_i jp last
    rw [last] at mem
    exact (mem q).1 found
  · rename_i jp lastJob last
    rw [last] at mem
    have lastIn : lastJob ∈ list := by simpa using (mem lastJob).2 rfl
    split at found
    · obtain rfl := Option.some.inj found
      rcases mem_cons.mp (segmentEnd_mem jobs lastJob _) with eq | inside
      · rw [eq]
        exact lastIn
      · exact (takeWhile_sublist _).subset (mem_reverse.mp inside)
    · rw [← Option.some.inj found]
      exact lastIn

section Moves

variable {p : Nat} {s s' s'' : Mbd} {place : Nat → Option ListNo}

theorem arranged_inPendJobList (g : Globals) {l : ListNo} (t : Int) (arr : Arranged s place)
    (free : place p = none) (known : p < s.numJobs) :
    Arranged (inPendJobList g s p l t) (Function.update place p (some l)) := by
  have quiet := quiet_setJob s p (f := fun j => { j with requeue := false })
  exact (quiet.arranged arr).link free known
    ((quiet.arranged arr).before_entryOf fun q found => pendPlace_mem found)

theorem frame_inPendJobList (g : Globals) (s : Mbd) (p : Nat) (l : ListNo) (t : Int) :
    Frame p s (inPendJobList g s p l t) :=
  (quiet_setJob s p (f := fun j => { j with requeue := false })).frame.trans
    (frame_link _ _ _)

@[simp] theorem inPendJobList_jobs (g : Globals) (s : Mbd) (p : Nat) (l : ListNo) (t : Int) :
    (inPendJobList g s p l t).jobs = (s.setJob p fun j => { j with requeue := false }).jobs := rfl

theorem arranged_inStartJobList (arr : Arranged s place) (free : place p = none)
    (known : p < s.numJobs) : Arranged (inStartJobList s p) (Function.update place p (some .sjl)) :=
  arr.link free known (arr.before_entryOf fun _ found => mem_of_find?_eq_some found)

/-- A change of job `p` after which it has the classes `status`, and is in a list of
the kind `kind` gives for that of its list before. -/
structure Moves (p : Nat) (s s' : Mbd) (kind : Bool × Bool × Bool → Bool × Bool × Bool)
    (status : Bool × Bool × Bool) : Prop where
  frame : Frame p s s'
  status : classes (s'.jobs p).jStatus = status
  placed : ∀ place l, Arranged s place → place p = some l →
    ∃ k : ListNo, k.kind = kind l.kind ∧ Arranged s' (Function.update place p (some k))

variable {kind : Bool × Bool × Bool → Bool × Bool × Bool} {status : Bool × Bool × Bool}

theorem Moves.after (quiet : Quiet p s s') (moves : Moves p s' s'' kind status) :
    Moves p s s'' kind status :=
  ⟨quiet.frame.trans moves.frame, moves.status,
    fun place l arr at_ => moves.placed place l (quiet.arranged arr) at_⟩

variable {status' : Bool × Bool × Bool}

section

variable (moves : Moves p s s' kind status)
include moves

theorem Moves.quiet (quiet : Quiet p s' s'') (eq : classes (s''.jobs p).jStatus = status') :
    Moves p s s'' kind status' := by
  refine ⟨moves.frame.trans quiet.frame, eq, fun place l arr at_ => ?_⟩
  obtain ⟨k, hk, arr'⟩ := moves.placed place l arr at_
  exact ⟨k, hk, quiet.arranged arr'⟩

theorem Moves.of_eq (eq : status = status') : Moves p s s' kind status' :=
  eq ▸ moves

theorem Moves.trans {kind' : Bool × Bool × Bool → Bool × Bool × Bool}
    (moves' : Moves p s' s'' kind' status') : Moves p s s'' (kind' ∘ kind) status' := by
  refine ⟨moves.frame.trans moves'.frame, moves'.status, fun place l arr at_ => ?_⟩
  obtain ⟨k, hk, arr'⟩ := moves.placed place l arr at_
  obtain ⟨k', hk', arr''⟩ := moves'.placed _ k arr' (update_self ..)
  rw [update_idem] at arr''
  refine ⟨k', ?_, arr''⟩
  rw [hk', hk]
  rfl

end

theorem moves_of_quiet (quiet : Quiet p s s') : Moves p s s' id (classes (s'.jobs p).jStatus) := by
  refine ⟨quiet.frame, rfl, fun place l arr at_ => ⟨l, rfl, ?_⟩⟩
  rw [← at_, update_eq_self]
  exact quiet.arranged arr

theorem moves_relink {k l : ListNo} (frame : Frame p (offJobList s p k) s')
    (linked : ∀ place, Arranged (offJobList s p k) place → place p = none → p < s.numJobs →
      Arranged s' (Function.update place p (some l))) :
    Moves p s s' (fun _ => l.kind) (classes (s'.jobs p).jStatus) := by
  refine ⟨(frame_offJobList s p k).trans frame, rfl, fun place l' arr at_ => ?_⟩
  have linked := linked _ (arr.offJobList at_) (update_self ..) (arr.bound p l' at_)
  rw [update_idem] at linked
  exact ⟨l, rfl, linked⟩

theorem moves_inStart (s : Mbd) (p : Nat) (k : ListNo) :
    Moves p s (inStartJobList (offJobList s p k) p) (fun _ => ListNo.kind .sjl)
      (classes (s.jobs p).jStatus) :=
  moves_relink (frame_link _ _ _) fun _ arr free known => arranged_inStartJobList arr free known

theorem moves_inFinish (s : Mbd) (p : Nat) (k : ListNo) :
    Moves p s ((offJobList s p k).link ((offJobList s p k).links.fw (.head .fjl)) p)
      (fun _ => ListNo.kind .fjl) (classes (s.jobs p).jStatus) :=
  moves_relink (frame_link _ _ _) fun _ arr free known => arr.link free known arr.before_fw

theorem moves_inPend (g : Globals) (s : Mbd) (p : Nat) (k l : ListNo) (t : Int) :
    Moves p s (inPendJobList g (offJobList s p k) p l t) (fun _ => l.kind)
      (classes (s.jobs p).jStatus) := by
  have moves := moves_relink (frame_inPendJobList g (offJobList s p k) p l t)
    fun _ arr free known => arranged_inPendJobList g t arr free known
  rw [inPendJobList_jobs, setJob_self] at moves
  exact moves

/-! ### The branches of `jStatusChange` -/

theorem jobStarts_moves (s : Mbd) (p : Nat) :
    Moves p s (jobStarts s p) (fun _ => ListNo.kind .sjl) (classes (s.jobs p).jStatus) := by
  have quiet := quiet_setJob s p
    (f := fun j => { j with newReason := 0, jStatus := Flag.mig.clear j.jStatus })
  refine Moves.after quiet ((moves_inStart _ p _).of_eq ?_)
  simp only [setJob_self, classes_clear]

theorem handleFinishJob_moves (s : Mbd) (p : Nat) (oldStatus : Status) :
    Moves p s (handleFinishJob s p oldStatus) (fun _ => ListNo.kind .fjl)
      (classes (s.jobs p).jStatus) := by
  have quiet := quiet_setJob s p (f := fun j => { j with jStatus := Flag.mig.clear j.jStatus })
  refine Moves.after quiet ((moves_inFinish _ p _).of_eq ?_)
  simp only [setJob_self, classes_clear]

theorem jobFinishes_moves (s : Mbd) (p : Nat) (oldStatus : Status) :
    Moves p s (jobFinishes s p oldStatus) (fun _ => ListNo.kind .fjl)
      (classes (s.jobs p).jStatus) := by
  have keeps : ∀ j, (exitReason j).jobId = j.jobId ∧ (exitReason j).nodeType = j.nodeType := by
    intro j
    rw [exitReason]
    split <;> exact ⟨rfl, rfl⟩
  refine Moves.after (quiet_setJob s p keeps) ((handleFinishJob_moves _ p _).of_eq ?_)
  rw [setJob_self, exitReason]
  split <;> rfl

theorem inPendOrMig_moves (g : Globals) (s : Mbd) (p : Nat) (k : ListNo) (migTime time : Int) :
    Moves p s (inPendOrMig g (offJobList s p k) p migTime time) (fun _ => ListNo.kind .pjl)
      (classes (s.jobs p).jStatus) := by
  rw [inPendOrMig]
  split
  · split
    · refine (moves_inPend g s p k .pjl migTime).quiet (quiet_setJob _ p) ?_
      simp [offJobList]
    · exact moves_inPend g s p k .mjl 0
  · exact moves_inPend g s p k .pjl time

theorem jobPends_moves (g : Globals) (s : Mbd) (p : Nat) :
    Moves p s (jobPends g s p) (fun _ => ListNo.kind .pjl) (classes (s.jobs p).jStatus) := by
  have keeps : ∀ j, (resetStartTime j).jobId = j.jobId ∧
      (resetStartTime j).nodeType = j.nodeType := by
    intro j
    rw [resetStartTime]
    split <;> exact ⟨rfl, rfl⟩
  have status : (resetStartTime (s.jobs p)).jStatus = (s.jobs p).jStatus := by
    rw [resetStartTime]
    split <;> rfl
  -- unlinking and the assignment touch different memory
  have moves := inPendOrMig_moves g (s.setJob p resetStartTime) p .sjl g.now
    (if (((offJobList s p .sjl).setJob p resetStartTime).jobs p).newReason = pendSbdJobRequeue
      then g.now else 0)
  rw [jobPends]
  refine (moves.after (quiet_setJob s p keeps)).quiet (quiet_setJob _ p) ?_
  have same := moves.status
  rw [setJob_self s p resetStartTime, status] at same
  rw [setJob_self, classes_clear]
  exact same

/-! ### `jStatusChange` -/

theorem quiet_beforeChange (s : Mbd) (p : Nat) (newStatus : Status) (eventTime : Int) :
    Quiet p s (beforeChange s p newStatus eventTime) := by
  have first := quiet_setJob s p
    (f := fun j => { j with jStatus := endReserves newStatus eventTime j.jStatus })
  rw [beforeChange]
  split
  · exact first.trans ((treeOnly_updJgrpCountByJStatus _ p _ _).quiet p)
  · exact first

theorem writeStatus_keeps (newStatus : Status) (j : JData) :
    (writeStatus newStatus j).jobId = j.jobId ∧ (writeStatus newStatus j).nodeType = j.nodeType ∧
    (writeStatus newStatus j).jStatus = setState j.jStatus newStatus := by
  rw [writeStatus]
  split <;> exact ⟨rfl, rfl, rfl⟩

/-- The kind of list `moveJob` leaves a job in that was in one of kind `kind`. -/
def movedKind (oldStatus newStatus : Status) (kind : Bool × Bool × Bool) : Bool × Bool × Bool :=
  if isStart newStatus && isPend oldStatus then ListNo.kind .sjl
  else if isFinish newStatus then ListNo.kind .fjl
  else if has newStatus jobStatPend && isStart oldStatus then ListNo.kind .pjl
  else kind

/-- The kind of list after `jStatusChange`, and the classes of the status. -/
def changedKind (g : Globals) (oldStatus newStatus : Status) (eventTime : Int)
    (kind : Bool × Bool × Bool) : Bool × Bool × Bool :=
  if putsBack g oldStatus newStatus eventTime then ListNo.kind .pjl
  else movedKind oldStatus newStatus kind

def changedStatus (g : Globals) (oldStatus newStatus : Status) (eventTime : Int) :
    Bool × Bool × Bool :=
  if putsBack g oldStatus newStatus eventTime then ListNo.kind .pjl else classes newStatus

variable (g : Globals)
include g

theorem moveJob_moves (s : Mbd) (p : Nat) (oldStatus newStatus : Status) :
    Moves p s (moveJob g s p oldStatus newStatus) (movedKind oldStatus newStatus)
      (classes (s.jobs p).jStatus) := by
  unfold moveJob movedKind
  split_ifs
  · exact jobStarts_moves s p
  · exact jobFinishes_moves s p oldStatus
  · exact jobPends_moves g s p
  · refine (moves_of_quiet (quiet_setJob s p)).of_eq ?_
    rw [setJob_self]
  · exact moves_of_quiet (.refl p s)

theorem putBack_moves (s : Mbd) (p : Nat) (newStatus : Status) :
    Moves p s (putBack g s p newStatus) (fun _ => ListNo.kind .pjl) (ListNo.kind .pjl) := by
  have quiet := quiet_setJob s p (f := fun j =>
    { j with jStatus := if has newStatus jobStatSsusp then jobStatPend else jobStatPsusp })
  refine Moves.after quiet ((moves_inPend g _ p .sjl .pjl 0).of_eq ?_)
  rw [setJob_self]
  split
  · exact classes_pend
  · exact classes_psusp

theorem jStatusChange_moves (s : Mbd) (p : Nat) (newStatus : Status) (eventTime : Int)
    (changes : sameStatus (s.jobs p).jStatus newStatus = false) :
    Moves p s (jStatusChange g s p newStatus eventTime)
      (changedKind g (s.jobs p).jStatus (maskStatus newStatus) eventTime)
      (changedStatus g (s.jobs p).jStatus (maskStatus newStatus) eventTime) := by
  rw [jStatusChange, if_neg (by rw [changes]; exact Bool.false_ne_true)]
  generalize (s.jobs p).jStatus = oldStatus
  generalize maskStatus newStatus = newStatus
  have before := quiet_beforeChange s p newStatus eventTime
  have write := quiet_setJob (beforeChange s p newStatus eventTime) p
    (f := writeStatus newStatus) fun j =>
      ⟨(writeStatus_keeps newStatus j).1, (writeStatus_keeps newStatus j).2.1⟩
  have moved := Moves.after (before.trans write) (moveJob_moves g _ p oldStatus newStatus)
  rw [setJob_self, (writeStatus_keeps newStatus _).2.2, classes_setState] at moved
  unfold changedKind changedStatus
  dsimp only
  split
  · exact moved.trans (putBack_moves g _ p newStatus)
  · exact moved

theorem handleRequeueJob_moves (s : Mbd) (p : Nat) (requeueTime : Int) :
    Moves p s (handleRequeueJob g s p requeueTime) (fun _ => ListNo.kind .pjl)
      (ListNo.kind .pjl) := by
  have count := (treeOnly_updJgrpCountByJStatus s p (s.jobs p).jStatus jobStatPend).quiet p
  have write := quiet_setJob (updJgrpCountByJStatus s p (s.jobs p).jStatus jobStatPend) p
    (f := requeued g)
  have moves := Moves.after (count.trans write) (moves_inPend g _ p .fjl .pjl requeueTime)
  rw [setJob_self, show classes (requeued g _).jStatus = _ from classes_pend] at moves
  rw [handleRequeueJob]
  generalize inPendJobList g (offJobList _ p .fjl) p .pjl requeueTime = s2 at moves ⊢
  split
  · have stop := quiet_setJob s2 p
      (f := fun j => { j with jStatus := jobStatPsusp, newReason := pendUserStop })
    generalize written : s2.setJob p _ = s3 at stop ⊢
    have recount := treeOnly_updJgrpCountByJStatus s3 p jobStatPend jobStatPsusp
    refine moves.quiet ((stop.trans (recount.quiet p)).trans (quiet_setJob _ p)) ?_
    rw [setJob_self, recount.jobs, ← written, setJob_self]
    exact classes_psusp
  · refine moves.quiet (quiet_setJob s2 p) ?_
    rw [setJob_self]
    exact moves.status

theorem jobInQueueEnd_moves (s : Mbd) (p : Nat) (qp : QData) :
    Moves p s (jobInQueueEnd g s p qp)
      (fun kind => if isFinish (s.jobs p).jStatus then kind
        else if isPend (s.jobs p).jStatus then ListNo.kind .pjl else ListNo.kind .sjl)
      (classes (s.jobs p).jStatus) := by
  have quiet := quiet_setJob s p (f := fun j => { j with qPtr := qp })
  have status : classes ((s.setJob p fun j => { j with qPtr := qp }).jobs p).jStatus =
      classes (s.jobs p).jStatus := by rw [setJob_self]
  rw [jobInQueueEnd]
  split_ifs
  · exact moves_of_quiet (.refl p s)
  · exact Moves.after quiet ((inPendOrMig_moves g _ p (pjlOrMjl s p) 0 0).of_eq status)
  · exact Moves.after quiet ((moves_inStart _ p .sjl).of_eq status)

end Moves

end Jhlava.Core
