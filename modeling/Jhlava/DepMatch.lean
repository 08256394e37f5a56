import Mathlib.Data.List.Nodup
import Jhlava.DepToken

/-! `matchJobs` of mbd.dep.c: the jobs in core a dependency term names. -/
namespace Jhlava.Dep
open CValues List

/-- `JGRP_NODE_JOB` and `JGRP_NODE_ARRAY`. -/
inductive NodeType where
  | job | array
  deriving DecidableEq, Repr

/-- The fields of `struct jData` read here. `user` stands for `uPtr`, the record
`getUserData` finds by the user's name. -/
structure JobRec where
  jobId : Int
  user : String
  jobName : List Char
  submitTime : Int
  nodeType : NodeType
  jgrpNodeType : NodeType
  deriving DecidableEq, Repr

/-- A child of `groupRoot` and the job record it leads to, `JOB_DATA` of a job
node and the base record of an array node. -/
structure TreeNode where
  name : List Char
  job : JobRec
  deriving DecidableEq, Repr

/-- One entry of an `idxList` that `parseJobArrayIndex` has accepted. -/
structure IdxRange where
  start : Nat
  stop : Nat
  step : Nat
  start_pos : 0 < start
  step_pos : 0 < step
  ordered : start ≤ stop
  deriving DecidableEq

/-- The indices the range stands for. -/
def IdxRange.indices (r : IdxRange) : List Nat :=
  (List.range ((r.stop - r.start) / r.step + 1)).map fun k => r.start + k * r.step

/-- The values of `for (i = i; i <= end; i += step)`, where `i` is an `int`. A loop that has
not ended after 2^32 values never does; the list is cut there. -/
def IdxRange.loopFrom (r : IdxRange) : Nat → Int → List Int
  | 0, _ => []
  | fuel + 1, i => if i ≤ r.stop then i :: r.loopFrom fuel (toInt32 (i + r.step)) else []

def IdxRange.loop (r : IdxRange) : List Int := r.loopFrom (2 ^ 32) r.start

inductive ReplyCode where
  | noError | dependSyntax | noJob | depArraySize | arrayNull
  deriving DecidableEq, Repr

/-- What the parser reads of mbatchd: the jobs in core, the job group tree (`none` while there is
no `groupRoot`), two settings, and the parsers of time windows and array indices, which are `none`
on an error and `[]` for a name without an index. -/
structure DepEnv where
  getJobData : Int → Option JobRec
  groupRoot : Option (List TreeNode)
  jobDepLastSub : Bool
  replayStage : Bool
  parseJobArrayIndex : List Char → Option (List IdxRange)
  idxListContext : List IdxRange
  addWindow : List Char → Bool

structure JobIdx where
  idxList : List IdxRange
  depJobList : List JobRec
  deriving DecidableEq

/-- The arguments `matchJobs` takes by reference; `flag` is `none` where the
caller passes NULL. -/
structure MatchRefs where
  numFoundJob : Nat
  replyCode : ReplyCode
  jobIdx : Option JobIdx
  element : Int
  flag : Option Bool
  deriving DecidableEq

/-- `isint_` of lib.misc.c. -/
def isint (word : List Char) : Bool :=
  if word.isEmpty then false
  else
    let r := strtol word
    let number := toInt32 r.value
    r.stop.isEmpty && !r.erange && number ≤ 2 ^ 31 - 1 && -(2 ^ 31 - 1) < number

/-- `matchName` of misc.c: the pattern ends at its index, a star ends the
comparison, and what is left of the name may only be an index. -/
def matchName : List Char → List Char → Bool
  | [], name => name.isEmpty || name.head? == some '['
  | p :: ps, name =>
    if p == '[' then name.isEmpty || name.head? == some '['
    else if p == '*' then true
    else match name with
      | [] => false
      | c :: cs => if c == '[' || p != c then false else matchName ps cs

/-- The text before the first `[*]`, if there is one. -/
def cutOneToOne : List Char → Option (List Char)
  | [] => none
  | c :: cs =>
    if ['[', '*', ']'].isPrefixOf (c :: cs) then some []
    else (cutOneToOne cs).map (c :: ·)

inductive JobKey where
  | byId (jobId : Int)
  | byName (jobName : List Char)
  | nothing
  deriving DecidableEq, Repr

def jobKey (jobp : List Char) : JobKey :=
  let ofName : List Char → JobKey := fun n => if n.isEmpty then .nothing else .byName n
  match jobp with
  | c :: cs =>
    if isQuote c then ofName (cs.takeWhile (· != c))
    else if isint jobp then (if atoi jobp = 0 then .nothing else .byId (atoi jobp))
    else ofName jobp
  | [] => .nothing

/-- `wildCardJobName`. -/
def wildCardJobName (jobName : List Char) : Bool := jobName.getLast? == some '*'

/-- `LSB_JOBID`. -/
def lsbJobId (jobId idx : Int) : Int := idx * 2 ^ 32 + jobId

/-- One turn of the loop over the children of `groupRoot`; the state is
`submitTime` and the jobs found. -/
def scanNode (lastSub : Bool) (uPtr : String) (acc : Int × List JobRec) (node : TreeNode) :
    Int × List JobRec :=
  if node.job.user = uPtr then
    if lastSub then
      if acc.1 < node.job.submitTime then (node.job.submitTime, [node.job]) else acc
    else (acc.1, acc.2 ++ [node.job])
  else acc

def scanTree (lastSub : Bool) (uPtr : String) (nodes : List TreeNode) : List JobRec :=
  (nodes.foldl (scanNode lastSub uPtr) (0, [])).2

/-- `checkIdx`: a one-to-one term needs an array of the shape being submitted. -/
def checkIdx (env : DepEnv) (found : List JobRec) (refs : MatchRefs) :
    List JobRec × MatchRefs :=
  match refs.flag, found with
  | some true, first :: _ =>
    match env.parseJobArrayIndex first.jobName, env.idxListContext with
    | some (dep :: _), submitted :: _ =>
      if dep.start = submitted.start ∧ dep.stop = submitted.stop ∧
          dep.step = submitted.step then
        let elements := dep.loop.filterMap fun i => env.getJobData (lsbJobId first.jobId i)
        (found, { refs with jobIdx := some ⟨[], elements⟩ })
      else ([], { refs with replyCode := .depArraySize })
    | _, _ => ([], { refs with replyCode := .depArraySize })
  | _, _ => (found, refs)

def findElements (env : DepEnv) (jobId : Int) : List Int → Except Int (List JobRec)
  | [] => .ok []
  | i :: is =>
    match env.getJobData (lsbJobId jobId i) with
    | none => .error (lsbJobId jobId i)
    | some job => (findElements env jobId is).map (job :: ·)

/-- The branch for a term given by job id. -/
def matchById (env : DepEnv) (jobId : Int) (idxList : List IdxRange) (refs : MatchRefs) :
    List JobRec × MatchRefs :=
  match env.getJobData jobId with
  | none => ([], refs)
  | some job =>
    if refs.flag = some true then
      if job.nodeType = .array then checkIdx env [job] refs else ([], refs)
    else
      let ranges :=
        if idxList = [] ∧ job.nodeType = .array then
          (env.parseJobArrayIndex job.jobName).getD []
        else idxList
      if ranges = [] then ([job], refs)
      else
        match findElements env jobId (ranges.flatMap IdxRange.loop) with
        | .ok elements => ([job], { refs with jobIdx := some ⟨ranges, elements⟩ })
        | .error missing => ([], { refs with element := missing, jobIdx := none })

def matchByName (env : DepEnv) (jobName : List Char) (lsfUserName : String)
    (refs : MatchRefs) : List JobRec × MatchRefs :=
  match env.groupRoot with
  | none => ([], refs)
  | some nodes =>
    let lastSub := env.jobDepLastSub && !wildCardJobName jobName
    checkIdx env (scanTree lastSub lsfUserName nodes) refs

/-- The code after `Ret`: an empty result is NULL, and drops the index. -/
def matchRet (idxList : List IdxRange) (found : List JobRec) (refs : MatchRefs) :
    Option (List JobRec) × MatchRefs :=
  if found = [] then
    (none, { refs with
      numFoundJob := 0
      jobIdx := if idxList = [] then refs.jobIdx else none
      replyCode := if refs.replyCode = .dependSyntax then .noJob else refs.replyCode })
  else (some found, { refs with numFoundJob := found.length })

/-- The text `parseJobArrayIndex` is given: the term before any `[*]`. -/
def indexText (jobp : List Char) : List Char := (cutOneToOne jobp).getD jobp

def keyText (jobp : List Char) : List Char := (indexText jobp).takeWhile (· != '[')

/-- The flag after the search for `[*]`. -/
def oneToOneFlag (jobp : List Char) (flag : Option Bool) : Option Bool :=
  flag.map fun f => f || (cutOneToOne jobp).isSome

def matchJobs (env : DepEnv) (jobp : List Char) (lsfUserName : String) (refs : MatchRefs) :
    Option (List JobRec) × MatchRefs :=
  let refs := { refs with flag := oneToOneFlag jobp refs.flag }
  match env.parseJobArrayIndex (indexText jobp) with
  -- an index error returns before numFoundJob is written
  | none => (none, refs)
  | some idxList =>
    let refs := { refs with
      element := 0
      jobIdx := if idxList = [] then refs.jobIdx else some ⟨idxList, []⟩ }
    let (found, refs) := match jobKey (keyText jobp) with
      | .byId jobId => matchById env jobId idxList refs
      | .byName jobName => matchByName env jobName lsfUserName refs
      | .nothing => ([], refs)
    matchRet idxList found refs

def namedJobs (pattern : List Char) (user : String) (nodes : List TreeNode) : List JobRec :=
  (nodes.filter fun n => n.job.user = user && matchName pattern n.name).map TreeNode.job

theorem mem_namedJobs {pattern : List Char} {user : String} {nodes : List TreeNode} {job : JobRec} :
    job ∈ namedJobs pattern user nodes ↔
      ∃ n ∈ nodes, n.job = job ∧ job.user = user ∧ matchName pattern n.name = true := by
  unfold namedJobs
  simp only [mem_map, mem_filter, Bool.and_eq_true, decide_eq_true_eq]
  constructor
  · rintro ⟨n, ⟨hn, hu, hm⟩, rfl⟩
    exact ⟨n, hn, rfl, hu, hm⟩
  · rintro ⟨n, hn, rfl, hu, hm⟩
    exact ⟨n, ⟨hn, hu, hm⟩, rfl⟩

section Scan

variable {user : String} {nodes : List TreeNode}

theorem scanNode_collects (acc : Int × List JobRec) :
    (nodes.foldl (scanNode false user) acc).2 =
      acc.2 ++ (nodes.filter fun n => n.job.user = user).map TreeNode.job := by
  induction nodes generalizing acc with
  | nil => simp
  | cons n ns ih =>
    rw [foldl_cons, ih]
    by_cases hu : n.job.user = user <;> simp [scanNode, hu]

/-- `n` is the first of the user's nodes with the latest submit time. -/
def Latest (user : String) (nodes : List TreeNode) (n : TreeNode) : Prop :=
  n.job.user = user ∧ ∃ before behind, nodes = before ++ n :: behind ∧
    (∀ m ∈ before, m.job.user = user → m.job.submitTime < n.job.submitTime) ∧
    ∀ m ∈ behind, m.job.user = user → m.job.submitTime ≤ n.job.submitTime

theorem Latest.max {n m : TreeNode} (latest : Latest user nodes n) (mem : m ∈ nodes)
    (owned : m.job.user = user) : m.job.submitTime ≤ n.job.submitTime := by
  obtain ⟨-, before, behind, rfl, earlier, later⟩ := latest
  rcases mem_append.mp mem with mem | mem
  · exact Int.le_of_lt (earlier m mem owned)
  · rcases mem_cons.mp mem with rfl | mem
    · exact Int.le_refl _
    · exact later m mem owned

/-- What the loop that keeps one job has after the nodes `seen`. -/
def Newest (user : String) (seen : List TreeNode) (acc : Int × List JobRec) : Prop :=
  (acc = (0, []) ∧ ∀ n ∈ seen, n.job.user ≠ user) ∨
    ∃ n, Latest user seen n ∧ acc = (n.job.submitTime, [n.job])

theorem scanNode_newest {seen : List TreeNode} {acc : Int × List JobRec} {n : TreeNode}
    (stamped : 0 < n.job.submitTime) (h : Newest user seen acc) :
    Newest user (seen ++ [n]) (scanNode true user acc n) := by
  unfold scanNode
  by_cases hu : n.job.user = user
  · rw [if_pos hu]
    rcases h with ⟨rfl, unseen⟩ | ⟨best, latest, rfl⟩
    · rw [if_pos rfl, if_pos stamped]
      exact Or.inr ⟨n, ⟨hu, seen, [], rfl, fun m hm hmu => absurd hmu (unseen m hm), by simp⟩, rfl⟩
    · rw [if_pos rfl]
      by_cases hlt : best.job.submitTime < n.job.submitTime
      · rw [if_pos hlt]
        refine Or.inr ⟨n, ⟨hu, seen, [], rfl, ?_, by simp⟩, rfl⟩
        exact fun m hm hmu => Int.lt_of_le_of_lt (latest.max hm hmu) hlt
      · rw [if_neg hlt]
        obtain ⟨owned, before, behind, rfl, earlier, later⟩ := latest
        refine Or.inr ⟨best, ⟨owned, before, behind ++ [n], by simp, earlier, ?_⟩, rfl⟩
        exact forall_mem_append.mpr ⟨later, forall_mem_singleton.mpr fun _ => Int.not_lt.mp hlt⟩
  · rw [if_neg hu]
    rcases h with ⟨rfl, unseen⟩ | ⟨best, ⟨owned, before, behind, rfl, earlier, later⟩, rfl⟩
    · exact Or.inl ⟨rfl, forall_mem_append.mpr ⟨unseen, forall_mem_singleton.mpr hu⟩⟩
    · refine Or.inr ⟨best, ⟨owned, before, behind ++ [n], by simp, earlier, ?_⟩, rfl⟩
      exact forall_mem_append.mpr ⟨later, forall_mem_singleton.mpr fun own => absurd own hu⟩

theorem scanTree_newest (user : String) (stamped : ∀ n ∈ nodes, 0 < n.job.submitTime) :
    Newest user nodes (nodes.foldl (scanNode true user) (0, [])) := by
  -- the nodes behind the loop grow from the left, so the prefix is generalised
  suffices h : ∀ (rest seen : List TreeNode) (acc : Int × List JobRec),
      (∀ n ∈ rest, 0 < n.job.submitTime) → Newest user seen acc →
        Newest user (seen ++ rest) (rest.foldl (scanNode true user) acc) by
    exact h nodes [] (0, []) stamped (Or.inl ⟨rfl, by simp⟩)
  intro rest
  induction rest with
  | nil =>
    simp
  | cons n ns ih =>
    intro seen acc pos h
    have step := scanNode_newest (pos n (by simp)) h
    have tail := ih (seen ++ [n]) _ (fun m hm => pos m (by simp [hm])) step
    simpa using tail

theorem Latest.eq {n m : TreeNode} (one : Latest user nodes n) (other : Latest user nodes m) :
    n = m := by
  obtain ⟨ownN, before, behind, rfl, earlier, later⟩ := one
  obtain ⟨ownM, before', behind', eq, earlier', later'⟩ := other
  rcases append_eq_append_iff.mp eq with ⟨mid, rfl, tail⟩ | ⟨mid, rfl, tail⟩
  · cases mid with
    | nil => exact (cons_eq_cons.mp tail).1
    | cons x mid =>
      obtain ⟨rfl, rfl⟩ := cons_eq_cons.mp tail
      have less := earlier' n (by simp) ownN
      have more := later m (by simp) ownM
      exact absurd more (Int.not_le.mpr less)
  · cases mid with
    | nil => exact (cons_eq_cons.mp tail).1.symm
    | cons x mid =>
      obtain ⟨rfl, rfl⟩ := cons_eq_cons.mp tail
      have less := earlier m (by simp) ownM
      have more := later' n (by simp) ownN
      exact absurd more (Int.not_le.mpr less)

end Scan

variable {idxList : List IdxRange}

theorem matchRet_eq_some {jobs found : List JobRec} {refs : MatchRefs} :
    (matchRet idxList jobs refs).1 = some found ↔ found = jobs ∧ jobs ≠ [] := by
  unfold matchRet
  split
  · simp_all
  · simp_all [eq_comm]

theorem checkIdx_fst (env : DepEnv) (found : List JobRec) (refs : MatchRefs) :
    (checkIdx env found refs).1 = found ∨ (checkIdx env found refs).1 = [] := by
  unfold checkIdx
  split
  · split
    · split
      · exact Or.inl rfl
      · exact Or.inr rfl
    · exact Or.inr rfl
  · exact Or.inl rfl

theorem checkIdx_of_flag (env : DepEnv) (found : List JobRec) {refs : MatchRefs}
    (h : refs.flag ≠ some true) : checkIdx env found refs = (found, refs) := by
  unfold checkIdx
  split
  · exact absurd ‹_› h
  · rfl

section ByName

variable {env : DepEnv} {jobp jobName : List Char} {nodes : List TreeNode}
  {user : String} {refs : MatchRefs}

theorem matchJobs_byName (key : jobKey (keyText jobp) = .byName jobName)
    (root : env.groupRoot = some nodes) {found : List JobRec}
    (h : (matchJobs env jobp user refs).1 = some found) :
    found = scanTree (env.jobDepLastSub && !wildCardJobName jobName) user nodes ∧ found ≠ [] := by
  unfold matchJobs at h
  split at h
  · cases h
  · simp only [key, matchByName, root] at h
    obtain ⟨rfl, nonempty⟩ := matchRet_eq_some.mp h
    exact ⟨(checkIdx_fst env _ _).resolve_right nonempty, nonempty⟩

/-- What a term given by name is to find. -/
structure FindsNamed (lastSub : Bool) (jobName : List Char) (user : String)
    (nodes : List TreeNode) (found : List JobRec) : Prop where
  named : ∀ job ∈ found, job ∈ namedJobs jobName user nodes
  all : lastSub = false → ∀ job ∈ namedJobs jobName user nodes, job ∈ found
  newest : lastSub = true → ∃ newest, found = [newest] ∧
    ∀ job ∈ namedJobs jobName user nodes, job.submitTime ≤ newest.submitTime

theorem matchName_of_mem_namedJobs (distinct : (nodes.map TreeNode.job).Nodup) {n : TreeNode}
    (mem : n ∈ nodes) (named : n.job ∈ namedJobs jobName user nodes) :
    matchName jobName n.name = true := by
  obtain ⟨m, memM, same, -, bears⟩ := mem_namedJobs.mp named
  obtain rfl : m = n := inj_on_of_nodup_map distinct memM mem same
  exact bears

/-- The loop that keeps every job: the user's jobs, whatever their names. -/
theorem findsNamed_all_iff {lastSub : Bool} (distinct : (nodes.map TreeNode.job).Nodup) :
    FindsNamed lastSub jobName user nodes
        ((nodes.filter fun n => n.job.user = user).map TreeNode.job) ↔
      (∀ n ∈ nodes, n.job.user = user → matchName jobName n.name = true) ∧
        (lastSub = true → ∃ n, nodes.filter (fun n => n.job.user = user) = [n]) := by
  constructor
  · rintro ⟨named, -, newest⟩
    refine ⟨fun n mem owned => ?_, fun on => ?_⟩
    · refine matchName_of_mem_namedJobs distinct mem (named n.job (mem_map_of_mem ?_))
      exact mem_filter.mpr ⟨mem, decide_eq_true owned⟩
    · obtain ⟨job, one, -⟩ := newest on
      obtain ⟨n, one, -⟩ := map_eq_singleton_iff.mp one
      exact ⟨n, one⟩
  · rintro ⟨bears, single⟩
    refine ⟨fun job mem => ?_, fun _ job mem => ?_, fun on => ?_⟩
    · obtain ⟨n, kept, rfl⟩ := mem_map.mp mem
      obtain ⟨mem, owned⟩ := mem_filter.mp kept
      have owned := of_decide_eq_true owned
      exact mem_namedJobs.mpr ⟨n, mem, rfl, owned, bears n mem owned⟩
    · obtain ⟨n, listed, rfl, owned, -⟩ := mem_namedJobs.mp mem
      exact mem_map_of_mem (mem_filter.mpr ⟨listed, decide_eq_true owned⟩)
    · obtain ⟨n, one⟩ := single on
      refine ⟨n.job, by rw [one, map_singleton], fun job mem => ?_⟩
      obtain ⟨m, listed, rfl, owned, -⟩ := mem_namedJobs.mp mem
      have here : m ∈ [n] := one ▸ mem_filter.mpr ⟨listed, decide_eq_true owned⟩
      rw [mem_singleton.mp here]

theorem findsNamed_latest_iff (distinct : (nodes.map TreeNode.job).Nodup) {best : TreeNode}
    (latest : Latest user nodes best) :
    FindsNamed true jobName user nodes [best.job] ↔
      ∃ n, Latest user nodes n ∧ matchName jobName n.name = true := by
  have mem : best ∈ nodes := by
    obtain ⟨-, before, behind, rfl, -, -⟩ := latest
    simp
  constructor
  · intro finds
    exact ⟨best, latest, matchName_of_mem_namedJobs distinct mem
      (finds.named best.job (mem_singleton.mpr rfl))⟩
  · rintro ⟨n, first, bears⟩
    obtain rfl := first.eq latest
    refine ⟨fun job one => ?_, fun off => absurd off (by decide), fun _ => ⟨_, rfl, ?_⟩⟩
    · rw [mem_singleton.mp one]
      exact mem_namedJobs.mpr ⟨n, mem, rfl, latest.1, bears⟩
    · intro job named
      obtain ⟨m, listed, rfl, owned, -⟩ := mem_namedJobs.mp named
      exact latest.max listed owned

/-- The loop looks at the user of a job and never at its name. So the list is right exactly
where every job of the user bears a matching name (with `jobDepLastSub` on and a name that ends
in a star, there must be a single job of the user), or, where one job is kept, the one that was
submitted last does. -/
theorem matchJobs_named_iff (key : jobKey (keyText jobp) = .byName jobName)
    (root : env.groupRoot = some nodes) (stamped : ∀ n ∈ nodes, 0 < n.job.submitTime)
    (distinct : (nodes.map TreeNode.job).Nodup) {found : List JobRec}
    (returned : (matchJobs env jobp user refs).1 = some found) :
    FindsNamed env.jobDepLastSub jobName user nodes found ↔
      if env.jobDepLastSub = true ∧ wildCardJobName jobName = false then
        ∃ n, Latest user nodes n ∧ matchName jobName n.name = true
      else (∀ n ∈ nodes, n.job.user = user → matchName jobName n.name = true) ∧
        (env.jobDepLastSub = true → ∃ n, nodes.filter (fun n => n.job.user = user) = [n]) := by
  obtain ⟨rfl, nonempty⟩ := matchJobs_byName key root returned
  split
  · rename_i keepsOne
    rw [keepsOne.1, keepsOne.2, scanTree] at nonempty ⊢
    rcases scanTree_newest user stamped with ⟨empty, -⟩ | ⟨best, latest, one⟩
    · exact absurd (congrArg Prod.snd empty) nonempty
    · have kept : (nodes.foldl (scanNode (true && !false) user) (0, [])).2 = [best.job] :=
        congrArg Prod.snd one
      rw [kept]
      exact findsNamed_latest_iff distinct latest
  · rename_i keepsAll
    have off : (env.jobDepLastSub && !wildCardJobName jobName) = false := by simpa using keepsAll
    rw [off, scanTree, scanNode_collects, nil_append]
    exact findsNamed_all_iff distinct

end ByName

def plainEnv (lastSub : Bool) (nodes : List TreeNode) : DepEnv where
  getJobData := fun _ => none
  groupRoot := some nodes
  jobDepLastSub := lastSub
  replayStage := false
  parseJobArrayIndex := fun _ => some []
  idxListContext := []
  addWindow := fun _ => false

def plainNode (jobId : Int) (name : String) (submitTime : Int) : TreeNode :=
  ⟨name.toList, jobId, "amy", name.toList, submitTime, .job, .job⟩

def freshRefs : MatchRefs := ⟨0, .dependSyntax, none, 0, some false⟩

theorem matchJobs_named_ab :
    FindsNamed true "ab".toList "amy" [plainNode 1 "xy" 5, plainNode 2 "ab" 9]
      [(plainNode 2 "ab" 9).job] := by
  have key : jobKey (keyText "ab".toList) = .byName "ab".toList := by decide
  have found : (matchJobs (plainEnv true [plainNode 1 "xy" 5, plainNode 2 "ab" 9]) "ab".toList
      "amy" freshRefs).1 = some [(plainNode 2 "ab" 9).job] := by decide
  refine (matchJobs_named_iff key rfl (by decide) (by decide) found).mpr ?_
  rw [if_pos (by decide)]
  exact ⟨plainNode 2 "ab" 9, ⟨rfl, [plainNode 1 "xy" 5], [], rfl, by decide, by simp⟩, by decide⟩

/-- A name that ends in a star keeps all jobs although `jobDepLastSub` is on,
and a name that no job bears still finds a job of the user. -/
theorem matchJobs_wildcard_and_misnamed :
    (matchJobs (plainEnv true [plainNode 1 "ab1" 5, plainNode 2 "ab2" 9]) "ab*".toList "amy"
      freshRefs).1 = some [(plainNode 1 "ab1" 5).job, (plainNode 2 "ab2" 9).job] ∧
    (matchJobs (plainEnv false [plainNode 3 "xyz" 7]) "abc".toList "amy" freshRefs).1 =
      some [(plainNode 3 "xyz" 7).job] ∧
    matchName "abc".toList (plainNode 3 "xyz" 7).name = false := by
  decide

end Jhlava.Dep
