import Jhlava.DepTurns
import Jhlava.DepArrays

/-! What a term of a condition takes over from the terms before it. The locals of
`parseDepCond` live as long as its main loop: the flag that one `[*]` sets is still set for
the next term unless the first one found a single job, and after an index that cannot be
read `numJob` is that of an earlier term. -/
namespace Jhlava.Dep

def DptNode.unnumbered : DptNode → DptNode
  | .term _ data => .term 0 data
  | .not left => .not left.unnumbered
  | .binary type left right => .binary type left.unnumbered right.unnumbered

def Item.unnumbered : Item → Item
  | .operand node => .operand node.unnumbered
  | .op type => .op type
  | .left => .left
  | .right => .right

/-- What one turn builds, and the text behind it. The code of an error is not part of it. -/
inductive Built where
  | error
  | crash
  | fuel
  | atEnd
  | item (item : Item) (rest : List Char)
  deriving DecidableEq

def ParseStop.built : ParseStop → Built
  | .error _ => .error
  | .crash => .crash
  | .fuel => .fuel

def builtTerm : Except ParseStop (DptNode × Locals × List Char) → Built
  | .error stop => stop.built
  | .ok (node, _, s) => .item (.operand node.unnumbered) s

def built (env : DepEnv) (lsfUserName : String) (windowConf : Bool) (l : Locals) (fuel : Nat)
    (s : List Char) : Built :=
  match readItem env lsfUserName windowConf l fuel s with
  | .error stop => stop.built
  | .ok none => .atEnd
  | .ok (some (item, _, s)) => .item item.unnumbered s

/-! ### Two runs -/

variable {flag : Option Bool} {found jobs : List JobRec} {idxList : List IdxRange} {jobp s : List
  Char} {l : Locals} {t : Token} {type : DptType} {α : Type}

/-- Both runs give the same, or both stop for the same reason, one of `stops`. -/
def Alike (stops : Built → Prop) : Except ParseStop α → Except ParseStop α → Prop
  | .ok a, .ok b => a = b
  | .error stop, .error stop' => stop.built = stop'.built ∧ stops stop.built
  | .ok _, .error _ | .error _, .ok _ => False

section Alike

variable {α β : Type} {stops : Built → Prop} {x y : Except ParseStop α}

theorem Alike.ok (a : α) : Alike stops (.ok a) (.ok a) := Eq.refl a

theorem Alike.bind {f g : α → Except ParseStop β} (h : Alike stops x y)
    (next : ∀ a, Alike stops (f a) (g a)) : Alike stops (x >>= f) (y >>= g) := by
  cases x with
  | ok a =>
    cases y with
    | ok b =>
      cases h
      exact next a
    | error stop => cases h
  | error stop =>
    cases y with
    | ok b => cases h
    | error stop' => exact h

theorem Alike.ite {x' y' : Except ParseStop α} {p : Prop} [Decidable p] (h : Alike stops x y)
    (h' : Alike stops x' y') : Alike stops (if p then x else x') (if p then y else y') := by
  by_cases cond : p
  · rwa [if_pos cond, if_pos cond]
  · rwa [if_neg cond, if_neg cond]

variable (error : stops .error) (l l' : Locals)
include error

theorem Alike.fail : Alike stops (Dep.fail l : Except ParseStop α) (Dep.fail l') := ⟨rfl, error⟩

theorem alike_nextToken (s : List Char) : Alike stops (nextToken l s) (nextToken l' s) := by
  unfold nextToken
  cases getToken s with
  | none => exact Alike.fail error l l'
  | some r => exact Alike.ok r

theorem alike_expect (type : DptType) (s : List Char) :
    Alike stops (expect l type s) (expect l' type s) :=
  (alike_nextToken error l l' s).bind fun _ => (Alike.ok _).ite (Alike.fail error l l')

theorem alike_failIf (b : Bool) : Alike stops (failIf l b) (failIf l' b) :=
  (Alike.fail error l l').ite (Alike.ok _)

theorem alike_readCondition (star : Bool) (given : DptType × Int) (s : List Char) :
    Alike stops (readCondition l star given s) (readCondition l' star given s) := by
  unfold readCondition
  -- every branch is a chain of tokens, checks and failures
  repeat' first
    | with_reducible exact Alike.fail error l l'
    | with_reducible exact alike_nextToken error l l' _
    | with_reducible exact alike_expect error l l' _ _
    | with_reducible refine Alike.ite ?_ ?_
    | with_reducible refine Alike.bind ?_ fun _ => ?_
    | exact Alike.ok _

end Alike

theorem alike_readWindows (l l' : Locals) (fuel : Nat) (s : List Char) :
    Alike (fun _ => True) (readWindows l fuel s) (readWindows l' fuel s) := by
  induction fuel generalizing s with
  | zero => exact ⟨rfl, trivial⟩
  | succ fuel ih =>
    refine (alike_nextToken trivial l l' s).bind fun r =>
      (Alike.ok _).ite (Alike.ite ?_ (Alike.fail trivial l l'))
    exact (ih r.2).bind fun _ => Alike.ok _

/-! ### The jobs of a term -/

/-- The jobs a term looks up, by their id or by their name. -/
def foundBy (env : DepEnv) (user : String) (jobp : List Char) (idxList : List IdxRange)
    (refs : MatchRefs) : List JobRec × MatchRefs :=
  match jobKey (keyText jobp) with
  | .byId jobId => matchById env jobId idxList refs
  | .byName jobName => matchByName env jobName user refs
  | .nothing => ([], refs)

section Jobs

variable {env : DepEnv} {user : String} {refs : MatchRefs}

/-- Of the arguments taken by reference the flag and the index are read, and the flag is kept. -/
theorem foundBy_reads (n n' : Nat) (code code' : ReplyCode) (e e' : Int) (idx : Option JobIdx) :
    let r := foundBy env user jobp idxList ⟨n, code, idx, e, flag⟩
    let r' := foundBy env user jobp idxList ⟨n', code', idx, e', flag⟩
    r.1 = r'.1 ∧ r.2.jobIdx = r'.2.jobIdx ∧ r.2.flag = flag := by
  unfold foundBy matchById matchByName checkIdx
  dsimp only
  -- the branches are chosen by what both read
  repeat' split
  all_goals exact ⟨rfl, rfl, rfl⟩

theorem matchJobs_of_index (index : env.parseJobArrayIndex (indexText jobp) = some idxList)
    (refs : MatchRefs) :
    matchJobs env jobp user refs =
      let found := foundBy env user jobp idxList ⟨refs.numFoundJob, refs.replyCode,
        if idxList = [] then refs.jobIdx else some ⟨idxList, []⟩, 0, oneToOneFlag jobp refs.flag⟩
      matchRet idxList found.1 found.2 := by
  simp only [matchJobs, index]
  rfl

theorem matchRet_reads {refs refs' : MatchRefs} (idx : refs.jobIdx = refs'.jobIdx) :
    let r := matchRet idxList found refs
    let r' := matchRet idxList found refs'
    r.1 = r'.1 ∧ r.2.jobIdx = r'.2.jobIdx ∧ r.2.flag = refs.flag := by
  unfold matchRet
  rw [idx]
  split <;> exact ⟨rfl, rfl, rfl⟩

def jobLook (env : DepEnv) (user : String) (jobp : List Char) (flag : Option Bool) :
    Option (List JobRec) × Option JobIdx :=
  let (found, refs) := matchJobs env jobp user ⟨0, .dependSyntax, none, 0, flag⟩
  (found, refs.jobIdx)

theorem matchJobs_reads (n : Nat) (code : ReplyCode) (e : Int) :
    let r := matchJobs env jobp user ⟨n, code, none, e, flag⟩
    (r.1, r.2.jobIdx) = jobLook env user jobp flag ∧ r.2.flag = oneToOneFlag jobp flag := by
  unfold jobLook
  cases index : env.parseJobArrayIndex (indexText jobp) with
  | none => simp [matchJobs, index]
  | some idxList =>
    obtain ⟨jobs, idx, kept⟩ := @foundBy_reads (oneToOneFlag jobp flag) idxList jobp env user n 0
      code .dependSyntax 0 0 (if idxList = [] then none else some ⟨idxList, []⟩)
    rw [matchJobs_of_index index, matchJobs_of_index index]
    dsimp only
    rw [jobs]
    obtain ⟨same, idx, flag⟩ := matchRet_reads idx
    exact ⟨Prod.ext same idx, flag.trans kept⟩

theorem matchRet_numFoundJob (none_ : (matchRet idxList found refs).1 = none) :
    (matchRet idxList found refs).2.numFoundJob = 0 := by
  unfold matchRet at none_ ⊢
  split at none_
  · rename_i empty
    rw [if_pos empty]
  · cases none_

theorem matchJobs_numFoundJob {jobp : List Char} (none_ : (matchJobs env jobp user refs).1 = none) :
    (matchJobs env jobp user refs).2.numFoundJob =
      if env.parseJobArrayIndex (indexText jobp) = none then refs.numFoundJob else 0 := by
  cases index : env.parseJobArrayIndex (indexText jobp) with
  | none => simp [matchJobs, index]
  | some idxList =>
    simp only [matchJobs, index] at none_ ⊢
    exact matchRet_numFoundJob none_

/-- The flag a term hands to `matchJobs`. -/
def givenFlag (l : Locals) (useFlag : Bool) : Option Bool := if useFlag then some l.opFlag else none

theorem lookupJobs_eq (l : Locals) (useFlag : Bool) (jobp : List Char) :
    ∃ l', l'.opFlag = (oneToOneFlag jobp (givenFlag l useFlag)).getD l.opFlag ∧
      lookupJobs env user l useFlag jobp =
        if (jobLook env user jobp (givenFlag l useFlag)).1 = none ∧ env.replayStage = false then
          fail l'
        else if (jobLook env user jobp (givenFlag l useFlag)).1 = none ∧
            env.parseJobArrayIndex (indexText jobp) = none ∧ 1 < l.numJob then .error .crash
        else .ok ((jobLook env user jobp (givenFlag l useFlag)).1,
          (jobLook env user jobp (givenFlag l useFlag)).2, l') := by
  have fold : (if useFlag = true then some l.opFlag else none) = givenFlag l useFlag := rfl
  rw [lookupJobs, fold]
  generalize givenFlag l useFlag = given
  have reads := @matchJobs_reads given jobp env user l.numJob l.replyCode l.notExistArrayJob
  have num := @matchJobs_numFoundJob env user
    ⟨l.numJob, l.replyCode, none, l.notExistArrayJob, given⟩ jobp
  generalize matchJobs env jobp user
    ⟨l.numJob, l.replyCode, none, l.notExistArrayJob, given⟩ = r at reads num ⊢
  obtain ⟨found, refs⟩ := r
  obtain ⟨look, flag⟩ := reads
  dsimp only at flag num look ⊢
  rw [← flag, ← look]
  refine ⟨{ l with
    numJob := refs.numFoundJob
    replyCode := refs.replyCode
    notExistArrayJob := refs.element
    opFlag := refs.flag.getD l.opFlag }, rfl, ?_⟩
  by_cases none_ : found = none
  · rw [num none_]
    by_cases index : env.parseJobArrayIndex (indexText jobp) = none
    · simp only [none_, index, true_and, if_true]
    · simp [none_, index]
  · simp [none_]

end Jobs

/-! ### The nodes of a term -/

theorem createMoreNodes_unnumbered {mk mk' : Nat → JobRec → DptNode}
    (same : ∀ id id' job, (mk id job).unnumbered = (mk' id' job).unnumbered) {tree tree' : DptNode}
    (trees : tree.unnumbered = tree'.unnumbered) (id id' : Nat) :
    (createMoreNodes mk id tree jobs).unnumbered =
      (createMoreNodes mk' id' tree' jobs).unnumbered := by
  induction jobs generalizing tree tree' id id' with
  | nil => exact trees
  | cons job jobs ih =>
    refine ih ?_ _ _
    rw [DptNode.unnumbered, DptNode.unnumbered, same id id' job, trees]

theorem buildNode_unnumbered {l' : Locals} (flag : l.opFlag = l'.opFlag) (type : DptType)
    (cond : DptType × Int) (useFlag : Bool) (jobRec : Option (List JobRec))
    (jobIdx : Option JobIdx) :
    (buildNode l type cond useFlag jobRec jobIdx).1.unnumbered =
      (buildNode l' type cond useFlag jobRec jobIdx).1.unnumbered := by
  unfold buildNode
  rw [flag]
  split
  · rfl
  · exact createMoreNodes_unnumbered (fun _ _ _ => by rfl) (by rfl) _ _
  · rfl

def nodeFor (type : DptType) (cond : DptType × Int) (useFlag flag : Bool)
    (look : Option (List JobRec) × Option JobIdx) : DptNode :=
  (buildNode { Locals.init with opFlag := flag } type cond useFlag look.1 look.2).1.unnumbered

theorem createMoreNodes_top (mk : Nat → JobRec → DptNode) (id : Nat) (tree : DptNode) (job : JobRec)
    (jobs : List JobRec) : ∃ id' last below,
      createMoreNodes mk id tree (job :: jobs) = .binary .and (mk id' last) below := by
  induction jobs generalizing id tree job with
  | nil => exact ⟨id, job, tree, rfl⟩
  | cons next jobs ih => exact ih (id + 1) _ next

section NodeFor

variable {type : DptType} {cond : DptType × Int} {useFlag flag : Bool} {jobIdx : Option JobIdx}

theorem nodeFor_none : nodeFor type cond useFlag flag (none, jobIdx) =
    .term 0 (.job type cond.1 cond.2 false none none) := rfl

theorem nodeFor_cases {found : Option (List JobRec)}
    (nonempty : ∀ jobs, found = some jobs → jobs ≠ []) :
    let node := nodeFor type cond useFlag flag (found, jobIdx)
    (found = none ∧ node = .term 0 (.job type cond.1 cond.2 false none none)) ∨
    (∃ job, found = some [job] ∧
      node = .term 0 (.job type cond.1 cond.2 (useFlag && flag) (some job) jobIdx)) ∨
    ∃ job next jobs last below, found = some (job :: next :: jobs) ∧
      node = .binary .and (.term 0 (.job type cond.1 cond.2 false (some last) jobIdx)) below := by
  rcases found with _ | ⟨_ | ⟨job, _ | ⟨next, jobs⟩⟩⟩
  · exact Or.inl ⟨rfl, rfl⟩
  · exact absurd rfl (nonempty [] rfl)
  · exact Or.inr (Or.inl ⟨job, rfl, rfl⟩)
  · obtain ⟨id, last, below, top⟩ := createMoreNodes_top
      (fun id job => .term id (.job type cond.1 cond.2 false (some job) jobIdx))
      (Locals.init.nextId + 1)
      (.term Locals.init.nextId (.job type cond.1 cond.2 false (some job) jobIdx)) next jobs
    refine Or.inr (Or.inr ⟨job, next, jobs, last, below.unnumbered, rfl, ?_⟩)
    change DptNode.unnumbered (createMoreNodes _ _ _ _) = _
    rw [top]
    rfl

end NodeFor

section Looks

variable {env : DepEnv} {user : String} {jobp : List Char}

def termRefs (jobp : List Char) (idxList : List IdxRange) (flag : Option Bool) : MatchRefs :=
  ⟨0, .dependSyntax, if idxList = [] then none else some ⟨idxList, []⟩, 0, oneToOneFlag jobp flag⟩

theorem jobLook_of_index (flag : Option Bool)
    (index : env.parseJobArrayIndex (indexText jobp) = some idxList) :
    jobLook env user jobp flag =
      let found := foundBy env user jobp idxList (termRefs jobp idxList flag)
      ((matchRet idxList found.1 found.2).1, (matchRet idxList found.1 found.2).2.jobIdx) := by
  rw [jobLook, matchJobs_of_index index]
  rfl

theorem matchRet_jobIdx (some_ : found ≠ []) (refs : MatchRefs) :
    (matchRet idxList found refs).2.jobIdx = refs.jobIdx := by
  rw [matchRet, if_neg some_]

theorem jobLook_index (found : (jobLook env user jobp flag).1 = some jobs) :
    ∃ idxList, env.parseJobArrayIndex (indexText jobp) = some idxList := by
  cases index : env.parseJobArrayIndex (indexText jobp) with
  | none => simp [jobLook, matchJobs, index] at found
  | some idxList => exact ⟨idxList, rfl⟩

theorem jobLook_eq_some (found : (jobLook env user jobp flag).1 = some jobs) : jobs ≠ [] ∧
      ∃ idxList, (foundBy env user jobp idxList (termRefs jobp idxList flag)).1 = jobs ∧
        (jobLook env user jobp flag).2 =
          (foundBy env user jobp idxList (termRefs jobp idxList flag)).2.jobIdx := by
  obtain ⟨idxList, index⟩ := jobLook_index found
  rw [jobLook_of_index flag index] at found
  obtain ⟨rfl, nonempty⟩ := matchRet_eq_some.mp found
  refine ⟨nonempty, idxList, rfl, ?_⟩
  rw [jobLook_of_index flag index]
  exact matchRet_jobIdx nonempty _

variable {refs : MatchRefs}

theorem checkIdx_flagged (flag : refs.flag = some true) (kept : (checkIdx env found refs).1 ≠ []) :
    ∃ elements, (checkIdx env found refs).2.jobIdx = some ⟨[], elements⟩ := by
  cases found with
  | nil => simp [checkIdx, flag] at kept
  | cons first rest =>
    revert kept
    unfold checkIdx
    rw [flag]
    dsimp only
    split
    · split
      · exact fun _ => ⟨_, rfl⟩
      · exact fun refused => absurd rfl refused
    · exact fun refused => absurd rfl refused

theorem foundBy_flagged (flag : refs.flag = some true)
    (some_ : (foundBy env user jobp idxList refs).1 ≠ []) :
    ∃ elements, (foundBy env user jobp idxList refs).2.jobIdx = some ⟨[], elements⟩ := by
  revert some_
  unfold foundBy matchById matchByName
  repeat' split
  all_goals first
    | exact checkIdx_flagged flag
    | exact fun none_ => absurd rfl none_

theorem foundBy_several (flag : refs.flag ≠ some true) {job next : JobRec}
    (found : (foundBy env user jobp idxList refs).1 = job :: next :: jobs) :
    (foundBy env user jobp idxList refs).2 = refs := by
  revert found
  unfold foundBy matchById matchByName
  simp only [if_neg flag, checkIdx_of_flag env _ flag]
  -- an index is passed on with one job or with none
  repeat' split
  all_goals first
    | exact fun _ => rfl
    | exact fun fewer => by cases fewer

/-- A flag that is set makes another node of a term that finds a job with it or without. -/
theorem nodeFor_apart (plain : cutOneToOne jobp = none) (type : DptType) (cond : DptType × Int)
    (some_ : (jobLook env user jobp (some true)).1 ≠ none ∨
      (jobLook env user jobp (some false)).1 ≠ none) :
    nodeFor type cond true true (jobLook env user jobp (some true)) ≠
      nodeFor type cond true false (jobLook env user jobp (some false)) := by
  have nonempty : ∀ flag jobs, (jobLook env user jobp flag).1 = some jobs → jobs ≠ [] :=
    fun flag jobs found => (jobLook_eq_some found).1
  have flagged : ∀ jobs, (jobLook env user jobp (some true)).1 = some jobs →
      ∃ elements, (jobLook env user jobp (some true)).2 = some ⟨[], elements⟩ := by
    intro jobs found
    obtain ⟨nonempty, idxList, rfl, idx⟩ := jobLook_eq_some found
    rw [idx]
    exact foundBy_flagged (by simp [termRefs, oneToOneFlag]) nonempty
  have several : ∀ job next jobs, (jobLook env user jobp (some false)).1 =
      some (job :: next :: jobs) →
      ∀ elements, (jobLook env user jobp (some false)).2 ≠ some ⟨[], elements⟩ := by
    intro job next jobs found elements
    obtain ⟨-, idxList, list, idx⟩ := jobLook_eq_some found
    rw [idx, foundBy_several (by simp [termRefs, oneToOneFlag, plain]) list, termRefs]
    split
    · exact (Option.some_ne_none _).symm
    · rename_i some_
      simp [some_]
  have nonempty1 := nonempty (some true)
  have nonempty0 := nonempty (some false)
  generalize jobLook env user jobp (some true) = one at some_ flagged nonempty1 ⊢
  generalize jobLook env user jobp (some false) = zero at some_ several nonempty0 ⊢
  obtain ⟨found1, idx1⟩ := one
  obtain ⟨found0, idx0⟩ := zero
  rcases @nodeFor_cases type cond true true idx1 found1 nonempty1 with
    ⟨rfl, eq1⟩ | ⟨job1, rfl, eq1⟩ | ⟨job1, next1, jobs1, last1, below1, rfl, eq1⟩ <;>
  rcases @nodeFor_cases type cond true false idx0 found0 nonempty0 with
    ⟨rfl, eq0⟩ | ⟨job0, rfl, eq0⟩ | ⟨job0, next0, jobs0, last0, below0, rfl, eq0⟩ <;>
  rw [eq1, eq0]
  case inl.inl => simp at some_
  case inr.inr.inr.inr =>
    obtain ⟨elements, passed⟩ := flagged _ rfl
    have kept := several _ _ _ rfl elements
    rintro ⟨⟩
    exact kept passed
  all_goals simp

end Looks

/-! ### The terms -/

def readTail (l : Locals) (type : DptType) (s : List Char) :
    Except ParseStop ((DptType × Int) × List Char) :=
  if type = .exit then readCondition l false (.always, 0) s
  else (expect l .right s).map fun s => ((.and, 0), s)

def termTail (type : DptType) (s : List Char) : Option ((DptType × Int) × List Char) :=
  (readTail Locals.init type s).toOption

theorem alike_readTail (l l' : Locals) (type : DptType) (s : List Char) :
    Alike (Eq .error) (readTail l type s) (readTail l' type s) :=
  (alike_readCondition rfl l l' _ _ _).ite ((alike_expect rfl l l' _ _).bind fun _ => Alike.ok _)

theorem readTail_cases (l : Locals) (type : DptType) (s : List Char) :
    (∃ stop, readTail l type s = .error stop ∧ stop.built = .error ∧ termTail type s = none) ∨
      ∃ out, readTail l type s = .ok out ∧ termTail type s = some out := by
  have alike := alike_readTail l Locals.init type s
  unfold termTail
  revert alike
  cases readTail l type s with
  | error stop =>
    cases readTail Locals.init type s with
    | error stop' => exact fun alike => Or.inl ⟨stop, rfl, alike.2.symm, rfl⟩
    | ok out => exact False.elim
  | ok out =>
    cases readTail Locals.init type s with
    | error stop' => exact False.elim
    | ok out' => exact fun alike => Or.inr ⟨out, rfl, congrArg some (Eq.symm alike)⟩

/-- What is built from a term that names a job, for a state of `numJob` and of the flag. -/
def builtJob (env : DepEnv) (user : String) (numJob : Nat) (useFlag flag : Bool) (type : DptType)
    (jobp : List Char) (tail : Option ((DptType × Int) × List Char)) : Built :=
  let given := if useFlag then some flag else none
  let look := jobLook env user jobp given
  if look.1 = none ∧ env.replayStage = false then .error
  else if look.1 = none ∧ env.parseJobArrayIndex (indexText jobp) = none ∧ 1 < numJob then .crash
  else match tail with
    | none => .error
    | some (cond, rest) =>
      .item (.operand (nodeFor type cond useFlag ((oneToOneFlag jobp given).getD flag) look)) rest

section Terms

variable {env : DepEnv} {user : String}

theorem readJobTerm_eq (windowConf : Bool) (l : Locals) (type : DptType) (s : List Char) :
    readJobTerm env user windowConf l type s =
      (failIf l windowConf >>= fun _ => expect l .left s >>= fun s => nextToken l s >>= fun r =>
        lookupJobs env user l true r.1.text >>= fun found =>
          readTail found.2.2 type r.2 >>= fun out =>
            let node := buildNode found.2.2 type out.1 true found.1 found.2.1
            .ok (node.1, node.2, out.2)) := by
  unfold readJobTerm readTail
  by_cases exit : type = .exit
  · simp only [exit, if_true]
    rfl
  · simp only [exit, if_false]
    congr 1; funext _; congr 1; funext s; congr 1; funext r; congr 1; funext found
    cases expect found.2.2 .right r.2 with
    | error stop => rfl
    | ok s => rfl

theorem builtTerm_readJobTerm {rest s' : List Char} {left : Token}
    (opened : getToken s = some (left, rest)) (isLeft : left.type = .left)
    (named : getToken rest = some (t, s')) :
    builtTerm (readJobTerm env user false l type s) =
      builtJob env user l.numJob true l.opFlag type t.text (termTail type s') := by
  have first : expect l .left s = .ok rest := by
    rw [expect, nextToken, opened]
    exact if_pos isLeft
  have second : nextToken l rest = .ok (t, s') := by
    rw [nextToken, named]
  obtain ⟨l', flag, look⟩ := @lookupJobs_eq env user l true t.text
  rw [readJobTerm_eq, failIf]
  rw [first]
  change builtTerm (nextToken l rest >>= _) = _
  rw [second]
  change builtTerm (lookupJobs env user l true t.text >>= _) = _
  rw [look]
  unfold builtJob
  have given : givenFlag l true = some l.opFlag := rfl
  rw [given] at flag ⊢
  dsimp only
  rw [if_pos rfl]
  split
  · rfl
  · split
    · rfl
    · change builtTerm (readTail l' type s' >>= _) = _
      rcases readTail_cases l' type s' with ⟨stop, read, code, tail⟩ | ⟨⟨cond, rest⟩, read, tail⟩
      · rw [read, tail]
        exact code
      · rw [read, tail]
        rw [← flag]
        exact congrArg (fun node => Built.item (.operand node) rest)
          (buildNode_unnumbered (by exact rfl) _ _ _ _ _)

theorem builtTerm_readName (l : Locals) (jobp s : List Char) :
    builtTerm (readName env user false l jobp s) =
      builtJob env user l.numJob false l.opFlag .done jobp (some ((.and, 0), s)) := by
  obtain ⟨l', flag, look⟩ := @lookupJobs_eq env user l false jobp
  change builtTerm (lookupJobs env user l false jobp >>= _) = _
  rw [look]
  unfold builtJob
  have given : givenFlag l false = none := rfl
  rw [given] at flag ⊢
  dsimp only
  rw [if_neg Bool.false_ne_true]
  split
  · rfl
  · split
    · rfl
    · rw [← flag]
      exact congrArg (fun node => Built.item (.operand node) s)
        (buildNode_unnumbered (by exact rfl) _ _ _ _ _)

theorem jobLook_congr {flag' : Option Bool}
    (same : oneToOneFlag jobp flag = oneToOneFlag jobp flag') :
    jobLook env user jobp flag = jobLook env user jobp flag' := by
  unfold jobLook matchJobs
  rw [same]

theorem jobLook_noIndex {jobp : List Char} (index : env.parseJobArrayIndex (indexText jobp) = none)
    (flag : Option Bool) : (jobLook env user jobp flag).1 = none := by
  simp [jobLook, matchJobs, index]

theorem nodeFor_unused (type : DptType) (cond : DptType × Int) (flag flag' : Bool)
    (look : Option (List JobRec) × Option JobIdx) :
    nodeFor type cond false flag look = nodeFor type cond false flag' look := by
  obtain ⟨_ | ⟨_ | ⟨job, _ | ⟨next, jobs⟩⟩⟩, jobIdx⟩ := look <;> rfl

theorem builtJob_noIndex (index : env.parseJobArrayIndex (indexText jobp) = none) (numJob : Nat)
    (useFlag flag : Bool) (type : DptType) (tail : Option ((DptType × Int) × List Char)) :
    builtJob env user numJob useFlag flag type jobp tail =
      if env.replayStage = false then .error
      else if 1 < numJob then .crash
      else tail.elim .error fun out =>
        .item (.operand (.term 0 (.job type out.1.1 out.1.2 false none none))) out.2 := by
  unfold builtJob
  dsimp only
  have none_ := @jobLook_noIndex env user jobp index (if useFlag = true then some flag else none)
  generalize jobLook env user jobp (if useFlag = true then some flag else none) = look at none_ ⊢
  obtain ⟨found, jobIdx⟩ := look
  obtain rfl : found = none := none_
  simp only [true_and, index]
  cases tail with
  | none => rfl
  | some out => rfl

theorem builtJob_index (index : env.parseJobArrayIndex (indexText jobp) ≠ none) (numJob : Nat)
    (useFlag flag : Bool) (type : DptType) (tail : Option ((DptType × Int) × List Char)) :
    builtJob env user numJob useFlag flag type jobp tail =
      let given := if useFlag then some flag else none
      let look := jobLook env user jobp given
      if look.1 = none ∧ env.replayStage = false then .error
      else tail.elim .error fun out => .item (.operand
        (nodeFor type out.1 useFlag ((oneToOneFlag jobp given).getD flag) look)) out.2 := by
  unfold builtJob
  simp only [index, false_and, and_false, if_false]
  cases tail with
  | none => rfl
  | some out => rfl

theorem builtFound_eq_iff (plain : cutOneToOne jobp = none) (type : DptType)
    (tail : Option ((DptType × Int) × List Char)) :
    ((if (jobLook env user jobp (some true)).1 = none ∧ env.replayStage = false then Built.error
      else tail.elim .error fun out =>
        .item (.operand (nodeFor type out.1 true true (jobLook env user jobp (some true)))) out.2) =
      if (jobLook env user jobp (some false)).1 = none ∧ env.replayStage = false then .error
      else tail.elim .error fun out =>
        .item (.operand (nodeFor type out.1 true false (jobLook env user jobp (some false))))
          out.2) ↔
      ¬ (tail ≠ none ∧ ((jobLook env user jobp (some true)).1 ≠ none ∨
        (jobLook env user jobp (some false)).1 ≠ none)) := by
  cases tail with
  | none => simp
  | some out =>
    have apart := @nodeFor_apart env user jobp plain type out.1
    generalize jobLook env user jobp (some true) = one at apart ⊢
    generalize jobLook env user jobp (some false) = zero at apart ⊢
    obtain ⟨found1, idx1⟩ := one
    obtain ⟨found0, idx0⟩ := zero
    cases found1 with
    | none =>
      cases found0 with
      | none => simp [nodeFor_none]
      | some jobs =>
        have other := apart (Or.inr (Option.some_ne_none _))
        by_cases replay : env.replayStage = false <;> simp [replay, other]
    | some jobs =>
      have other := apart (Or.inl (Option.some_ne_none _))
      by_cases replay : env.replayStage = false
      · cases found0 <;> simp [replay, other]
      · simp [replay, other]

theorem builtJob_eq_iff (numJob : Nat) (useFlag flag : Bool) (type : DptType) (jobp : List Char)
    (tail : Option ((DptType × Int) × List Char)) :
    builtJob env user numJob useFlag flag type jobp tail =
        builtJob env user 0 useFlag false type jobp tail ↔
      ¬ (env.replayStage = true ∧ env.parseJobArrayIndex (indexText jobp) = none ∧ 1 < numJob) ∧
      ¬ (useFlag = true ∧ flag = true ∧ cutOneToOne jobp = none ∧ tail ≠ none ∧
        ((jobLook env user jobp (some true)).1 ≠ none ∨
          (jobLook env user jobp (some false)).1 ≠ none)) := by
  by_cases index : env.parseJobArrayIndex (indexText jobp) = none
  · rw [builtJob_noIndex index, builtJob_noIndex index]
    simp only [jobLook_noIndex index, ne_eq, not_true_eq_false, or_self, and_false,
      not_false_eq_true, and_true, index, true_and]
    cases env.replayStage with
    | false => simp
    | true =>
      by_cases more : 1 < numJob
      · cases tail <;> simp [more]
      · cases tail <;> simp [more]
  · rw [builtJob_index index, builtJob_index index]
    simp only [index, false_and, and_false, not_false_eq_true, true_and]
    cases useFlag with
    | false =>
      simp only [Bool.false_eq_true, if_false, false_and, not_false_eq_true, iff_true]
      simp only [nodeFor_unused type _ ((oneToOneFlag jobp none).getD flag)
        ((oneToOneFlag jobp none).getD false)]
    | true =>
      cases flag with
      | false => simp
      | true =>
        cases cut : cutOneToOne jobp with
        | some base =>
          have same : oneToOneFlag jobp (some true) = oneToOneFlag jobp (some false) := by
            simp [oneToOneFlag, cut]
          have set_ : oneToOneFlag jobp (some false) = some true := by
            simp [oneToOneFlag, cut]
          simp [jobLook_congr same, same, set_]
        | none =>
          have kept : ∀ flag, (oneToOneFlag jobp (some flag)).getD flag = flag := by
            simp [oneToOneFlag, cut]
          simp only [if_true, kept, true_and]
          exact builtFound_eq_iff cut type tail

end Terms

def DptType.isJobTerm : DptType → Bool
  | .done | .postDone | .postErr | .exit | .started | .ended => true
  | _ => false

/-- The text begins with a term that names a job: its type, whether it takes part in the
flag, the name of the job and what is read behind it. -/
inductive NamesJob (s : List Char) :
    DptType → Bool → List Char → Option ((DptType × Int) × List Char) → Prop where
  | term {keyword left name : Token} {s1 s2 s3 : List Char}
    (token : getToken s = some (keyword, s1))
      (isJob : keyword.type.isJobTerm = true) (opened : getToken s1 = some (left, s2))
      (isLeft : left.type = .left) (named : getToken s2 = some (name, s3)) :
      NamesJob s keyword.type true name.text (termTail keyword.type s3)
  | name {name : Token} {s1 : List Char} (token : getToken s = some (name, s1))
      (isName : name.type = .name) : NamesJob s .done false name.text (some ((.and, 0), s1))

section Built

variable {env : DepEnv} {user : String} {windowConf : Bool}

theorem builtTerm_congr {x y : Except ParseStop (DptNode × Locals × List Char)}
    {stops : Built → Prop}
    (alike : Alike stops (x.map fun r => (r.1.unnumbered, r.2.2))
      (y.map fun r => (r.1.unnumbered, r.2.2))) :
    builtTerm x = builtTerm y := by
  cases x with
  | ok a =>
    cases y with
    | ok b =>
      obtain ⟨node, l, s⟩ := a
      obtain ⟨node', l', s'⟩ := b
      obtain ⟨nodes, rfl⟩ := Prod.mk.inj alike
      exact congrArg (fun node => Built.item (.operand node) s) nodes
    | error stop => cases alike
  | error stop =>
    cases y with
    | ok b => cases alike
    | error stop' => exact alike.1

theorem map_bind {β γ : Type} (x : Except ParseStop α) (f : α → Except ParseStop β) (g : β → γ) :
    (x >>= f).map g = x >>= fun a => (f a).map g := by
  cases x <;> rfl

theorem builtTerm_readNumTerm (l l' : Locals) (type : DptType) (s : List Char) :
    builtTerm (readNumTerm env l type s) = builtTerm (readNumTerm env l' type s) := by
  refine @builtTerm_congr _ _ (Eq .error) ?_
  simp only [readNumTerm, map_bind]
  refine (alike_expect rfl l l' _ _).bind fun _ => (alike_nextToken rfl l l' _).bind fun _ => ?_
  refine (alike_failIf rfl _ _ _).bind fun _ => ?_
  exact (alike_readCondition rfl _ _ _ _ _).bind fun _ => Alike.ok _

theorem builtTerm_readWindowTerm (l l' : Locals) (fuel : Nat) (s : List Char) :
    builtTerm (readWindowTerm env l fuel s) = builtTerm (readWindowTerm env l' fuel s) := by
  refine @builtTerm_congr _ _ (fun _ => True) ?_
  simp only [readWindowTerm, map_bind]
  refine (alike_expect trivial l l' _ _).bind fun _ => (alike_readWindows l l' _ _).bind fun r => ?_
  by_cases times : r.1.all env.addWindow = true
  · rw [if_pos times, if_pos times]
    exact Alike.ok _
  · rw [if_neg times, if_neg times]
    exact Alike.fail trivial l l'

variable {s1 : List Char}

section

variable (token : getToken s = some (t, s1))
include token

theorem built_of_token (l : Locals) (fuel : Nat) :
    built env user windowConf l fuel s =
      match t.type with
      | .and | .or | .not => .item (.op t.type) s1
      | .left => .item .left s1
      | .right => .item .right s1
      | .window => builtTerm (readWindowTerm env l fuel s1)
      | .done | .postDone | .postErr | .exit | .started | .ended =>
        builtTerm (readJobTerm env user windowConf l t.type s1)
      | .name => builtTerm (readName env user windowConf l t.text s1)
      | .numpend | .numhold | .numrun | .numexit | .numdone | .numstart | .numended =>
        builtTerm (readNumTerm env l t.type s1)
      | _ => .error := by
  have operand : ∀ x : Except ParseStop (DptNode × Locals × List Char),
      readItem env user windowConf l fuel s =
        x.map (fun r => some (Item.operand r.1, r.2.1, r.2.2)) →
      built env user windowConf l fuel s = builtTerm x := by
    intro x read
    rw [built, read]
    cases x <;> rfl
  obtain ⟨type, text⟩ := t
  cases type
  case window | done | postDone | postErr | exit | started | ended | name | numpend | numhold |
      numrun | numexit | numdone | numstart | numended =>
    refine operand _ ?_
    rw [readItem, token]
  all_goals
    rw [built, readItem, token]
    rfl

theorem built_other (notJob : t.type.isJobTerm = false) (notName : t.type ≠ .name) (l l' : Locals)
    (fuel : Nat) : built env user windowConf l fuel s = built env user windowConf l' fuel s := by
  rw [built_of_token token, built_of_token token]
  obtain ⟨type, text⟩ := t
  cases type
  case done | postDone | postErr | exit | started | ended => cases notJob
  case name => exact absurd rfl notName
  case window => exact builtTerm_readWindowTerm l l' fuel s1
  case numpend | numhold | numrun | numexit | numdone | numstart | numended =>
    exact builtTerm_readNumTerm l l' _ s1
  all_goals rfl

theorem built_jobTerm (isJob : t.type.isJobTerm = true) (l : Locals) (fuel : Nat) :
    built env user windowConf l fuel s =
      builtTerm (readJobTerm env user windowConf l t.type s1) := by
  rw [built_of_token token]
  obtain ⟨type, text⟩ := t
  cases type <;> first | rfl | cases isJob

theorem built_name (isName : t.type = .name) (l : Locals) (fuel : Nat) :
    built env user windowConf l fuel s = builtTerm (readName env user windowConf l t.text s1) := by
  rw [built_of_token token]
  obtain ⟨type, text⟩ := t
  cases isName
  rfl

end

theorem built_namesJob {useFlag : Bool} {tail : Option ((DptType × Int) × List Char)}
    (names : NamesJob s type useFlag jobp tail) (l : Locals) (fuel : Nat) :
    built env user false l fuel s = builtJob env user l.numJob useFlag l.opFlag type jobp tail := by
  cases names with
  | term token isJob opened isLeft named =>
    rw [built_jobTerm token isJob, builtTerm_readJobTerm opened isLeft named]
  | name token isName => rw [built_name token isName, builtTerm_readName]

theorem readJobTerm_broken {l' : Locals}
    (broken : ∀ left s2, getToken s = some (left, s2) → left.type = .left → getToken s2 = none) :
    builtTerm (readJobTerm env user false l type s) =
      builtTerm (readJobTerm env user false l' type s) := by
  have error : ∀ l, builtTerm (readJobTerm env user false l type s) = .error := by
    intro l
    change builtTerm (expect l .left s >>= _) = _
    rw [expect, nextToken]
    cases opened : getToken s with
    | none => rfl
    | some r =>
      by_cases isLeft : r.1.type = .left
      · change builtTerm ((if r.1.type = .left then Except.ok r.2 else fail l) >>= _) = _
        rw [if_pos isLeft]
        change builtTerm (nextToken l r.2 >>= _) = _
        rw [nextToken, broken r.1 r.2 opened isLeft]
        rfl
      · change builtTerm ((if r.1.type = .left then Except.ok r.2 else fail l) >>= _) = _
        rw [if_neg isLeft]
        rfl
  rw [error, error]

theorem built_unnamed
    (unnamed : windowConf = false → ∀ type useFlag jobp tail, ¬ NamesJob s type useFlag jobp tail)
    (l l' : Locals) (fuel : Nat) :
    built env user windowConf l fuel s = built env user windowConf l' fuel s := by
  cases token : getToken s with
  | none => rw [built, built, readItem, readItem, token]
  | some r =>
    obtain ⟨t, s1⟩ := r
    by_cases isName : t.type = .name
    · rw [built_name token isName, built_name token isName]
      cases windowConf with
      | true => rfl
      | false => exact absurd (.name token isName) (unnamed rfl _ _ _ _)
    · cases isJob : t.type.isJobTerm with
      | false => exact built_other token isJob isName l l' fuel
      | true =>
        rw [built_jobTerm token isJob, built_jobTerm token isJob]
        cases windowConf with
        | true => rfl
        | false =>
          refine readJobTerm_broken ?_
          intro left s2 opened isLeft
          cases named : getToken s2 with
          | none => rfl
          | some r => exact absurd (.term token isJob opened isLeft named) (unnamed rfl _ _ _ _)

end Built

/-- What is left of the terms before can be seen: a `numJob` above 1 where an index is not
understood during replay, or the flag where a term without `[*]` finds a job with it or
without. -/
def Disturbed (env : DepEnv) (lsfUserName : String) (windowConf : Bool) (c : Config) : Prop :=
  windowConf = false ∧ ∃ type useFlag jobp tail, NamesJob c.s type useFlag jobp tail ∧
    ((env.replayStage = true ∧ env.parseJobArrayIndex (indexText jobp) = none ∧ 1 < c.l.numJob) ∨
      (useFlag = true ∧ c.l.opFlag = true ∧ cutOneToOne jobp = none ∧ tail ≠ none ∧
        ((jobLook env lsfUserName jobp (some true)).1 ≠ none ∨
          (jobLook env lsfUserName jobp (some false)).1 ≠ none)))

section Apart

variable {env : DepEnv} {lsfUserName : String} {windowConf : Bool}

theorem built_eq_iff (c : Config) :
    (∀ fuel, built env lsfUserName windowConf c.l fuel c.s =
        built env lsfUserName windowConf Locals.init fuel c.s) ↔
      ¬ Disturbed env lsfUserName windowConf c := by
  constructor
  · rintro same ⟨rfl, type, useFlag, jobp, tail, names, cause⟩
    have eq := same 0
    rw [built_namesJob names, built_namesJob names] at eq
    obtain ⟨replay, flag⟩ := (builtJob_eq_iff _ _ _ _ _ _).mp eq
    exact cause.elim replay flag
  · intro calm fuel
    by_cases named : windowConf = false ∧
      ∃ type useFlag jobp tail, NamesJob c.s type useFlag jobp tail
    · obtain ⟨rfl, type, useFlag, jobp, tail, names⟩ := named
      rw [built_namesJob names, built_namesJob names]
      refine (builtJob_eq_iff _ _ _ _ _ _).mpr ⟨?_, ?_⟩
      · exact fun replay => calm ⟨rfl, type, useFlag, jobp, tail, names, Or.inl replay⟩
      · exact fun flag => calm ⟨rfl, type, useFlag, jobp, tail, names, Or.inr flag⟩
    · refine built_unnamed ?_ _ _ fuel
      exact fun conf type useFlag jobp tail names => named ⟨conf, type, useFlag, jobp, tail, names⟩

/-- Every term of an expression is built as it would be built at its beginning, exactly if
no term is disturbed by those before it. -/
theorem term_apart_iff (pastTable : Int) (s : List Char) :
    (∀ c, Reached env lsfUserName windowConf pastTable s c → ∀ fuel,
        built env lsfUserName windowConf c.l fuel c.s =
          built env lsfUserName windowConf Locals.init fuel c.s) ↔
      ∀ c, Reached env lsfUserName windowConf pastTable s c →
        ¬ Disturbed env lsfUserName windowConf c :=
  forall_congr' fun c => forall_congr' fun _ => built_eq_iff c

end Apart

/-- A user with two arrays `b[1-3]` and the plain job 8, who submits an array of that shape. -/
def arraysAndJob : DepEnv :=
  { plainEnv false [⟨"b".toList, 5, "amy", "b[1-3]".toList, 5, .array, .array⟩,
      ⟨"b".toList, 6, "amy", "b[1-3]".toList, 6, .array, .array⟩] with
    getJobData := fun jobId =>
      if jobId = 8 then some ⟨8, "amy", "c".toList, 7, .job, .job⟩ else none
    parseJobArrayIndex := fun text => if text.contains '[' then some [oneToThree] else some []
    idxListContext := [oneToThree] }

/-- The nodes of `done(b[*])`. -/
def arrayNodes : DptNode :=
  .binary .and
    (.term 1 (.job .done .and 0 false (some ⟨6, "amy", "b[1-3]".toList, 6, .array, .array⟩)
      (some ⟨[], []⟩)))
    (.term 0 (.job .done .and 0 false (some ⟨5, "amy", "b[1-3]".toList, 5, .array, .array⟩)
      (some ⟨[], []⟩)))

/-- The flag is still set behind `done(b[*])&&`, since two jobs were found. -/
def behindArrays : Config :=
  ⟨⟨2, 0, true, .dependSyntax, 2⟩, ⟨[.and], [arrayNodes]⟩, "done(8)".toList⟩

/-- The term `done(8)` is good by itself, and an error behind `done(b[*])`. -/
theorem plain_job_refused :
    Reached arraysAndJob "amy" false 0 "done(b[*])&&done(8)".toList behindArrays ∧
      built arraysAndJob "amy" false behindArrays.l 0 behindArrays.s = .error ∧
      built arraysAndJob "amy" false Locals.init 0 behindArrays.s =
        .item (.operand (.term 0 (.job .done .and 0 false
          (some ⟨8, "amy", "c".toList, 7, .job, .job⟩) none))) [] := by
  refine ⟨?_, by decide +kernel, by decide +kernel⟩
  have first : Turn arraysAndJob "amy" false 0 (Config.start "done(b[*])&&done(8)".toList)
      ⟨⟨2, 0, true, .dependSyntax, 2⟩, ⟨[], [arrayNodes]⟩, "&&done(8)".toList⟩ :=
    ⟨0, .operand arrayNodes, by rfl, by rfl⟩
  have second : Turn arraysAndJob "amy" false 0
      ⟨⟨2, 0, true, .dependSyntax, 2⟩, ⟨[], [arrayNodes]⟩, "&&done(8)".toList⟩ behindArrays :=
    ⟨0, .op .and, by rfl, by rfl⟩
  exact (Reached.start.turn first).turn second

end Jhlava.Dep
