import Jhlava.DepMatch

/-! `parseDepCond` of mbd.dep.c: terms are read from the text, and operators
and operands meet on two stacks. -/
namespace Jhlava.Dep
open CValues

/-- The members of `dptUnion` for the three kinds of terms. A job term with no
record is one whose jobs were not found during replay. -/
inductive TermData where
  | job (type opType : DptType) (exitCode : Int) (opFlag : Bool) (jobRec : Option JobRec)
      (jobIdx : Option JobIdx)
  | window (windows : List (List Char))
  | jgrp (type opType : DptType) (num : Int) (array : Option Int)
  deriving DecidableEq

/-- `struct dptNode`. A term node carries the number of its allocation, which
tells nodes with equal contents apart. -/
inductive DptNode where
  | term (id : Nat) (data : TermData)
  | not (left : DptNode)
  | binary (type : DptType) (left right : DptNode)
  deriving DecidableEq

/-- Why no tree comes back: `goto Error`, a walk over a NULL job list, or a
loop that has used up its fuel. -/
inductive ParseStop where
  | error (replyCode : ReplyCode)
  | crash
  | fuel
  deriving DecidableEq, Repr

/-- The local variables that survive from one token to the next. -/
structure Locals where
  numJob : Nat
  notExistArrayJob : Int
  opFlag : Bool
  replyCode : ReplyCode
  nextId : Nat
  deriving DecidableEq, Repr

def Locals.init : Locals := ⟨0, 0, false, .dependSyntax, 0⟩

/-- What one turn of the main loop reads. -/
inductive Item where
  | op (type : DptType)
  | left
  | right
  | operand (node : DptNode)
  deriving DecidableEq

theorem bind_eq_ok {ε α β : Type} {x : Except ε α} {f : α → Except ε β} {b : β} :
    (x >>= f) = .ok b ↔ ∃ a, x = .ok a ∧ f a = .ok b := by
  cases x with
  | error e => simp [bind, Except.bind]
  | ok a => simp [bind, Except.bind]

section Reading

variable (env : DepEnv) (lsfUserName : String) (windowConf : Bool) (l : Locals)

def fail {α : Type} : Except ParseStop α := .error (.error l.replyCode)

def failIf (b : Bool) : Except ParseStop Unit := if b then fail l else .ok ()

def nextToken (s : List Char) : Except ParseStop (Token × List Char) :=
  match getToken s with
  | some r => .ok r
  | none => fail l

def expect (type : DptType) (s : List Char) : Except ParseStop (List Char) := do
  let (t, s) ← nextToken l s
  if t.type = type then return s else fail l

/-- The names between the parentheses of `time(...)`. -/
def readWindows : Nat → List Char → Except ParseStop (List (List Char) × List Char)
  | 0, _ => .error .fuel
  | fuel + 1, s => do
      let (t, s) ← nextToken l s
      if t.type = .right then return ([], s)
      else if t.type = .name then
        let (ws, s) ← readWindows fuel s
        return (t.text :: ws, s)
      else fail l

/-- The end of an `exit` or `num...` term: a parenthesis, or a comma, an
optional comparison and a number. `INFINIT_INT` stands for a star. -/
def readCondition (star : Bool) (given : DptType × Int) (s : List Char) :
    Except ParseStop ((DptType × Int) × List Char) := do
  let (t, s) ← nextToken l s
  if t.type = .right then return (given, s)
  else if t.type = .comma then
    let (t, s) ← nextToken l s
    let (opType, t, s) ←
      if t.type.isComparison then do
        let (t', s) ← nextToken l s
        if t'.type = .name then pure (t.type, t', s) else fail l
      else if t.type = .name then pure (.eq, t, s)
      else fail l
    let num ←
      if isint t.text then pure (atoi t.text)
      else if star && t.text = ['*'] then pure (2 ^ 31 - 1)
      else fail l
    let s ← expect l .right s
    return ((opType, num), s)
  else fail l

/-- The call of `matchJobs`. Outside replay an unknown job is an error; during
replay a stale `numJob` above 1 makes `createMoreNodes` walk a NULL list. -/
def lookupJobs (useFlag : Bool) (text : List Char) :
    Except ParseStop (Option (List JobRec) × Option JobIdx × Locals) :=
  let (jobRec, refs) := matchJobs env text lsfUserName
    ⟨l.numJob, l.replyCode, none, l.notExistArrayJob, if useFlag then some l.opFlag else none⟩
  let l := { l with
    numJob := refs.numFoundJob
    replyCode := refs.replyCode
    notExistArrayJob := refs.element
    opFlag := refs.flag.getD l.opFlag }
  if jobRec = none ∧ env.replayStage = false then fail l
  else if jobRec = none ∧ 1 < l.numJob then .error .crash
  else .ok (jobRec, refs.jobIdx, l)

/-- `createMoreNodes`: each further node is merged with the tree so far by an
AND that is pushed and taken off at once. -/
def createMoreNodes (mk : Nat → JobRec → DptNode) : Nat → DptNode → List JobRec → DptNode
  | _, tree, [] => tree
  | id, tree, job :: jobs => createMoreNodes mk (id + 1) (.binary .and (mk id job) tree) jobs

/-- The node or nodes of a job term. Only a single node takes over `opFlag`,
and only then is `opFlag` reset. -/
def buildNode (type : DptType) (cond : DptType × Int) (useFlag : Bool)
    (jobRec : Option (List JobRec)) (jobIdx : Option JobIdx) : DptNode × Locals :=
  let node := fun (opFlag : Bool) (id : Nat) (job : JobRec) =>
    DptNode.term id (.job type cond.1 cond.2 opFlag (some job) jobIdx)
  match jobRec with
  | some [job] =>
    (node (useFlag && l.opFlag) l.nextId job,
      { l with opFlag := !useFlag && l.opFlag, nextId := l.nextId + 1 })
  | some (job :: jobs) =>
    (createMoreNodes (node false) (l.nextId + 1) (node false l.nextId job) jobs,
      { l with nextId := l.nextId + 1 + jobs.length })
  | _ =>
    (.term l.nextId (.job type cond.1 cond.2 false none none), { l with nextId := l.nextId + 1 })

/-- `done(...)`, `exit(...)` and their kin. -/
def readJobTerm (type : DptType) (s : List Char) :
    Except ParseStop (DptNode × Locals × List Char) := do
  failIf l windowConf
  let s ← expect l .left s
  let (t, s) ← nextToken l s
  let (jobRec, jobIdx, l) ← lookupJobs env lsfUserName l true t.text
  if type = .exit then
    let (cond, s) ← readCondition l false (.always, 0) s
    let (node, l) := buildNode l type cond true jobRec jobIdx
    return (node, l, s)
  else
    let s ← expect l .right s
    let (node, l) := buildNode l type (.and, 0) true jobRec jobIdx
    return (node, l, s)

/-- A bare name, which means `done`. -/
def readName (text s : List Char) : Except ParseStop (DptNode × Locals × List Char) := do
  failIf l windowConf
  let (jobRec, jobIdx, l) ← lookupJobs env lsfUserName l false text
  let (node, l) := buildNode l .done (.and, 0) false jobRec jobIdx
  return (node, l, s)

/-- `numpend(...)` and its kin. -/
def readNumTerm (type : DptType) (s : List Char) :
    Except ParseStop (DptNode × Locals × List Char) := do
  let s ← expect l .left s
  let (t, s) ← nextToken l s
  let jpbw := if isint t.text then env.getJobData (atoi t.text) else none
  let isArray := jpbw.any fun job => job.jgrpNodeType = .array
  let l := { l with replyCode := if isArray then l.replyCode else .arrayNull }
  failIf l (!isArray && !env.replayStage)
  let (cond, s) ← readCondition l true (.ne, 0) s
  let node := .term l.nextId (.jgrp type cond.1 cond.2 (jpbw.map JobRec.jobId))
  return (node, { l with nextId := l.nextId + 1 }, s)

def readWindowTerm (fuel : Nat) (s : List Char) :
    Except ParseStop (DptNode × Locals × List Char) := do
  let s ← expect l .left s
  let (ws, s) ← readWindows l fuel s
  if ws.all env.addWindow then
    return (.term l.nextId (.window ws), { l with nextId := l.nextId + 1 }, s)
  else fail l

/-- The switch on the token type, up to the stack operations. -/
def readItem (fuel : Nat) (s : List Char) :
    Except ParseStop (Option (Item × Locals × List Char)) :=
  let operand := fun (r : Except ParseStop (DptNode × Locals × List Char)) =>
    r.map fun (node, l, s) => some (Item.operand node, l, s)
  match getToken s with
  | none => .ok none
  | some (t, s) =>
    match t.type with
    | .and | .or | .not => .ok (some (.op t.type, l, s))
    | .left => .ok (some (.left, l, s))
    | .right => .ok (some (.right, l, s))
    | .window => operand (readWindowTerm env l fuel s)
    | .done | .postDone | .postErr | .exit | .started | .ended =>
      operand (readJobTerm env lsfUserName windowConf l t.type s)
    | .name => operand (readName env lsfUserName windowConf l t.text s)
    | .numpend | .numhold | .numrun | .numexit | .numdone | .numstart | .numended =>
      operand (readNumTerm env l t.type s)
    | _ => fail l

end Reading

theorem operand_eq_ok {x : Except ParseStop (DptNode × Locals × List Char)}
    {out : Option (Item × Locals × List Char)}
    (h : x.map (fun r => some (Item.operand r.1, r.2.1, r.2.2)) = .ok out) :
    ∃ node l s, x = .ok (node, l, s) ∧ out = some (.operand node, l, s) := by
  cases x with
  | error stop => cases h
  | ok r => exact ⟨r.1, r.2.1, r.2.2, rfl, (Except.ok.inj h).symm⟩

/-- `operatorStack` and `operandStack`, the top first. An operator waits there
as its type alone, since its children are set when it is merged. -/
structure Stacks where
  operators : List DptType
  operands : List DptNode
  deriving DecidableEq

/-- `mergeNode(MERGE_TOP)` for a given operator. -/
def mergeOperands : DptType → List DptNode → Option (List DptNode)
  | .not, x :: xs => some (.not x :: xs)
  | .not, [] => none
  | op, x :: y :: xs => some (.binary op x y :: xs)
  | _, _ => none

/-- `mergeNode(MERGE_LEFT)`. -/
def mergeLeft : List DptType → List DptNode → Option Stacks
  | [], _ => none
  | op :: ops, xs =>
    if op = .left then some ⟨ops, xs⟩
    else (mergeOperands op xs).bind (mergeLeft ops)

/-- `mergeNode(MERGE_ALL)`. -/
def mergeAll : List DptType → List DptNode → Stacks
  | [], xs => ⟨[], xs⟩
  | op :: ops, xs =>
    match mergeOperands op xs with
    | some xs => mergeAll ops xs
    | none => ⟨op :: ops, xs⟩

/-- `preceTable` has three entries. A waiting parenthesis has type 3, so its
entry is whatever byte `pastTable` follows the table. -/
def preceTable (pastTable : Int) : DptType → Int
  | .and => 2
  | .or => 1
  | .not => 3
  | _ => pastTable

/-- The case of `&&`, `||` and `!`: at most one merge before the push. -/
def pushOperator (pastTable : Int) (type : DptType) (st : Stacks) : Option Stacks :=
  match st.operators with
  | [] => some ⟨[type], st.operands⟩
  | prev :: ops =>
    if preceTable pastTable prev > preceTable pastTable type then
      (mergeOperands prev st.operands).map fun xs => ⟨type :: ops, xs⟩
    else some ⟨type :: prev :: ops, st.operands⟩

def feed (pastTable : Int) (st : Stacks) : Item → Option Stacks
  | .op type => pushOperator pastTable type st
  | .left => some { st with operators := .left :: st.operators }
  | .right => mergeLeft st.operators st.operands
  | .operand node => some { st with operands := node :: st.operands }

def finish (st : Stacks) : Option DptNode :=
  match mergeAll st.operators st.operands with
  | ⟨[], [root]⟩ => some root
  | _ => none

section Parsing

variable (env : DepEnv) (lsfUserName : String) (windowConf : Bool) (pastTable : Int)

def parseLoop : Nat → Locals → Stacks → List Char → Except ParseStop DptNode
  | 0, _, _, _ => .error .fuel
  | fuel + 1, l, st, s =>
    match readItem env lsfUserName windowConf l fuel s with
    | .error stop => .error stop
    | .ok none =>
      match finish st with
      | some root => .ok root
      | none => fail l
    | .ok (some (item, l, s)) =>
      match feed pastTable st item with
      | none => fail l
      | some st => parseLoop fuel l st s

/-- `parseDepCond`; `fuel` bounds the turns of its loops. -/
def parseDepCond (fuel : Nat) (dependCond : List Char) : Except ParseStop DptNode :=
  parseLoop env lsfUserName windowConf pastTable fuel Locals.init ⟨[], []⟩ dependCond

end Parsing

inductive DpValue where
  | dpFalse | dpTrue | dpInvalid | dpReject
  deriving DecidableEq, Repr

/-- `evalDepCond`, given the value of each term. -/
def evalDepCond (evalTerm : Nat → TermData → DpValue) : DptNode → DpValue
  | .term id data => evalTerm id data
  | .not left =>
    match evalDepCond evalTerm left with
    | .dpReject => .dpReject
    | .dpFalse | .dpInvalid => .dpTrue
    | .dpTrue => .dpFalse
  | .binary .or left right =>
    match evalDepCond evalTerm left with
    | .dpReject => .dpReject
    | .dpTrue => .dpTrue
    | .dpFalse =>
      match evalDepCond evalTerm right with
      | .dpReject => .dpReject
      | .dpTrue => .dpTrue
      | _ => .dpFalse
    | .dpInvalid => evalDepCond evalTerm right
  | .binary .and left right =>
    match evalDepCond evalTerm left with
    | .dpInvalid => .dpInvalid
    | .dpReject => .dpReject
    | .dpFalse =>
      match evalDepCond evalTerm right with
      | .dpInvalid => .dpInvalid
      | .dpReject => .dpReject
      | _ => .dpFalse
    | .dpTrue => evalDepCond evalTerm right
  -- any other type keeps the value it was allocated with
  | .binary _ _ _ => .dpFalse

def readItems (env : DepEnv) (lsfUserName : String) (windowConf : Bool) :
    Nat → Locals → List Char → Except ParseStop (List Item)
  | 0, _, _ => .error .fuel
  | fuel + 1, l, s =>
    match readItem env lsfUserName windowConf l fuel s with
    | .error stop => .error stop
    | .ok none => .ok []
    | .ok (some (item, l, s)) =>
      (readItems env lsfUserName windowConf fuel l s).map (item :: ·)

def feedAll (pastTable : Int) : Stacks → List Item → Option Stacks
  | st, [] => some st
  | st, item :: items => (feed pastTable st item).bind fun st => feedAll pastTable st items

theorem feedAll_append {pastTable : Int} {st : Stacks} {items items' : List Item} :
    feedAll pastTable st (items ++ items') =
      (feedAll pastTable st items).bind fun st => feedAll pastTable st items' := by
  induction items generalizing st with
  | nil => rfl
  | cons item items ih =>
    simp only [List.cons_append, feedAll]
    cases feed pastTable st item with
    | none => rfl
    | some st => exact ih

section Accepted

variable {env : DepEnv} {lsfUserName : String} {windowConf : Bool} {pastTable : Int}

theorem parseLoop_eq_ok {fuel : Nat} {l : Locals} {st : Stacks} {s : List Char} {root : DptNode}
    (h : parseLoop env lsfUserName windowConf pastTable fuel l st s = .ok root) :
    ∃ items st', readItems env lsfUserName windowConf fuel l s = .ok items ∧
      feedAll pastTable st items = some st' ∧ finish st' = some root := by
  induction fuel generalizing l st s with
  | zero => cases h
  | succ fuel ih =>
    unfold parseLoop at h
    unfold readItems
    cases hread : readItem env lsfUserName windowConf l fuel s with
    | error stop =>
      rw [hread] at h
      cases h
    | ok next =>
      rw [hread] at h
      match next with
      | none =>
        dsimp only at h
        split at h
        · rename_i hroot
          cases h
          exact ⟨[], st, rfl, rfl, hroot⟩
        · cases h
      | some (item, l', s') =>
        dsimp only at h
        split at h
        · cases h
        · rename_i st₁ hfeed
          obtain ⟨items, st', hitems, hall, hfinish⟩ := ih h
          refine ⟨item :: items, st', ?_, ?_, hfinish⟩
          · simp only [hitems, Except.map]
          · simp only [feedAll, hfeed, Option.bind_some, hall]

end Accepted

end Jhlava.Dep
