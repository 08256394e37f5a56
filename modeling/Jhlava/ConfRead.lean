import Jhlava.ConfBuild

/-! What `readNextLine` returns, call after call, on the tree of a file. The nodes on its stack are
the conditions it is inside of, each tagged, and the rest of each is still to come. At the end,
calls that have not returned walk again through what follows their block, and find no line. -/
namespace Jhlava.Conf
open TextScan Items List

/-! ### The lines of a tree -/

/-- Lines with their numbers, from `n` on. -/
def numbered : Nat → List Text → List (Nat × Text)
  | _, [] => []
  | n, line :: lines => (n, line) :: numbered (n + 1) lines

def Items.out (truth : Text → Bool) : Items → List (Nat × Text)
  | nil => []
  | text b lines rest => numbered b lines ++ rest.out truth
  | cond c _ left right rest => (if truth c then left.out truth else right.out truth) ++
    rest.out truth

/-- The lines that are left where `j` lines of the first node have been read. -/
def Items.outFrom (truth : Text → Bool) (j : Nat) : Items → List (Nat × Text)
  | text b lines rest => numbered (b + j) (lines.drop j) ++ rest.out truth
  | items => items.out truth

theorem Items.outFrom_zero (truth : Text → Bool) (items : Items) :
    items.outFrom truth 0 = items.out truth := by
  cases items <;> rfl

def Items.weight : Items → Nat
  | nil => 0
  | text _ _ rest => rest.weight + 1
  | cond _ _ left right rest => left.weight + right.weight + rest.weight + 2

def untag (node : ConfNode) : ConfNode := { node with tag := .clear }

/-- The items stand in the table from `k` on. -/
def Items.At (t : List ConfNode) : Nat → Items → Prop
  | _, nil => True
  | k, text b lines rest =>
    t[k]? = some { beginLineNum := b, lines, fwPtr := ptr (k + 1) rest } ∧ At t (k + 1) rest
  | k, cond c _ left right rest =>
    t[k]? = some { condNode k c .clear left right with
      fwPtr := ptr (k + 1 + left.count + right.count) rest } ∧
    At t (k + 1) left ∧ At t (k + 1 + left.count) right ∧
    At t (k + 1 + left.count + right.count) rest

/-! ### Places -/

/-- A condition on the stack, with the items behind its block. -/
structure Frame where
  node : Nat
  start : Nat
  rest : Items

def stackOut (truth : Text → Bool) (stack : List Frame) : List (Nat × Text) :=
  stack.flatMap fun f => f.rest.out truth

def stackWeight (stack : List Frame) : Nat := (stack.map fun f => f.rest.weight + 1).sum

section Reader
variable (t : List ConfNode) (truth : Text → Bool)

structure FrameOk (f : Frame) : Prop where
  inner : f.node < f.start
  node : ∃ node, t[f.node]? = some node ∧ node.cond.isSome ∧ node.fwPtr = ptr f.start f.rest
  rest : f.rest.At t f.start

/-- A stack as the calls leave it: outer conditions have smaller numbers. -/
structure StackOk (stack : List Frame) : Prop where
  frames : ∀ f ∈ stack, FrameOk t f
  nested : stack.Pairwise fun f g => g.node < f.node

/-- A configuration whose tree is `t` and whose tagged nodes are those of the stack. -/
structure Inside (stack : List Frame) (conf : LsConf) : Prop where
  shape : conf.nodes.map untag = t
  check : ∀ node ∈ t, ∀ c, node.cond = some c → checkCond conf c = truth c
  ptrStack : conf.ptrStack = stack.map Frame.node
  tags : ∀ i node, conf.nodes[i]? = some node → (node.tag = .pased ↔ i ∈ stack.map Frame.node)
  ok : StackOk t stack

/-- A place at items that are not empty, inside of the conditions on the stack. -/
structure Place (k : Nat) (items : Items) (stack : List Frame) (conf : LsConf) : Prop where
  notNil : items.isNil = false
  cur : conf.curNode = some k
  stands : items.At t k
  inside : Inside t truth stack conf
  below : ∀ f ∈ stack, f.node < k

/-- A place between two lines, with the lines that are left. -/
def Resume (lines : List (Nat × Text)) (bound : Nat) (conf : LsConf) : Prop :=
  ∃ k items stack, Place t truth k items stack conf ∧
    items.outFrom truth conf.lineCount ++ stackOut truth stack = lines ∧
    items.weight + stackWeight stack ≤ bound

/-- What a call returns where `lines` are left: it is not nested deeper than `bound`. -/
def Returns (fuel bound : Nat) (lines : List (Nat × Text)) : Option (Line × LsConf) → Prop
  | none => fuel ≤ bound
  | some (none, conf) => lines = [] ∧ Inside t truth [] conf
  | some (some line, conf) => ∃ more, lines = line :: more ∧ Resume t truth more bound conf

/-- What calls return, for items and for the node on the stack. -/
structure Calls (fuel : Nat) : Prop where
  visits : ∀ {k items stack conf}, Place t truth k items stack conf →
    Returns t truth fuel (items.weight + stackWeight stack)
      (items.outFrom truth conf.lineCount ++ stackOut truth stack) (readNextLine fuel conf)
  ascends : ∀ {stack conf}, conf.curNode = (stack.map Frame.node).head? →
    Inside t truth stack conf →
    Returns t truth fuel (stackWeight stack) (stackOut truth stack) (readNextLine fuel conf)

end Reader

/-! ### The cases of a call -/

def thenRead (r : Option (Line × LsConf)) (next : LsConf → Option (Line × LsConf)) :
    Option (Line × LsConf) :=
  r.bind fun r =>
    match r with
    | (some line, conf) => some (some line, conf)
    | (none, conf) => next conf

variable {conf : LsConf} {fuel i n : Nat} {lines : List (Nat × Text)}

theorem readNextLine_none (cur : conf.curNode = none) (fuel : Nat) :
    readNextLine (fuel + 1) conf = some (none, conf) := by
  rw [readNextLine, cur]

section Node
variable {node : ConfNode} (cur : conf.curNode = some i) (nodes : conf.nodes[i]? = some node)
include cur nodes

theorem readNextLine_line {line : Text} (text : node.cond = none)
    (here : node.lines[conf.lineCount]? = some line) (fuel : Nat) :
    readNextLine (fuel + 1) conf =
      some (some (node.beginLineNum + conf.lineCount, line),
        { conf with lineCount := conf.lineCount + 1 }) := by
  simp only [readNextLine, cur, nodes, text, here]

theorem readNextLine_end (text : node.cond = none) (here : node.lines[conf.lineCount]? = none)
    (fuel : Nat) : readNextLine (fuel + 1) conf = follow (readNextLine fuel) node.fwPtr conf := by
  simp only [readNextLine, cur, nodes, text, here]

theorem readNextLine_first {c : Text} (cond : node.cond = some c) (tag : node.tag ≠ .pased)
    (fuel : Nat) :
    readNextLine (fuel + 1) conf =
      thenRead
        (readNextLine fuel
          ({ conf with
            ptrStack := i :: conf.ptrStack
            curNode := if checkCond conf c then node.leftPtr else node.rightPtr
            lineCount := 0 }.setTag i .pased))
        (leave (readNextLine fuel) i node) := by
  simp only [readNextLine, cur, nodes, cond]
  rw [if_pos tag]
  rfl

theorem readNextLine_pased (cond : node.cond.isSome) (tag : node.tag = .pased) (fuel : Nat) :
    readNextLine (fuel + 1) conf = leave (readNextLine fuel) i node conf := by
  obtain ⟨c, isCond⟩ := Option.isSome_iff_exists.1 cond
  simp only [readNextLine, cur, nodes, isCond]
  rw [if_neg (not_not_intro tag)]

end Node

/-! ### Tags -/

theorem untag_modify (nodes : List ConfNode) (i : Nat) (tag : NodeTag) :
    (nodes.modify i fun node => { node with tag }).map untag = nodes.map untag := by
  induction nodes generalizing i with
  | nil => cases i <;> rfl
  | cons node nodes ih =>
    cases i with
    | zero => rfl
    | succ i => exact congrArg (untag node :: ·) (ih i)

section Reader
variable {t : List ConfNode} {truth : Text → Bool}

variable {bound k : Nat} {f : Frame} {items rest : Items} {stack : List Frame}

theorem StackOk.tail {f : Frame} {stack : List Frame} (ok : StackOk t (f :: stack)) :
    StackOk t stack :=
  ⟨fun g mem => ok.frames g (mem_cons_of_mem _ mem), ok.nested.tail⟩

theorem tag_modify {nodes : List ConfNode} {j : Nat} {tag : NodeTag} {node : ConfNode}
    (found : (nodes.modify i fun node => { node with tag })[j]? = some node) :
    (i = j ∧ node.tag = tag) ∨ (i ≠ j ∧ nodes[j]? = some node) := by
  rw [List.getElem?_modify] at found
  by_cases same : i = j
  · simp only [if_pos same] at found
    obtain ⟨old, _, rfl⟩ := Option.map_eq_some_iff.1 found
    exact .inl ⟨same, rfl⟩
  · simp only [if_neg same] at found
    exact .inr ⟨same, by simpa using found⟩

section

variable (inside : Inside t truth stack conf)
include inside

theorem Inside.node {x : ConfNode} (nodes : t[k]? = some x) :
    ∃ node, conf.nodes[k]? = some node ∧ untag node = x := by
  rw [← inside.shape, List.getElem?_map] at nodes
  exact Option.map_eq_some_iff.1 nodes

theorem Inside.move (curNode : Option Nat) (lineCount : Nat) :
    Inside t truth stack { conf with curNode, lineCount } :=
  ⟨inside.shape, inside.check, inside.ptrStack, inside.tags, inside.ok⟩

theorem Inside.push (ok : FrameOk t f) (below : ∀ g ∈ stack, g.node < f.node)
    (curNode : Option Nat) :
    Inside t truth (f :: stack)
      ({ conf with ptrStack := f.node :: conf.ptrStack, curNode, lineCount := 0 }.setTag f.node
        .pased) := by
  refine ⟨(untag_modify _ _ _).trans inside.shape, inside.check, ?_, ?_, ?_, ?_⟩
  · exact congrArg (f.node :: ·) inside.ptrStack
  · intro i node found
    rw [map_cons, mem_cons]
    rcases tag_modify found with ⟨rfl, tag⟩ | ⟨other, old⟩
    · exact ⟨fun _ => .inl rfl, fun _ => tag⟩
    · rw [inside.tags i node old]
      exact ⟨.inr, fun h => h.resolve_left fun eq => other eq.symm⟩
  · intro g mem
    rcases mem_cons.1 mem with rfl | mem
    · exact ok
    · exact inside.ok.frames g mem
  · exact pairwise_cons.2 ⟨below, inside.ok.nested⟩

theorem Inside.leave (top : ∀ f ∈ stack.head?, f.node = i) :
    Inside t truth stack.tail ({ conf with ptrStack := conf.ptrStack.tail }.setTag i .clear) := by
  refine ⟨(untag_modify _ _ _).trans inside.shape, inside.check, ?_, ?_, ?_⟩
  · exact (congrArg List.tail inside.ptrStack).trans map_tail.symm
  · intro j node found
    cases stack with
    | nil =>
      rcases tag_modify found with ⟨rfl, tag⟩ | ⟨_, old⟩
      · simp [tag]
      · exact inside.tags j node old
    | cons f stack =>
      obtain rfl := top f rfl
      rcases tag_modify found with ⟨rfl, tag⟩ | ⟨other, old⟩
      · refine ⟨fun pased => absurd (tag.symm.trans pased) NodeTag.noConfusion, fun mem => ?_⟩
        obtain ⟨g, mem, same⟩ := mem_map.1 mem
        have smaller := (pairwise_cons.1 inside.ok.nested).1 g mem
        omega
      · rw [inside.tags j node old, map_cons, mem_cons]
        exact ⟨fun h => h.resolve_left fun eq => other eq.symm, .inr⟩
  · cases stack with
    | nil => exact inside.ok
    | cons f stack => exact inside.ok.tail

end

/-! ### Calls -/

theorem ptr_not_isNil (notNil : items.isNil = false) : ptr k items = some k := by
  rw [ptr, notNil, if_neg Bool.false_ne_true]

theorem isNil_iff : items.isNil = true ↔ items = .nil := by
  cases items <;> simp [isNil]

variable {bound' : Nat}

theorem Resume.mono (resume : Resume t truth lines bound conf) (le : bound ≤ bound') :
    Resume t truth lines bound' conf := by
  obtain ⟨k, items, stack, place, out, fits⟩ := resume
  exact ⟨k, items, stack, place, out, fits.trans le⟩

variable {r : Option (Line × LsConf)}

theorem Returns.mono (returns : Returns t truth fuel bound lines r) (le : bound ≤ bound') :
    Returns t truth fuel bound' lines r := by
  rcases r with _ | ⟨_ | line, conf⟩
  · exact le_trans returns le
  · exact returns
  · obtain ⟨more, eq, resume⟩ := returns
    exact ⟨more, eq, resume.mono le⟩

/-- The call around it goes one level deeper. -/
theorem Returns.succ (returns : Returns t truth fuel bound lines r) (lt : bound < bound') :
    Returns t truth (fuel + 1) bound' lines r := by
  rcases r with _ | ⟨_ | line, conf⟩
  · exact Nat.succ_le_of_lt (lt_of_le_of_lt returns lt)
  · exact returns
  · exact returns.mono lt.le

variable {next : LsConf → Option (Line × LsConf)}

theorem Returns.orElse (returns : Returns t truth fuel bound lines r)
    (ends : lines = [] → ∀ conf, Inside t truth [] conf →
      Returns t truth fuel bound [] (next conf)) :
    Returns t truth fuel bound lines (thenRead r next) := by
  rcases r with _ | ⟨_ | line, conf⟩
  · exact returns
  · obtain ⟨rfl, inside⟩ := returns
    exact ends rfl conf inside
  · exact returns

theorem returns_of_none (cur : conf.curNode = none)
    (returns : Returns t truth fuel bound lines (next conf)) :
    Returns t truth fuel bound lines (thenRead (readNextLine fuel conf) next) := by
  cases fuel with
  | zero => exact Nat.zero_le _
  | succ fuel =>
    rw [readNextLine_none cur]
    exact returns

theorem follow_returns (calls : Calls t truth fuel) (stands : rest.At t k)
    (inside : Inside t truth stack conf) (below : ∀ f ∈ stack, f.node < k) :
    Returns t truth fuel (rest.weight + stackWeight stack)
      (rest.out truth ++ stackOut truth stack) (follow (readNextLine fuel) (ptr k rest) conf) := by
  have up : ∀ {stack conf}, Inside t truth stack conf →
      Returns t truth fuel (stackWeight stack) (stackOut truth stack)
        (readNextLine fuel { conf with curNode := conf.ptrStack.head?, lineCount := 0 }) :=
    fun inside => calls.ascends (congrArg List.head? inside.ptrStack) (inside.move _ _)
  cases nil : rest.isNil with
  | true =>
    obtain rfl := isNil_iff.1 nil
    exact returns_of_none rfl ((up (inside.move none 0)).mono (Nat.le_add_left _ _))
  | false =>
    have visit := calls.visits ⟨nil, rfl, stands, inside.move (some k) 0, below⟩
    rw [outFrom_zero] at visit
    rw [ptr_not_isNil nil]
    exact visit.orElse fun _ conf inside => (up inside).mono (Nat.zero_le _)

theorem leave_returns (calls : Calls t truth fuel) (ok : FrameOk t f)
    {node : ConfNode} (fwPtr : node.fwPtr = ptr f.start f.rest)
    (inside : Inside t truth stack conf) (top : ∀ g ∈ stack.head?, g.node = f.node)
    (below : ∀ g ∈ stack.tail, g.node < f.start) :
    Returns t truth fuel (f.rest.weight + stackWeight stack.tail)
      (f.rest.out truth ++ stackOut truth stack.tail)
      (leave (readNextLine fuel) f.node node conf) := by
  rw [leave, fwPtr]
  exact follow_returns calls ok.rest (inside.leave top) below

theorem top_cons (f : Frame) (stack : List Frame) : ∀ g ∈ (f :: stack).head?, g.node = f.node := by
  rintro g ⟨⟩
  rfl

section

variable (calls : Calls t truth fuel)
include calls

theorem ascends_succ (cur : conf.curNode = (stack.map Frame.node).head?)
    (inside : Inside t truth stack conf) :
    Returns t truth (fuel + 1) (stackWeight stack) (stackOut truth stack)
      (readNextLine (fuel + 1) conf) := by
  cases stack with
  | nil =>
    rw [readNextLine_none cur]
    exact ⟨rfl, inside⟩
  | cons f stack =>
    have ok := inside.ok.frames f mem_cons_self
    obtain ⟨x, found, isCond, fwPtr⟩ := ok.node
    obtain ⟨node, nodes, rfl⟩ := inside.node found
    have pased := (inside.tags _ _ nodes).2 (by simp)
    have weight : stackWeight (f :: stack) = f.rest.weight + 1 + stackWeight stack := rfl
    rw [readNextLine_pased cur nodes isCond pased]
    have below : ∀ g ∈ stack, g.node < f.start := fun g mem =>
      ((pairwise_cons.1 inside.ok.nested).1 g mem).trans ok.inner
    exact (leave_returns calls ok fwPtr inside (top_cons f stack) below).succ
      (by rw [tail_cons]; omega)

theorem visits_text {b : Nat} {lines : List Text}
    (place : Place t truth k (.text b lines rest) stack conf) :
    Returns t truth (fuel + 1) (rest.weight + 1 + stackWeight stack)
      ((Items.text b lines rest).outFrom truth conf.lineCount ++ stackOut truth stack)
      (readNextLine (fuel + 1) conf) := by
  obtain ⟨_, cur, stands, inside, below⟩ := place
  obtain ⟨node, nodes, same⟩ := inside.node stands.1
  have isText : node.cond = none := congrArg ConfNode.cond same
  have isLines : node.lines = lines := congrArg ConfNode.lines same
  have isBegin : node.beginLineNum = b := congrArg ConfNode.beginLineNum same
  have isFw : node.fwPtr = ptr (k + 1) rest := congrArg ConfNode.fwPtr same
  rw [outFrom]
  cases line : lines[conf.lineCount]? with
  | none =>
    rw [readNextLine_end cur nodes isText (isLines ▸ line), isFw,
      drop_eq_nil_of_le (List.getElem?_eq_none_iff.1 line)]
    exact (follow_returns calls stands.2 inside fun f mem =>
      (below f mem).trans (Nat.lt_succ_self k)).succ (by omega)
  | some l =>
    obtain ⟨lt, rfl⟩ := List.getElem?_eq_some_iff.1 line
    rw [readNextLine_line cur nodes isText (by rw [isLines]; exact line), isBegin,
      drop_eq_getElem_cons lt]
    exact ⟨_, rfl, k, .text b lines rest, stack, ⟨rfl, cur, stands, inside.move _ _, below⟩, rfl,
      le_rfl⟩

/-- The call for a branch of a condition, and what follows it. -/
theorem branch_returns (ok : FrameOk t f) {node : ConfNode}
    (fwPtr : node.fwPtr = ptr f.start f.rest) {start : Nat} (stands : items.At t start)
    (inner : f.node < start) (inside : Inside t truth stack conf)
    (below : ∀ g ∈ stack, g.node < f.node) :
    Returns t truth fuel (items.weight + stackWeight (f :: stack))
      (items.out truth ++ f.rest.out truth ++ stackOut truth stack)
      (thenRead
        (readNextLine fuel ({ conf with
          ptrStack := f.node :: conf.ptrStack
          curNode := ptr start items
          lineCount := 0 }.setTag f.node .pased))
        (leave (readNextLine fuel) f.node node)) := by
  have pushed := inside.push ok below (ptr start items)
  have weight : stackWeight (f :: stack) = f.rest.weight + 1 + stackWeight stack := rfl
  cases nil : items.isNil with
  | true =>
    obtain rfl := isNil_iff.1 nil
    have below' : ∀ g ∈ stack, g.node < f.start := fun g mem => (below g mem).trans ok.inner
    exact returns_of_none rfl ((leave_returns calls ok fwPtr pushed (top_cons f stack) below').mono
      (by rw [tail_cons]; omega))
  | false =>
    have below' : ∀ g ∈ f :: stack, g.node < start := by
      intro g mem
      rcases mem_cons.1 mem with rfl | mem
      · exact inner
      · exact (below g mem).trans inner
    have visit := calls.visits ⟨nil, ptr_not_isNil nil, stands, pushed, below'⟩
    have out : items.outFrom truth 0 ++ stackOut truth (f :: stack) =
        items.out truth ++ f.rest.out truth ++ stackOut truth stack := by
      rw [outFrom_zero, append_assoc]
      rfl
    refine Returns.orElse (out ▸ visit) fun none conf drained => ?_
    -- nothing is left, so the block is left a second time, with an empty stack
    have rest : f.rest.out truth = [] :=
      (append_eq_nil_iff.1 (append_eq_nil_iff.1 none).1).2
    have again := leave_returns calls ok fwPtr drained (by simp) (by simp)
    rw [rest] at again
    have empty : stackWeight (List.tail []) = 0 := rfl
    exact again.mono (by omega)

theorem visits_cond {c : Text} {tag : NodeTag} {left right : Items}
    (place : Place t truth k (.cond c tag left right rest) stack conf) :
    Returns t truth (fuel + 1) (left.weight + right.weight + rest.weight + 2 + stackWeight stack)
      ((Items.cond c tag left right rest).out truth ++ stackOut truth stack)
      (readNextLine (fuel + 1) conf) := by
  obtain ⟨_, cur, ⟨found, atLeft, atRight, atRest⟩, inside, below⟩ := place
  obtain ⟨node, nodes, same⟩ := inside.node found
  have isCond : node.cond = some c := congrArg ConfNode.cond same
  have isLeft : node.leftPtr = ptr (k + 1) left := congrArg ConfNode.leftPtr same
  have isRight : node.rightPtr = ptr (k + 1 + left.count) right := congrArg ConfNode.rightPtr same
  have isFw : node.fwPtr = ptr (k + 1 + left.count + right.count) rest :=
    congrArg ConfNode.fwPtr same
  let f : Frame := ⟨k, k + 1 + left.count + right.count, rest⟩
  have ok : FrameOk t f := ⟨by simp only [f]; omega, ⟨_, found, rfl, rfl⟩, atRest⟩
  have weight : stackWeight (f :: stack) = rest.weight + 1 + stackWeight stack := rfl
  have notPased : node.tag ≠ .pased := by
    intro pased
    obtain ⟨g, mem, eq⟩ := mem_map.1 ((inside.tags _ _ nodes).1 pased)
    exact absurd (below g mem) (by omega)
  rw [readNextLine_first cur nodes isCond notPased, inside.check _ (mem_of_getElem? found) c rfl,
    Items.out]
  cases truth c with
  | true =>
    simp only [if_true, isLeft]
    exact (branch_returns calls ok isFw atLeft (Nat.lt_succ_self k) inside below).succ (by omega)
  | false =>
    simp only [Bool.false_eq_true, if_false, isRight]
    exact (branch_returns calls ok isFw atRight (by simp only [f]; omega) inside below).succ
      (by omega)

end

theorem readNextLine_calls (fuel : Nat) : Calls t truth fuel := by
  induction fuel with
  | zero => exact ⟨fun _ => Nat.zero_le _, fun _ _ => Nat.zero_le _⟩
  | succ fuel calls =>
    refine ⟨fun {k items stack conf} place => ?_, ascends_succ calls⟩
    cases items with
    | nil => cases place.notNil
    | text b lines rest => exact visits_text calls place
    | cond c tag left right rest => exact visits_cond calls place

/-! ### Reading to the end -/

theorem readAll_of_resume (resume : Resume t truth lines bound conf) :
    readAll fuel n conf = some lines ∨
      readAll fuel n conf = none ∧ (fuel ≤ bound ∨ n ≤ lines.length) := by
  induction n generalizing conf lines with
  | zero => exact .inr ⟨rfl, .inr (Nat.zero_le _)⟩
  | succ n ih =>
    obtain ⟨k, items, stack, place, rfl, fits⟩ := resume
    have returns := ((readNextLine_calls fuel).visits place).mono fits
    rw [readAll]
    generalize readNextLine fuel conf = r at returns
    rcases r with _ | ⟨_ | line, conf'⟩
    · exact .inr ⟨rfl, .inl returns⟩
    · rw [returns.1]
      exact .inl rfl
    · obtain ⟨more, eq, resume⟩ := returns
      rw [eq]
      rcases ih resume with read | ⟨unread, short⟩
      · exact .inl (congrArg (Option.map (line :: ·)) read)
      · exact .inr ⟨congrArg (Option.map (line :: ·)) unread, short.imp id Nat.succ_le_succ⟩

theorem readAll_fresh {out : List (Nat × Text)} (cur : conf.curNode = ptr 0 items)
    (stands : items.At t 0) (inside : Inside t truth [] conf)
    (lineCount : conf.lineCount = 0) :
    (∃ fuel n, readAll fuel n conf = some out) ↔ out = items.out truth := by
  have read : ∀ fuel n, readAll fuel n conf = some (items.out truth) ∨
      readAll fuel n conf = none ∧ (fuel ≤ items.weight ∨ n ≤ (items.out truth).length) := by
    intro fuel n
    cases nil : items.isNil with
    | true =>
      obtain rfl := isNil_iff.1 nil
      rcases fuel with _ | fuel <;> rcases n with _ | n
      · exact .inr ⟨rfl, .inl le_rfl⟩
      · exact .inr ⟨rfl, .inl le_rfl⟩
      · exact .inr ⟨rfl, .inr le_rfl⟩
      · rw [readAll, readNextLine_none cur]
        exact .inl rfl
    | false =>
      refine readAll_of_resume (t := t) ⟨0, items, [], ⟨nil, ?_, stands, inside, ?_⟩, ?_, le_rfl⟩
      · rw [cur, ptr_not_isNil nil]
      · exact fun f mem => absurd mem not_mem_nil
      · rw [lineCount, outFrom_zero]
        exact append_nil _
  constructor
  · rintro ⟨fuel, n, result⟩
    rcases read fuel n with all | ⟨unread, _⟩
    · exact Option.some.inj (result.symm.trans all)
    · cases result.symm.trans unread
  · rintro rfl
    refine ⟨items.weight + 1, (items.out truth).length + 1,
      (read _ _).resolve_right fun short => ?_⟩
    omega

end Reader

end Jhlava.Conf
