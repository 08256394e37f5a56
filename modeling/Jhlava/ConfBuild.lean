import Jhlava.ConfTree

/-! The tree that `ls_getconf` makes from a file with properly nested conditions. The nodes of a
part of the file stand one behind the other, a block with its two branches and then what follows
it, so the tree is a list that the structure of the file determines. -/
namespace Jhlava.Conf
open TextScan List Option

/-! ### Nested files -/

inductive Part where
  | body
  | branches

/-- A file in which the blocks are properly nested: text and blocks, each with its other
branches. -/
inductive Src : Part → Type
  | nil : Src .body
  | line (lineNum : Nat) (text : Text) (rest : Src .body) : Src .body
  | define (rest : Src .body) : Src .body
  | block (cond : Text) (left : Src .body) (others : Src .branches) (rest : Src .body) : Src .body
  | noMore : Src .branches
  | elifCond (cond : Text) (left : Src .body) (others : Src .branches) : Src .branches
  | elseCond (right : Src .body) : Src .branches

namespace Src

def tokens : {p : Part} → Src p → List Token
  | _, nil => []
  | _, line n t rest => .text n t :: rest.tokens
  | _, define rest => .define :: rest.tokens
  | _, block c left others rest =>
    .ifCond c :: (left.tokens ++ (others.tokens ++ .endif :: rest.tokens))
  | _, noMore => []
  | _, elifCond c left others => .elifCond c :: (left.tokens ++ others.tokens)
  | _, elseCond right => .elseCond :: right.tokens

def kept (truth : Text → Bool) : {p : Part} → Src p → List (Nat × Text)
  | _, nil => []
  | _, line n t rest => (n, t) :: rest.kept truth
  | _, define rest => rest.kept truth
  | _, block c left others rest =>
    (if truth c then left.kept truth else others.kept truth) ++ rest.kept truth
  | _, noMore => []
  | _, elifCond c left others => if truth c then left.kept truth else others.kept truth
  | _, elseCond right => right.kept truth

end Src

/-! ### Trees -/

/-- What a pointer leads to: runs of text and blocks, one behind the other. -/
inductive Items where
  | nil
  | text (beginLineNum : Nat) (lines : List Text) (rest : Items)
  | cond (cond : Text) (tag : NodeTag) (left right rest : Items)

namespace Items

def count : Items → Nat
  | nil => 0
  | text _ _ rest => rest.count + 1
  | cond _ _ left right rest => left.count + right.count + rest.count + 1

def isNil : Items → Bool
  | nil => true
  | _ => false

/-- The pointer to items whose nodes start at `k`. -/
def ptr (k : Nat) (items : Items) : Option Nat := if items.isNil then none else some k

/-- The nodes of items, from `k` on. -/
def flat : Nat → Items → List ConfNode
  | _, nil => []
  | k, text beginLineNum lines rest =>
    { beginLineNum, lines, fwPtr := ptr (k + 1) rest } :: flat (k + 1) rest
  | k, cond c tag left right rest =>
    { cond := some c
      tag
      leftPtr := ptr (k + 1) left
      rightPtr := ptr (k + 1 + left.count) right
      fwPtr := ptr (k + 1 + left.count + right.count) rest } ::
      (flat (k + 1) left ++ (flat (k + 1 + left.count) right ++
        flat (k + 1 + left.count + right.count) rest))

theorem length_flat (k : Nat) (items : Items) : (flat k items).length = items.count := by
  induction items generalizing k with
  | nil => rfl
  | text b lines rest ih => rw [flat, length_cons, ih, count]
  | cond c tag left right rest ihl ihr ih =>
    rw [flat, length_cons, length_append, length_append, ihl, ihr, ih, count]
    omega

end Items

open Items

def withRun (run : Option (Nat × List Text)) (items : Items) : Items :=
  match run with
  | none => items
  | some (beginLineNum, lines) => .text beginLineNum lines items

def extend (run : Option (Nat × List Text)) (lineNum : Nat) (line : Text) : Nat × List Text :=
  match run with
  | none => (lineNum, [line])
  | some (beginLineNum, lines) => (beginLineNum, lines ++ [line])

def Src.isNoMore : {p : Part} → Src p → Bool
  | _, .noMore => true
  | _, _ => false

def Src.items : {p : Part} → Option (Nat × List Text) → Src p → Items
  | _, run, .nil => withRun run .nil
  | _, run, .line n t rest => rest.items (some (extend run n t))
  | _, run, .define rest => withRun run (rest.items none)
  | _, run, .block c left others rest =>
    withRun run (.cond c .allDone (left.items none) (others.items none) (rest.items none))
  | _, _, .noMore => .nil
  | _, _, .elifCond c left others =>
    .cond c (if others.isNoMore then .clear else .leftDone) (left.items none)
      (others.items none) .nil
  | _, _, .elseCond right => right.items none

/-! ### Where the next node goes -/

def build : List Token → Builder → Option Builder
  | [], b => some b
  | t :: ts, b => (tokenStep b t).bind (build ts)

theorem build_append (ts us : List Token) (b : Builder) :
    build (ts ++ us) b = (build ts b).bind (build us) := by
  induction ts generalizing b with
  | nil => rfl
  | cons t ts ih =>
    rw [cons_append, build, build]
    cases tokenStep b t with
    | none => rfl
    | some b' => exact ih b'

/-- The nodes and the root with a pointer that is still to be set. -/
structure Hole where
  size : Nat
  fill : Option Nat → List ConfNode × Option Nat
  length : ∀ q, (fill q).1.length = size

/-- The pointer that the next node is linked to. -/
structure Open (b : Builder) (hole : Hole) : Prop where
  now : (b.nodes, b.rootNode) = hole.fill none
  add : ∀ node, ((addNode b node).nodes, (addNode b node).rootNode) =
    ((hole.fill (some hole.size)).1 ++ [node], (hole.fill (some hole.size)).2)

/-- The items stand behind the other nodes, and the pointer leads to them. -/
structure Built (b : Builder) (hole : Hole) (items : Items) (b' : Builder) : Prop where
  nodes : b'.nodes = (hole.fill (ptr hole.size items)).1 ++ flat hole.size items
  rootNode : b'.rootNode = (hole.fill (ptr hole.size items)).2
  blockStack : b'.blockStack = b.blockStack
  ptrStack : b'.ptrStack = b.ptrStack
  run : b'.run = none

/-- A pointer of the node behind `before`. -/
def nodeHole (before : List ConfNode) (node : Option Nat → ConfNode) (behind : List ConfNode)
    (root : Option Nat) : Hole where
  size := before.length + (behind.length + 1)
  fill q := (before ++ node q :: behind, root)
  length q := by simp

variable {α : Type*}

theorem modify_middle (before : List α) (x : α) (behind : List α) (f : α → α) :
    (before ++ x :: behind).modify before.length f = before ++ f x :: behind := by
  induction before with
  | nil => rfl
  | cons a before ih => exact congrArg (a :: ·) ih

theorem modify_at {before : List α} {k : Nat} (length : before.length = k) (x : α)
    (behind : List α) (f : α → α) : (before ++ x :: behind).modify k f = before ++ f x :: behind :=
  length ▸ modify_middle before x behind f

variable {b b' : Builder} {c : Text} {hole : Hole} {left rest : Src .body} {others : Src .branches}

variable {before behind : List ConfNode}

theorem open_node {node : Option Nat → ConfNode} (nodes : b.nodes = before ++ node none :: behind)
    (prev : b.prev = some before.length) (root : b.rootNode.isSome)
    (links : ∀ k, linkNode k (node none) = node (some k)) :
    Open b (nodeHole before node behind b.rootNode) := by
  refine ⟨by rw [nodes]; rfl, fun new => ?_⟩
  have length : b.nodes.length = before.length + (behind.length + 1) := by rw [nodes]; simp
  refine Prod.ext ?_ ?_
  · simp only [addNode, changeNode, prev, nodeHole]
    rw [length, nodes, modify_middle, links]
  · obtain ⟨r, isRoot⟩ := isSome_iff_exists.1 root
    simp [addNode, nodeHole, isRoot]

theorem Open.length (isOpen : Open b hole) : b.nodes.length = hole.size := by
  rw [← hole.length none, ← isOpen.now]

theorem open_start : Open {} ⟨0, fun q => ([], q), fun _ => rfl⟩ := ⟨rfl, fun _ => rfl⟩

theorem addNode_root (b : Builder) (node : ConfNode) : (addNode b node).rootNode.isSome := by
  simp [addNode]

theorem open_addNode (isOpen : Open b hole) (node : Option Nat → ConfNode)
    (links : ∀ k, linkNode k (node none) = node (some k)) :
    Open (addNode b (node none)) (nodeHole (hole.fill (some hole.size)).1 node []
      (hole.fill (some hole.size)).2) := by
  have added := isOpen.add (node none)
  have root := (Prod.mk.inj added).2
  rw [← root]
  refine open_node (Prod.mk.inj added).1 ?_ (addNode_root _ _) links
  rw [hole.length, ← isOpen.length]
  rfl

theorem nodeHole_size (before : List ConfNode) (node : Option Nat → ConfNode)
    (behind : List ConfNode) (root : Option Nat) :
    (nodeHole before node behind root).size = before.length + (behind.length + 1) := rfl

/-! ### What the steps build -/

theorem flush_of_none (run : b.run = none) : flush b = b := by
  rw [flush, run]

theorem flush_run (b : Builder) : (flush b).run = none := by
  unfold flush
  split
  · assumption
  · rfl

theorem flush_blockStack (b : Builder) : (flush b).blockStack = b.blockStack := by
  unfold flush
  split <;> rfl

theorem flush_ptrStack (b : Builder) : (flush b).ptrStack = b.ptrStack := by
  unfold flush
  split <;> rfl

theorem open_flush (isOpen : Open b hole) :
    ∃ hole', Open (flush b) hole' ∧
      ∀ items b', Built (flush b) hole' items b' → Built b hole (withRun b.run items) b' := by
  cases isRun : b.run with
  | none =>
    rw [flush_of_none isRun]
    exact ⟨hole, isOpen, fun items b' built => built⟩
  | some run =>
    obtain ⟨beginLineNum, lines⟩ := run
    have opened := open_addNode isOpen (fun q => { beginLineNum, lines, fwPtr := q }) fun k => rfl
    have same : flush b = { addNode b { beginLineNum, lines } with run := none } := by
      rw [flush, isRun]
    rw [same]
    refine ⟨_, ⟨opened.now, opened.add⟩, fun items b' built => ?_⟩
    have nodes := built.nodes
    rw [nodeHole_size, hole.length, length_nil] at nodes
    refine ⟨?_, built.rootNode, built.blockStack, built.ptrStack, built.run⟩
    rw [nodes, withRun]
    exact append_assoc _ [_] _

/-- What a body builds where a pointer is open, and what the other branches of a block build
behind its first branch. -/
def BuildSpec : {p : Part} → Src p → Prop
  | .body, src => ∀ b hole, Open b hole →
      ∃ b', build src.tokens b = some b' ∧ Built b hole (src.items b.run) (flush b')
  | .branches, src => ∀ b before node behind, (flush b).nodes = before ++ node :: behind →
      node.cond.isSome → node.rightPtr = none → node.tag = .clear →
      (flush b).rootNode.isSome → b.blockStack ≠ [] → b.ptrStack.head? = some before.length →
      ∃ b', build src.tokens b = some b' ∧
        (flush b').nodes = before ++
          { node with
            rightPtr := ptr (before.length + (behind.length + 1)) (src.items none)
            tag := if src.isNoMore then .clear else .leftDone } ::
          (behind ++ flat (before.length + (behind.length + 1)) (src.items none)) ∧
        (flush b').rootNode = (flush b).rootNode ∧ b'.blockStack = b.blockStack ∧
        b'.ptrStack.tail = b.ptrStack.tail

theorem build_nil (b : Builder) (hole : Hole) (isOpen : Open b hole) :
    Built b hole (withRun b.run .nil) (flush b) := by
  obtain ⟨hole', opened, built⟩ := open_flush isOpen
  refine built .nil (flush b) ⟨?_, ?_, rfl, rfl, flush_run b⟩
  · exact ((Prod.mk.inj opened.now).1).trans (append_nil _).symm
  · exact (Prod.mk.inj opened.now).2

theorem buildSpec_line (spec : BuildSpec rest) (n : Nat) (t : Text) :
    BuildSpec (.line n t rest) := by
  intro b hole isOpen
  have step : tokenStep b (.text n t) = some { b with run := some (extend b.run n t) } := by
    cases isRun : b.run <;> simp only [tokenStep, extend, isRun]
  obtain ⟨b', built, result⟩ := spec { b with run := some (extend b.run n t) } hole
    ⟨isOpen.now, isOpen.add⟩
  refine ⟨b', ?_, ⟨result.nodes, result.rootNode, result.blockStack, result.ptrStack, result.run⟩⟩
  rw [Src.tokens, build, step]
  exact built

theorem buildSpec_define (spec : BuildSpec rest) : BuildSpec (.define rest) := by
  intro b hole isOpen
  obtain ⟨hole', opened, place⟩ := open_flush isOpen
  obtain ⟨b', built, result⟩ := spec (flush b) hole' opened
  rw [flush_run] at result
  exact ⟨b', built, place _ _ result⟩

theorem buildSpec_noMore : BuildSpec .noMore := by
  intro b before node behind nodes isCond right tag root block top
  refine ⟨b, rfl, ?_, rfl, rfl, rfl⟩
  rw [nodes, Src.items, flat, append_nil]
  rw [Src.isNoMore, if_pos rfl, ptr, isNil, if_pos rfl, ← right, ← tag]

/-- The other branch of the node `i` starts. -/
def turn (b : Builder) (i : Nat) : Builder :=
  { b with
    nodes := b.nodes.modify i fun node => { node with tag := .leftDone }
    prev := some i }

variable {i : Nat}

theorem stacks_of_top (block : b.blockStack ≠ []) (top : b.ptrStack.head? = some i) :
    ∃ j js is, (flush b).blockStack = j :: js ∧ (flush b).ptrStack = i :: is := by
  obtain ⟨j, js, isBlock⟩ := exists_cons_of_ne_nil block
  obtain ⟨is, isPtr⟩ := List.head?_eq_some_iff.1 top
  exact ⟨j, js, is, by rw [flush_blockStack, isBlock], by rw [flush_ptrStack, isPtr]⟩

theorem tokenStep_else (block : b.blockStack ≠ []) (top : b.ptrStack.head? = some i) :
    tokenStep b .elseCond = some (turn (flush b) i) := by
  obtain ⟨j, js, is, isBlock, isPtr⟩ := stacks_of_top block top
  simp [tokenStep, isBlock, isPtr, turn]

theorem tokenStep_elif (c : Text) (block : b.blockStack ≠ []) (top : b.ptrStack.head? = some i) :
    tokenStep b (.elifCond c) =
      some { addNode (turn (flush b) i) { cond := some c } with
        conds := addCond (flush b).conds c
        ptrStack := (turn (flush b) i).nodes.length :: b.ptrStack.tail } := by
  obtain ⟨j, js, is, isBlock, isPtr⟩ := stacks_of_top block top
  rw [← flush_ptrStack b]
  simp [tokenStep, isBlock, isPtr, turn, addNode]

theorem open_turn {node : ConfNode} (nodes : b.nodes = before ++ node :: behind)
    (isCond : node.cond.isSome) (rightPtr : node.rightPtr = none) (root : b.rootNode.isSome) :
    Open (turn b before.length)
      (nodeHole before (fun q => { node with tag := .leftDone, rightPtr := q }) behind
        b.rootNode) := by
  refine open_node ?_ rfl root fun k => ?_
  · change b.nodes.modify _ _ = _
    rw [nodes, modify_middle, ← rightPtr]
  · simp only [linkNode, isCond, if_true]

theorem buildSpec_else {right : Src .body} (spec : BuildSpec right) :
    BuildSpec (.elseCond right) := by
  intro b before node behind nodes isCond rightPtr tag root block top
  obtain ⟨b', built, result⟩ := spec _ _ (open_turn nodes isCond rightPtr root)
  have run : (turn (flush b) before.length).run = none := flush_run b
  rw [run] at result
  refine ⟨b', ?_, ?_, result.rootNode, ?_, ?_⟩
  · rw [Src.tokens, build, tokenStep_else block top]
    exact built
  · rw [result.nodes]
    exact append_assoc _ (_ :: _) _
  · rw [← flush_blockStack b', result.blockStack, ← flush_blockStack b]
    rfl
  · rw [← flush_ptrStack b', result.ptrStack, ← flush_ptrStack b]
    rfl

def condNode (k : Nat) (c : Text) (tag : NodeTag) (left right : Items) : ConfNode :=
  { cond := some c
    tag
    leftPtr := ptr (k + 1) left
    rightPtr := ptr (k + 1 + left.count) right }

theorem build_branches (specLeft : BuildSpec left) (specOthers : BuildSpec others)
    (isOpen : Open b hole) (c : Text) (b₁ : Builder)
    (nodes : b₁.nodes = (addNode b { cond := some c }).nodes)
    (rootNode : b₁.rootNode = (addNode b { cond := some c }).rootNode)
    (prev : b₁.prev = (addNode b { cond := some c }).prev) (run : b₁.run = none)
    (block : b₁.blockStack ≠ []) (top : b₁.ptrStack.head? = some hole.size) :
    ∃ b', build (left.tokens ++ others.tokens) b₁ = some b' ∧
      (flush b').nodes = (hole.fill (some hole.size)).1 ++
        condNode hole.size c (if others.isNoMore then .clear else .leftDone) (left.items none)
          (others.items none) ::
        (flat (hole.size + 1) (left.items none) ++
          flat (hole.size + 1 + (left.items none).count) (others.items none)) ∧
      (flush b').rootNode = (hole.fill (some hole.size)).2 ∧
      b'.blockStack = b₁.blockStack ∧ b'.ptrStack.tail = b₁.ptrStack.tail := by
  have added := open_addNode isOpen (fun q => { cond := some c, leftPtr := q }) fun k => rfl
  have opened : Open b₁ (nodeHole (hole.fill (some hole.size)).1
      (fun q => { cond := some c, leftPtr := q }) [] (hole.fill (some hole.size)).2) := by
    refine ⟨by rw [nodes, rootNode]; exact added.now, fun node => ?_⟩
    rw [← added.add node]
    simp [addNode, nodes, prev, rootNode]
  obtain ⟨b₂, builtLeft, resultLeft⟩ := specLeft b₁ _ opened
  rw [run] at resultLeft
  have nodesLeft := resultLeft.nodes
  rw [nodeHole_size, hole.length, length_nil] at nodesLeft
  have length := hole.length (some hole.size)
  have root₂ : (flush b₂).rootNode.isSome := by
    have root := (Prod.mk.inj (isOpen.add { cond := some c })).2
    rw [resultLeft.rootNode]
    change (hole.fill (some hole.size)).2.isSome = true
    rw [← root]
    exact addNode_root _ _
  have block₂ : b₂.blockStack = b₁.blockStack := by
    rw [← flush_blockStack, resultLeft.blockStack]
  have ptr₂ : b₂.ptrStack = b₁.ptrStack := by rw [← flush_ptrStack, resultLeft.ptrStack]
  obtain ⟨b₃, builtOthers, nodesOthers, rootOthers, blockOthers, ptrOthers⟩ :=
    specOthers b₂ (hole.fill (some hole.size)).1
      { cond := some c, leftPtr := ptr (hole.size + 1) (left.items none) }
      (flat (hole.size + 1) (left.items none)) (nodesLeft.trans (append_assoc _ [_] _))
      rfl rfl rfl root₂ (block₂ ▸ block) (by rw [ptr₂, top, length])
  refine ⟨b₃, ?_, ?_, ?_, blockOthers.trans block₂, ?_⟩
  · rw [build_append, builtLeft]
    exact builtOthers
  · have size : hole.size + ((left.items none).count + 1) =
        hole.size + 1 + (left.items none).count := by omega
    rw [nodesOthers, length, length_flat, size]
    rfl
  · rw [rootOthers, resultLeft.rootNode]
    rfl
  · rw [ptrOthers, ptr₂]

theorem buildSpec_elif (specLeft : BuildSpec left) (specOthers : BuildSpec others) (c : Text) :
    BuildSpec (.elifCond c left others) := by
  intro b before node behind nodes isCond rightPtr tag root block top
  have opened := open_turn nodes isCond rightPtr root
  obtain ⟨b', built, nodes', root', block', ptr'⟩ :=
    build_branches specLeft specOthers opened c
      { addNode (turn (flush b) before.length) { cond := some c } with
        conds := addCond (flush b).conds c
        ptrStack := (turn (flush b) before.length).nodes.length :: b.ptrStack.tail }
      rfl rfl rfl (flush_run b) (by rwa [← flush_blockStack] at block)
      (congrArg some opened.length)
  refine ⟨b', ?_, ?_, root', ?_, ptr'⟩
  · rw [Src.tokens, build, tokenStep_elif c block top]
    exact built
  · rw [nodes', Src.items, flat, flat, append_nil]
    exact append_assoc _ (_ :: _) _
  · rw [block', ← flush_blockStack b]
    rfl

theorem buildSpec_block (specLeft : BuildSpec left) (specOthers : BuildSpec others)
    (specRest : BuildSpec rest) (c : Text) : BuildSpec (.block c left others rest) := by
  intro b hole isOpen
  obtain ⟨hole', opened, place⟩ := open_flush isOpen
  have length := opened.length
  let b₁ : Builder :=
    { addNode (flush b) { cond := some c } with
      conds := addCond (flush b).conds c
      blockStack := (flush b).nodes.length :: (flush b).blockStack
      ptrStack := (flush b).nodes.length :: (flush b).ptrStack }
  obtain ⟨b₂, built₂, nodes₂, root₂, block₂, ptr₂⟩ :=
    build_branches specLeft specOthers opened c b₁ rfl rfl rfl (flush_run b) (cons_ne_nil _ _)
      (congrArg some length)
  have block₂' : (flush b₂).blockStack = hole'.size :: b.blockStack := by
    rw [flush_blockStack, block₂, ← length, ← flush_blockStack b]
  have ptr₂' : b₂.ptrStack.tail = b.ptrStack := ptr₂.trans (flush_ptrStack b)
  let b₃ : Builder :=
    { flush b₂ with
      nodes := (flush b₂).nodes.modify hole'.size fun node => { node with tag := .allDone }
      prev := some hole'.size
      blockStack := b.blockStack
      ptrStack := (flush b₂).ptrStack.tail }
  have step₃ : tokenStep b₂ .endif = some b₃ := by
    simp only [tokenStep]
    split
    · rename_i no
      exact absurd (no.symm.trans block₂') (cons_ne_nil _ _).symm
    · rename_i i bs isBlock
      obtain ⟨rfl, rfl⟩ := List.cons.inj (isBlock.symm.trans block₂')
      rfl
  have root : b₃.rootNode.isSome := by
    have added := (Prod.mk.inj (opened.add { cond := some c })).2
    rw [root₂, ← added]
    exact addNode_root _ _
  have opened₃ : Open b₃ (nodeHole (hole'.fill (some hole'.size)).1
      (fun q => { condNode hole'.size c .allDone (left.items none) (others.items none) with
        fwPtr := q })
      (flat (hole'.size + 1) (left.items none) ++
        flat (hole'.size + 1 + (left.items none).count) (others.items none)) b₃.rootNode) := by
    refine open_node ?_ ?_ root fun k => rfl
    · change (flush b₂).nodes.modify _ _ = _
      rw [nodes₂]
      exact modify_at (hole'.length _) _ _ _
    · rw [hole'.length]
  obtain ⟨b₄, built₄, result⟩ := specRest b₃ _ opened₃
  have run₃ : b₃.run = none := flush_run b₂
  rw [run₃] at result
  refine ⟨b₄, ?_, place _ _ ⟨?_, ?_, ?_, ?_, result.run⟩⟩
  · change build (left.tokens ++ (others.tokens ++ .endif :: rest.tokens)) b₁ = _
    rw [← append_assoc, build_append, built₂, bind_some, build, step₃]
    exact built₄
  · have size : hole'.size + ((left.items none).count + (others.items none).count + 1) =
        hole'.size + 1 + (left.items none).count + (others.items none).count := by omega
    rw [result.nodes, nodeHole_size, hole'.length, length_append, length_flat, length_flat, size]
    rw [flat, ← append_assoc (flat _ _)]
    exact append_assoc _ (_ :: _) _
  · exact result.rootNode.trans root₂
  · rw [result.blockStack, flush_blockStack]
  · rw [result.ptrStack, flush_ptrStack b, ← ptr₂', ← flush_ptrStack b₂]

theorem buildSpec : {p : Part} → (src : Src p) → BuildSpec src
  | _, .nil => fun b hole isOpen => ⟨b, rfl, build_nil b hole isOpen⟩
  | _, .line n t rest => buildSpec_line (buildSpec rest) n t
  | _, .define rest => buildSpec_define (buildSpec rest)
  | _, .block c left others rest =>
    buildSpec_block (buildSpec left) (buildSpec others) (buildSpec rest) c
  | _, .noMore => buildSpec_noMore
  | _, .elifCond c left others => buildSpec_elif (buildSpec left) (buildSpec others) c
  | _, .elseCond right => buildSpec_else (buildSpec right)

/-! ### The tree of a file -/

/-- No node is tagged as passed, and the condition of each is known. -/
def Clean (nodes : List ConfNode) (conds : List Text) : Prop :=
  ∀ node ∈ nodes, node.tag ≠ .pased ∧ ∀ c, node.cond = some c → c ∈ conds

section Clean
variable {nodes : List ConfNode} {conds : List Text}

theorem mem_modify {l : List α} {f : α → α} {x : α} (mem : x ∈ l.modify i f) :
    x ∈ l ∨ ∃ y ∈ l, f y = x := by
  obtain ⟨j, found⟩ := mem_iff_getElem?.1 mem
  rw [List.getElem?_modify, Option.map_eq_map, Option.map_eq_some_iff] at found
  obtain ⟨y, at_, rfl⟩ := found
  have old := mem_of_getElem? at_
  split
  · exact .inr ⟨y, old, rfl⟩
  · exact .inl old

theorem Clean.modify {f : ConfNode → ConfNode} (clean : Clean nodes conds) (i : Nat)
    (keeps : ∀ node, node.tag ≠ .pased → (f node).tag ≠ .pased ∧ (f node).cond = node.cond) :
    Clean (nodes.modify i f) conds := by
  intro node mem
  rcases mem_modify mem with old | ⟨node, old, rfl⟩
  · exact clean node old
  · obtain ⟨tag, cond⟩ := keeps node (clean node old).1
    exact ⟨tag, cond ▸ (clean node old).2⟩

theorem Clean.tag (clean : Clean nodes conds) {tag : NodeTag} (other : tag ≠ .pased) (i : Nat) :
    Clean (nodes.modify i fun node => { node with tag }) conds :=
  clean.modify i fun _ _ => by exact ⟨other, rfl⟩

theorem linkNode_keeps (k : Nat) (node : ConfNode) :
    (linkNode k node).tag = node.tag ∧ (linkNode k node).cond = node.cond := by
  unfold linkNode
  repeat' split
  all_goals exact ⟨rfl, rfl⟩

theorem Clean.addNode {known : List Text} {node : ConfNode} (clean : Clean b.nodes conds)
    (more : conds ⊆ known) (tag : node.tag = .clear) (cond : ∀ c, node.cond = some c → c ∈ known) :
    Clean (addNode b node).nodes known := by
  have linked : Clean (changeNode b.nodes b.prev (linkNode b.nodes.length)) conds := by
    unfold changeNode
    split
    · exact clean
    · refine clean.modify _ fun node tag => ?_
      rwa [(linkNode_keeps _ node).1, and_iff_left (linkNode_keeps _ node).2]
  intro x mem
  rcases mem_append.1 mem with old | new
  · exact ⟨(linked x old).1, fun c cond => more ((linked x old).2 c cond)⟩
  · obtain rfl := mem_singleton.1 new
    exact ⟨by simp [tag], cond⟩

theorem Clean.flush (clean : Clean b.nodes b.conds) : Clean (flush b).nodes (flush b).conds := by
  unfold Conf.flush
  split
  · exact clean
  · exact clean.addNode (List.Subset.refl _) rfl nofun

theorem Clean.addCond (clean : Clean b.nodes conds) (c : Text) :
    Clean (Conf.addNode b { cond := some c }).nodes (addCond conds c) := by
  unfold Conf.addCond
  split
  · rename_i has
    exact clean.addNode (List.Subset.refl _) rfl (by rintro _ ⟨⟩; exact contains_iff_mem.1 has)
  · exact clean.addNode (subset_append_left _ _) rfl (by rintro _ ⟨⟩; simp)

theorem tokenStep_clean {t : Token} (step : tokenStep b t = some b')
    (clean : Clean b.nodes b.conds) : Clean b'.nodes b'.conds := by
  cases t <;> simp only [tokenStep] at step
  case text n l => split at step <;> exact Option.some.inj step ▸ clean
  case define => exact Option.some.inj step ▸ clean.flush
  case ifCond c => exact Option.some.inj step ▸ clean.flush.addCond c
  case elifCond c =>
    split at step
    · exact Option.some.inj step ▸ (clean.flush.tag NodeTag.noConfusion _).addCond c
    · cases step
  all_goals
    split at step <;> cases step
    exact clean.flush.tag NodeTag.noConfusion _

theorem getconfLoop_clean {lines : List (Nat × Text)} {defs : Defs}
    (built : getconfLoop defs b lines = some b') (clean : Clean b.nodes b.conds) :
    Clean b'.nodes b'.conds := by
  induction lines generalizing defs b with
  | nil =>
    rw [getconfLoop] at built
    split at built
    · exact Option.some.inj built ▸ clean.flush
    · cases built
  | cons line lines ih =>
    obtain ⟨t, _, rest⟩ := bind_eq_some_iff.1 built
    obtain ⟨b₁, step, rest⟩ := bind_eq_some_iff.1 rest
    exact ih rest (tokenStep_clean step clean)

end Clean

def tokensOf (defs : Defs) : List (Nat × Text) → Option (List Token)
  | [] => some []
  | line :: rest => (token defs line).bind fun t => (tokensOf t.2 rest).map fun ts => t.1 :: ts

variable {lines : List (Nat × Text)}

theorem getconfLoop_of_tokens {defs : Defs} {ts : List Token}
    (tokens : tokensOf defs lines = some ts) (built : build ts b = some b')
    (closed : b'.blockStack = []) : getconfLoop defs b lines = some (flush b') := by
  induction lines generalizing defs ts b with
  | nil =>
    obtain rfl := Option.some.inj tokens
    obtain rfl := Option.some.inj built
    rw [getconfLoop, flush_blockStack, if_pos closed]
  | cons line lines ih =>
    obtain ⟨t, isToken, rest⟩ := bind_eq_some_iff.1 tokens
    obtain ⟨us, isRest, rfl⟩ := Option.map_eq_some_iff.1 rest
    obtain ⟨b₁, step, more⟩ := bind_eq_some_iff.1 built
    rw [getconfLoop, isToken, bind_some, step]
    exact ih isRest more

theorem getconfLoop_src {src : Src .body} (nested : tokensOf [] lines = some src.tokens) :
    ∃ b, getconfLoop [] {} lines = some b ∧ b.nodes = flat 0 (src.items none) ∧
      b.rootNode = ptr 0 (src.items none) ∧ Clean b.nodes b.conds := by
  obtain ⟨b, built, result⟩ := buildSpec src {} _ open_start
  have loop : getconfLoop [] {} lines = some (flush b) :=
    getconfLoop_of_tokens nested built (by rw [← flush_blockStack, result.blockStack])
  exact ⟨flush b, loop, result.nodes, result.rootNode, getconfLoop_clean loop nofun⟩

end Jhlava.Conf
