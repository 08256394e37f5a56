import Jhlava.LogWords

/-! Configuration files with conditions, lib.wconf.c: `ls_getconf` makes a tree of nodes from the
lines of a file, and `readNextLine` walks through it when the values of the conditions are known.
Nodes are numbered in the order they are made; a pointer is `none` for `NULL`. -/
namespace Jhlava.Conf
open CValues TextScan LogWords

/-! ### The lines of a file -/

/-- The calls of `getNextLineD_`: the lines that are read, each with the line count behind it. A
line without a newline is not counted. -/
def readLines : Nat → Nat → Text → List (Nat × Text)
  | 0, _, _ => []
  | fuel + 1, lineCount, fp =>
    match getNextLineD fp with
    | (none, _) => []
    | (some line, rest) =>
      let lineCount := if '\n' ∈ fp then lineCount + 1 else lineCount
      (lineCount, line) :: readLines fuel lineCount rest

def getNextWord (line : Text) : Option Text × Text :=
  let line := line.dropWhile isspace
  let word := line.takeWhile fun c => !isspace c
  (if word = [] then none else some word, line.dropWhile fun c => !isspace c)

inductive Directive where
  | define
  | ifCond
  | elifCond
  | elseCond
  | endif
  deriving DecidableEq, Repr

def directiveOf (cp : Text) : Option Directive :=
  let cp := cp.map Char.toLower
  if cp = "define".toList then some .define
  else if cp = "if".toList then some .ifCond
  else if cp = "elif".toList then some .elifCond
  else if cp = "else".toList then some .elseCond
  else if cp = "endif".toList then some .endif
  else none

def directive (line : Text) : Option (Directive × Text) :=
  match getNextWord line with
  | (some ('#' :: cp), rest) => (directiveOf cp).map fun d => (d, rest)
  | _ => none

def condName (linep : Text) : Option Text :=
  let word := ((linep.dropWhile isspace).takeWhile (· ≠ '#')).rdropWhile isspace
  if word = [] then none else some word

/-- `defNames` and `defConds`. -/
abbrev Defs := List (Text × Text)

def resolve (defs : Defs) (word : Text) : Text :=
  match defs.find? fun d => d.1 = word with
  | none => word
  | some d => d.2

/-- What a line is for the rest of `ls_getconf`. -/
inductive Token where
  | text (lineNum : Nat) (line : Text)
  | define
  | ifCond (cond : Text)
  | elifCond (cond : Text)
  | elseCond
  | endif
  deriving DecidableEq, Repr

/-- The part of the loop of `ls_getconf` that reads a line; no result is an error. -/
def token (defs : Defs) (line : Nat × Text) : Option (Token × Defs) :=
  match directive line.2 with
  | none => some (.text line.1 line.2, defs)
  | some (.define, linep) =>
    match getNextWord linep with
    | (none, _) => none
    | (some name, linep) =>
      (condName linep).map fun word => (.define, defs ++ [(name, resolve defs word)])
  | some (.ifCond, linep) => (condName linep).map fun word => (.ifCond (resolve defs word), defs)
  | some (.elifCond, linep) => (condName linep).map fun word =>
    (.elifCond (resolve defs word), defs)
  | some (.elseCond, _) => some (.elseCond, defs)
  | some (.endif, _) => some (.endif, defs)

/-! ### Making the tree -/

/-- The tags of a node; all bits of the first two are those of `NODE_PASED`. -/
inductive NodeTag where
  | clear
  | leftDone
  | allDone
  | pased
  deriving DecidableEq, Repr

structure ConfNode where
  leftPtr : Option Nat := none
  rightPtr : Option Nat := none
  fwPtr : Option Nat := none
  cond : Option Text := none
  beginLineNum : Nat := 0
  lines : List Text := []
  tag : NodeTag := .clear
  deriving DecidableEq, Repr

/-- The variables of `ls_getconf`. The lines of text since the last directive are in `run`, with
the number of the first. -/
structure Builder where
  nodes : List ConfNode := []
  rootNode : Option Nat := none
  prev : Option Nat := none
  blockStack : List Nat := []
  ptrStack : List Nat := []
  conds : List Text := []
  run : Option (Nat × List Text) := none
  deriving DecidableEq, Repr

/-- The pointer of `prev` that `linkNode` sets. -/
def linkNode (node : Nat) (prev : ConfNode) : ConfNode :=
  if prev.cond.isSome then
    match prev.tag with
    | .allDone => if prev.fwPtr = none then { prev with fwPtr := some node } else prev
    | .leftDone =>
      if prev.rightPtr = none then { prev with rightPtr := some node }
      else if prev.fwPtr = none then { prev with fwPtr := some node } else prev
    | _ =>
      if prev.leftPtr = none then { prev with leftPtr := some node }
      else if prev.rightPtr = none then { prev with rightPtr := some node }
      else if prev.fwPtr = none then { prev with fwPtr := some node } else prev
  else if prev.fwPtr = none then { prev with fwPtr := some node } else prev

def changeNode (nodes : List ConfNode) (ptr : Option Nat) (f : ConfNode → ConfNode) :
    List ConfNode :=
  match ptr with
  | none => nodes
  | some i => nodes.modify i f

/-- A new node is linked to `prev`, takes its place and is the root if there is none. -/
def addNode (b : Builder) (node : ConfNode) : Builder :=
  { b with
    nodes := changeNode b.nodes b.prev (linkNode b.nodes.length) ++ [node]
    prev := some b.nodes.length
    rootNode := b.rootNode.or (some b.nodes.length) }

def flush (b : Builder) : Builder :=
  match b.run with
  | none => b
  | some (beginLineNum, lines) => { addNode b { beginLineNum, lines } with run := none }

def addCond (conds : List Text) (cond : Text) : List Text :=
  if conds.contains cond then conds else conds ++ [cond]

/-- The part of the loop of `ls_getconf` behind the reading of a line. -/
def tokenStep (b : Builder) : Token → Option Builder
  | .text lineNum line =>
    match b.run with
    | none => some { b with run := some (lineNum, [line]) }
    | some (beginLineNum, lines) => some { b with run := some (beginLineNum, lines ++ [line]) }
  | .define => some (flush b)
  | .ifCond cond =>
    let b := flush b
    let b' := addNode { b with conds := addCond b.conds cond } { cond := some cond }
    some { b' with
      blockStack := b.nodes.length :: b.blockStack
      ptrStack := b.nodes.length :: b.ptrStack }
  | .elifCond cond =>
    let b := flush b
    match b.blockStack, b.ptrStack with
    | _ :: _, i :: ptrStack =>
      let b := { b with
        nodes := b.nodes.modify i fun node => { node with tag := .leftDone }
        prev := some i
        conds := addCond b.conds cond }
      some { addNode b { cond := some cond } with ptrStack := b.nodes.length :: ptrStack }
    | _, _ => none
  | .elseCond =>
    let b := flush b
    match b.blockStack, b.ptrStack with
    | _ :: _, i :: _ =>
      some { b with
        nodes := b.nodes.modify i fun node => { node with tag := .leftDone }
        prev := some i }
    | _, _ => none
  | .endif =>
    let b := flush b
    match b.blockStack with
    | [] => none
    | i :: blockStack =>
      some { b with
        nodes := b.nodes.modify i fun node => { node with tag := .allDone }
        prev := some i
        blockStack
        ptrStack := b.ptrStack.tail }

def getconfLoop (defs : Defs) (b : Builder) : List (Nat × Text) → Option Builder
  | [] => if (flush b).blockStack = [] then some (flush b) else none
  | line :: rest =>
    (token defs line).bind fun t => (tokenStep b t.1).bind fun b => getconfLoop t.2 b rest

/-! ### Reading -/

/-- A configuration that is read: the tree, the conditions with their values, and the place. -/
structure LsConf where
  nodes : List ConfNode
  conds : List Text
  values : List Bool
  curNode : Option Nat
  lineCount : Nat := 0
  ptrStack : List Nat := []
  deriving DecidableEq, Repr

/-- `ls_getconf` for the content of a file, with values that have been given to the conditions. -/
def lsGetconf (file : Text) (truth : Text → Bool) : Option LsConf :=
  (getconfLoop [] {} (readLines (file.length + 1) 0 file)).map fun b =>
    { nodes := b.nodes, conds := b.conds, values := b.conds.map truth, curNode := b.rootNode }

def checkCond (conf : LsConf) (cond : Text) : Bool :=
  match conf.values[conf.conds.idxOf cond]? with
  | none => false
  | some value => value

/-- A line with its number, or `NULL`. -/
abbrev Line := Option (Nat × Text)

def LsConf.setTag (conf : LsConf) (i : Nat) (tag : NodeTag) : LsConf :=
  { conf with nodes := conf.nodes.modify i fun node => { node with tag } }

/-- Going on at `fwPtr`, and where nothing is left there at the node on the stack. -/
def follow (read : LsConf → Option (Line × LsConf)) (fwPtr : Option Nat) (conf : LsConf) :
    Option (Line × LsConf) :=
  (read { conf with curNode := fwPtr, lineCount := 0 }).bind fun r =>
    match r with
    | (some line, conf) => some (some line, conf)
    | (none, conf) => read { conf with curNode := conf.ptrStack.head?, lineCount := 0 }

def leave (read : LsConf → Option (Line × LsConf)) (i : Nat) (node : ConfNode) (conf : LsConf) :
    Option (Line × LsConf) :=
  follow read node.fwPtr ({ conf with ptrStack := conf.ptrStack.tail }.setTag i .clear)

/-- `readNextLine`; there is no result when the calls are nested deeper than `fuel`. -/
def readNextLine : Nat → LsConf → Option (Line × LsConf)
  | 0, _ => none
  | fuel + 1, conf =>
    match conf.curNode with
    | none => some (none, conf)
    | some i =>
      match conf.nodes[i]? with
      | none => none
      | some node =>
        match node.cond with
        | some cond =>
          if node.tag ≠ .pased then
            (readNextLine fuel
                ({ conf with
                  ptrStack := i :: conf.ptrStack
                  curNode := if checkCond conf cond then node.leftPtr else node.rightPtr
                  lineCount := 0 }.setTag i .pased)).bind fun r =>
              match r with
              | (some line, conf) => some (some line, conf)
              | (none, conf) => leave (readNextLine fuel) i node conf
          else leave (readNextLine fuel) i node conf
        | none =>
          match node.lines[conf.lineCount]? with
          | some line =>
            some (some (node.beginLineNum + conf.lineCount, line),
              { conf with lineCount := conf.lineCount + 1 })
          | none => follow (readNextLine fuel) node.fwPtr conf

/-- The lines up to the first `NULL`. -/
def readAll (fuel : Nat) : Nat → LsConf → Option (List (Nat × Text))
  | 0, _ => none
  | n + 1, conf =>
    (readNextLine fuel conf).bind fun r =>
      match r with
      | (none, _) => some []
      | (some line, conf) => (readAll fuel n conf).map fun lines => line :: lines

end Jhlava.Conf
