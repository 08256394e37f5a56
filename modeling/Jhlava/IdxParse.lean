import Jhlava.IdxLex

/-! `idxparse`, the generated parser of jidx.c for the index lists of idx.y, and
`parseJobArrayIndex` of mbd.jarray.c. -/
namespace Jhlava.JobArray
open CValues

/-- A `struct idxList` without its link. -/
structure IdxRange where
  start : Int
  end_ : Int
  step : Int
  deriving DecidableEq, Repr

def INFINIT_INT : Int := 2 ^ 31 - 1

/-- `YYSTYPE`. A member is read only where it has been written. -/
structure YyStype where
  ival : Int
  idxType : IdxRange
  idxPtr : List IdxRange
  deriving DecidableEq, Repr

def YyStype.zero : YyStype := ⟨0, ⟨0, 0, 0⟩, []⟩

def yyact : List Nat :=
  [12, 3, 14, 10, 15, 13, 4, 8, 10, 1, 5, 2, 11, 7, 6, 0, 0, 16, 0, 0, 0, 0, 18, 19, 17, 0, 0, 0,
   0, 0, 0, 0, 0, 0, 0, 0, 0, 0, 0, 0, 0, 0, 0, 0, 0, 0, 0, 9]

def yypact : List Int :=
  [-90, -3000, -31, 2, 7, -93, -39, -56, -41, 7, -3000, -3000, -3000, 2, 7, 7, -3000, -3000, -3000,
   -3000]

def yypgo : List Nat := [0, 14, 13, 10, 11, 7, 9]

def yyr1 : List Nat := [0, 6, 6, 4, 3, 3, 1, 1, 2, 2, 2, 2, 5]

def yyr2 : List Nat := [0, 3, 7, 7, 3, 7, 3, 7, 3, 5, 5, 7, 3]

def yychk : List Int :=
  [-3000, -6, -4, 91, 37, -3, -1, -2, -5, 45, 1, -5, 93, 44, 58, 45, -5, -3, -5, -5]

def yydef : List Int := [0, -2, 1, 0, 0, 0, 4, 6, 8, 0, 12, 2, 3, 0, 0, 10, 9, 5, 7, 11]

def YYFLAG : Int := -3000

def YYLAST : Nat := 48

def YYMAXDEPTH : Nat := 150

structure Entry where
  state : Nat
  val : YyStype
  deriving DecidableEq, Repr

/-- The parser between two turns of `yy_newstate`: the stacks, top first, the
lookahead that has been read, the scanner, and what `idxList` and `maxJLimit`
point to. -/
structure IdxParser where
  stack : List Entry
  yychar : Option Nat
  scan : Scan
  idxList : List IdxRange
  maxJLimit : Int
  deriving DecidableEq, Repr

def shift (state yychar : Nat) : Option Nat :=
  let n := yypact.getD state YYFLAG + yychar
  if n < 0 ∨ (YYLAST : Int) ≤ n then none
  else
    let next := yyact.getD n.toNat 0
    if yychk.getD next 0 = yychar then some next else none

def gotoState (nonterminal state : Nat) : Nat :=
  let base := yypgo.getD nonterminal 0
  let next := yyact.getD (base + state + 1) 0
  if YYLAST ≤ base + state + 1 ∨ yychk.getD next 0 ≠ -(nonterminal : Int) then yyact.getD base 0
  else next

/-- The test of `index`. -/
def boundaryError (r : IdxRange) : Bool := r.start < 1 || r.start > r.end_ || r.step ≤ 0

/-- The action of a rule on `$1 $2 $3`, given `$$ = $1`; `none` is `YYABORT`. -/
def action (rule : Nat) (yy1 yy2 yy3 : YyStype) (p : IdxParser) : Option (YyStype × IdxParser) :=
  match rule with
  | 1 => some (yy1, { p with idxList := yy1.idxPtr })
  | 2 => some (yy1, { p with idxList := yy1.idxPtr, maxJLimit := yy3.ival })
  | 3 => some ({ yy1 with idxPtr := yy2.idxPtr }, p)
  | 4 => some ({ yy1 with idxPtr := [yy1.idxType] }, p)
  | 5 => some ({ yy1 with idxPtr := yy1.idxType :: yy3.idxPtr }, p)
  | 6 =>
    let r := { yy1.idxType with step := 1 }
    if boundaryError r then none else some ({ yy1 with idxType := r }, p)
  | 7 =>
    let r := { yy1.idxType with step := yy3.ival }
    if boundaryError r then none else some ({ yy1 with idxType := r }, p)
  | 8 => some ({ yy1 with idxType := ⟨yy1.ival, yy1.ival, 1⟩ }, p)
  | 9 => some ({ yy1 with idxType := ⟨1, yy2.ival, 1⟩ }, p)
  | 10 => some ({ yy1 with idxType := ⟨yy1.ival, INFINIT_INT, 1⟩ }, p)
  | 11 => some ({ yy1 with idxType := ⟨yy1.ival, yy3.ival, 1⟩ }, p)
  | 12 => some ({ yy1 with ival := atoi p.scan.token }, p)
  | _ => some (yy1, p)

/-- How a turn leaves the parser. -/
inductive Turn where
  | goOn (p : IdxParser)
  | accept (p : IdxParser)
  | abort (p : IdxParser)
  deriving DecidableEq, Repr

/-- `yy_stack`: a state and a value are pushed, unless the stack is full. -/
def yyStack (p : IdxParser) (state : Nat) (yyval : YyStype) : Turn :=
  if YYMAXDEPTH ≤ p.stack.length then .abort p
  else .goOn { p with stack := ⟨state, yyval⟩ :: p.stack }

def lookahead (p : IdxParser) : Nat × IdxParser :=
  match p.yychar with
  | some c => (c, p)
  | none =>
    let (c, scan) := yylex p.scan
    (c, { p with yychar := some c, scan })

/-- The value `$i` of a rule of a given length. -/
def operand (stack : List Entry) (len i : Nat) : YyStype :=
  ((stack[len - i]?).map Entry.val).getD .zero

def reduce (p : IdxParser) (rule : Nat) : Turn :=
  let len := yyr2.getD rule 0 / 2
  let rest := p.stack.drop len
  let state := gotoState (yyr1.getD rule 0) ((rest.head?.map Entry.state).getD 0)
  match action rule (operand p.stack len 1) (operand p.stack len 2) (operand p.stack len 3) p with
  | none => .abort p
  | some (yyval, p) => yyStack { p with stack := rest } state yyval

/-- `yydefault`. State 1 is the only one with an exception: it accepts at the
end of the text. No rule has an error token, so an error ends the parse. -/
def yyDefault (p : IdxParser) (state : Nat) : Turn :=
  match yydef.getD state 0 with
  | -2 => if (lookahead p).1 = 0 then .accept (lookahead p).2 else .abort p
  | 0 => .abort p
  | rule => reduce p rule.toNat

def yyTurn (p : IdxParser) : Turn :=
  let state := (p.stack.head?.map Entry.state).getD 0
  if yypact.getD state YYFLAG ≤ YYFLAG then yyDefault p state
  else
    let (c, p) := lookahead p
    match shift state c with
    | some next => yyStack { p with yychar := none } next .zero
    | none => yyDefault p state

/-- The loop of `idxparse`: whether it accepts, or `none` if it has not ended in
time. -/
def idxLoop : Nat → IdxParser → Option (Bool × IdxParser)
  | 0, _ => none
  | fuel + 1, p =>
    match yyTurn p with
    | .goOn p => idxLoop fuel p
    | .accept p => some (true, p)
    | .abort p => some (false, p)

def idxparse (fuel : Nat) (scan : Scan) (maxJLimit : Int) : Option (Bool × IdxParser) :=
  idxLoop fuel { stack := [⟨0, .zero⟩], yychar := none, scan, idxList := [], maxJLimit }

/-- The `LSBE_` codes that `parseJobArrayIndex` sets. -/
inductive IdxError where
  | noError
  | badJob
  | badIdx
  | bigIdx
  deriving DecidableEq, Repr

def LSB_MAX_ARRAY_IDX : Int := 0xFFFF

/-- What `parseJobArrayIndex` leaves: the list, `NULL` being the empty one,
`*error` and `*maxJLimit`. -/
structure ParsedIndex where
  idxList : List IdxRange
  error : IdxError
  maxJLimit : Int
  deriving DecidableEq, Repr

/-- What the checks depend on besides the list. -/
structure MbdStage where
  replay : Bool
  maxJobArraySize : Int
  deriving DecidableEq, Repr

def closeRange (env : MbdStage) (idx : IdxRange) : IdxRange :=
  if idx.end_ = INFINIT_INT then
    { idx with
      end_ := toInt32 (idx.start + toInt32 (toInt32 (env.maxJobArraySize - 1) * idx.step)) }
  else idx

def rangeError (env : MbdStage) (idx : IdxRange) (error : IdxError) : IdxError :=
  let error := if idx.start < 1 ∨ idx.step < 1 then .badIdx else error
  let error := if idx.start > idx.end_ then .badIdx else error
  if !env.replay ∧ idx.end_ ≥ LSB_MAX_ARRAY_IDX then .bigIdx else error

def rangeSize (idx : IdxRange) : Int :=
  toInt32 (Int.tdiv (toInt32 (idx.end_ - idx.start)) idx.step + 1)

/-- The loop over the ranges: `*error` and `arraySize`. -/
def checkRanges (env : MbdStage) : List IdxRange → IdxError × Int → IdxError × Int
  | [], acc => acc
  | idx :: rest, (error, arraySize) =>
    checkRanges env rest (rangeError env idx error, toInt32 (arraySize + rangeSize idx))

def parseJobArrayIndex (env : MbdStage) (fuel : Nat) (token jobName : List Char)
    (maxJLimit : Int) : Option ParsedIndex :=
  match jobName.dropWhile (· ≠ '[') with
  | [] => some ⟨[], .noError, maxJLimit⟩
  | index =>
    match idxparse fuel ⟨index, token⟩ INFINIT_INT with
    | none => none
    | some (false, p) => some ⟨[], .badJob, p.maxJLimit⟩
    | some (true, p) =>
      let idxList := p.idxList.map (closeRange env)
      let (error, arraySize) := checkRanges env idxList (.noError, 0)
      let error := if !env.replay ∧ arraySize > env.maxJobArraySize then .bigIdx else error
      if error = .noError then some ⟨idxList, .noError, p.maxJLimit⟩
      else some ⟨[], error, p.maxJLimit⟩

end Jhlava.JobArray
