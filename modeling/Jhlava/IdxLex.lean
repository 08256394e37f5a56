import Jhlava.CValues

/-! The scanner that the index lists of job arrays are read with: `yylex` of
callex.c, after the rules of cal.l. Token codes and characters share one number
space, as in the source. -/
namespace Jhlava.JobArray

def ICON : Nat := 1
def RCON : Nat := 2
def OR : Nat := 29
def AND : Nat := 30
def LE : Nat := 31
def GE : Nat := 32
def EQ : Nat := 33
def DOTS : Nat := 34
def ESTRING : Nat := 37
def NAME : Nat := 38

/-- The reserved words; the search in the table is by the word in lower case. -/
def rwtable : List (String × Nat) :=
  [("apr", 14), ("april", 14), ("aug", 18), ("august", 18), ("dates", 40), ("day", 28),
   ("dec", 22), ("december", 22), ("feb", 12), ("february", 12), ("fri", 8), ("friday", 8),
   ("fy", 24), ("h", 35), ("jan", 11), ("january", 11), ("jul", 17), ("july", 17), ("jun", 16),
   ("june", 16), ("m", 36), ("mar", 13), ("march", 13), ("may", 15), ("mon", 4), ("monday", 4),
   ("month", 26), ("nov", 21), ("november", 21), ("oct", 20), ("october", 20), ("quarter", 27),
   ("range", 39), ("sat", 9), ("saturday", 9), ("sep", 19), ("september", 19), ("sun", 10),
   ("sunday", 10), ("thu", 7), ("thursday", 7), ("tue", 5), ("tuesday", 5), ("wed", 6),
   ("wednesday", 6), ("week", 25), ("yy", 23), ("zzzz", 41)]

/-- What the scanner keeps between two calls: the rest of `yybuff`, and `token`,
which only some of the tokens set. -/
structure Scan where
  yybuff : List Char
  token : List Char
  deriving DecidableEq, Repr

def isLetter (c : Char) : Bool := ('a' ≤ c && c ≤ 'z') || ('A' ≤ c && c ≤ 'Z')

def isLetterOrDigit (c : Char) : Bool := isLetter c || c.isDigit || c == '_'

def pastLast (q : Char) : List Char → Option (List Char)
  | [] => none
  | c :: cs =>
    if c = '\n' then none
    else match pastLast q cs with
      | some rest => some rest
      | none => if c = q then some cs else none

def pastComment : List Char → Option (List Char)
  | [] => none
  | c :: cs =>
    if c = '\n' then none
    else match pastComment cs with
      | some rest => some rest
      | none => if c = '*' && cs.head? == some '/' then some cs.tail else none

def skipBlanks : Nat → List Char → List Char
  | 0, cs => cs
  | _ + 1, [] => []
  | fuel + 1, c :: cs =>
    if c = ' ' || c = '\t' || c = '\n' || c = '#' then skipBlanks fuel cs
    else if c = '/' && cs.head? == some '*' then
      match pastComment cs.tail with
      | some rest => skipBlanks fuel rest
      | none => c :: cs
    else c :: cs

/-- `screen`: the code of a word, and whether it is put in `token`. -/
def screen (yytext : List Char) : Nat × Bool :=
  match rwtable.lookup (String.ofList (yytext.map Char.toLower)) with
  | some code => (code, false)
  | none => (NAME, true)

def pairToken : Char → Char → Option Nat
  | '|', '|' => some OR
  | '&', '&' => some AND
  | '<', '=' => some LE
  | '>', '=' => some GE
  | '=', '=' => some EQ
  | '.', '.' => some DOTS
  | _, _ => none

/-- A number: without a point `ICON`, with one `RCON`. -/
def scanNumber (cs : List Char) : Nat × Scan :=
  let digits := cs.takeWhile Char.isDigit
  match cs.dropWhile Char.isDigit with
  | '.' :: rest =>
    (RCON, ⟨rest.dropWhile Char.isDigit, digits ++ '.' :: rest.takeWhile Char.isDigit⟩)
  | rest => (ICON, ⟨rest, digits⟩)

def scanToken (token : List Char) (c : Char) (cs : List Char) : Nat × Scan :=
  if isLetter c then
    let yytext := c :: cs.takeWhile isLetterOrDigit
    let (code, kept) := screen yytext
    (code, ⟨cs.dropWhile isLetterOrDigit, if kept then yytext else token⟩)
  else if c.isDigit then scanNumber (c :: cs)
  -- a single or a double quote
  else match (if c.toNat = 39 || c.toNat = 34 then pastLast c cs else none) with
    | some rest => (ESTRING, ⟨rest, c :: cs.take (cs.length - rest.length)⟩)
    | none => match cs.head?.bind (pairToken c) with
      | some code => (code, ⟨cs.tail, token⟩)
      | none => (c.toNat, ⟨cs, token⟩)

/-- `yylex`; at the end of the text the code is zero. -/
def yylex (s : Scan) : Nat × Scan :=
  match skipBlanks s.yybuff.length s.yybuff with
  | [] => (0, ⟨[], s.token⟩)
  | c :: cs => scanToken s.token c cs

end Jhlava.JobArray
