import Jhlava.BitWords

/-! The bit sets of bitset.c. A set may have functions between its objects and their
indexes; without them an object is the address of an `int`, which `deref` reads. -/
namespace Jhlava.Bitset
open BitWords

variable {Obj : Type} (deref : Obj → Int32)

/-- The values of `bitseterrno` the functions below set. -/
inductive SetErr where
  | setEmpty
  | func
  | isAlready
  | einval
  deriving DecidableEq, Repr

/-- `LS_BITSET_T`, without its description and its observers. -/
structure LsBitset (Obj : Type) where
  bitmask : List (BitVec 32)
  setSize : Nat
  setWidth : Nat
  setNumElements : Nat
  getIndexByObject : Option (Obj → Int32) := none
  getObjectByIndex : Option (Nat → Option Obj) := none

def wordLength : Nat := 32
def setDefaultSize : Nat := wordLength
def setWordDefaultExtent : Nat := 2

/-- An `int` that is compared with an `unsigned int`. -/
def asUnsigned (x : Int32) : Nat := x.toUInt32.toNat

def setCreate (size : Int32) (directFunction : Option (Obj → Int32))
    (inverseFunction : Option (Nat → Option Obj)) : LsBitset Obj :=
  let sz := if size > 0 then size.toInt.toNat else setDefaultSize
  let setWidth := (sz + wordLength - 1) / wordLength
  { bitmask := List.replicate setWidth 0
    setSize := setWidth * wordLength % 2 ^ 32
    setWidth
    setNumElements := 0
    getIndexByObject := directFunction
    getObjectByIndex := inverseFunction }

def setDup (set : LsBitset Obj) : LsBitset Obj :=
  { set with bitmask := List.replicate set.setWidth 0 }

def setTestValue (set : LsBitset Obj) (value : Nat) : Bool := bit set.bitmask value

/-- `x` of an object; no result if the function of the set fails. -/
def LsBitset.index (set : LsBitset Obj) (obj : Obj) : Option Int32 :=
  match set.getIndexByObject with
  | none => some (deref obj)
  | some f => if f obj < 0 then none else some (f obj)

def setIsMember (set : LsBitset Obj) (obj : Obj) : Int :=
  if set.setNumElements = 0 then 0
  else
    match set.index deref obj with
    | none => -1
    | some x =>
      if set.setSize ≤ asUnsigned x then 0
      else if setTestValue set (asUnsigned x) then 1 else 0

def setEnlarge (set : LsBitset Obj) (newSize : Nat) : LsBitset Obj :=
  let setWidth := (set.setWidth + newSize + setWordDefaultExtent) % 2 ^ 32
  { set with
    setWidth
    bitmask := (set.bitmask ++ List.replicate (setWidth - set.setWidth) 0).take setWidth
    setSize := setWidth * wordLength % 2 ^ 32 }

/-- The end of `setAddElement`. -/
def LsBitset.enter (set : LsBitset Obj) (x : Nat) : LsBitset Obj :=
  { set with
    bitmask := setBit set.bitmask x
    setNumElements := (set.setNumElements + 1) % 2 ^ 32 }

def setAddElement (set : LsBitset Obj) (obj : Obj) : Option SetErr × LsBitset Obj :=
  match set.index deref obj with
  | none => (some .func, set)
  | some x =>
    if set.setSize ≤ asUnsigned x then (none, (setEnlarge set (asUnsigned x)).enter (asUnsigned x))
    else if setTestValue set (asUnsigned x) then (some .isAlready, set)
    else (none, set.enter (asUnsigned x))

/-- `setRemoveElement`. A negative index is not refused: the test is made on another
variable. -/
def setRemoveElement (set : LsBitset Obj) (obj : Obj) : Option SetErr × LsBitset Obj :=
  if set.setNumElements = 0 then (some .setEmpty, set)
  else
    let x := asUnsigned ((set.getIndexByObject.getD deref) obj)
    if set.setSize ≤ x then (none, set)
    else
      (none, { set with
        bitmask := clearBit set.bitmask x
        setNumElements := (set.setNumElements + 2 ^ 32 - 1) % 2 ^ 32 })

def setClear (set : LsBitset Obj) : LsBitset Obj :=
  { set with bitmask := List.replicate set.setWidth 0, setNumElements := 0 }

/-- The operations of `setOperate`; any other number is refused. -/
inductive SetOp where
  | union
  | intersect
  | difference
  | assign
  | other
  deriving DecidableEq, Repr

/-- The loops of `setOperate` over the words both sets have, and over the rest. -/
def combine (f : BitVec 32 → BitVec 32 → BitVec 32) (tail : BitVec 32 → BitVec 32)
    (d s : List (BitVec 32)) : List (BitVec 32) :=
  List.zipWith f d s ++ (d.drop s.length).map tail

def operateWords (op : SetOp) (d s : List (BitVec 32)) : List (BitVec 32) :=
  match op with
  | .union => combine (· ||| ·) id d s
  | .intersect => combine (· &&& ·) (fun _ => 0) d s
  | .difference => combine (· ^^^ ·) id d s
  | .assign => combine (fun _ w => w) (fun _ => 0) d s
  | .other => d

def setOperate (dest src : LsBitset Obj) (op : SetOp) : Option SetErr × LsBitset Obj :=
  if op = .other then (some .einval, dest)
  else
    let dest := if dest.setWidth < src.setWidth then setEnlarge dest src.setWidth else dest
    (none, { dest with bitmask := operateWords op dest.bitmask src.bitmask })

/-! ### Iterators -/

/-- What an iterator gives for an index; without a function it is the index itself, as a
pointer. -/
inductive Visit (Obj : Type) where
  | number (x : Nat)
  | object (obj : Obj)

/-- The object of an index; none stands for `NULL`. -/
def LsBitset.objectAt (set : LsBitset Obj) (x : Nat) : Option (Visit Obj) :=
  match set.getObjectByIndex with
  | none => if x = 0 then none else some (.number x)
  | some f => (f x).map .object

/-- The loop of `setIteratorGetNextElement`: what it returns and `setCurrentBit` after
it. -/
def nextElement (set : LsBitset Obj) : Nat → Nat → Option (Visit Obj) × Nat
  | 0, cur => (none, cur)
  | fuel + 1, cur =>
    if setTestValue set cur then
      match set.getObjectByIndex with
      | none => (set.objectAt cur, cur + 1)
      | some _ =>
        match set.objectAt cur with
        | none => (none, cur)
        | some object => (some object, cur + 1)
    else nextElement set fuel (cur + 1)

def setIteratorGetNextElement (set : LsBitset Obj) (setCurrentBit : Nat) :
    Option (Visit Obj) × Nat :=
  if set.setNumElements = 0 then (none, setCurrentBit)
  else nextElement set (set.setSize - setCurrentBit) setCurrentBit

/-- The loop of the callers, up to the first `NULL`: the indexes they get to and the
objects they get. -/
def iterate (set : LsBitset Obj) : Nat → Nat → List (Nat × Visit Obj)
  | 0, _ => []
  | fuel + 1, cur =>
    match setIteratorGetNextElement set cur with
    | (none, _) => []
    | (some object, cur) => (cur - 1, object) :: iterate set fuel cur

def visits (set : LsBitset Obj) : List (Nat × Visit Obj) := iterate set (set.setSize + 1) 0

/-! ### Programs that use sets -/

/-- Calls on the sets a program has, which are numbered in the order they were made. -/
inductive SetStep (Obj : Type) where
  | setCreate (size : Int32) (directFunction : Option (Obj → Int32))
      (inverseFunction : Option (Nat → Option Obj))
  | setAddElement (i : Nat) (obj : Obj)
  | setRemoveElement (i : Nat) (obj : Obj)
  | setDup (i : Nat)
  | setOperate (dest src : Nat) (op : SetOp)
  | setClear (i : Nat)

def setStep (sets : List (LsBitset Obj)) : SetStep Obj → List (LsBitset Obj)
  | .setCreate size f g => sets ++ [setCreate size f g]
  | .setAddElement i obj => sets.modify i fun set => (setAddElement deref set obj).2
  | .setRemoveElement i obj => sets.modify i fun set => (setRemoveElement deref set obj).2
  | .setDup i => sets ++ (sets[i]?.map setDup).toList
  | .setOperate dest src op =>
    match sets[src]? with
    | none => sets
    | some src => sets.modify dest fun dest => (setOperate dest src op).2
  | .setClear i => sets.modify i setClear

end Jhlava.Bitset
