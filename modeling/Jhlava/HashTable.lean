import Mathlib.Data.Finset.Card
import Jhlava.LinkedRing
import Jhlava.TransitionRun

/-! The hash table of lib.table.c: slots that head circular lists of entries,
and the finite map from keys to entries that it stands for. -/
namespace Jhlava.Table
open LinkedRing

abbrev Key := { cs : List Int8 // (0 : Int8) ∉ cs }

/-- What a `struct hLinks *` points to: a slot of one of the arrays the table
has had, or an entry. -/
inductive Addr where
  | slot (slotPtr i : Nat)
  | ent (e : Nat)
  deriving DecidableEq, Repr

/-- `hTab` and the memory behind it. `blocks` counts the entries allocated so
far, so it is the next one; `slotPtr` numbers the arrays of slots. -/
structure HTab where
  numEnts : Int
  size : Nat
  slotPtr : Nat
  links : Links Addr
  keyname : Nat → Key
  blocks : Nat

def primes : List Nat :=
  [101, 1009, 5009, 10007, 20011, 50021, 100003, 200003, 500009, 1030637]

/-- `getClosestPrime`; past the table it is the last prime. -/
def getClosestPrime (x : Int) : Nat := (primes.find? fun (p : Nat) => x < p).getD 1030637

/-- One turn of the loop of `getAddr`. The character is a signed `int`, the sum
an `unsigned int`. -/
def hashStep (size ha : Nat) (c : Int8) : Nat :=
  (ha * 128 + (c.toInt % 2 ^ 32).toNat) % 2 ^ 32 % size

def getAddr (size : Nat) (key : Key) : Nat := key.1.foldl (hashStep size) 0

/-- `h_initTab_` with a new array of slots. -/
def hInitTab (t : HTab) (slotPtr : Nat) (numSlots : Int) : HTab :=
  let size := getClosestPrime numSlots
  { t with
    numEnts := 0
    size
    slotPtr
    links := (List.range size).foldl (fun m i => m.init (.slot slotPtr i)) t.links }

/-- The loop of `h_findEnt` from an address on; `none` if it has not come to the
list head in time, or meets another one. -/
def hFindEnt (t : HTab) (key : Key) (hList : Addr) : Nat → Addr → Option (Option Nat)
  | 0, _ => none
  | fuel + 1, hEntPtr =>
    if hEntPtr = hList then some none
    else match hEntPtr with
      | .slot _ _ => none
      | .ent e =>
        if t.keyname e = key then some (some e)
        else hFindEnt t key hList fuel (t.links.bw hEntPtr)

def HTab.listOf (t : HTab) (key : Key) : Addr := .slot t.slotPtr (getAddr t.size key)

def findInList (t : HTab) (key : Key) : Option (Option Nat) :=
  hFindEnt t key (t.listOf key) (t.blocks + 1) (t.links.bw (t.listOf key))

def hGetEnt (t : HTab) (key : Key) : Option (Option Nat) :=
  if t.numEnts = 0 then some none else findInList t key

/-- The inner loop of `resetTab`: the entries of one old list move to the lists
of the new array. -/
def moveEntries (lastList : Addr) : Nat → HTab → Option HTab
  | 0, _ => none
  | fuel + 1, t =>
    if t.links.bw lastList = lastList then some t
    else match t.links.bw lastList with
      | .slot _ _ => none
      | .ent e =>
        let links := t.links.remove (.ent e)
        moveEntries lastList fuel
          { t with links := links.insert (.ent e) (t.listOf (t.keyname e))
                   numEnts := t.numEnts + 1 }

/-- `RESETFACTOR` is 2. -/
def resetTab (t : HTab) : Option HTab :=
  (List.range t.size).foldlM (fun t' i => moveEntries (.slot t.slotPtr i) (t'.blocks + 1) t')
    (hInitTab t (t.slotPtr + 1) (t.size * 2))

def newEnt (t : HTab) (key : Key) : HTab :=
  { t with
    keyname := Function.update t.keyname t.blocks key
    links := t.links.insert (.ent t.blocks) (t.listOf key)
    numEnts := t.numEnts + 1
    blocks := t.blocks + 1 }

/-- `h_addEnt_`: the entry and `*newPtr`. `RESETLIMIT` is 1.5. -/
def hAddEnt (t : HTab) (key : Key) : Option (HTab × Nat × Bool) := do
  match ← findInList t key with
  | some e => return (t, e, false)
  | none =>
    let t ← if 2 * t.numEnts ≥ 3 * t.size then resetTab t else some t
    return (newEnt t key, t.blocks, true)

/-- `h_delEnt_` and `h_rmEnt_`, which differ in what happens to the data of the
entry. -/
def dropEnt (t : HTab) : Option Nat → HTab
  | none => t
  | some e => { t with links := t.links.remove (.ent e), numEnts := t.numEnts - 1 }

def hDelEnt (t : HTab) (hEntPtr : Option Nat) : HTab := dropEnt t hEntPtr

def hRmEnt (t : HTab) (hEntPtr : Option Nat) : HTab := dropEnt t hEntPtr

inductive TabOp where
  | add (key : Key)
  | get (key : Key)
  | del (hEntPtr : Option Nat)
  | rm (hEntPtr : Option Nat)
  deriving DecidableEq

/-- What a call gives back: an entry, and for `h_addEnt_` the value of `*newPtr`. -/
structure TabOut where
  hEntPtr : Option Nat
  newPtr : Option Bool
  deriving DecidableEq, Repr

def TabOut.none : TabOut := ⟨Option.none, Option.none⟩

def tabStep (t : HTab) : TabOp → Option (HTab × TabOut)
  | .add key => (hAddEnt t key).map fun (t, e, new) => (t, ⟨some e, some new⟩)
  | .get key => (hGetEnt t key).map fun e => (t, ⟨e, none⟩)
  | .del e => some (hDelEnt t e, .none)
  | .rm e => some (hRmEnt t e, .none)

def tabRun (t : HTab) : List TabOp → Option (HTab × List TabOut)
  | [] => some (t, [])
  | op :: ops => do
      let (t, out) ← tabStep t op
      let (t, outs) ← tabRun t ops
      return (t, out :: outs)

/-- A table before `h_initTab_`: nothing is known of its memory. -/
def HTab.blank (links : Links Addr) (keyname : Nat → Key) : HTab :=
  { numEnts := 0, size := 0, slotPtr := 0, links, keyname, blocks := 0 }

/-- A finite map from keys to entries, with the number of the next entry. -/
structure KeyMap where
  entry : Key → Option Nat
  keys : Finset Key
  mem_keys : ∀ k, k ∈ keys ↔ entry k ≠ none
  next : Nat

namespace KeyMap

def empty : KeyMap := ⟨fun _ => none, ∅, by simp, 0⟩

def add (m : KeyMap) (key : Key) : KeyMap where
  entry := Function.update m.entry key (some m.next)
  keys := insert key m.keys
  mem_keys := by
    intro k
    by_cases eq : k = key
    · simp [eq]
    · simp [eq, m.mem_keys k]
  next := m.next + 1

def remove (m : KeyMap) (e : Nat) : KeyMap where
  entry := fun k => if m.entry k = some e then none else m.entry k
  keys := m.keys.filter fun k => m.entry k ≠ some e
  mem_keys := by
    intro k
    rw [Finset.mem_filter, m.mem_keys k]
    split
    · simp_all
    · simp_all
  next := m.next

def drop (m : KeyMap) : Option Nat → KeyMap
  | none => m
  | some e => m.remove e

def step (m : KeyMap) : TabOp → KeyMap
  | .add key => if m.entry key = none then m.add key else m
  | .get _ => m
  | .del e | .rm e => m.drop e

def out (m : KeyMap) : TabOp → TabOut
  | .add key =>
    match m.entry key with
    | some e => ⟨some e, some false⟩
    | none => ⟨some m.next, some true⟩
  | .get key => ⟨m.entry key, none⟩
  | .del _ | .rm _ => .none

def outs (m : KeyMap) : List TabOp → List TabOut
  | [] => []
  | op :: ops => m.out op :: outs (m.step op) ops

def Allowed (m : KeyMap) : TabOp → Prop
  | .del (some e) | .rm (some e) => ∃ k, m.entry k = some e
  | _ => True

end KeyMap

end Jhlava.Table
