import Jhlava.CValues
import Jhlava.MbdBackfill

/-! `getNumSlots` and `getNumProcs` of mbd.policy.c: how many slots a pending job
gets on which of its candidate hosts. -/
namespace Jhlava.Mbd
open CValues CFloat

/-! The job and its candidate hosts -/

/-- The part of the resource requirement that `span[]` sets; no `pTile` is
`INFINIT_INT`. -/
structure ResVal where
  maxNumHosts : Int
  pTile : Option Int
  deriving DecidableEq, Repr

/-- A host asked for; `first` when its priority is `FIRST_HOST_PRIORITY`. -/
structure AskedHost where
  hostId : Nat
  first : Bool
  deriving DecidableEq, Repr

/-- A pending job that `checkIfJobIsReady` let through. `numSlots` and
`numAvailSlots` are what the limits of its queue and user leave; the fields
that start with `q` are those of the queue. -/
structure PendJob where
  jp : JData
  resValPtr : Option ResVal
  qResValPtr : Option ResVal
  askedPtr : List AskedHost
  qAskedPtr : List AskedHost
  numSlots : Nat
  numAvailSlots : Nat
  wants : 0 < jp.jobBill.numProcessors
  wants_le : jp.jobBill.numProcessors ≤ jp.jobBill.maxNumProcessors
  avail_le : numAvailSlots ≤ numSlots

namespace PendJob

def numProcessors (j : PendJob) : Nat := j.jp.jobBill.numProcessors

def maxNumProcessors (j : PendJob) : Nat := j.jp.jobBill.maxNumProcessors

end PendJob

def allInOne (j : PendJob) : Bool :=
  j.resValPtr.any (·.maxNumHosts = 1) ||
    (j.resValPtr.all (·.pTile.isNone) && j.qResValPtr.any (·.maxNumHosts = 1))

def needHandleFirstHost (j : PendJob) : Nat :=
  match j.askedPtr, j.qAskedPtr with
  | asked :: _, _ => if asked.first then asked.hostId else 0
  | [], asked :: _ => if asked.first then asked.hostId else 0
  | [], [] => 0

/-- `HAS_HOST_PREFERNECE` -/
def hasHostPreference (j : PendJob) : Bool := j.askedPtr ≠ [] || j.qAskedPtr ≠ []

structure CandBackfillee where
  backfilleePtr : Nat
  predictedStartTime : Int
  backfillSlots : Nat
  deriving DecidableEq, Repr

/-- An entry of `candPtr`, with what is read of its host. -/
structure Cand where
  hData : Nat
  maxJobs : Int
  numRESERVE : Int
  cpuFactor : Rat
  numSlots : Nat
  numAvailSlots : Nat
  numNonBackfillSlots : Int
  numAvailNonBackfillSlots : Int
  backfilleeList : Option (List CandBackfillee)
  deriving DecidableEq, Repr

/-- What `getNumSlots` leaves in the job. -/
structure Slots where
  numSlots : Nat
  numAvailSlots : Nat
  candPtr : List Cand
  deriving DecidableEq, Repr

/-! `getNumSlots` -/

def capCand (j : PendJob) (c : Cand) : Cand :=
  { c with
    numSlots := min c.numSlots j.numSlots
    numAvailSlots := min (min c.numAvailSlots (min c.numSlots j.numSlots)) j.numAvailSlots }

def choosesHost (j : PendJob) : Bool := allInOne j && needHandleFirstHost j = 0

def countCand (j : PendJob) (sl : Slots) (cand : Cand) : Slots :=
  let c := capCand j cand
  if choosesHost j then
    if (sl.numSlots = 0 ∧ c.numSlots > 0) ∨
        (sl.numSlots ≠ 0 ∧ sl.numSlots < j.numProcessors ∧ c.numSlots ≥ j.numProcessors) then
      ⟨c.numSlots, c.numAvailSlots, c :: sl.candPtr⟩
    else { sl with candPtr := sl.candPtr ++ [c] }
  else
    ⟨sl.numSlots + c.numSlots, sl.numAvailSlots + c.numAvailSlots, sl.candPtr ++ [c]⟩

def getNumSlots (j : PendJob) (candPtr : List Cand) : Slots :=
  let sl := candPtr.foldl (countCand j) ⟨0, 0, []⟩
  { sl with
    numSlots := min j.numSlots sl.numSlots
    numAvailSlots := min j.numAvailSlots sl.numAvailSlots }

/-! `getNumProcs` -/

structure ExecBackfillee where
  backfilleePtr : Nat
  backfillSlots : Int
  deriving DecidableEq, Repr

/-- An entry of `execCandPtr`. -/
structure ExecCand where
  hData : Option Nat
  numSlots : Int
  numAvailSlots : Int
  backfilleeList : Option (List ExecBackfillee)
  deriving DecidableEq, Repr

/-- What `getNumProcs` leaves in the job. -/
structure Procs where
  numEligProc : Int
  numAvailEligProc : Int
  execCandPtr : List ExecCand
  deriving DecidableEq, Repr

def Cand.full (c : Cand) : Bool := c.maxJobs ≤ c.numRESERVE

/-- The limits the loops of `getNumProcs` compare with. -/
structure Limits where
  numSlots : Int
  numAvailSlots : Int
  numProcessors : Int
  maxNumProcessors : Int

/-- Available slots, host by host: `numAvailEligProc` and the entries made. -/
def takeAvail (l : Limits) : Int → List Cand → Int × List ExecCand
  | t, [] => (t, [])
  | t, c :: cs =>
    if t < l.numAvailSlots ∧ t < l.maxNumProcessors then
      let nAvailSlots :=
        min (min (c.numAvailSlots : Int) (l.maxNumProcessors - t)) (l.numAvailSlots - t)
      let rest := takeAvail l (t + nAvailSlots) cs
      (rest.1, ⟨some c.hData, nAvailSlots, nAvailSlots, none⟩ :: rest.2)
    else (t, [])

def raiseExec (l : Limits) : Int → List Cand → List ExecCand → Int × List ExecCand
  | e, c :: cs, x :: xs =>
    if e < l.numSlots ∧ e < l.numProcessors then
      let nSlots :=
        if c.full then 0 else min ((c.numSlots : Int) - x.numAvailSlots) (l.numProcessors - e)
      let rest := raiseExec l (e + nSlots) cs xs
      (rest.1, { x with numSlots := x.numSlots + nSlots } :: rest.2)
    else (e, x :: xs)
  | e, _, xs => (e, xs)

def addExec (l : Limits) : Int → List Cand → Int × List ExecCand
  | e, [] => (e, [])
  | e, c :: cs =>
    if e < l.numSlots ∧ e < l.numProcessors then
      if c.full then
        let rest := addExec l e cs
        (rest.1, ⟨none, 0, 0, none⟩ :: rest.2)
      else
        let nSlots := min (c.numSlots : Int) (l.numProcessors - e)
        let rest := addExec l (e + nSlots) cs
        (rest.1, ⟨some c.hData, nSlots, min (c.numAvailSlots : Int) nSlots, none⟩ :: rest.2)
    else (e, [])

def plainProcs (l : Limits) (cands : List Cand) : Procs :=
  let avail := takeAvail l 0 cands
  if avail.1 < l.numProcessors then
    let raised := raiseExec l avail.1 cands avail.2
    let added := addExec l raised.1 (cands.drop avail.2.length)
    ⟨added.1, avail.1, raised.2 ++ added.2⟩
  else ⟨avail.1, avail.1, avail.2⟩

def jobHasBackfillee (cands : List Cand) : Bool := cands.any (·.backfilleeList.isSome)

/-- The backfillees of one host, until `numAvailSlots` are covered. -/
def coverBackfillees (numAvailSlots : Int) : Int → List CandBackfillee → List ExecBackfillee
  | _, [] => []
  | nSlots, b :: bs =>
    let n := min (numAvailSlots - nSlots) b.backfillSlots
    ⟨b.backfilleePtr, n⟩ ::
      if nSlots + n = numAvailSlots then [] else coverBackfillees numAvailSlots (nSlots + n) bs

def getBackfillSlotsOnExecCandHost (cands : List Cand) (execs : List ExecCand) : List ExecCand :=
  List.zipWith
    (fun c x =>
      match c.backfilleeList with
      | some (b :: bs) =>
        { x with backfilleeList := some (coverBackfillees x.numAvailSlots 0 (b :: bs)) }
      | _ => x)
    cands execs

/-- What an index past the end of `candPtr` is taken to read. -/
def noCand : Cand := ⟨0, 0, 0, 1, 0, 0, 0, 0, none⟩

/-- One backfillee of the loop of `removeBackfillSlotsFromBackfiller`, with the
totals removed so far. -/
def removeBackfillSlots (c : Cand) (r : ExecCand × Int × Int) (b : ExecBackfillee) :
    ExecCand × Int × Int :=
  let nonBackfillSlotsUsed := r.1.numSlots - b.backfillSlots
  let availNonBackfillSlotsUsed := r.1.numAvailSlots - b.backfillSlots
  let nonBackfillSlotsUnused := c.numNonBackfillSlots - nonBackfillSlotsUsed
  let availNonBackfillSlotsUnused := c.numAvailNonBackfillSlots - availNonBackfillSlotsUsed
  let numSlotsToRemove := max 0 (b.backfillSlots - nonBackfillSlotsUnused)
  let numAvailSlotsToRemove := max 0 (b.backfillSlots - availNonBackfillSlotsUnused)
  ({ r.1 with
      numSlots := r.1.numSlots - numSlotsToRemove
      numAvailSlots := r.1.numAvailSlots - numAvailSlotsToRemove },
    r.2.1 + numSlotsToRemove, r.2.2 + numAvailSlotsToRemove)

def removeFromExec (cands : List Cand) (x : ExecCand) : ExecCand × Int × Int :=
  match x.backfilleeList with
  | none => (x, 0, 0)
  | some bs =>
    let c := (cands.find? fun c => x.hData = some c.hData).getD noCand
    bs.foldl (removeBackfillSlots c) (x, 0, 0)

def removeBackfillSlotsFromBackfiller (cands : List Cand) (p : Procs) : Procs :=
  let removed := p.execCandPtr.map (removeFromExec cands)
  { execCandPtr := removed.map (·.1)
    numEligProc := p.numEligProc - (removed.map (·.2.1)).sum
    numAvailEligProc := p.numAvailEligProc - (removed.map (·.2.2)).sum }

/-- `freeBackfillSlotsFromBackfillee`, on the other branch, only changes the
reservations of the backfillees. -/
def doBackfill (l : Limits) (cands : List Cand) (p : Procs) : Procs :=
  if p.numEligProc ≥ l.numProcessors then p else removeBackfillSlotsFromBackfiller cands p

/-! The branch that asks the backfillees first -/

def candAt (cands : List Cand) (i : Nat) : Cand := cands.getD i noCand

def startsAfter (cf : Config) (now : Int) (jp : JData) (c : Cand) (b : CandBackfillee) : Int :=
  toInt32 (b.predictedStartTime - floatToInt (finishTime cf now jp c.cpuFactor))

def insertIntoSortedBackfilleeList (diff : Nat × CandBackfillee → Int)
    (item : Nat × CandBackfillee) : List (Nat × CandBackfillee) → List (Nat × CandBackfillee)
  | [] => [item]
  | entry :: entries =>
    if diff item < diff entry then item :: entry :: entries
    else entry :: insertIntoSortedBackfilleeList diff item entries

/-- All backfillees, each with the index of its host in `candPtr`. -/
def backfilleesOf (cands : List Cand) : List (Nat × CandBackfillee) :=
  cands.zipIdx.flatMap fun p => (p.1.backfilleeList.getD []).map (p.2, ·)

def sortBackfillee (cf : Config) (now : Int) (jp : JData) (cands : List Cand) :
    List (Nat × CandBackfillee) :=
  (backfilleesOf cands).foldl
    (fun sorted item =>
      insertIntoSortedBackfilleeList
        (fun b => startsAfter cf now jp (candAt cands b.1) b.2) item sorted)
    []

structure BackfillCand where
  indexInCandHostList : Nat
  numSlots : Int
  numAvailSlots : Int
  backfilleeList : Option (List ExecBackfillee)
  deriving DecidableEq, Repr

def noteBackfillee (bs : Option (List ExecBackfillee)) (b : CandBackfillee) (slotsToUse : Int) :
    Option (List ExecBackfillee) :=
  some (bs.getD [] ++ if slotsToUse ≠ 0 then [⟨b.backfilleePtr, slotsToUse⟩] else [])

def bookBackfillee (i : Nat) (b : CandBackfillee) (maxSlots slotsToUse : Int) :
    List BackfillCand → Int × List BackfillCand
  | [] => (slotsToUse, [⟨i, slotsToUse, slotsToUse, noteBackfillee none b slotsToUse⟩])
  | x :: xs =>
    if x.indexInCandHostList = i then
      let slotsToUse := min slotsToUse (maxSlots - x.numAvailSlots)
      (slotsToUse,
        { x with
          numAvailSlots := x.numAvailSlots + slotsToUse
          numSlots := x.numAvailSlots + slotsToUse
          backfilleeList := noteBackfillee x.backfilleeList b slotsToUse } :: xs)
    else
      let rest := bookBackfillee i b maxSlots slotsToUse xs
      (rest.1, x :: rest.2)

def takeBackfillees (l : Limits) (cands : List Cand) :
    Int → List BackfillCand → List (Nat × CandBackfillee) → Int × List BackfillCand
  | t, xs, [] => (t, xs)
  | t, xs, (i, b) :: bs =>
    if t < l.numAvailSlots ∧ t < l.maxNumProcessors then
      let maxSlots : Int := (candAt cands i).numAvailSlots
      let backfillSlots := min (b.backfillSlots : Int) (l.maxNumProcessors - t)
      let booked := bookBackfillee i b maxSlots (min maxSlots backfillSlots) xs
      takeBackfillees l cands (t + booked.1) booked.2 bs
    else (t, xs)

def fillBackfillCands (l : Limits) (cands : List Cand) :
    Int → List BackfillCand → Int × List BackfillCand
  | t, [] => (t, [])
  | t, x :: xs =>
    if t < l.numAvailSlots ∧ t < l.maxNumProcessors then
      let nAvailSlots := min ((candAt cands x.indexInCandHostList).numAvailSlots -
        x.numAvailSlots) (l.maxNumProcessors - t)
      let filled :=
        if nAvailSlots = 0 then x
        else
          { x with
            numAvailSlots := x.numAvailSlots + nAvailSlots
            numSlots := x.numAvailSlots + nAvailSlots }
      let rest := fillBackfillCands l cands (t + nAvailSlots) xs
      (rest.1, filled :: rest.2)
    else (t, x :: xs)

def candHostInBackfillCandList (xs : List BackfillCand) (i : Nat) : Bool :=
  xs.any (·.indexInCandHostList = i)

def addAvailCands (l : Limits) :
    Int → List BackfillCand → List (Cand × Nat) → Int × List BackfillCand
  | t, xs, [] => (t, xs)
  | t, xs, (c, i) :: cs =>
    if t < l.numAvailSlots ∧ t < l.maxNumProcessors then
      if candHostInBackfillCandList xs i ∨ c.numAvailSlots = 0 then addAvailCands l t xs cs
      else
        let nAvailSlots := min (c.numAvailSlots : Int) (l.maxNumProcessors - t)
        addAvailCands l (t + nAvailSlots) (xs ++ [⟨i, nAvailSlots, nAvailSlots, none⟩]) cs
    else (t, xs)

def raiseBackfillCands (l : Limits) (cands : List Cand) :
    Int → List BackfillCand → Int × List BackfillCand
  | e, [] => (e, [])
  | e, x :: xs =>
    if e < l.numSlots ∧ e < l.numProcessors then
      let nSlots := min ((candAt cands x.indexInCandHostList).numSlots - x.numSlots)
        (l.maxNumProcessors - e)
      let rest := raiseBackfillCands l cands (e + nSlots) xs
      (rest.1, { x with numSlots := x.numSlots + nSlots } :: rest.2)
    else (e, x :: xs)

def addSlotCands (l : Limits) :
    Int → List BackfillCand → List (Cand × Nat) → Int × List BackfillCand
  | e, xs, [] => (e, xs)
  | e, xs, (c, i) :: cs =>
    if e < l.numSlots ∧ e < l.numProcessors then
      if candHostInBackfillCandList xs i ∨ c.numSlots = 0 then addSlotCands l e xs cs
      else
        let nSlots := min (c.numSlots : Int) (l.maxNumProcessors - e)
        addSlotCands l (e + nSlots)
          (xs ++ [⟨i, nSlots, min (c.numAvailSlots : Int) nSlots, none⟩]) cs
    else (e, xs)

def execOf (cands : List Cand) (x : BackfillCand) : ExecCand :=
  ⟨some (candAt cands x.indexInCandHostList).hData, x.numSlots, x.numAvailSlots,
    x.backfilleeList⟩

def backfillAvail (l : Limits) (cands : List Cand) (sorted : List (Nat × CandBackfillee)) :
    Int × List BackfillCand :=
  let taken := takeBackfillees l cands 0 [] sorted
  let filled := fillBackfillCands l cands taken.1 taken.2
  addAvailCands l filled.1 filled.2 cands.zipIdx

def backfillProcs (l : Limits) (cands : List Cand) (sorted : List (Nat × CandBackfillee)) :
    Procs :=
  let avail := backfillAvail l cands sorted
  if avail.1 < l.numProcessors then
    let raised := raiseBackfillCands l cands avail.1 avail.2
    let added := addSlotCands l raised.1 raised.2 cands.zipIdx
    ⟨added.1, avail.1, added.2.map (execOf cands)⟩
  else ⟨avail.1, avail.1, avail.2.map (execOf cands)⟩

def limitsOf (j : PendJob) (sl : Slots) : Limits :=
  ⟨sl.numSlots, sl.numAvailSlots, j.numProcessors, j.maxNumProcessors⟩

def placedByBackfill (cf : Config) (j : PendJob) : Bool :=
  jobCanBackfill cf j.jp && !hasHostPreference j && !allInOne j

def getNumProcs (cf : Config) (now : Int) (j : PendJob) (sl : Slots) : Procs :=
  let l := limitsOf j sl
  let cands := sl.candPtr
  if placedByBackfill cf j && jobHasBackfillee cands then
    doBackfill l cands (backfillProcs l cands (sortBackfillee cf now j.jp cands))
  else
    let p := plainProcs l cands
    if jobCanBackfill cf j.jp && jobHasBackfillee cands then
      doBackfill l cands
        { p with execCandPtr := getBackfillSlotsOnExecCandHost cands p.execCandPtr }
    else p

end Jhlava.Mbd
