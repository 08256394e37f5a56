import Jhlava.CFormat

/-! The index of the job ids in the event files, lsb.log.c and lsb.misc.c: `updateJobIdIndexFile`
writes a row for each event file, the oldest first, and `getNextFileNumFromIndexS` reads the rows
to find the files of the jobs that are asked for. -/
namespace Jhlava.JobIndex
open CValues CFormat TextScan

/-! ### Writing -/

/-- The list of `initSortIntList(0)`, the greatest value first. -/
def insertSortIntList (value : Int32) : List Int32 → List Int32
  | [] => [value]
  | v :: list =>
    if v = value then v :: list
    else if v < value then value :: v :: list
    else v :: insertSortIntList value list

/-- What `getJobIdIndexFromEventFile` finds in an event file. A row is read with its size in bytes
in an `int`. -/
structure EventFile where
  timeStamp : Int32
  jobIds : List Int32
  few : jobIds.length < 2 ^ 29

def jobIdList (e : EventFile) : List Int32 :=
  e.jobIds.foldl (fun list jobId => insertSortIntList jobId list) []

/-- The order in which the arguments of a call are evaluated, which C leaves open. -/
inductive ArgOrder where
  | leftToRight
  | rightToLeft
  deriving DecidableEq, Repr

def getMinSortIntList (list : List Int32) : Int32 := list.getLast?.getD 0

def getMaxSortIntList (list : List Int32) : Int32 := list.head?.getD 0

/-- `lsb_jobidinstr(minJobId), lsb_jobidinstr(maxJobId)`: both have the address of one buffer, with
the number that was put there last. -/
def boundsText (order : ArgOrder) (list : List Int32) : Int32 :=
  match order with
  | .leftToRight => getMaxSortIntList list
  | .rightToLeft => getMinSortIntList list

/-- The job ids of a row, ten on a line, from the column `col` on. -/
def idLines : Nat → List Int32 → Text
  | col, [] => if col = 0 then [] else ['\n']
  | col, jobId :: list =>
    (if col = 0 then printD jobId.toInt else ' ' :: printD jobId.toInt) ++
      if col + 1 = 10 then '\n' :: idLines 0 list else idLines (col + 1) list

def writeJobIdIndexToIndexFile (order : ArgOrder) (e : EventFile) : Text :=
  '#' :: printD e.timeStamp.toInt ++
    (' ' :: printD (jobIdList e).length ++
      (' ' :: printD (boundsText order (jobIdList e)).toInt ++
        (' ' :: printD (boundsText order (jobIdList e)).toInt ++
          '\n' :: idLines 0 (jobIdList e))))

/-- The index file: the number of rows in the header of 80 characters, and what is behind it. -/
structure IndexFile where
  rows : Nat
  body : Text
  deriving DecidableEq, Repr

/-- The rows of the files `i`, ..., 1, where the first of the list is the file 1. -/
def writeRows (order : ArgOrder) (files : List EventFile) : Text :=
  files.reverse.flatMap (writeJobIdIndexToIndexFile order)

def updateJobIdIndexFile (order : ArgOrder) (index : Option IndexFile)
    (eventFile : List EventFile) : IndexFile :=
  match index with
  | some index =>
    if eventFile.length = index.rows + 1 then
      ⟨index.rows + 1, index.body ++ writeRows order (eventFile.take 1)⟩
    else ⟨eventFile.length, writeRows order eventFile⟩
  | none => ⟨eventFile.length, writeRows order eventFile⟩

def indexAfter (order : ArgOrder) (first : List EventFile) (later : List (List EventFile)) :
    IndexFile :=
  later.foldl (fun index files => updateJobIdIndexFile order (some index) files)
    (updateJobIdIndexFile order none first)

/-! ### Reading -/

/-- `%ld` and `%lld`. -/
def scanL (s : Text) : Option (Int × Text) :=
  let r := strtol s
  if r.stop = s then none else some (r.value, r.stop)

/-- The first line of a row. -/
structure RowHead where
  timeStamp : Int
  totalJobIds : Int32
  minJobId : Int
  maxJobId : Int
  deriving DecidableEq, Repr

/-- `"#%ld %d %lld %lld\n"`. -/
def scanHead : Text → Option (RowHead × Text)
  | '#' :: fp => do
      let (timeStamp, fp) ← scanL fp
      let (totalJobIds, fp) ← scanD fp
      let (minJobId, fp) ← scanL fp
      let (maxJobId, fp) ← scanL fp
      return (⟨timeStamp, totalJobIds, minJobId, maxJobId⟩, fp.dropWhile isspace)
  | _ => none

/-- A number of `%d`. -/
def scanIds : Nat → Text → Option (List Int32 × Text)
  | 0, fp => some ([], fp)
  | n + 1, fp => do
      let (jobId, fp) ← scanD fp
      let (jobIds, fp) ← scanIds n fp
      return (jobId :: jobIds, fp)

def readIds : Nat → Text → Option (List Int32 × Text)
  | n + 10, fp => do
      let (ten, fp) ← scanIds 10 fp
      let (rest, fp) ← readIds n (fp.dropWhile isspace)
      return (ten ++ rest, fp)
  | n, fp =>
    if n = 0 then some ([], fp)
    else do
      let (jobIds, fp) ← scanIds n fp
      return (jobIds, fp.dropWhile isspace)

/-- `LSB_ARRAY_JOBID`. -/
def lsbArrayJobid (jobId : Int64) : Int32 := if jobId = -1 then -1 else jobId.toInt32

def searchIds (jobId : Int32) : List Int32 → Bool
  | [] => false
  | id :: list =>
    if jobId = id then true
    else if jobId > id then false
    else searchIds jobId list

def rowHas (head : RowHead) (list : List Int32) (jobIds : List Int64) : Bool :=
  jobIds.any fun jobId =>
    let jobId := lsbArrayJobid jobId
    if jobId.toInt > head.maxJobId ∨ jobId.toInt < head.minJobId then false
    else searchIds jobId list

/-- `struct jobIdIndexS`: what is left of the file, and the row that was read last. -/
structure IndexS where
  fp : Text
  totalRows : Int
  curRow : Int
  deriving DecidableEq, Repr

def initJobIdIndexS (file : IndexFile) : IndexS := ⟨file.body, file.rows, 0⟩

/-- The answer of a call: the number of a file, 0 or -1. -/
inductive NextFile where
  | file (n : Int)
  | finished
  | failed
  deriving DecidableEq, Repr

/-- The loop of `getNextFileNumFromIndexS`; `rounds` is greater than the number of rows. -/
def getNextFileNumFromIndexS (jobIds : List Int64) : Nat → IndexS → NextFile × IndexS
  | 0, s => (.failed, s)
  | rounds + 1, s =>
    let curRow := s.curRow + 1
    if curRow = s.totalRows then (.finished, { s with curRow })
    else
      match scanHead s.fp with
      | none => (.failed, { s with curRow })
      | some (head, fp) =>
        if head.totalJobIds = 0 then
          getNextFileNumFromIndexS jobIds rounds { s with fp, curRow }
        else
          match readIds head.totalJobIds.toInt.toNat fp with
          | none => (.failed, { s with fp, curRow })
          | some (list, fp) =>
            if rowHas head list jobIds then
              (.file (s.totalRows - curRow + 1), { s with fp, curRow })
            else getNextFileNumFromIndexS jobIds rounds { s with fp, curRow }

def fileNumbers (jobIds : List Int64) : Nat → IndexS → List Int
  | 0, _ => []
  | calls + 1, s =>
    match getNextFileNumFromIndexS jobIds (s.fp.length + 1) s with
    | (.file n, s) => n :: fileNumbers jobIds calls s
    | _ => []

def filesFromIndex (file : IndexFile) (jobIds : List Int64) : List Int :=
  fileNumbers jobIds (file.body.length + 1) (initJobIdIndexS file)

end Jhlava.JobIndex
