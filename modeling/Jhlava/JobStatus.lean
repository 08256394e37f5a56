import Mathlib.Algebra.Order.Ring.Rat

/-! The status word of a job: the `JOB_STAT_*` bits of lsbatch.h and daemons.h,
and the macros that read and write them. -/
namespace Jhlava.Core
open BitVec

abbrev Status := BitVec 32

def jobStatNull : Status := 0x00
def jobStatPend : Status := 0x01
def jobStatPsusp : Status := 0x02
def jobStatRun : Status := 0x04
def jobStatSsusp : Status := 0x08
def jobStatUsusp : Status := 0x10
def jobStatExit : Status := 0x20
def jobStatDone : Status := 0x40
def jobStatPdone : Status := 0x80
def jobStatPerr : Status := 0x100
def jobStatWait : Status := 0x200
def jobStatUnkwn : Status := 0x10000

def maskIntJobStat : Status := 0x000FFFFF

def maskStatus (s : Status) : Status := s &&& maskIntJobStat

/-- `SET_STATE`. -/
def setState (s n : Status) : Status := (s &&& ~~~maskIntJobStat) ||| n

/-- The test `s & flag` of a condition. -/
def has (s flag : Status) : Bool := s &&& flag != 0

def isPend (s : Status) : Bool := has s jobStatPend || has s jobStatPsusp

def isStart (s : Status) : Bool := has s jobStatRun || has s jobStatSsusp || has s jobStatUsusp

def isFinish (s : Status) : Bool := has s jobStatDone || has s jobStatExit

/-- The bits above the mask, and `JOB_STAT_UNKWN`: they are set and cleared one by
one, by the code around the functions modelled here. -/
inductive Flag where
  | unkwn
  | void
  | rsrcPreemptWait
  | kill
  | modifyOnce
  | zombie
  | preExec
  | signal
  | chkpntedOnce
  | reserve
  | mig
  deriving DecidableEq, Repr

def Flag.bit : Flag → Status
  | unkwn => jobStatUnkwn
  | void => 0x00100000
  | rsrcPreemptWait => 0x00400000
  | kill => 0x00800000
  | modifyOnce => 0x01000000
  | zombie => 0x02000000
  | preExec => 0x04000000
  | signal => 0x08000000
  | chkpntedOnce => 0x10000000
  | reserve => 0x20000000
  | mig => 0x40000000

/-- `s |= flag`. -/
def Flag.set (f : Flag) (s : Status) : Status := s ||| f.bit

/-- `s &= ~flag`. -/
def Flag.clear (f : Flag) (s : Status) : Status := s &&& ~~~f.bit

/-! What the tests say of single bits. -/

theorem has_twoPow (s : Status) (i : Nat) : has s (BitVec.twoPow 32 i) = s.getLsbD i := by
  rw [has, and_twoPow]
  by_cases low : i < 32
  · cases s.getLsbD i with
    | false => simp
    | true =>
      have nonzero : BitVec.twoPow 32 i ≠ 0 := by
        intro zero
        have bit := congrArg (fun x : Status => x.getLsbD i) zero
        simp [low] at bit
      simpa using nonzero
  · rw [getLsbD_of_ge s i (by omega)]
    simp

theorem isPend_eq (s : Status) : isPend s = (s.getLsbD 0 || s.getLsbD 1) := by
  have psusp := has_twoPow s 1
  have pend := has_twoPow s 0
  rw [← psusp, ← pend]
  rfl

theorem isStart_eq (s : Status) : isStart s = (s.getLsbD 2 || s.getLsbD 3 || s.getLsbD 4) := by
  have run := has_twoPow s 2
  have ssusp := has_twoPow s 3
  have ususp := has_twoPow s 4
  rw [← run, ← ssusp, ← ususp]
  rfl

theorem isFinish_eq (s : Status) : isFinish s = (s.getLsbD 6 || s.getLsbD 5) := by
  have done := has_twoPow s 6
  have exit := has_twoPow s 5
  rw [← done, ← exit]
  rfl

def classes (s : Status) : Bool × Bool × Bool := (isPend s, isStart s, isFinish s)

theorem classes_congr {s t : Status} (same : ∀ i < 7, s.getLsbD i = t.getLsbD i) :
    classes s = classes t := by
  simp only [classes, isPend_eq, isStart_eq, isFinish_eq, same 0 (by omega), same 1 (by omega),
    same 2 (by omega), same 3 (by omega), same 4 (by omega), same 5 (by omega), same 6 (by omega)]

theorem getLsbD_maskIntJobStat {i : Nat} (low : i < 20) : maskIntJobStat.getLsbD i = true := by
  have table : ∀ j : Fin 20, maskIntJobStat.getLsbD j = true := by decide
  exact table ⟨i, low⟩

theorem Flag.getLsbD_bit (f : Flag) {i : Nat} (low : i < 7) : f.bit.getLsbD i = false := by
  have table : ∀ j : Fin 7, f.bit.getLsbD j = false := by cases f <;> decide
  exact table ⟨i, low⟩

@[simp] theorem classes_maskStatus (s : Status) : classes (maskStatus s) = classes s := by
  refine classes_congr fun i low => ?_
  rw [maskStatus, getLsbD_and, getLsbD_maskIntJobStat (by omega), Bool.and_true]

@[simp] theorem classes_setState (s n : Status) : classes (setState s n) = classes n := by
  refine classes_congr fun i low => ?_
  rw [setState, getLsbD_or, getLsbD_and, getLsbD_not, getLsbD_maskIntJobStat (by omega)]
  simp

@[simp] theorem classes_set (f : Flag) (s : Status) : classes (f.set s) = classes s := by
  refine classes_congr fun i low => ?_
  rw [Flag.set, getLsbD_or, f.getLsbD_bit low, Bool.or_false]

@[simp] theorem classes_clear (f : Flag) (s : Status) : classes (f.clear s) = classes s := by
  refine classes_congr fun i low => ?_
  rw [Flag.clear, getLsbD_and, getLsbD_not, f.getLsbD_bit low]
  simp
  omega

end Jhlava.Core
