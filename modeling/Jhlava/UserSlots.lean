import Jhlava.MbdAccounts

/-! The free slots of a user that `updUserData` of mbd.misc.c keeps in `numSlots`. -/
namespace Jhlava.Mbd
open List

def infinitSlots : Int := 2 ^ 31 - 1

/-- What `updUserData` reads of the configuration; a group is named by the number of its own
user record. -/
structure GroupConf where
  maxJobs : Nat → Int
  usergroups : List Nat
  nodup : usergroups.Nodup
  gMember : Nat → Nat → Bool

/-- The record of a user, which is not that of a group. -/
abbrev GroupConf.User (cf : GroupConf) := { up : Nat // up ∉ cf.usergroups }

def GroupConf.groupsOf (cf : GroupConf) (up : Nat) : List Nat :=
  cf.usergroups.filter (cf.gMember up)

/-- The counters and `numSlots` of every record; `gPtr` once `USER_INIT` is set. -/
structure SlotBook (cf : GroupConf) where
  count : Nat → Counters
  numSlots : Nat → Int
  gPtr : Nat → Option (List Nat)
  cached : ∀ up groups, gPtr up = some groups → groups = cf.groupsOf up

/-- The `maxJobs` of a record less what is in use. -/
def freeSlots (cf : GroupConf) (count : Nat → Counters) (up : Nat) : Int :=
  if cf.maxJobs up = infinitSlots then infinitSlots
  else cf.maxJobs up - count up .numRUN - count up .numSSUSP - count up .numUSUSP -
    count up .numRESERVE

def charge (num : Counters) (count : Nat → Counters) (up : Nat) : Nat → Counters :=
  Function.update count up (addValues CValues.toInt32 (count up) num)

def newJob (num : Counters) : Bool :=
  num .numRUN = 0 ∧ num .numSSUSP = 0 ∧ num .numUSUSP = 0 ∧ num .numRESERVE = 0

/-- One turn of the loop over `gPtr`. -/
def chargeGroup (cf : GroupConf) (num : Counters) (r : (Nat → Counters) × Int) (ugp : Nat) :
    (Nat → Counters) × Int :=
  let count := charge num r.1 ugp
  (count, if newJob num then r.2 else min (freeSlots cf count ugp) r.2)

variable {cf : GroupConf}

theorem SlotBook.getD_gPtr (b : SlotBook cf) (up : Nat) :
    (b.gPtr up).getD (cf.groupsOf up) = cf.groupsOf up := by
  cases known : b.gPtr up with
  | none => rfl
  | some groups => exact b.cached up groups known

/-- `updUserData` for a job of the user `up`. The local variable `numSlots` holds `junk` until it
is set; without groups the cache is passed over. -/
def updSlots (junk : Int) (b : SlotBook cf) (up : Nat) (num : Counters) : SlotBook cf :=
  let count := charge num b.count up
  let numSlots := if newJob num then junk else freeSlots cf count up
  if cf.usergroups = [] then
    { b with count, numSlots := Function.update b.numSlots up numSlots }
  else
    let groups := (b.gPtr up).getD (cf.groupsOf up)
    let r := groups.foldl (chargeGroup cf num) (count, numSlots)
    { count := r.1
      numSlots := Function.update b.numSlots up r.2
      gPtr := Function.update b.gPtr up (some groups)
      cached := by
        intro other list eq
        by_cases same : other = up
        · subst same
          rw [Function.update_self] at eq
          exact (Option.some.inj eq).symm.trans (b.getD_gPtr other)
        · rw [Function.update_of_ne same] at eq
          exact b.cached other list eq }

/-- The least of the free slots of a user and of the groups the user belongs to. -/
def leastFree (cf : GroupConf) (count : Nat → Counters) (up : Nat) : Int :=
  ((cf.groupsOf up).map (freeSlots cf count)).foldl min (freeSlots cf count up)

theorem freeSlots_congr {count count' : Nat → Counters} {up : Nat} (same : count up = count' up) :
    freeSlots cf count up = freeSlots cf count' up := by
  rw [freeSlots, freeSlots, same]

theorem foldl_charge_other {num : Counters} {groups : List Nat} {up : Nat} (other : up ∉ groups)
    (count : Nat → Counters) : groups.foldl (charge num) count up = count up := by
  induction groups generalizing count with
  | nil => rfl
  | cons g groups ih =>
    obtain ⟨ne, rest⟩ := not_or.mp (mem_cons.not.mp other)
    rw [foldl_cons, ih rest, charge, Function.update_of_ne ne]

theorem foldl_chargeGroup {num : Counters} {groups : List Nat} (nodup : groups.Nodup)
    (count : Nat → Counters) (n : Int) :
    groups.foldl (chargeGroup cf num) (count, n) =
      (groups.foldl (charge num) count,
        if newJob num then n
        else (groups.map (freeSlots cf (groups.foldl (charge num) count))).foldl min n) := by
  induction groups generalizing count n with
  | nil => simp
  | cons g groups ih =>
    obtain ⟨new, rest⟩ := nodup_cons.mp nodup
    -- the later groups are other records, so what was free after the turn of `g` still is
    have kept := @foldl_charge_other num groups g new (charge num count g)
    rw [foldl_cons, chargeGroup, ih rest]
    split
    · simp
    · simp only [foldl_cons, map_cons, freeSlots_congr kept, min_comm]

theorem updSlots_eq (junk : Int) (b : SlotBook cf) (up : Nat) (num : Counters) :
    (updSlots junk b up num).count = (cf.groupsOf up).foldl (charge num) (charge num b.count up) ∧
      (updSlots junk b up num).numSlots up =
        if newJob num then junk
        else ((cf.groupsOf up).map (freeSlots cf (updSlots junk b up num).count)).foldl min
          (freeSlots cf (charge num b.count up) up) := by
  have nodup : (cf.groupsOf up).Nodup := cf.nodup.filter _
  rw [updSlots]
  split_ifs with none new new
  · simp [GroupConf.groupsOf, none]
  · simp [GroupConf.groupsOf, none]
  · simp [b.getD_gPtr, foldl_chargeGroup nodup, new]
  · simp [b.getD_gPtr, foldl_chargeGroup nodup, new]

/-- A call that changes none of the four counters leaves in `numSlots` what stood in the local
variable. -/
theorem updSlots_leastFree_iff (b : SlotBook cf) (up : cf.User) (num : Counters) :
    (∀ junk, (updSlots junk b up num).numSlots up =
      leastFree cf (updSlots junk b up num).count up) ↔ newJob num = false := by
  constructor
  · intro least
    by_contra new
    have count := fun junk => (updSlots_eq junk b up num).1
    have slots := fun junk => (updSlots_eq junk b up num).2
    simp only [if_pos (Bool.of_not_eq_false new)] at slots
    simp only [slots, count] at least
    exact absurd (least 0) (by rw [← least 1]; decide)
  · intro old junk
    obtain ⟨count, slots⟩ := updSlots_eq junk b up num
    have other : up.val ∉ cf.groupsOf up := fun mem => up.property (mem_of_mem_filter mem)
    have kept := @foldl_charge_other num _ up other (charge num b.count up)
    rw [slots, if_neg (by simp [old]), leastFree, count, freeSlots_congr kept]

def oneUser : GroupConf := ⟨fun _ => 5, [], nodup_nil, fun _ _ => false⟩

/-- A job is submitted for a user with five slots. -/
theorem submitted_numSlots :
    (updSlots 9 (⟨fun _ _ => 0, fun _ => 5, fun _ => none, by simp⟩ : SlotBook oneUser) 0
      (slots 1 1 0 0 0 0)).numSlots 0 = 9 ∧
    leastFree oneUser (updSlots 9 (⟨fun _ _ => 0, fun _ => 5, fun _ => none, by simp⟩ :
      SlotBook oneUser) 0 (slots 1 1 0 0 0 0)).count 0 = 5 := by
  decide

end Jhlava.Mbd
