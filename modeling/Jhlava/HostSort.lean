import Jhlava.CandOrder
import Jhlava.StableSort

/-! The order of the candidate hosts of a job by their loads, mbd.policy.c: `findBestHosts` sorts
them once for each index of an order section, from the last index to the first. -/
namespace Jhlava.Cands
open StableSort

inductive OrderType where
  | incr
  | decr
  | na
  deriving DecidableEq, Repr

/-- An entry of `resTable`, as far as it is read. -/
structure ResItem where
  name : List Char
  isNumeric : Bool
  orderType : OrderType
  isShared : Bool
  deriving DecidableEq, Repr

/-- The instance of a shared resource; without a value it reads "-". -/
structure Instance_ where
  resName : List Char
  value : Option Rat
  deriving DecidableEq, Repr

/-- `hData`, as far as the order depends on it. -/
structure HostLoad where
  hStatus : Nat
  lsbLoad : List Rat
  cpuFactor : Rat
  instances : List Instance_
  deriving DecidableEq, Repr

structure LoadEnv where
  resTable : List ResItem
  hostLoad : Nat → HostLoad

/-- An entry of `order`: the index in `resTable`, and whether a minus turns its sense. -/
structure OrderKey where
  lidx : Nat
  flip : Bool
  deriving DecidableEq, Repr

def r15s : Nat := 0
def r1m : Nat := 1
def r15m : Nat := 2
def pg : Nat := 4
def ls : Nat := 6

def sortHostNum : Nat := 30

/-- `INFINIT_LOAD`, as a float holds it. -/
def infinitLoad : Rat := 2 ^ 31

def bThresholds : List Rat := [1/10, 1/10, 1/10, 1/10, 5, 5, 1, 5, 2, 2, 3]

def threshold (lidx : Nat) : Rat := bThresholds.getD lidx (1/10000)

/-! ### The status of a host -/

def lsbHostOk (status : Nat) : Bool := status = 0
def lsbHostBusy (status : Nat) : Bool := status &&& 0x01 ≠ 0
def lsbHostClosed (status : Nat) : Bool :=
  status &&& (0x02 ||| 0x04 ||| 0x08 ||| 0x200 ||| 0x10 ||| 0x80) ≠ 0
def lsbHostFull (status : Nat) : Bool := status &&& 0x10 ≠ 0
def lsbHostUnreach (status : Nat) : Bool := status &&& 0x20 ≠ 0
def lsbHostUnavail (status : Nat) : Bool := status &&& 0x40 ≠ 0

/-- What `orderByStatus` answers for two neighbours: 0 once it has exchanged them, 1 if they stay
and 2 if their loads decide. -/
inductive StatusOrder where
  | exchanged
  | kept
  | byLoad
  deriving DecidableEq, Repr

def orderByStatus (status1 status2 : Nat) (orderByClosedFull : Bool) : StatusOrder :=
  if (lsbHostOk status2 && !lsbHostOk status1)
      || (lsbHostBusy status2 && !lsbHostOk status1 && !lsbHostBusy status1)
      || (lsbHostClosed status2 && !lsbHostOk status1 && !lsbHostBusy status1
        && !lsbHostClosed status1)
      || (lsbHostUnreach status2 && !lsbHostOk status1 && !lsbHostBusy status1
        && !lsbHostClosed status1 && !lsbHostUnreach status1)
      || (lsbHostUnavail status2 && !lsbHostOk status1 && !lsbHostBusy status1
        && !lsbHostClosed status1 && !lsbHostUnreach status1 && !lsbHostUnavail status1) then
    .exchanged
  else if lsbHostOk status2 && lsbHostOk status1 then .byLoad
  else if orderByClosedFull && lsbHostFull status2 && lsbHostFull status1 then .byLoad
  else .kept

/-! ### The load of a host -/

def normal (lidx : Nat) (load cpuf : Rat) : Rat :=
  if lidx = r15s ∨ lidx = r1m ∨ lidx = r15m then if cpuf ≠ 0 then (load + 1) / cpuf else load
  else load

def notOrdered (increasing : Bool) (lidx : Nat) (load1 load2 cpuf1 cpuf2 : Rat) : Bool :=
  if increasing then normal lidx load1 cpuf1 > normal lidx load2 cpuf2
  else normal lidx load1 cpuf1 < normal lidx load2 cpuf2

/-- `getNumericLoadValue`; an index outside the table is not read by the source. -/
def getNumericLoadValue (env : LoadEnv) (hp : HostLoad) (lidx : Nat) : Rat :=
  match env.resTable[lidx]? with
  | none => -infinitLoad
  | some res =>
    if !res.isNumeric then -infinitLoad
    else if !res.isShared then hp.lsbLoad.getD lidx 0
    else match hp.instances.find? fun i => i.resName = res.name with
      | some i => i.value.getD infinitLoad
      | none => -infinitLoad

def orderType (env : LoadEnv) (lidx : Nat) : OrderType :=
  (env.resTable[lidx]?.map ResItem.orderType).getD .na

def increasing (env : LoadEnv) (key : OrderKey) : Bool :=
  (orderType env key.lidx == .incr) != key.flip

def loadOf (env : LoadEnv) (lidx : Nat) (c : CandHost) : Rat :=
  getNumericLoadValue env (env.hostLoad c.hData) lidx

def cpuFactorOf (env : LoadEnv) (c : CandHost) : Rat := (env.hostLoad c.hData).cpuFactor

/-- `exld1`, `exld2`: what a sort that is not the last adds to a load. -/
def exld (env : LoadEnv) (lidx : Nat) (c : CandHost) : Rat :=
  if orderType env lidx = .decr then -(loadOf env lidx c * (5/100)) else loadOf env lidx c * (5/100)

def exchanges (env : LoadEnv) (key : OrderKey) (lastSort orderForPreempt : Bool) (c d : CandHost) :
    Bool :=
  match orderByStatus (env.hostLoad c.hData).hStatus
    (env.hostLoad d.hData).hStatus orderForPreempt with
  | .exchanged => true
  | .kept => false
  | .byLoad =>
    if lastSort then
      notOrdered (increasing env key) key.lidx (loadOf env key.lidx c) (loadOf env key.lidx d)
        (cpuFactorOf env c) (cpuFactorOf env d)
    else
      notOrdered (increasing env key) key.lidx (loadOf env key.lidx c + exld env key.lidx c)
        (loadOf env key.lidx d + exld env key.lidx d) (cpuFactorOf env c) (cpuFactorOf env d)

/-! ### The sorts -/

def bestload (env : LoadEnv) (key : OrderKey) (hosts : List CandHost) : Rat :=
  match hosts with
  | [] => 0
  | first :: others =>
    others.foldl
      (fun best _ =>
        if notOrdered (increasing env key) key.lidx best (loadOf env key.lidx first)
            (cpuFactorOf env first) (cpuFactorOf env first) then loadOf env key.lidx first
        else best)
      (loadOf env key.lidx first)

/-- How many of the last candidates a sort that is not the last may cut off; `none` if there are
too many to be sorted. -/
def cutoffsOf (lidx numHosts ncandidates : Nat) : Option Nat :=
  let shrink : Int := if lidx = r15s ∨ lidx = r1m ∨ lidx = r15m ∨ lidx = ls then 5 else 8
  let residual : Int := ncandidates - numHosts
  if residual ≤ 1 then if numHosts ≤ sortHostNum then some 0 else none
  else some ((residual - 1) / shrink + 1).toNat

/-- `sortHosts`: the candidates and the number of them that are left. -/
def sortHosts (env : LoadEnv) (key : OrderKey) (numHosts : Nat) (hosts : List CandHost)
    (lastSort orderForPreempt : Bool) : List CandHost × Nat :=
  let out := exchanges env key lastSort orderForPreempt
  if lastSort then
    let cutoffs := min numHosts hosts.length
    (passes out cutoffs hosts, cutoffs)
  else match cutoffsOf key.lidx numHosts hosts.length with
    | none => (hosts, hosts.length)
    | some cutoffs =>
      let best := bestload env key hosts
      let hosts := passes out (hosts.length - cutoffs) hosts
      let cut := (List.range' (hosts.length - cutoffs) cutoffs).find? fun i =>
        hosts[i]?.any fun c => threshold key.lidx ≤ |loadOf env key.lidx c - best|
      (hosts, cut.getD hosts.length)

def sortPhase (env : LoadEnv) (order : List OrderKey) (needed : Nat) (orderForPreempt : Bool)
    (i : Nat) (r : List CandHost × Nat) : List CandHost × Nat :=
  match order[i]? with
  | none => r
  | some key => sortHosts env key needed r.1 (i == 0) orderForPreempt

/-- The loop from the index before `n` on. As many hosts as are needed make it go to 1 from
above, from where the loop goes to 0. -/
def sortPhases (env : LoadEnv) (order : List OrderKey) (needed : Nat) (orderForPreempt : Bool) :
    Nat → List CandHost × Nat → List CandHost × Nat
  | 0, r => r
  | i + 1, r =>
    let r := sortPhase env order needed orderForPreempt i r
    if r.2 = needed ∧ 1 < i then sortPhase env order needed orderForPreempt 0 r
    else sortPhases env order needed orderForPreempt i r

/-- `findBestHosts`, without `scheRawLoad`. The number of hosts is not set if there is no index. -/
def findBestHosts (env : LoadEnv) (resVal : Option (List OrderKey)) (needed : Nat)
    (hosts : List CandHost) (orderForPreempt : Bool) : List CandHost × Nat :=
  let order := resVal.getD [⟨r15s, false⟩, ⟨pg, false⟩]
  sortPhases env order needed orderForPreempt order.length (hosts, 0)

/-! ### The order of hosts that are ok -/

section Sorted

variable (env : LoadEnv) {key first : OrderKey} {rest : List OrderKey} {cands : List CandHost}
  {orderForPreempt : Bool}

def inSense (key : OrderKey) (load cpuf : Rat) : Rat :=
  if increasing env key then normal key.lidx load cpuf else -normal key.lidx load cpuf

def measure (key : OrderKey) (c : CandHost) : Rat :=
  inSense env key (loadOf env key.lidx c) (cpuFactorOf env c)

def extended (key : OrderKey) (c : CandHost) : Rat :=
  inSense env key (loadOf env key.lidx c + exld env key.lidx c) (cpuFactorOf env c)

def LexLe : List OrderKey → CandHost → CandHost → Prop
  | [], _, _ => True
  | key :: rest, c, d =>
    measure env key c < measure env key d ∨ (measure env key c = measure env key d ∧ LexLe rest c d)

instance decidableLexLe :
    ∀ (order : List OrderKey) (c d : CandHost), Decidable (LexLe env order c d)
  | [], _, _ => isTrue trivial
  | _ :: rest, c, d =>
    have := decidableLexLe rest c d
    inferInstanceAs (Decidable (_ ∨ (_ ∧ LexLe env rest c d)))

def AllOk (cands : List CandHost) : Prop := ∀ c ∈ cands, (env.hostLoad c.hData).hStatus = 0

variable {env}

theorem notOrdered_iff (load1 load2 cpuf1 cpuf2 : Rat) :
    notOrdered (increasing env key) key.lidx load1 load2 cpuf1 cpuf2 = true ↔
      inSense env key load2 cpuf2 < inSense env key load1 cpuf1 := by
  unfold notOrdered inSense
  cases increasing env key with
  | true => simp
  | false => simp

section

variable (ok : AllOk env cands)
include ok

theorem exchanges_ok (lastSort : Bool) :
    ByKey (exchanges env key lastSort orderForPreempt)
      (if lastSort then measure env key else extended env key) cands := by
  intro c first d second
  unfold exchanges
  rw [ok c first, ok d second]
  cases lastSort with
  | true => exact notOrdered_iff _ _ _ _
  | false => exact notOrdered_iff _ _ _ _

theorem AllOk.perm {cands' : List CandHost} (perm : cands'.Perm cands) :
    AllOk env cands' := fun c mem => ok c (perm.subset mem)

theorem sortHosts_last :
    (sortHosts env key cands.length cands true orderForPreempt).2 = cands.length ∧
      StablySorted (measure env key) cands
        (sortHosts env key cands.length cands true orderForPreempt).1 := by
  refine ⟨min_self _, ?_⟩
  exact passes_sorted (le_of_eq (min_self _).symm) (exchanges_ok ok true)

theorem sortHosts_early (few : cands.length ≤ sortHostNum) :
    (sortHosts env key cands.length cands false orderForPreempt).2 = cands.length ∧
      StablySorted (extended env key) cands
        (sortHosts env key cands.length cands false orderForPreempt).1 := by
  have all : cutoffsOf key.lidx cands.length cands.length = some 0 := by
    unfold cutoffsOf
    rw [if_pos (by omega), if_pos few]
  have sorted : StablySorted (extended env key) cands
      (passes (exchanges env key false orderForPreempt) cands.length cands) :=
    passes_sorted le_rfl (exchanges_ok ok false)
  unfold sortHosts
  rw [all]
  exact ⟨sorted.perm.length_eq, sorted⟩

theorem findBestHosts_one :
    (findBestHosts env (some [first]) cands.length cands orderForPreempt).2 = cands.length ∧
      StablySorted (measure env first) cands
        (findBestHosts env (some [first]) cands.length cands orderForPreempt).1 := by
  have only : findBestHosts env (some [first]) cands.length cands orderForPreempt =
      sortHosts env first cands.length cands true orderForPreempt :=
    if_neg fun h => Nat.not_lt_zero 1 h.2
  rw [only]
  exact sortHosts_last ok

theorem findBestHosts_more (few : cands.length ≤ sortHostNum) {last : OrderKey}
    (ends : rest.getLast? = some last) :
    (findBestHosts env (some (first :: rest)) cands.length cands orderForPreempt).2 = cands.length ∧
      StablySorted (fun c => toLex (measure env first c, extended env last c)) cands
        (findBestHosts env (some (first :: rest)) cands.length cands orderForPreempt).1 := by
  obtain ⟨count, early⟩ := @sortHosts_early env last cands orderForPreempt ok few
  obtain ⟨n, more⟩ : ∃ n, rest.length = n + 1 := by
    cases rest with
    | nil => cases ends
    | cons key rest => exact ⟨rest.length, rfl⟩
  have here : (first :: rest)[n + 1]? = some last := by
    rw [← ends, List.getLast?_eq_getElem?, more]
    rfl
  have only : findBestHosts env (some (first :: rest)) cands.length cands orderForPreempt =
      sortHosts env first cands.length
        (sortHosts env last cands.length cands false orderForPreempt).1 true orderForPreempt := by
    change sortPhases env (first :: rest) cands.length orderForPreempt (rest.length + 1)
      (cands, 0) = _
    rw [more, sortPhases]
    have phase : sortPhase env (first :: rest) cands.length orderForPreempt (n + 1) (cands, 0) =
        sortHosts env last cands.length cands false orderForPreempt := by
      rw [sortPhase, here]
      rfl
    rw [phase]
    cases n with
    | zero =>
      rw [if_neg fun h => Nat.lt_irrefl 1 h.2]
      exact if_neg fun h => Nat.not_lt_zero 1 h.2
    | succ n =>
      rw [if_pos ⟨count, by omega⟩]
      rfl
  have late := @sortHosts_last env first _ orderForPreempt (ok.perm early.perm)
  rw [early.perm.length_eq] at late
  rw [only]
  exact ⟨late.1, early.lex late.2⟩

end

/-- The hosts that `findBestHosts` selects. -/
def selected (r : List CandHost × Nat) : List CandHost := r.1.take r.2

/-- The candidates are left in the order of the indexes exactly if the last index, with its loads
raised or lowered by a twentieth, and then the order in which they come, put all those in the
order of the other indexes that are equal in the first one. -/
theorem findBestHosts_sorted_iff (ok : AllOk env cands) (few : cands.length ≤ sortHostNum) :
    (selected
      (findBestHosts env (some (first :: rest)) cands.length cands orderForPreempt)).Pairwise
        (LexLe env (first :: rest)) ↔
    cands.Pairwise fun c d => measure env first c = measure env first d →
      ∀ last ∈ rest.getLast?,
        (extended env last c ≤ extended env last d → LexLe env rest c d) ∧
        (extended env last d < extended env last c → LexLe env rest d c) := by
  unfold selected
  cases ends : rest.getLast? with
  | none =>
    obtain rfl := List.getLast?_eq_none_iff.mp ends
    obtain ⟨count, sorted⟩ := @findBestHosts_one env first cands orderForPreempt ok
    rw [List.take_of_length_le (le_of_eq (sorted.perm.length_eq.trans count.symm))]
    refine iff_of_true (sorted.sorted.imp ?_) (List.pairwise_of_forall ?_)
    · intro c d le
      exact le.lt_or_eq.imp_right fun eq => ⟨eq, trivial⟩
    · intro c d _ last mem
      cases mem
  | some last =>
    obtain ⟨count, sorted⟩ :=
      @findBestHosts_more env first rest cands orderForPreempt ok few last ends
    rw [List.take_of_length_le (le_of_eq (sorted.perm.length_eq.trans count.symm)),
      sorted.pairwise_iff]
    refine List.Pairwise.iff fun {c d} => ?_
    simp only [Prod.Lex.toLex_le_toLex, Prod.Lex.toLex_lt_toLex, LexLe, Option.mem_some_iff,
      forall_eq']
    constructor
    · rintro ⟨before, behind⟩ tie
      refine ⟨fun le => ?_, fun less => ?_⟩
      · exact ((before (Or.inr ⟨tie, le⟩)).resolve_left tie.not_lt).2
      · exact ((behind (Or.inr ⟨tie.symm, less⟩)).resolve_left tie.symm.not_lt).2
    · intro ties
      refine ⟨?_, ?_⟩
      · rintro (less | ⟨tie, le⟩)
        · exact Or.inl less
        · exact Or.inr ⟨tie, (ties tie).1 le⟩
      · rintro (less | ⟨tie, less⟩)
        · exact Or.inl less
        · exact Or.inr ⟨tie, (ties tie.symm).2 less⟩

end Sorted

def twoHosts (load1 load2 : List Rat) : LoadEnv where
  resTable := List.replicate 11 ⟨[], true, .incr, false⟩
  hostLoad h := ⟨0, if h = 1 then load1 else load2, 1, []⟩

def onHost (host : Nat) : CandHost :=
  { hData := host, numSlots := 1, numAvailSlots := 1, numNonBackfillSlots := 1
    numAvailNonBackfillSlots := 1, backfilleeList := none, preemptableV := none }

/-- Equal in the first index, the hosts are put in the order of the second. -/
theorem findBestHosts_sorted_pair :
    (selected
      (findBestHosts (twoHosts [0, 0, 0, 1, 7] [0, 0, 0, 1, 3]) (some [⟨3, false⟩, ⟨4, false⟩])
        2 [onHost 1, onHost 2] false)).Pairwise
      (LexLe (twoHosts [0, 0, 0, 1, 7] [0, 0, 0, 1, 3]) [⟨3, false⟩, ⟨4, false⟩]) :=
  have ok : AllOk (twoHosts [0, 0, 0, 1, 7] [0, 0, 0, 1, 3]) [onHost 1, onHost 2] := fun _ _ => rfl
  (findBestHosts_sorted_iff ok (by decide)).mpr (by decide +kernel)

/-- Three indexes: the hosts are equal in the first and the second is not sorted. -/
theorem findBestHosts_skips_second :
    ¬(selected (findBestHosts (twoHosts [0, 0, 0, 1, 7, 2] [0, 0, 0, 1, 3, 4])
        (some [⟨3, false⟩, ⟨4, false⟩, ⟨5, false⟩]) 2 [onHost 1, onHost 2] false)).Pairwise
      (LexLe (twoHosts [0, 0, 0, 1, 7, 2] [0, 0, 0, 1, 3, 4])
        [⟨3, false⟩, ⟨4, false⟩, ⟨5, false⟩]) := by
  decide +kernel

end Jhlava.Cands
