import Jhlava.CFloat
import Jhlava.MbdReserve

/-! `getHostJobSlots` of mbd.policy.c. To count the slots a backfill job can
have on a host, it takes the reservations of other jobs on that host away one
by one, asks the limits, and gives the reservations back on one of its return
paths. -/
namespace Jhlava.Mbd
open List CFloat

/-! The limits, asked in turn -/

def infinitInt : Int := 0x7fffffff

inductive PendReason where
  | queProcJlimit
  | queHostJlimit
  | hostJobLimit
  | hostUsrJlimit
  | userProcJlimit
  | ugrpProcJlimit
  deriving DecidableEq, Repr

def HostAcct.used (acct : HostAcct) : Int :=
  acct.count .numRUN + acct.count .numSSUSP + acct.count .numUSUSP + acct.count .numRESERVE

def usedOn (hAcct : Option HostAcct) : Int := (hAcct.map HostAcct.used).getD 0

def pJobLimitOk (numCPUs : Nat) (hAcct : Option HostAcct) (pJobLimit : Option Rat) : Int :=
  match pJobLimit with
  | none => infinitInt
  | some limit =>
    if limit ≤ 0 then 0
    else
      let numCPUs := if numCPUs = 0 then 1 else numCPUs
      let numSlots := (toFloat (limit * toFloat numCPUs)).ceil - usedOn hAcct
      if numSlots ≤ 0 then 0 else numSlots

def hJobLimitOk (hAcct : Option HostAcct) (hJobLimit : Option Int) : Int :=
  match hJobLimit with
  | none => infinitInt
  | some limit =>
    if limit ≤ 0 then 0
    else
      let numSlots := limit - usedOn hAcct
      if numSlots ≤ 0 then 0 else numSlots

structure SlotCount where
  numSlots : Int
  numAvailSlots : Int
  newReason : Option PendReason
  deriving DecidableEq, Repr

def noSlots (reason : Option PendReason) : SlotCount := ⟨0, 0, reason⟩

/-- One `pJobLimit` of a user or a group on the host, taken into the count so far. -/
def capPJobLimit (cf : Config) (acc : Accounts) (hp : Nat) (reason : PendReason)
    (count : SlotCount) (up : Nat) : Except PendReason SlotCount :=
  match (cf.user up).pJobLimit with
  | none => .ok count
  | some limit =>
    let num := (toFloat (limit * toFloat (cf.host hp).numCPUs)).ceil -
      usedOn ((acc.users up).hAcct hp)
    if max 0 num ≤ 0 then .error reason
    else
      .ok { count with
        numSlots := min count.numSlots (max 0 num)
        numAvailSlots := min count.numAvailSlots (max 0 num) }

/-- The host's limit for the user, then the limits of the user and its groups. -/
def ckPerHULimits (cf : Config) (acc : Accounts) (hp up : Nat) : SlotCount :=
  let host : Except PendReason SlotCount :=
    match (cf.host hp).uJobLimit with
    | none => .ok ⟨infinitInt, infinitInt, none⟩
    | some limit =>
      let used := (((acc.hosts hp).uAcct up).map fun acct =>
        acct .numRUN + acct .numRESERVE + acct .numSSUSP + acct .numUSUSP).getD 0
      let num := max 0 (limit - used)
      if num ≤ 0 then .error .hostUsrJlimit else .ok ⟨num, num, none⟩
  let all := do
    let count ← host
    let count ← capPJobLimit cf acc hp .userProcJlimit count up
    (cf.user up).gPtr.foldlM (capPJobLimit cf acc hp .ugrpProcJlimit) count
  match all with
  | .ok count => count
  | .error reason => noSlots (some reason)

/-- The inputs of one call: the job asking, the host, and what the call reads
of the reason tables. -/
structure SlotCall where
  jp : JData
  hp : Nat
  now : Int
  noHULimits : Bool
  hostUsable : Bool
  hReasonClear : Bool

/-- `getHostJobSlots1` for one slot needed. -/
def getHostJobSlots1 (cf : Config) (c : SlotCall) (acc : Accounts) : SlotCount :=
  let hd := acc.hosts c.hp
  let hostCount :=
    match (cf.host c.hp).maxJobs with
    | none => ⟨infinitInt, infinitInt, none⟩
    | some maxJobs =>
      let pair : Int × Int :=
        match (acc.queues c.jp.qPtr).hAcct c.hp with
        | some acct =>
          let avail := max 0 (maxJobs - (hd.count .numJobs - acct.numAvaildSsusp))
          (avail + acct.numEnablePreempt, avail)
        | none => (maxJobs - hd.count .numJobs, maxJobs - hd.count .numJobs)
      let numSlots := max 0 pair.1
      let numAvailSlots := max 0 pair.2
      if numSlots < 1 then noSlots (some .hostJobLimit)
      else
        ⟨numSlots, numAvailSlots,
          if c.jp.candPtr.length = 1 ∧ numAvailSlots < c.jp.jobBill.numProcessors ∧
              c.hReasonClear then some .hostJobLimit else none⟩
  if hostCount.numSlots < 1 ∨ c.noHULimits then hostCount
  else
    let perUser := ckPerHULimits cf acc c.hp c.jp.uPtr
    { numSlots := min hostCount.numSlots perUser.numSlots
      numAvailSlots := min hostCount.numAvailSlots perUser.numAvailSlots
      newReason := perUser.newReason <|> hostCount.newReason }

def askLimits (cf : Config) (c : SlotCall) (acc : Accounts) : SlotCount :=
  let qc := cf.queue c.jp.qPtr
  let hAcct := (acc.queues c.jp.qPtr).hAcct c.hp
  let numSlots := pJobLimitOk (cf.host c.hp).numCPUs hAcct qc.pJobLimit
  if numSlots < 1 then noSlots (some .queProcJlimit)
  else
    let numSlots1 := hJobLimitOk hAcct qc.hJobLimit
    if numSlots1 < 1 then noSlots (some .queHostJlimit)
    else
      let count := getHostJobSlots1 cf c acc
      if count.numSlots = 0 then noSlots count.newReason
      else
        { count with
          numSlots := min (min numSlots numSlots1) count.numSlots
          numAvailSlots := min (min numSlots numSlots1) count.numAvailSlots }

/-! Taking reservations away -/

structure Backfillee where
  backfilleePtr : Nat
  backfillSlots : Nat
  hPtr : List Nat
  deriving DecidableEq, Repr

/-- `RUN_LIMIT_OF_JOB` -/
def runLimitOfJob (cf : Config) (jp : JData) : Int :=
  if jp.jobBill.runLimit > 0 then jp.jobBill.runLimit
  else if (cf.queue jp.qPtr).defRunLimit > 0 then (cf.queue jp.qPtr).defRunLimit
  else (cf.queue jp.qPtr).runLimit

/-- `JOB_CAN_BACKFILL` -/
def jobCanBackfill (cf : Config) (jp : JData) : Bool :=
  (cf.queue jp.qPtr).backfill &&
    (jp.jobBill.runLimit > 0 || (cf.queue jp.qPtr).runLimit > 0)

def looksForBackfillees (cf : Config) (c : SlotCall) (s : MbdState) : Bool :=
  (s.acc.hosts c.hp).pxyRsvJL ≠ [] && jobCanBackfill cf c.jp && c.hostUsable

/-- `now + RUN_LIMIT_OF_JOB(jp)/cpuFactor`, a sum of `float`s. A `cpuFactor` is positive. -/
def finishTime (cf : Config) (now : Int) (jp : JData) (cpuFactor : Rat) : Rat :=
  toFloat (toFloat now + toFloat (toFloat (runLimitOfJob cf jp) / cpuFactor))

def backfillSlots (cf : Config) (c : SlotCall) (job : JData) : Nat :=
  if job.predictedStartTime = 0 ∨
      toFloat job.predictedStartTime < finishTime cf c.now c.jp (cf.host c.hp).cpuFactor
    then 0
  else
    match job.candPtr.find? (·.hData = c.hp) with
    | none => 0
    | some cand => min cand.numAvailSlots (job.hPtr.count c.hp)

def removeNOccuranceOfHost (hPtr : List Nat) (host num : Nat) : List Nat :=
  hPtr.takeWhile (· ≠ host) ++ (hPtr.dropWhile (· ≠ host)).drop num

def rebook (cf : Config) (now : Int) (acc : Accounts) (job : JData) (hPtr : List Nat) :
    Accounts × JData :=
  let freed := freeReserveSlots cf acc job
  let job := { freed.2 with hPtr := hPtr }
  if hPtr = [] then (freed.1, job) else reserveSlots cf now freed.1 job

def takeBackfillSlots (cf : Config) (c : SlotCall) (s : MbdState) (j : Nat) : MbdState :=
  let job := s.jobs j
  s.setJob j (rebook cf c.now s.acc job
    (removeNOccuranceOfHost job.hPtr c.hp (backfillSlots cf c job)))

/-- The entry after `j` in the list, `none` at its end. -/
def entryAfter (l : List Nat) (j : Nat) : Option Nat := (l.dropWhile (· ≠ j)).tail.head?

/-- The loop over `pxyRsvJL`. The iterator is moved on before the entry is
used, and using it can move the job to the end of the list, where it is met
again. `none` when the fuel does not reach the end. -/
def findBackfillees (cf : Config) (c : SlotCall) :
    Nat → Option Nat → MbdState → List Backfillee → Option (MbdState × List Backfillee)
  | _, none, s, found => some (s, found)
  | 0, some _, _, _ => none
  | fuel + 1, some j, s, found =>
    let next := entryAfter (s.acc.hosts c.hp).pxyRsvJL j
    let job := s.jobs j
    if backfillSlots cf c job = 0 then findBackfillees cf c fuel next s found
    else
      findBackfillees cf c fuel next (takeBackfillSlots cf c s j)
        (found ++ [⟨j, backfillSlots cf c job, job.hPtr⟩])

def giveBack (cf : Config) (c : SlotCall) (s : MbdState) (b : Backfillee) : MbdState :=
  let job := s.jobs b.backfilleePtr
  let freed := if job.hPtr = [] then (s.acc, job) else freeReserveSlots cf s.acc job
  s.setJob b.backfilleePtr (reserveSlots cf c.now freed.1 { freed.2 with hPtr := b.hPtr })

def finishSlots (cf : Config) (c : SlotCall) (s : MbdState) (found : List Backfillee) :
    MbdState × SlotCount × List Backfillee :=
  let count := askLimits cf c s.acc
  if count.numSlots = 0 then (s, count, [])
  else (found.foldl (giveBack cf c) s, count, found)

def getHostJobSlots (cf : Config) (c : SlotCall) (fuel : Nat) (s : MbdState) :
    Option (MbdState × SlotCount × List Backfillee) :=
  if looksForBackfillees cf c s then
    (findBackfillees cf c fuel (s.acc.hosts c.hp).pxyRsvJL.head? s []).map
      fun r => finishSlots cf c r.1 r.2
  else some (finishSlots cf c s [])

/-! `numDispJobs` only goes down -/

variable {found : List Backfillee} {fuel : Nat} {s : MbdState}

section Dispatched

variable (cf : Config) (c : SlotCall)

theorem rebook_numDispJobs (acc : Accounts) (job : JData) (hPtr : List Nat) (k : Nat) :
    ((rebook cf c.now acc job hPtr).1.hosts k).numDispJobs =
      (acc.hosts k).numDispJobs - if job.jStatus.reserve then (job.hPtr.count k : Int) else 0 := by
  unfold rebook
  split
  · exact freeReserveSlots_numDispJobs cf acc job k
  · rw [reserveSlots_numDispJobs]
    exact freeReserveSlots_numDispJobs cf acc job k

theorem takeBackfillSlots_le (s : MbdState) (j : Nat) :
    ((takeBackfillSlots cf c s j).acc.hosts c.hp).numDispJobs ≤ (s.acc.hosts c.hp).numDispJobs := by
  have h := rebook_numDispJobs cf c s.acc (s.jobs j)
    (removeNOccuranceOfHost (s.jobs j).hPtr c.hp (backfillSlots cf c (s.jobs j))) c.hp
  simp only [takeBackfillSlots, MbdState.setJob]
  rw [h]
  split <;> omega

theorem count_pos_of_backfillSlots {job : JData} (h : backfillSlots cf c job ≠ 0) :
    0 < job.hPtr.count c.hp := by
  unfold backfillSlots at h
  split at h
  · exact absurd rfl h
  · split at h
    · exact absurd rfl h
    · omega

theorem takeBackfillSlots_lt (s : MbdState) (j : Nat) (held : (s.jobs j).jStatus.reserve = true)
    (gives : backfillSlots cf c (s.jobs j) ≠ 0) :
    ((takeBackfillSlots cf c s j).acc.hosts c.hp).numDispJobs < (s.acc.hosts c.hp).numDispJobs := by
  have h := rebook_numDispJobs cf c s.acc (s.jobs j)
    (removeNOccuranceOfHost (s.jobs j).hPtr c.hp (backfillSlots cf c (s.jobs j))) c.hp
  have pos := count_pos_of_backfillSlots cf c gives
  simp only [takeBackfillSlots, MbdState.setJob]
  rw [h, if_pos held]
  omega

theorem giveBack_le (s : MbdState) (b : Backfillee) :
    ((giveBack cf c s b).acc.hosts c.hp).numDispJobs ≤ (s.acc.hosts c.hp).numDispJobs := by
  simp only [giveBack, MbdState.setJob]
  rw [reserveSlots_numDispJobs]
  split
  · exact Int.le_refl _
  · rw [freeReserveSlots_numDispJobs]
    split <;> omega

theorem finishSlots_le (s : MbdState) (found : List Backfillee) :
    ((finishSlots cf c s found).1.acc.hosts c.hp).numDispJobs ≤ (s.acc.hosts c.hp).numDispJobs := by
  unfold finishSlots
  dsimp only
  split
  · exact Int.le_refl _
  · apply List.foldlRecOn found (giveBack cf c)
      (motive := fun t => (t.acc.hosts c.hp).numDispJobs ≤ (s.acc.hosts c.hp).numDispJobs)
    · exact Int.le_refl _
    · intro t ht b _
      exact Int.le_trans (giveBack_le cf c t b) ht

theorem findBackfillees_le {cur : Option Nat} {r : MbdState × List Backfillee}
    (h : findBackfillees cf c fuel cur s found = some r) :
    (r.1.acc.hosts c.hp).numDispJobs ≤ (s.acc.hosts c.hp).numDispJobs := by
  induction fuel generalizing cur s found with
  | zero =>
    cases cur with
    | none =>
      cases h
      exact Int.le_refl _
    | some j => cases h
  | succ fuel ih =>
    cases cur with
    | none =>
      cases h
      exact Int.le_refl _
    | some j =>
      rw [findBackfillees] at h
      split at h
      · exact ih h
      · exact Int.le_trans (ih h) (takeBackfillSlots_le cf c s j)

end Dispatched

/-! The loop over the list of reserving jobs -/

section Loop

variable {cf : Config} {c : SlotCall}

variable {j : Nat} {post pre : List Nat}

theorem entryAfter_append (h : (pre ++ j :: post).Nodup) :
    entryAfter (pre ++ j :: post) j = post.head? := by
  have absent : ∀ x ∈ pre, decide (x ≠ j) = true := by
    intro x hx
    have distinct := (nodup_append.mp h).2.2 x hx j (by simp)
    simpa using distinct
  rw [entryAfter, dropWhile_append_of_pos absent]
  simp

theorem findBackfillees_none (list : (s.acc.hosts c.hp).pxyRsvJL = pre ++ post)
    (hn : (pre ++ post).Nodup) (none : ∀ j ∈ post, backfillSlots cf c (s.jobs j) = 0)
    (enough : post.length ≤ fuel) :
    findBackfillees cf c fuel post.head? s found = some (s, found) := by
  induction post generalizing fuel pre with
  | nil => cases fuel <;> rfl
  | cons j post ih =>
    obtain ⟨fuel, rfl⟩ : ∃ n, fuel = n + 1 := ⟨fuel - 1, by simp at enough; omega⟩
    have step : pre ++ j :: post = (pre ++ [j]) ++ post := by simp
    rw [List.head?_cons, findBackfillees, if_pos (none j (by simp)), list, entryAfter_append hn]
    apply ih (list.trans step) (step ▸ hn)
    · intro k hk
      exact none k (mem_cons_of_mem j hk)
    · simpa using enough

theorem findBackfillees_lt {r : MbdState × List Backfillee}
    (list : (s.acc.hosts c.hp).pxyRsvJL = pre ++ post) (hn : (pre ++ post).Nodup)
    (held : ∀ j ∈ post, (s.jobs j).jStatus.reserve = true)
    (gives : ∃ j ∈ post, backfillSlots cf c (s.jobs j) ≠ 0)
    (h : findBackfillees cf c fuel post.head? s found = some r) :
    (r.1.acc.hosts c.hp).numDispJobs < (s.acc.hosts c.hp).numDispJobs := by
  induction post generalizing fuel pre with
  | nil =>
    obtain ⟨j, hj, _⟩ := gives
    cases hj
  | cons j post ih =>
    cases fuel with
    | zero => cases h
    | succ fuel =>
      have step : pre ++ j :: post = (pre ++ [j]) ++ post := by simp
      rw [List.head?_cons, findBackfillees, list] at h
      split at h
      · rename_i passed
        rw [entryAfter_append hn] at h
        apply ih (list.trans step) (step ▸ hn)
          (fun k hk => held k (mem_cons_of_mem j hk)) ?_ h
        obtain ⟨k, hk, hg⟩ := gives
        rcases mem_cons.mp hk with rfl | hk
        · exact absurd passed hg
        · exact ⟨k, hk, hg⟩
      · rename_i taken
        exact Int.lt_of_le_of_lt (findBackfillees_le cf c h)
          (takeBackfillSlots_lt cf c s j (held j (by simp)) taken)

/-! The loop ends: a job met again has fewer slots of the host left. -/

theorem reserveSlots_hPtr (now : Int) (acc : Accounts) (jp : JData) :
    (reserveSlots cf now acc jp).2.hPtr = jp.hPtr := by
  unfold reserveSlots
  split
  · rfl
  · simp only [turnReserve, JData.setReserve, startHold]
    split <;> rfl

theorem rebook_hPtr (now : Int) (acc : Accounts) (job : JData) (hPtr : List Nat) :
    (rebook cf now acc job hPtr).2.hPtr = hPtr := by
  unfold rebook
  split
  · rfl
  · rw [reserveSlots_hPtr]

theorem freeReserveSlots_jobId (cf : Config) (acc : Accounts) (job : JData) :
    (freeReserveSlots cf acc job).2.jobId = job.jobId := by
  unfold freeReserveSlots
  split <;> rfl

theorem rebook_pxyRsvJL (cf : Config) (now : Int) {acc : Accounts} {job : JData}
    (hPtr : List Nat) {k : Nat} (hn : (acc.hosts k).pxyRsvJL.Nodup)
    (hj : job.jobId ∈ (acc.hosts k).pxyRsvJL) :
    Moved job.jobId (acc.hosts k).pxyRsvJL
      ((rebook cf now acc job hPtr).1.hosts k).pxyRsvJL := by
  have freed : Moved job.jobId (acc.hosts k).pxyRsvJL
      ((freeReserveSlots cf acc job).1.hosts k).pxyRsvJL := by
    rcases freeReserveSlots_pxyRsvJL cf acc job k hn with same | gone
    · exact .inl same
    · exact .inr (.inl gone)
  unfold rebook
  split
  · exact freed
  · rw [← freeReserveSlots_jobId cf acc job] at hj freed ⊢
    exact reserveSlots_pxyRsvJL cf _ { (freeReserveSlots cf acc job).2 with hPtr := hPtr } k
      now hj freed

theorem count_removeNOccuranceOfHost {hPtr : List Nat} {host num : Nat}
    (held : 0 < hPtr.count host) (hnum : num ≠ 0) :
    (removeNOccuranceOfHost hPtr host num).count host < hPtr.count host := by
  induction hPtr with
  | nil => simp at held
  | cons h hs ih =>
    by_cases hh : h = host
    · subst hh
      obtain ⟨n, rfl⟩ : ∃ n, num = n + 1 := ⟨num - 1, by omega⟩
      have sub := (drop_sublist n hs).count_le h
      simp [removeNOccuranceOfHost]
      omega
    · have rest := ih (by simpa [count_cons_of_ne hh] using held)
      simpa [removeNOccuranceOfHost, hh, count_cons_of_ne hh] using rest

def slotsListed (c : SlotCall) (s : MbdState) (l : List Nat) : Nat :=
  (l.map fun j => (s.jobs j).hPtr.count c.hp).sum

theorem slotsListed_take {l l' : List Nat} (hn : l.Nodup) (hj : j ∈ l) (moved : Moved j l l')
    (gives : backfillSlots cf c (s.jobs j) ≠ 0) :
    slotsListed c (takeBackfillSlots cf c s j) l' < slotsListed c s l := by
  have less : ((takeBackfillSlots cf c s j).jobs j).hPtr.count c.hp <
      (s.jobs j).hPtr.count c.hp := by
    simp only [takeBackfillSlots, MbdState.setJob, Function.update_self, rebook_hPtr]
    exact count_removeNOccuranceOfHost (count_pos_of_backfillSlots cf c gives) gives
  have rest : slotsListed c (takeBackfillSlots cf c s j) (l.erase j) =
      slotsListed c s (l.erase j) := by
    unfold slotsListed
    congr 1
    apply map_congr_left
    intro k hk
    have hkj : k ≠ j := fun h => hn.not_mem_erase (h ▸ hk)
    simp [takeBackfillSlots, MbdState.setJob, Function.update_of_ne hkj]
  have split : ∀ t, slotsListed c t l = (t.jobs j).hPtr.count c.hp + slotsListed c t (l.erase j) :=
    fun t => (sum_map_erase (fun j => (t.jobs j).hPtr.count c.hp) hj).symm
  have whole := split s
  rcases moved with rfl | rfl | rfl
  · rw [split]
    omega
  · omega
  · have last : slotsListed c (takeBackfillSlots cf c s j) (l.erase j ++ [j]) =
        slotsListed c (takeBackfillSlots cf c s j) (l.erase j) +
          ((takeBackfillSlots cf c s j).jobs j).hPtr.count c.hp := by
      simp [slotsListed]
    omega

theorem Moved.iterator {l' : List Nat} (hn : (pre ++ j :: post).Nodup)
    (moved : Moved j (pre ++ j :: post) l') :
    l'.Nodup ∧ l'.length ≤ (pre ++ j :: post).length ∧
      ∃ pre' post', l' = pre' ++ post' ∧ post'.head? = post.head? := by
  have absent : j ∉ pre := by
    intro h
    exact (nodup_append.mp hn).2.2 j h j (by simp) rfl
  have gone : (pre ++ j :: post).erase j = pre ++ post := by
    rw [erase_append_right _ absent, erase_cons_head]
  have hn' : (pre ++ post).Nodup := gone ▸ hn.erase j
  have hj : j ∉ pre ++ post := gone ▸ hn.not_mem_erase
  rcases moved with rfl | rfl | rfl
  · exact ⟨hn, Nat.le_refl _, pre ++ [j], post, by simp, rfl⟩
  · rw [gone]
    exact ⟨hn', by simp, pre, post, rfl, rfl⟩
  · rw [gone]
    refine ⟨nodup_append.mpr ⟨hn', by simp, ?_⟩, by simp, ?_⟩
    · intro x hx y hy hxy
      rw [mem_singleton] at hy
      exact hj (hy ▸ hxy ▸ hx)
    · cases post with
      | nil => exact ⟨pre ++ [j], [], by simp, rfl⟩
      | cons k post => exact ⟨pre, k :: post ++ [j], by simp, rfl⟩

theorem takeBackfillSlots_pxyRsvJL (cf : Config) {l : List Nat}
    (list : (s.acc.hosts c.hp).pxyRsvJL = l) (hn : l.Nodup) (hj : j ∈ l) :
    Moved j l ((takeBackfillSlots cf c s j).acc.hosts c.hp).pxyRsvJL := by
  subst list
  have moved := rebook_pxyRsvJL cf c.now (removeNOccuranceOfHost (s.jobs j).hPtr c.hp
    (backfillSlots cf c (s.jobs j))) hn ((s.filed j).symm ▸ hj)
  rw [s.filed] at moved
  exact moved

theorem rounds_lt {a b n m p q : Nat} (ab : a < b) (nm : n ≤ m) (pm : p ≤ m)
    (enough : b * (m + 1) + (q + 1) ≤ fuel + 1) : a * (n + 1) + p ≤ fuel := by
  have shorter : a * (n + 1) ≤ a * (m + 1) := Nat.mul_le_mul_left a (Nat.succ_le_succ nm)
  have fewer : (a + 1) * (m + 1) ≤ b * (m + 1) := Nat.mul_le_mul_right (m + 1) ab
  rw [Nat.succ_mul] at fewer
  omega

theorem findBackfillees_total (cf : Config) (found : List Backfillee)
    (list : (s.acc.hosts c.hp).pxyRsvJL = pre ++ post) (hn : (pre ++ post).Nodup)
    (enough : slotsListed c s (pre ++ post) * ((pre ++ post).length + 1) + post.length ≤ fuel) :
    ∃ r, findBackfillees cf c fuel post.head? s found = some r := by
  induction fuel generalizing s found pre post with
  | zero =>
    obtain rfl : post = [] := length_eq_zero_iff.mp (by omega)
    exact ⟨_, rfl⟩
  | succ fuel ih =>
    cases post with
    | nil => exact ⟨_, rfl⟩
    | cons j post =>
      have step : pre ++ j :: post = (pre ++ [j]) ++ post := by simp
      rw [List.head?_cons, findBackfillees, list, entryAfter_append hn]
      split
      · apply ih _ (list.trans step) (step ▸ hn)
        rw [← step]
        simp only [length_cons] at enough
        omega
      · rename_i gives
        have hj : j ∈ pre ++ j :: post := by simp
        have moved := takeBackfillSlots_pxyRsvJL cf list hn hj
        obtain ⟨hn', hlen, pre', post', hl', hhead⟩ := moved.iterator hn
        rw [← hhead]
        apply ih _ hl' (hl' ▸ hn')
        rw [← hl']
        have tail : post'.length ≤ (pre ++ j :: post).length := by
          apply Nat.le_trans _ hlen
          rw [hl']
          simp
        exact rounds_lt (slotsListed_take hn hj moved gives) hlen tail enough

end Loop

/-- What a call that only counts leaves alone: the hosts and the bit
`JOB_STAT_RESERVE` of every job and every counter. -/
structure Unchanged (s s' : MbdState) : Prop where
  hPtr : ∀ j, (s'.jobs j).hPtr = (s.jobs j).hPtr
  reserve : ∀ j, (s'.jobs j).jStatus.reserve = (s.jobs j).jStatus.reserve
  queues : ∀ q, (s'.acc.queues q).count = (s.acc.queues q).count ∧
    (s'.acc.queues q).uAcct = (s.acc.queues q).uAcct ∧
    (s'.acc.queues q).hAcct = (s.acc.queues q).hAcct
  users : ∀ u, (s'.acc.users u).count = (s.acc.users u).count ∧
    (s'.acc.users u).hAcct = (s.acc.users u).hAcct
  hosts : ∀ h, (s'.acc.hosts h).count = (s.acc.hosts h).count ∧
    (s'.acc.hosts h).uAcct = (s.acc.hosts h).uAcct ∧
    (s'.acc.hosts h).numDispJobs = (s.acc.hosts h).numDispJobs

theorem Unchanged.refl (s : MbdState) : Unchanged s s :=
  ⟨fun _ => rfl, fun _ => rfl, fun _ => ⟨rfl, rfl, rfl⟩, fun _ => ⟨rfl, rfl⟩,
    fun _ => ⟨rfl, rfl, rfl⟩⟩

theorem finishSlots_nil (cf : Config) (c : SlotCall) (s : MbdState) :
    (finishSlots cf c s []).1 = s := by
  unfold finishSlots
  dsimp only
  split <;> rfl

def roundsBound (c : SlotCall) (s : MbdState) : Nat :=
  let l := (s.acc.hosts c.hp).pxyRsvJL
  slotsListed c s l * (l.length + 1) + l.length

/-- The call leaves everything as it was exactly when it finds no backfillee:
`freeReserveSlots` takes the slots off `numDispJobs`, and on no return path
are they put back. -/
theorem getHostJobSlots_unchanged_iff (cf : Config) (c : SlotCall) (s : MbdState) (fuel : Nat)
    (distinct : (s.acc.hosts c.hp).pxyRsvJL.Nodup)
    (held : ∀ j ∈ (s.acc.hosts c.hp).pxyRsvJL, (s.jobs j).jStatus.reserve = true)
    (enough : roundsBound c s ≤ fuel) :
    ∃ r, getHostJobSlots cf c fuel s = some r ∧
      (Unchanged s r.1 ↔ (looksForBackfillees cf c s = true →
        ∀ j ∈ (s.acc.hosts c.hp).pxyRsvJL, backfillSlots cf c (s.jobs j) = 0)) := by
  unfold getHostJobSlots
  by_cases looks : looksForBackfillees cf c s = true
  · rw [if_pos looks]
    have list : (s.acc.hosts c.hp).pxyRsvJL = [] ++ (s.acc.hosts c.hp).pxyRsvJL := rfl
    obtain ⟨r, found⟩ := findBackfillees_total cf [] list distinct enough
    refine ⟨finishSlots cf c r.1 r.2, by rw [found]; rfl, ?_, ?_⟩
    · intro same _
      by_contra gives
      push Not at gives
      have less := findBackfillees_lt list distinct held gives found
      have more := finishSlots_le cf c r.1 r.2
      have kept := (same.hosts c.hp).2.2
      omega
    · intro none
      rw [findBackfillees_none list distinct (none looks)
        (Nat.le_trans (Nat.le_add_left _ _) enough)] at found
      cases found
      rw [finishSlots_nil]
      exact Unchanged.refl s
  · rw [if_neg looks]
    refine ⟨_, rfl, fun _ h => absurd h looks, ?_⟩
    intro _
    rw [finishSlots_nil]
    exact Unchanged.refl s

/-! A host with one slot, reserved for job 1 until long after the backfill job
asking would have run. -/

def oneSlotConf : Config :=
  { queue := fun _ =>
      { pJobLimit := none
        hJobLimit := none
        backfill := true
        defRunLimit := 0
        runLimit := 60
        slotHoldTime := 10 }
    user := fun _ => { pJobLimit := none, gPtr := [], ancestors := [] }
    host := fun _ =>
      { remote := false, uJobLimit := none, maxJobs := some 1, numCPUs := 1, cpuFactor := 1 }
    backfillPolicy := true
    msleeptime := 60 }

def pendingJob (i : Nat) : JData :=
  { jobId := i
    jStatus := { state := .pend, unkwn := false, reserve := false, modifyOnce := false }
    jobBill :=
      { numProcessors := 1
        maxNumProcessors := 1
        queue := 0
        runLimit := 60
        modifyOnce := false
        hold := false
        askedHostsOk := true }
    newSub := none
    qPtr := 0
    uPtr := 0
    hPtr := []
    reserveTime := 0
    slotHoldTime := 0
    predictedStartTime := 0
    candPtr := [] }

def reservingJob (i : Nat) : JData :=
  { pendingJob i with
    jStatus := { state := .pend, unkwn := false, reserve := true, modifyOnce := false }
    hPtr := [0]
    reserveTime := 1
    predictedStartTime := 100000
    candPtr := [{ hData := 0, numAvailSlots := 1 }] }

def oneReservation : MbdState where
  acc :=
    { queues := fun _ =>
        { count := slots 1 0 0 0 0 1, uAcct := fun _ => some (slots 0 0 0 0 0 1),
          hAcct := fun _ => none, numUsable := 1 }
      users := fun _ => { count := slots 1 0 0 0 0 1, hAcct := fun _ => none }
      hosts := fun _ =>
        { count := hostSlots 1 0 0 0 1, uAcct := fun _ => none, numDispJobs := 1,
          pxyRsvJL := [1] }
      negative := fun _ => 0 }
  jobs := reservingJob
  numJobs := 2
  filed _ := rfl

def backfillCall : SlotCall :=
  { jp := pendingJob 0, hp := 0, now := 1000, noHULimits := false, hostUsable := true,
    hReasonClear := true }

theorem getHostJobSlots_unchanged_iff_oneReservation :
    ∃ r, getHostJobSlots oneSlotConf backfillCall 3 oneReservation = some r ∧
      (Unchanged oneReservation r.1 ↔
        (looksForBackfillees oneSlotConf backfillCall oneReservation = true →
          ∀ j ∈ [1], backfillSlots oneSlotConf backfillCall (oneReservation.jobs j) = 0)) :=
  getHostJobSlots_unchanged_iff oneSlotConf backfillCall oneReservation 3 (by decide)
    (fun _ _ => rfl) (by decide)

/-- The slot is counted as free and the reservation is given back, but the host
has lost the dispatch that `allocHosts` counted. -/
theorem getHostJobSlots_loses_dispatch :
    (oneReservation.acc.hosts 0).numDispJobs = 1 ∧
      (getHostJobSlots oneSlotConf backfillCall 3 oneReservation).map (fun r =>
        (r.2.1.numSlots, (r.1.jobs 1).hPtr, (r.1.jobs 1).jStatus.reserve,
          (r.1.acc.hosts 0).numDispJobs)) = some (1, [0], true, 0) := by
  decide +kernel

end Jhlava.Mbd
