import Jhlava.StatusRead

/-! What the daemons send each other is read back: status requests, job specifications and the
package that mbatchd sends to sbatchd. -/
namespace Jhlava.Message
open Xdr

/-- `xdr_statusReq` when it writes. -/
def encodeStatusReq (r : StatusReq) (m : Mem) : Bool × Mem :=
  xdrStatusFields.encode
    (lsbArrayJobId r.jobId, r.jobPid, r.jobPGid, r.actPid, r.seq, r.newStatus, r.reason,
      r.subreasons, r.sbdReply, r.lsfRusage, r.execUid, r.execHosts, r.exitStatus, r.execHome,
      r.execUsername, r.execCwd, r.queuePreCmd, r.queuePostCmd, r.msgId, r.runRusage, r.sigValue,
      r.actStatus, lsbArrayIdx r.jobId) m

/-- A writer and a reader that go by a codec, for values that are not its own. -/
structure By {α β : Type} (c : Codec β) (encode : α → Mem → Bool × Mem)
    (decode : Mem → Option α × Mem) where
  sent : α → β
  made : β → α
  encodes : ∀ v m, encode v m = c.encode (sent v) m
  decodes : ∀ m, decode m = ((c.decode m).1.map made, (c.decode m).2)

theorem By.round_trip {α β : Type} {c : Codec β} {encode : α → Mem → Bool × Mem}
    {decode : Mem → Option α × Mem} (by_ : By c encode decode) {v : α} {m m' : Mem}
    (encoded : encode v m = (true, m')) :
    decode (m'.setPos m.pos) = (some (by_.made (by_.sent v)), m') := by
  rw [by_.encodes] at encoded
  rw [by_.decodes, c.round_trip encoded]
  rfl

def statusBy : By xdrStatusFields encodeStatusReq decodeStatusReq :=
  ⟨_, _, fun _ _ => rfl, fun _ => rfl⟩

variable (lsfLimits : Fin nLimits → LsfLimit)

def specsBy : By (xdrSpecsFields lsfLimits) (encodeJobSpecs lsfLimits)
    (decodeJobSpecs lsfLimits) :=
  ⟨_, _, fun _ _ => rfl, fun _ => rfl⟩

structure SbdPackage where
  mbdPid : BitVec 32
  retryIntvl : BitVec 32
  preemPeriod : BitVec 32
  pgSuspIdleT : BitVec 32
  maxJobs : BitVec 32
  sbdSleepTime : BitVec 32
  managerId : BitVec 32
  /-- `numJobs` and the jobs. -/
  jobs : Counted JobSpecs
  lsbManager : CString
  uJobLimit : BitVec 32
  rusageUpdateRate : BitVec 32
  rusageUpdatePercent : BitVec 32
  jobTerminateInterval : BitVec 32
  admins : Counted CString

/-- What `xdr_sbdPackage` sends: its own fields, the jobs, and those of `xdr_sbdPackage1`. -/
def xdrPackageFields :=
  xdrWord.seq <| xdrWord.seq <| xdrWord.seq <| xdrWord.seq <| xdrWord.seq <| xdrWord.seq <|
    xdrWord.seq <| Codec.word fun numJobs => (xdrString maxLsbNameLen).seq <|
    ((xdrArrayElement (xdrSpecsFields lsfLimits)).fixed numJobs.toInt.toNat).seq <|
    xdrWord.seq <| xdrWord.seq <| xdrWord.seq <| xdrWord.seq xdrVarString.counted

/-- `xdr_sbdPackage` when it writes. -/
def encodeSbdPackage (p : SbdPackage) (m : Mem) : Bool × Mem :=
  (xdrPackageFields lsfLimits).encode
    (p.mbdPid, p.retryIntvl, p.preemPeriod, p.pgSuspIdleT, p.maxJobs, p.sbdSleepTime, p.managerId,
      ⟨p.jobs.1, p.lsbManager, fun i => (specsBy lsfLimits).sent (p.jobs.2 i), p.uJobLimit,
        p.rusageUpdateRate, p.rusageUpdatePercent, p.jobTerminateInterval, p.admins⟩) m

/-- How sbatchd reads a package. `xdr_sbdPackage` itself stops behind `lsbManager`; then come
the jobs, one by one, and `xdr_sbdPackage1`. -/
def decodeSbdPackage (m : Mem) : Option SbdPackage × Mem :=
  (((xdrPackageFields lsfLimits).decode m).1.map fun
    (mbdPid, retryIntvl, preemPeriod, pgSuspIdleT, maxJobs, sbdSleepTime, managerId,
      ⟨numJobs, lsbManager, jobs, uJobLimit, rusageUpdateRate, rusageUpdatePercent,
        jobTerminateInterval, admins⟩) =>
      { jobs := ⟨numJobs, fun i => (specsBy lsfLimits).made (jobs i)⟩, mbdPid, retryIntvl,
        preemPeriod, pgSuspIdleT, maxJobs, sbdSleepTime, managerId, lsbManager, uJobLimit,
        rusageUpdateRate, rusageUpdatePercent, jobTerminateInterval, admins },
    ((xdrPackageFields lsfLimits).decode m).2)

def packageBy : By (xdrPackageFields lsfLimits) (encodeSbdPackage lsfLimits)
    (decodeSbdPackage lsfLimits) :=
  ⟨_, _, fun _ _ => rfl, fun _ => rfl⟩

/-- Of a job specification only the id may change on its way. -/
theorem specsBy_made (s : JobSpecs) : (specsBy lsfLimits).made ((specsBy lsfLimits).sent s) = s ↔
    JobIdFits s.jobId := by
  rw [← jobId32To64_eq_iff]
  constructor
  · intro same
    exact congrArg JobSpecs.jobId same
  · intro same
    change { s with jobId := jobId32To64 (lsbArrayJobId s.jobId) (lsbArrayIdx s.jobId) } = s
    rw [same]

/-- Every message that can be written is read back from there as it was, up to the byte where
writing ended, exactly when its job ids fit. -/
theorem daemonMessages_round_trip :
    (∀ (r : StatusReq) (m m' : Mem), encodeStatusReq r m = (true, m') →
      (decodeStatusReq (m'.setPos m.pos) = (some r, m') ↔ JobIdFits r.jobId)) ∧
    (∀ (s : JobSpecs) (m m' : Mem), encodeJobSpecs lsfLimits s m = (true, m') →
      (decodeJobSpecs lsfLimits (m'.setPos m.pos) = (some s, m') ↔ JobIdFits s.jobId)) ∧
    ∀ (p : SbdPackage) (m m' : Mem), encodeSbdPackage lsfLimits p m = (true, m') →
      (decodeSbdPackage lsfLimits (m'.setPos m.pos) = (some p, m') ↔
        ∀ i, JobIdFits (p.jobs.2 i).jobId) := by
  refine ⟨fun r m m' encoded => ?_, fun s m m' encoded => ?_, fun p m m' encoded => ?_⟩
  · rw [statusBy.round_trip encoded, ← jobId32To64_eq_iff]
    constructor
    · intro same
      exact congrArg StatusReq.jobId (Option.some.inj (Prod.mk.inj same).1)
    · intro same
      change (some { r with jobId := jobId32To64 (lsbArrayJobId r.jobId) (lsbArrayIdx r.jobId) },
        m') = _
      rw [same]
  · rw [(specsBy lsfLimits).round_trip encoded, ← specsBy_made lsfLimits]
    simp
  · rw [(packageBy lsfLimits).round_trip encoded]
    simp only [← specsBy_made lsfLimits]
    constructor
    · intro same i
      have jobs := congrArg SbdPackage.jobs (Option.some.inj (Prod.mk.inj same).1)
      exact congrFun (eq_of_heq (Sigma.mk.inj jobs).2) i
    · intro same
      have jobs := funext same
      change (some { p with jobs := ⟨p.jobs.1, fun i => (specsBy lsfLimits).made
        ((specsBy lsfLimits).sent (p.jobs.2 i))⟩ }, m') = _
      rw [jobs]

def plainStatus (jobId : BitVec 64) : StatusReq :=
  ⟨jobId, 0, 0, 0, 0, 0, 0, 0, 0, fun _ => 0, 0, ⟨0, Fin.elim0⟩, 0, plainText "/root",
    plainText "", plainText "", plainText "", plainText "", 0, ⟨0, 0, 0, 0, ⟨0, Fin.elim0⟩,
    ⟨0, Fin.elim0⟩⟩, 0, 0⟩

def plainPackage : SbdPackage :=
  ⟨1, 2, 3, 4, 5, 6, 7, ⟨1, fun _ => plainSpecs⟩, plainText "lsfadmin", 8, 9, 10, 11,
    ⟨1, fun _ => plainText "root"⟩⟩

theorem daemonMessages_round_trip_plain :
    (∃ m', encodeStatusReq (plainStatus 7) specsBlock = (true, m') ∧
      decodeStatusReq (m'.setPos specsBlock.pos) = (some (plainStatus 7), m')) ∧
    ∃ m', encodeSbdPackage (fun _ => ⟨0, 0, 0, 0⟩) plainPackage specsBlock = (true, m') ∧
      decodeSbdPackage (fun _ => ⟨0, 0, 0, 0⟩) (m'.setPos specsBlock.pos) =
        (some plainPackage, m') := by
  have round := daemonMessages_round_trip fun _ => ⟨0, 0, 0, 0⟩
  have fits : JobIdFits 7 := .inl ⟨0, 7, by decide, by decide, rfl⟩
  have status : (encodeStatusReq (plainStatus 7) specsBlock).1 = true := by decide +kernel
  have package : (encodeSbdPackage (fun _ => ⟨0, 0, 0, 0⟩) plainPackage specsBlock).1 = true := by
    decide +kernel
  obtain ⟨m₁, reported⟩ := exists_of_fst status
  obtain ⟨m₂, packed⟩ := exists_of_fst package
  exact ⟨⟨m₁, reported, (round.1 _ _ _ reported).2 fits⟩,
    m₂, packed, (round.2.2 _ _ _ packed).2 fun _ => fits⟩

/-- The index is more than `LSB_MAX_ARRAY_IDX`. -/
theorem largeIndex_status_lost :
    let jobId := BitVec.ofNat 64 (70000 * 2 ^ 32 + 1)
    ∃ m', encodeStatusReq (plainStatus jobId) specsBlock = (true, m') ∧
      decodeStatusReq (m'.setPos specsBlock.pos) ≠ (some (plainStatus jobId), m') := by
  intro jobId
  have status : (encodeStatusReq (plainStatus jobId) specsBlock).1 = true := by decide +kernel
  obtain ⟨m', reported⟩ := exists_of_fst status
  refine ⟨m', reported, ?_⟩
  rw [statusBy.round_trip reported]
  intro same
  have ids := congrArg StatusReq.jobId (Option.some.inj (Prod.mk.inj same).1)
  revert ids
  decide

end Jhlava.Message
