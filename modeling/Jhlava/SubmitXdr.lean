import Jhlava.XdrBasics

/-! The requests to submit and to modify a job, `xdr_submitReq` and `xdr_modifyReq` of
lsb.xdr.c, and what becomes of a request that is sent. -/
namespace Jhlava.Message
open Xdr BitVec

structure XFile where
  subFn : CString
  execFn : CString
  options : BitVec 32

def xdrXFile : Codec XFile :=
  ((xdrString maxFileNameLen).seq <| (xdrString maxFileNameLen).seq xdrWord).iso
    (fun (subFn, execFn, options) => ⟨subFn, execFn, options⟩)
    (fun x => (x.subFn, x.execFn, x.options)) fun _ => rfl

/-- `LSF_RLIM_NLIMITS`. -/
def nLimits : Nat := 11

/-- The array of limits with its length. What the message does not hold keeps the value
`old`, and what is too much is read and forgotten. -/
def xdrLimits {α : Type} (c : Codec α) (old : Fin nLimits → α) : Codec (Fin nLimits → α) :=
  c.counted.iso (fun v i => if h : i < v.1.toInt.toNat then v.2 ⟨i, h⟩ else old i)
    (fun v => ⟨BitVec.ofNat 32 nLimits, fun i => v (i.cast (by decide))⟩) fun v => by
    funext i
    have inside : (i : Nat) < (BitVec.ofNat 32 nLimits).toInt.toNat := i.2.trans_eq (by decide)
    simp only [dif_pos inside]
    rfl

structure SubmitReq where
  options : BitVec 32
  options2 : BitVec 32
  jobName : CString
  queue : CString
  askedHosts : Counted CString
  resReq : CString
  rLimits : Fin nLimits → BitVec 32
  hostSpec : CString
  numProcessors : BitVec 32
  dependCond : CString
  beginTime : BitVec 64
  termTime : BitVec 64
  sigValue : BitVec 32
  subHomeDir : CString
  inFile : CString
  outFile : CString
  errFile : CString
  command : CString
  inFileSpool : CString
  commandSpool : CString
  chkpntPeriod : BitVec 64
  chkpntDir : CString
  restartPid : BitVec 32
  xf : Counted XFile
  jobFile : CString
  fromHost : CString
  submitTime : BitVec 64
  umask : BitVec 32
  cwd : CString
  preExecCmd : CString
  mailUser : CString
  projectName : CString
  niosPort : BitVec 32
  maxNumProcessors : BitVec 32
  loginShell : CString
  schedHostType : CString
  userPriority : BitVec 32

/-- `xdr_submitReq`; `rLimits` are the limits that the record held before. -/
def xdrSubmitReq (rLimits : Fin nLimits → BitVec 32) : Codec SubmitReq :=
  (xdrWord.seq <| xdrVarString.seq <| xdrVarString.seq <| xdrWord.seq <|
    (xdrString maxHostNameLen).seq <| xdrVarString.seq <| xdrVarString.seq <| xdrVarString.seq <|
    (xdrString maxFileNameLen).seq <| (xdrString maxFileNameLen).seq <|
    (xdrString maxFileNameLen).seq <| (xdrString maxFileNameLen).seq <| xdrVarString.seq <|
    (xdrString maxHostNameLen).seq <| xdrVarString.counted.seq <| (xdrLimits xdrWord rLimits).seq <|
    xdrTime.seq <| xdrTime.seq <| xdrTime.seq <| xdrWord.seq <| xdrWord.seq <| xdrWord.seq <|
    xdrTime.seq <| (xdrString maxFileNameLen).seq <| (xdrString maxFileNameLen).seq <|
    (xdrString maxFileNameLen).seq <| (xdrArrayElement xdrXFile).counted.seq <|
    xdrVarString.seq <| xdrVarString.seq <| xdrWord.seq <| xdrWord.seq <| xdrVarString.seq <|
    xdrVarString.seq <| xdrWord.seq <| (xdrString maxFileNameLen).seq <|
    (xdrString maxFileNameLen).seq xdrWord).iso
    (fun (options, queue, resReq, numProcessors, fromHost, dependCond, jobName, command, jobFile,
        inFile, outFile, errFile, preExecCmd, hostSpec, askedHosts, rLimits, submitTime, beginTime,
        termTime, umask, sigValue, restartPid, chkpntPeriod, chkpntDir, subHomeDir, cwd, xf,
        mailUser, projectName, niosPort, maxNumProcessors, loginShell, schedHostType, options2,
        inFileSpool, commandSpool, userPriority) =>
      { options, queue, resReq, numProcessors, fromHost, dependCond, jobName, command, jobFile,
        inFile, outFile, errFile, preExecCmd, hostSpec, askedHosts, rLimits, submitTime, beginTime,
        termTime, umask, sigValue, restartPid, chkpntPeriod, chkpntDir, subHomeDir, cwd, xf,
        mailUser, projectName, niosPort, maxNumProcessors, loginShell, schedHostType, options2,
        inFileSpool, commandSpool, userPriority })
    (fun r => (r.options, r.queue, r.resReq, r.numProcessors, r.fromHost, r.dependCond, r.jobName,
      r.command, r.jobFile, r.inFile, r.outFile, r.errFile, r.preExecCmd, r.hostSpec, r.askedHosts,
      r.rLimits, r.submitTime, r.beginTime, r.termTime, r.umask, r.sigValue, r.restartPid,
      r.chkpntPeriod, r.chkpntDir, r.subHomeDir, r.cwd, r.xf, r.mailUser, r.projectName,
      r.niosPort, r.maxNumProcessors, r.loginShell, r.schedHostType, r.options2, r.inFileSpool,
      r.commandSpool, r.userPriority)) fun _ => rfl

/-! ### Job ids -/

/-- `LSB_ARRAY_IDX`. -/
def lsbArrayIdx (jobId : BitVec 64) : BitVec 32 :=
  if jobId = -1 then 0 else (jobId >>> 32 &&& 0xFFFF).setWidth 32

/-- `LSB_ARRAY_JOBID`. -/
def lsbArrayJobId (jobId : BitVec 64) : BitVec 32 :=
  if jobId = -1 then -1 else (jobId &&& 0xFFFFFFFF).setWidth 32

/-- `LSB_JOBID`, as `jobId32To64` uses it. -/
def jobId32To64 (jobId jobArrElemId : BitVec 32) : BitVec 64 :=
  jobArrElemId.signExtend 64 <<< 32 ||| jobId.signExtend 64

structure ModifyReq where
  jobId : BitVec 64
  jobIdStr : CString
  delOptions : BitVec 32
  delOptions2 : BitVec 32
  submitReq : SubmitReq

/-- The fields of `xdr_modifyReq`, with the halves of the job id that `jobId64To32` makes. -/
def xdrModifyFields (rLimits : Fin nLimits → BitVec 32) :
    Codec (BitVec 32 × BitVec 32 × SubmitReq × CString × BitVec 32 × BitVec 32) :=
  xdrWord.seq <| xdrWord.seq <| (xdrArrayElement (xdrSubmitReq rLimits)).seq <| xdrVarString.seq <|
    xdrWord.seq xdrWord

def encodeModifyReq (rLimits : Fin nLimits → BitVec 32) (r : ModifyReq) (m : Mem) : Bool × Mem :=
  (xdrModifyFields rLimits).encode
    (lsbArrayJobId r.jobId, r.delOptions, r.submitReq, r.jobIdStr, r.delOptions2,
      lsbArrayIdx r.jobId) m

def decodeModifyReq (rLimits : Fin nLimits → BitVec 32) (m : Mem) : Option ModifyReq × Mem :=
  match (xdrModifyFields rLimits).decode m with
  | (none, m) => (none, m)
  | (some (jobArrId, delOptions, submitReq, jobIdStr, delOptions2, jobArrElemId), m) =>
    (some ⟨jobId32To64 jobArrId jobArrElemId, jobIdStr, delOptions, delOptions2, submitReq⟩, m)

/-! ### What arrives -/

/-- The job ids that are made of an index up to `LSB_MAX_ARRAY_IDX` and an id that is not
negative, and the negative `int`s. -/
def JobIdFits (jobId : BitVec 64) : Prop :=
  (∃ idx id : Nat, idx ≤ 0xFFFF ∧ id < 2 ^ 31 ∧ jobId = BitVec.ofNat 64 (idx * 2 ^ 32 + id)) ∨
    ∃ id : BitVec 32, id.msb = true ∧ jobId = id.signExtend 64

theorem lsbArrayIdx_toNat {jobId : BitVec 64} (ne : jobId ≠ -1) :
    (lsbArrayIdx jobId).toNat = jobId.toNat / 2 ^ 32 % 2 ^ 16 := by
  rw [lsbArrayIdx, if_neg ne, toNat_setWidth, toNat_and, toNat_ushiftRight]
  change (_ &&& (2 ^ 16 - 1)) % 2 ^ 32 = _
  rw [Nat.and_two_pow_sub_one_eq_mod]
  omega

theorem lsbArrayJobId_toNat {jobId : BitVec 64} (ne : jobId ≠ -1) :
    (lsbArrayJobId jobId).toNat = jobId.toNat % 2 ^ 32 := by
  rw [lsbArrayJobId, if_neg ne, toNat_setWidth]
  change (_ &&& (2 ^ 32 - 1)) % 2 ^ 32 = _
  rw [Nat.and_two_pow_sub_one_eq_mod, Nat.mod_mod]

theorem jobId32To64_toNat {id idx : BitVec 32} (low : id.toNat < 2 ^ 31)
    (small : idx.toNat < 2 ^ 31) : (jobId32To64 id idx).toNat = idx.toNat * 2 ^ 32 + id.toNat := by
  have extend : ∀ {x : BitVec 32}, x.toNat < 2 ^ 31 → (x.signExtend 64).toNat = x.toNat := by
    intro x lt
    have sign : x.msb = false := by
      rw [msb_eq_false_iff_two_mul_lt]
      omega
    rw [signExtend_eq_setWidth_of_msb_false sign, toNat_setWidth]
    omega
  rw [jobId32To64, toNat_or, toNat_shiftLeft, extend low, extend small, Nat.mod_eq_of_lt (by omega),
    ← Nat.shiftLeft_eq, ← Nat.shiftLeft_add_eq_or_of_lt (by omega)]

theorem jobId32To64_negative {id idx : BitVec 32} (negative : id.msb = true) :
    jobId32To64 id idx = id.signExtend 64 := by
  apply eq_of_getLsbD_eq
  intro i lt
  simp only [jobId32To64, getLsbD_or, getLsbD_shiftLeft, getLsbD_signExtend, lt,
    decide_true, Bool.true_and]
  by_cases low : i < 32
  · simp [low]
  · simp [low, negative]

theorem lsbArrayJobId_signExtend (id : BitVec 32) : lsbArrayJobId (id.signExtend 64) = id := by
  have low : (id.signExtend 64).setWidth 32 = id := setWidth_signExtend (by decide) id
  unfold lsbArrayJobId
  split_ifs with all
  · rw [← low, all]
    rfl
  · apply eq_of_toNat_eq
    change (_ &&& (2 ^ 32 - 1)) % 2 ^ 32 = _
    rw [Nat.and_two_pow_sub_one_eq_mod, Nat.mod_mod, ← toNat_setWidth, low]

theorem jobId32To64_eq_iff (jobId : BitVec 64) :
    jobId32To64 (lsbArrayJobId jobId) (lsbArrayIdx jobId) = jobId ↔ JobIdFits jobId := by
  constructor
  · intro same
    cases negative : (lsbArrayJobId jobId).msb with
    | true => exact .inr ⟨_, negative, by rw [← jobId32To64_negative negative, same]⟩
    | false =>
      left
      have ne : jobId ≠ -1 := by
        rintro rfl
        revert negative
        decide
      have idLow : (lsbArrayJobId jobId).toNat < 2 ^ 31 := by
        have := msb_eq_false_iff_two_mul_lt.1 negative
        omega
      have idx := lsbArrayIdx_toNat ne
      refine ⟨(lsbArrayIdx jobId).toNat, (lsbArrayJobId jobId).toNat, by omega, idLow, ?_⟩
      apply eq_of_toNat_eq
      have joined := jobId32To64_toNat idLow (show (lsbArrayIdx jobId).toNat < 2 ^ 31 by omega)
      rw [same] at joined
      rw [toNat_ofNat]
      omega
  · rintro (⟨idx, id, idxLe, idLt, rfl⟩ | ⟨id, negative, rfl⟩)
    · have value : (BitVec.ofNat 64 (idx * 2 ^ 32 + id)).toNat = idx * 2 ^ 32 + id := by
        rw [toNat_ofNat]
        omega
      have ne : BitVec.ofNat 64 (idx * 2 ^ 32 + id) ≠ -1 := by
        intro eq
        have := congrArg BitVec.toNat eq
        change _ = 2 ^ 64 - 1 at this
        omega
      have idxEq := lsbArrayIdx_toNat ne
      have idEq := lsbArrayJobId_toNat ne
      apply eq_of_toNat_eq
      rw [jobId32To64_toNat (by omega) (by omega), idxEq]
      omega
    · rw [lsbArrayJobId_signExtend, jobId32To64_negative negative]

theorem modifyReq_round_trip (rLimits : Fin nLimits → BitVec 32) {r : ModifyReq} {m m' : Mem}
    (encoded : encodeModifyReq rLimits r m = (true, m')) :
    decodeModifyReq rLimits (m'.setPos m.pos) =
      (some { r with jobId := jobId32To64 (lsbArrayJobId r.jobId) (lsbArrayIdx r.jobId) }, m') := by
  have fields := (xdrModifyFields rLimits).round_trip encoded
  rw [decodeModifyReq, fields]

/-- Every request that can be written into a block is read back from there as it was, up
to the byte where writing ended. Of a job id, this is so exactly when it fits. -/
theorem requests_round_trip (rLimits : Fin nLimits → BitVec 32) :
    (∀ (r : SubmitReq) (m m' : Mem), (xdrSubmitReq rLimits).encode r m = (true, m') →
      (xdrSubmitReq rLimits).decode (m'.setPos m.pos) = (some r, m')) ∧
    ∀ (r : ModifyReq) (m m' : Mem), encodeModifyReq rLimits r m = (true, m') →
      (decodeModifyReq rLimits (m'.setPos m.pos) = (some r, m') ↔ JobIdFits r.jobId) := by
  refine ⟨fun r m m' encoded => (xdrSubmitReq rLimits).round_trip encoded, fun r m m' encoded => ?_⟩
  rw [modifyReq_round_trip rLimits encoded, ← jobId32To64_eq_iff]
  constructor
  · intro same
    exact congrArg ModifyReq.jobId (Option.some.inj (Prod.mk.inj same).1)
  · intro same
    rw [same]

def plainText (s : String) : CString := cString s.toUTF8.toList

def plainRequest : SubmitReq where
  options := 3
  options2 := 0
  jobName := plainText "sim"
  queue := plainText "normal"
  askedHosts := ⟨1, fun _ => plainText "hosta"⟩
  resReq := plainText ""
  rLimits := fun _ => -1
  hostSpec := plainText ""
  numProcessors := 1
  dependCond := plainText "done(12)"
  beginTime := 0
  termTime := 0
  sigValue := 0
  subHomeDir := plainText "/home"
  inFile := plainText ""
  outFile := plainText "out"
  errFile := plainText ""
  command := plainText "run"
  inFileSpool := plainText ""
  commandSpool := plainText ""
  chkpntPeriod := 0
  chkpntDir := plainText ""
  restartPid := 0
  xf := ⟨1, fun _ => ⟨plainText "a", plainText "b", 1⟩⟩
  jobFile := plainText "1.12"
  fromHost := plainText "hostb"
  submitTime := 1000000000
  umask := 18
  cwd := plainText "/home/u"
  preExecCmd := plainText ""
  mailUser := plainText ""
  projectName := plainText "default"
  niosPort := 0
  maxNumProcessors := 1
  loginShell := plainText ""
  schedHostType := plainText ""
  userPriority := -1

def emptyBlock : Mem := ⟨[], List.replicate 512 0, by rw [List.length_replicate]; decide⟩

theorem exists_of_fst {r : Bool × Mem} (ok : r.1 = true) : ∃ m', r = (true, m') :=
  ⟨r.2, Prod.ext ok rfl⟩

def plainModify : ModifyReq where
  jobId := 5
  jobIdStr := plainText "5"
  delOptions := 0
  delOptions2 := 0
  submitReq := plainRequest

theorem requests_round_trip_plainRequest :
    (∃ m', (xdrSubmitReq fun _ => 0).encode plainRequest emptyBlock = (true, m') ∧
      (xdrSubmitReq fun _ => 0).decode (m'.setPos emptyBlock.pos) = (some plainRequest, m')) ∧
    ∃ m', encodeModifyReq (fun _ => 0) plainModify emptyBlock = (true, m') ∧
      decodeModifyReq (fun _ => 0) (m'.setPos emptyBlock.pos) = (some plainModify, m') := by
  have round := requests_round_trip fun _ => 0
  have submit : ((xdrSubmitReq fun _ => 0).encode plainRequest emptyBlock).1 = true := by
    decide +kernel
  have modify : (encodeModifyReq (fun _ => 0) plainModify emptyBlock).1 = true := by
    decide +kernel
  obtain ⟨m₁, submitted⟩ := exists_of_fst submit
  obtain ⟨m₂, modified⟩ := exists_of_fst modify
  refine ⟨⟨m₁, submitted, round.1 _ _ _ submitted⟩, m₂, modified, (round.2 _ _ _ modified).2 ?_⟩
  exact .inl ⟨0, 5, by decide, by decide, rfl⟩

def largeIndex : ModifyReq where
  jobId := BitVec.ofNat 64 (70000 * 2 ^ 32 + 1)
  jobIdStr := plainText "1[70000]"
  delOptions := 0
  delOptions2 := 0
  submitReq := plainRequest

/-- Its index is sent without the bits above the sixteenth. -/
theorem largeIndex_not_equal :
    ∃ m', encodeModifyReq (fun _ => 0) largeIndex emptyBlock = (true, m') ∧
      decodeModifyReq (fun _ => 0) (m'.setPos emptyBlock.pos) ≠ (some largeIndex, m') := by
  have written : (encodeModifyReq (fun _ => 0) largeIndex emptyBlock).1 = true := by
    decide +kernel
  obtain ⟨m', encoded⟩ := exists_of_fst written
  refine ⟨m', encoded, ?_⟩
  rw [modifyReq_round_trip (fun _ => 0) encoded]
  intro same
  have ids := congrArg ModifyReq.jobId (Option.some.inj (Prod.mk.inj same).1)
  revert ids
  decide

end Jhlava.Message
