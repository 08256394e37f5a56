import Jhlava.StatusXdr

/-! What the readers of status requests and job specifications accept. The thresholds of a
job are read or the whole is refused, although nothing looks at their result; a text that is
too long for its array is let in. A chunk of status requests is accepted as soon as its length
has been read. -/
namespace Jhlava.Message
open Xdr

/-! ### The form of a chunk -/

def anyWord : Layout := .word fun _ => .nothing

/-- A length and as many bytes, at most `max`. -/
def textLayout (max : Nat) : Layout :=
  .word fun size =>
    if size.toNat > max then .refused
    else .seq (.bytes size.toNat) (.bytes (padding size.toNat).length)

def varTextLayout : Layout :=
  .word fun len =>
    if len.toInt < 0 ∨ len.toInt = 2 ^ 31 - 1 then .refused
    else .seq (.bytes len.toNat) (.bytes (padding len.toNat).length)

def times (n : Nat) (l : Layout) : Layout :=
  match n with
  | 0 => .nothing
  | n + 1 => .seq l (times n l)

def row : List Layout → Layout
  | [] => .nothing
  | [l] => l
  | l :: ls => .seq l (row ls)

def arrayLayout (l : Layout) : Layout := .word fun num => times num.toInt.toNat l

def callocLayout (l : Layout) : Layout :=
  .word fun num => if num.toInt < 0 then .refused else times num.toInt.toNat l

def jRusageLayout : Layout :=
  row [anyWord, anyWord, anyWord, anyWord,
    callocLayout (.framed (row [anyWord, anyWord, anyWord, anyWord])),
    callocLayout (.framed anyWord)]

def statusReqLayout : Layout :=
  row [anyWord, anyWord, anyWord, anyWord, anyWord, anyWord, anyWord, anyWord, anyWord,
    .framed (times 19 (row [anyWord, anyWord])), anyWord, arrayLayout (textLayout maxHostNameLen),
    anyWord, varTextLayout, varTextLayout, varTextLayout, varTextLayout, varTextLayout, anyWord,
    jRusageLayout, anyWord, anyWord, anyWord]

def CompleteChunk (m : Mem) : Prop :=
  m.left.length < 4 ∨ ((arrayLayout statusReqLayout).skip m).isSome = true

/-! ### Status requests -/

variable {α : Type}

theorem fixed_layout (c : Codec α) (n : Nat) : (c.fixed n).layout = times n c.layout := by
  induction n with
  | zero => rfl
  | succ n ih =>
    change Layout.seq c.layout (c.fixed n).layout = _
    rw [ih]
    rfl

theorem xdrString_layout (max : Nat) : (xdrString max).layout = textLayout max := by
  refine congrArg Layout.word (funext fun size => ?_)
  beta_reduce
  split_ifs <;> rfl

theorem xdrVarString_layout : xdrVarString.layout = varTextLayout := by
  refine congrArg Layout.word (funext fun len => ?_)
  beta_reduce
  have value : len.toInt = if 2 * len.toNat < 2 ^ 32 then (len.toNat : Int)
    else len.toNat - 2 ^ 32 :=
    BitVec.toInt_eq_toNat_cond len
  have more : (len + 1).toNat = (len.toNat + 1) % 2 ^ 32 := by rw [BitVec.toNat_add]; rfl
  have same : (mallocFails len ∨ len.toNat > (len + 1).toNat) ↔
      (len.toInt < 0 ∨ len.toInt = 2 ^ 31 - 1) := by
    rw [mallocFails, value]
    split_ifs <;> omega
  by_cases refused : len.toInt < 0 ∨ len.toInt = 2 ^ 31 - 1
  · rw [if_pos refused]
    rcases same.2 refused with fails | long
    · rw [if_pos fails]
      rfl
    · split_ifs <;> rfl
  · rw [if_neg refused, if_neg fun fails => refused (same.1 (.inl fails)),
      if_neg fun long => refused (same.1 (.inr long))]
    rfl

theorem counted_layout (c : Codec α) : c.counted.layout = arrayLayout c.layout := by
  exact congrArg Layout.word (funext fun num => fixed_layout c _)

theorem xdrCalloc_layout (c : Codec α) : (xdrCalloc c).layout = callocLayout c.layout := by
  refine congrArg Layout.word (funext fun num => ?_)
  beta_reduce
  split_ifs
  · rfl
  · exact fixed_layout c _

theorem xdrJRusage_layout : xdrJRusage.layout = jRusageLayout := by
  change row [anyWord, anyWord, anyWord, anyWord, (xdrCalloc (xdrArrayElement xdrPidInfo)).layout,
    (xdrCalloc (xdrArrayElement xdrWord)).layout] = _
  rw [xdrCalloc_layout, xdrCalloc_layout]
  rfl

theorem xdrStatusFields_layout : xdrStatusFields.layout = statusReqLayout := by
  change row [anyWord, anyWord, anyWord, anyWord, anyWord, anyWord, anyWord, anyWord, anyWord,
    .framed (xdrDouble.fixed 19).layout, anyWord, (xdrString maxHostNameLen).counted.layout,
    anyWord, xdrVarString.layout, xdrVarString.layout, xdrVarString.layout, xdrVarString.layout,
    xdrVarString.layout, anyWord, xdrJRusage.layout, anyWord, anyWord, anyWord] = _
  rw [counted_layout, xdrString_layout, xdrVarString_layout, xdrJRusage_layout]
  rfl

theorem decodeStatusReq_next (m : Mem) : statusReqLayout.skip m = next (decodeStatusReq m) := by
  rw [← xdrStatusFields_layout, xdrStatusFields.accepts]
  simp only [next, decodeStatusReq, Option.map_map]
  rfl

/-! ### Chunks -/

def ChunkDecoded (m : Mem) : Prop :=
  ∀ chunk, (decodeChunkStatusReq m).1 = some chunk → ∀ r ∈ chunk.statusReqs, r.isSome = true

theorem decodeStatusReqs_isSome_iff (n : Nat) (m : Mem) :
    (∀ r ∈ (decodeStatusReqs n m).1, r.isSome = true) ↔
      ((times n statusReqLayout).skip m).isSome = true := by
  induction n generalizing m with
  | zero => simp [decodeStatusReqs, times, Layout.skip]
  | succ n ih =>
    have first := decodeStatusReq_next m
    simp only [decodeStatusReqs, times, Layout.skip, List.forall_mem_cons]
    cases read : decodeStatusReq m with
    | mk r m₁ =>
      rw [read] at first
      cases r with
      | none => simp [first, next]
      | some r => simp [first, next, ih m₁]

theorem chunkDecoded_iff (m : Mem) : ChunkDecoded m ↔ CompleteChunk m := by
  unfold ChunkDecoded CompleteChunk decodeChunkStatusReq arrayLayout
  rw [Layout.skip]
  rcases getWord_cases m with ⟨short, fails⟩ | ⟨num, w, m₁, four, passed, read⟩
  · simp [fails, short]
  · have long : ¬m.left.length < 4 := by
      have := passed.length_le
      omega
    simp only [read, long, false_or, Option.some.injEq, forall_eq']
    exact decodeStatusReqs_isSome_iff _ m₁

theorem decodeChunkStatusReq_none_iff (m : Mem) :
    (decodeChunkStatusReq m).1 = none ↔ m.left.length < 4 := by
  unfold decodeChunkStatusReq
  rcases getWord_cases m with ⟨short, fails⟩ | ⟨num, w, m₁, four, passed, read⟩
  · simp [fails, short]
  · have := passed.length_le
    simp only [read, reduceCtorEq, false_iff]
    omega

/-! ### Job specifications -/

variable {lsfLimits : Fin nLimits → LsfLimit}

theorem decodeJobSpecs_thresholds {m : Mem} {s : JobSpecs}
    (read : (decodeJobSpecs lsfLimits m).1 = some s) : s.thresholds.isSome = true := by
  obtain ⟨fields, isRead, rfl⟩ := Option.map_eq_some_iff.1 read
  obtain ⟨m₁, rest⟩ := Codec.seq_some isRead
  exact Codec.ignoring_isSome _ _ rest

def SpecsDecoded (lsfLimits : Fin nLimits → LsfLimit) (m : Mem) : Prop :=
  readJobSpecs lsfLimits m ≠ .overrun ∧
    ∀ s, readJobSpecs lsfLimits m = .held s → s.thresholds.isSome = true

theorem specsDecoded_iff (m : Mem) :
    SpecsDecoded lsfLimits m ↔ ∀ s, (decodeJobSpecs lsfLimits m).1 = some s → s.Inside := by
  unfold SpecsDecoded readJobSpecs
  cases read : (decodeJobSpecs lsfLimits m).1 with
  | none => simp
  | some s =>
    by_cases inside : s.Inside
    · simp [inside, decodeJobSpecs_thresholds read]
    · simp [inside]

theorem readJobSpecs_cut {s : JobSpecs} {m m' n : Mem} {w : List UInt8}
    (encoded : encodeJobSpecs lsfLimits s m = (true, m')) (isWritten : m'.before = m.before ++ w)
    (part : n.left <+: w) (proper : n.left ≠ w) : readJobSpecs lsfLimits n = .refused := by
  obtain ⟨w', isBytes, written⟩ := (xdrSpecsFields lsfLimits).written _ m m' encoded
  obtain rfl : w = w' := List.append_cancel_left (isWritten.symm.trans written.before)
  have fails := (xdrSpecsFields lsfLimits).cut _ w n isBytes part proper
  rw [readJobSpecs, decodeJobSpecs, fails]
  rfl

def noText : CString := ⟨[], by decide⟩

def noLimits : Fin nLimits → LsfLimit := fun _ => ⟨0, 0, 0, 0⟩

def plainSpecs : JobSpecs where
  jobId := 7
  userId := 0
  options := 0
  nice := 0
  priority := 0
  chkSig := 0
  actPid := 0
  chkPeriod := 0
  migThresh := 0
  lastSSuspTime := 0
  lastCpuTime := 0
  lsfLimits := noLimits
  jStatus := 0
  reasons := 0
  subreasons := 0
  termTime := 0
  startTime := 0
  runTime := 0
  submitTime := 0
  jobPid := 0
  jobPGid := 0
  restartPid := 0
  sigValue := 0
  umask := 0
  jAttrib := 0
  jobFile := noText
  inFile := noText
  outFile := noText
  errFile := noText
  chkpntDir := noText
  cwd := noText
  subHomeDir := noText
  command := noText
  jobName := noText
  preExecCmd := noText
  fromHost := noText
  resReq := noText
  queue := noText
  windows := noText
  userName := noText
  toHosts := ⟨0, Fin.elim0⟩
  thresholds := some ⟨1, 1, fun _ _ => (0, 0)⟩
  xf := ⟨0, Fin.elim0⟩
  mailUser := noText
  clusterName := noText
  projectName := noText
  preCmd := noText
  postCmd := noText
  execCwd := noText
  execHome := noText
  requeueEValues := noText
  execUid := 0
  maxNumProcessors := 0
  env := ⟨0, Fin.elim0⟩
  eexec := []
  niosPort := 0
  resumeCond := noText
  stopCond := noText
  suspendActCmd := noText
  resumeActCmd := noText
  terminateActCmd := noText
  sigMap := fun _ => 0
  actValue := 0
  loginShell := noText
  schedHostType := noText
  execHosts := noText
  options2 := 0
  jobSpoolDir := noText
  inFileSpool := noText
  commandSpool := noText
  userPriority := 0
  execUsername := noText
  prepostUsername := noText

def specsBlock : Mem := ⟨[], List.replicate 800 0, by rw [List.length_replicate]; decide⟩

def firstWord : Mem := ⟨[], [0, 0, 0, 7], by decide⟩

def cutChunk : Mem := ⟨[], [0, 0, 0, 1], by decide⟩

end Jhlava.Message
