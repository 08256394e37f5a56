import Mathlib.Data.BitVec
import Mathlib.Tactic.NormNum
import Jhlava.TextScan

/-! `updSharedResourceByRUNJob` of mbd.resource.c: the instances of shared resources whose values a
job's reservation changes. Values are rationals, `none` for "-"; an instance is its number. -/
namespace Jhlava.SharedRes
open TextScan List Option

structure ResItem where
  name : Text
  numeric : Bool
  decr : Bool
  release : Bool
  deriving DecidableEq, Repr

structure LsInfo where
  numIndx : Nat
  resTable : List ResItem
  names : (resTable.map ResItem.name).Nodup

def infinitInt : Int := 2 ^ 31 - 1

/-- `INFINIT_LOAD` and `INFINIT_FLOAT`, which are floats. -/
def infinitLoad : Rat := 2 ^ 31

/-- What `getReserveValues` returns. -/
structure ResVal where
  rusgBitMaps : List (BitVec 32)
  val : Nat → Rat
  duration : Int
  decay : Rat

structure HData where
  unavail : Bool
  instances : List Nat
  deriving DecidableEq, Repr

/-- A job, with what the functions it is given to say of it. -/
structure Job where
  hPtr : List HData
  run : Bool
  susp : Bool
  reserve : Bool
  runTime : Rat
  runTimeSinceResume : Rat
  resVal : Option ResVal
  isReservePreemptResource : Bool

structure Env where
  info : LsInfo
  resName : Nat → Text
  isItPreemptResourceIndex : Nat → Bool
  pow : Rat → Rat → Rat

/-- The values, and the instances whose value was replaced, each with its resource; the bits of
`rusgBitMaps` are those of these resources. -/
structure State where
  value : Nat → Option Rat
  adjusted : List (Nat × Nat) := []

def testBit (integers : List (BitVec 32)) (bitNo : Nat) : Bool :=
  (integers.getD (bitNo / 32) 0).getLsbD (bitNo % 32)

section Update
variable (env : Env) (jp : Job) (rv : ResVal)

/-- `getHRValue`; a value "-" counts as `INFINIT_LOAD`. -/
def getHRValue (value : Nat → Option Rat) (resName : Text) (hPtr : HData) : Option (Nat × Rat) :=
  (hPtr.instances.find? (env.resName · = resName)).map fun instance_ =>
    (instance_, (value instance_).getD infinitLoad)

/-- A shared numeric resource that an amount is reserved of. -/
def reserved (ldx : Nat) (res : ResItem) : Bool :=
  env.info.numIndx ≤ ldx && res.numeric && testBit rv.rusgBitMaps ldx &&
    rv.val ldx < infinitLoad && -infinitLoad < rv.val ldx

/-- What the loop asks of a resource before it looks at a host. -/
def adjusts (adjForPreemptableResource : Bool) (ldx : Nat) (res : ResItem) : Bool :=
  reserved env rv ldx res && (!adjForPreemptableResource || env.isItPreemptResourceIndex ldx) &&
    (jp.run || jp.susp && !res.release || jp.susp && jp.reserve)

def jackValue (ldx : Nat) (res : ResItem) : Rat :=
  let left := rv.duration - if env.isItPreemptResourceIndex ldx then jp.runTimeSinceResume
    else jp.runTime
  let factor :=
    if rv.duration ≠ infinitInt ∧ rv.decay ≠ infinitLoad ∧ 0 < left then
      env.pow (left / rv.duration) rv.decay
    else 1
  if res.decr then -(rv.val ldx * factor) else rv.val ldx * factor

/-- The instance that the loops come to for a host and a resource, with a value that is not
negative. -/
def candidate (adj : Bool) (value : Nat → Option Rat) (turn : HData × Nat) :
    Option (ResItem × Nat) :=
  env.info.resTable[turn.2]?.bind fun res =>
    if adjusts env jp rv adj turn.2 res then
      (getHRValue env value res.name turn.1).bind fun found =>
        if found.2 < 0 then none else some (res, found.1)
    else none

def adjustLoadValue (adj : Bool) (s : State) (turn : HData × Nat) : State :=
  match candidate env jp rv adj s.value turn with
  | none => s
  | some (res, instance_) =>
    if turn.2 ∈ s.adjusted.map Prod.fst then s
    else
      let load := (s.value instance_).getD 0 + jackValue env jp rv turn.2 res
      { value := Function.update s.value instance_ (some (if load < 0 then 0 else load))
        adjusted := s.adjusted ++ [(turn.2, instance_)] }

/-- The turns of the loops, in their order. -/
def turns : List (HData × Nat) :=
  (jp.hPtr.filter (!·.unavail)).flatMap fun hPtr =>
    (List.range env.info.resTable.length).map fun ldx => (hPtr, ldx)

/-- Whether the reservation is over, or only goes on for the resources of preemption. -/
def reservation : Option Bool :=
  if rv.rusgBitMaps.sum = 0 then none
  else if rv.duration ≠ infinitInt ∧ rv.duration - jp.runTime ≤ 0 then
    if rv.duration - jp.runTimeSinceResume ≤ 0 ∨ !jp.isReservePreemptResource then none
    else some true
  else some false

def updSharedResourceByRUNJob (value : Nat → Option Rat) : State :=
  match jp.resVal with
  | none => { value }
  | some rv =>
    match reservation jp rv with
    | none => { value }
    | some adj => (turns env jp).foldl (adjustLoadValue env jp rv adj) { value }

end Update

/-! ### The instances that are adjusted -/

section Once
variable (env : Env) (jp : Job) (rv : ResVal) (value : Nat → Option Rat)

/-- An instance that the job's hosts have of a resource it reserves an amount of. -/
def Attached (ldx instance_ : Nat) : Prop :=
  ∃ res, env.info.resTable[ldx]? = some res ∧ reserved env rv ldx res ∧
    ∃ hPtr ∈ jp.hPtr, instance_ ∈ hPtr.instances ∧ env.resName instance_ = res.name

/-- The reservation is not over for the resource. -/
def InForce (ldx : Nat) : Prop :=
  ∃ adj, reservation jp rv = some adj ∧ (adj = true → env.isItPreemptResourceIndex ldx)

def NonNeg (load : Option Rat) : Prop := ∀ v ∈ load, 0 ≤ v

/-- What holds after the turns `done`. -/
structure Adjusted (adj : Bool) (done : List (HData × Nat)) (s : State) : Prop where
  nonNeg : ∀ x, NonNeg (s.value x) ↔ NonNeg (value x)
  once : (s.adjusted.map Prod.fst).Nodup
  sound : ∀ p ∈ s.adjusted, ∃ hPtr res, (hPtr, p.1) ∈ done ∧
    candidate env jp rv adj value (hPtr, p.1) = some (res, p.2)
  complete : ∀ turn ∈ done, (candidate env jp rv adj value turn).isSome →
    turn.2 ∈ s.adjusted.map Prod.fst

variable {env jp rv value} {adj : Bool} {s : State} {done : List (HData × Nat)}

theorem candidate_eq_some {turn : HData × Nat} {res : ResItem} {x : Nat} :
    candidate env jp rv adj value turn = some (res, x) ↔
      env.info.resTable[turn.2]? = some res ∧ adjusts env jp rv adj turn.2 res = true ∧
        turn.1.instances.find? (env.resName · = res.name) = some x ∧ NonNeg (value x) := by
  have load : ∀ v : Option Rat, ¬ v.getD infinitLoad < 0 ↔ NonNeg v := by
    intro v
    cases v with
    | none =>
      have pos : (0 : Rat) < infinitLoad := by norm_num [infinitLoad]
      simp [NonNeg, pos.le]
    | some v => simp [NonNeg]
  simp only [candidate, getHRValue, bind_eq_some_iff, ite_none_right_eq_some,
    map_eq_some_iff, ite_none_left_eq_some]
  constructor
  · rintro ⟨res, found, wanted, _, ⟨y, first, rfl⟩, fits, same⟩
    obtain ⟨rfl, rfl⟩ := Prod.mk.inj (Option.some.inj same)
    exact ⟨found, wanted, first, (load _).mp fits⟩
  · rintro ⟨found, wanted, first, fits⟩
    exact ⟨res, found, wanted, _, ⟨x, first, rfl⟩, (load _).mpr fits, rfl⟩

theorem Adjusted.step (h : Adjusted env jp rv value adj done s) (turn : HData × Nat) :
    Adjusted env jp rv value adj (done ++ [turn]) (adjustLoadValue env jp rv adj s turn) := by
  have same : candidate env jp rv adj s.value turn = candidate env jp rv adj value turn := by
    ext ⟨res, x⟩
    simp only [candidate_eq_some, h.nonNeg]
  unfold adjustLoadValue
  rw [same]
  have sound : ∀ p ∈ s.adjusted, ∃ hPtr res, (hPtr, p.1) ∈ done ++ [turn] ∧
      candidate env jp rv adj value (hPtr, p.1) = some (res, p.2) := by
    intro p mem
    obtain ⟨hPtr, res, done_, found⟩ := h.sound p mem
    exact ⟨hPtr, res, mem_append_left _ done_, found⟩
  have complete : ∀ new, s.adjusted.map Prod.fst ⊆ new →
      ((candidate env jp rv adj value turn).isSome → turn.2 ∈ new) →
      ∀ t ∈ done ++ [turn], (candidate env jp rv adj value t).isSome → t.2 ∈ new := by
    intro new more last t mem isSome
    rcases mem_append.mp mem with mem | mem
    · exact more (h.complete t mem isSome)
    · rw [mem_singleton.mp mem] at isSome ⊢
      exact last isSome
  cases found : candidate env jp rv adj value turn with
  | none =>
    exact ⟨h.nonNeg, h.once, sound, complete _ (List.Subset.refl _) fun isSome =>
      by simp [found] at isSome⟩
  | some p =>
    obtain ⟨res, x⟩ := p
    dsimp only
    split
    · rename_i set
      exact ⟨h.nonNeg, h.once, sound, complete _ (List.Subset.refl _) fun _ => set⟩
    · rename_i new
      refine ⟨fun y => ?_, ?_, fun p mem => ?_, complete _ ?_ fun _ => by simp⟩
      · dsimp only
        by_cases here : y = x
        · subst here
          rw [Function.update_self]
          refine ⟨fun _ => (candidate_eq_some.mp found).2.2.2, fun _ v mem => ?_⟩
          obtain rfl := Option.some.inj mem
          split
          · exact le_rfl
          · exact not_lt.mp ‹_›
        · rw [Function.update_of_ne here]
          exact h.nonNeg y
      · rw [map_append]
        refine nodup_append.mpr ⟨h.once, nodup_singleton _, ?_⟩
        rintro a mem _ last rfl
        rw [mem_singleton.mp last] at mem
        exact new mem
      · rcases mem_append.mp mem with mem | mem
        · exact sound p mem
        · rw [mem_singleton.mp mem]
          exact ⟨turn.1, res, by simp, found⟩
      · rw [map_append]
        exact subset_append_left _ _

theorem Adjusted.foldl (h : Adjusted env jp rv value adj done s) (turns : List (HData × Nat)) :
    Adjusted env jp rv value adj (done ++ turns)
      (turns.foldl (adjustLoadValue env jp rv adj) s) := by
  induction turns generalizing done s with
  | nil => rwa [append_nil]
  | cons turn turns ih =>
    have next := ih (h.step turn)
    rwa [append_assoc] at next

theorem Attached.unique {l l' x : Nat} (h : Attached env jp rv l x) (h' : Attached env jp rv l' x) :
    l = l' := by
  obtain ⟨res, found, -, -, -, -, name⟩ := h
  obtain ⟨res', found', -, -, -, -, name'⟩ := h'
  obtain ⟨lt, -⟩ := List.getElem?_eq_some_iff.mp found
  refine (List.getElem?_inj (by simpa using lt) env.info.names).mp ?_
  rw [List.getElem?_map, List.getElem?_map, found, found', map_some, map_some, ← name, ← name']

theorem mem_turns {hPtr : HData} {ldx : Nat} (available : ∀ hPtr ∈ jp.hPtr, hPtr.unavail = false) :
    (hPtr, ldx) ∈ turns env jp ↔ hPtr ∈ jp.hPtr ∧ ldx < env.info.resTable.length := by
  have all : jp.hPtr.filter (!·.unavail) = jp.hPtr :=
    filter_eq_self.mpr fun hPtr mem => by rw [available hPtr mem]; rfl
  simp [turns, all]

/-- For a running job on available hosts, every instance is adjusted exactly once if for each
reserved resource its hosts share one instance. -/
theorem updShared_once_iff (env : Env) (jp : Job) (rv : ResVal) (value : Nat → Option Rat)
    (running : jp.run = true) (reserves : jp.resVal = some rv)
    (available : ∀ hPtr ∈ jp.hPtr, hPtr.unavail = false) :
    (∀ x, ((∃ ldx, Attached env jp rv ldx x) →
        ((updSharedResourceByRUNJob env jp value).adjusted.map Prod.snd).count x = 1) ∧
      ((¬ ∃ ldx, Attached env jp rv ldx x) →
        ((updSharedResourceByRUNJob env jp value).adjusted.map Prod.snd).count x = 0)) ↔
      ∀ ldx x, Attached env jp rv ldx x → InForce env jp rv ldx ∧ NonNeg (value x) ∧
        ∀ y, Attached env jp rv ldx y → y = x := by
  unfold updSharedResourceByRUNJob
  rw [reserves]
  dsimp only
  cases force : reservation jp rv with
  | none =>
    simp only [map_nil, count_nil, InForce, force]
    exact ⟨fun h ldx x at_ => (nomatch (h x).1 ⟨ldx, at_⟩), fun h x =>
      ⟨fun ⟨ldx, at_⟩ => (nomatch (h ldx x at_).1), fun _ => trivial⟩⟩
  | some adj =>
    have start : Adjusted env jp rv value adj [] { value } :=
      ⟨fun _ => Iff.rfl, nodup_nil, by simp, by simp⟩
    have after := start.foldl (turns env jp)
    dsimp only
    generalize (turns env jp).foldl (adjustLoadValue env jp rv adj) { value } = s at after ⊢
    have inForce : ∀ {l}, InForce env jp rv l ↔ (adj = true → env.isItPreemptResourceIndex l) := by
      simp [InForce, force]
    have attached : ∀ {l x}, (l, x) ∈ s.adjusted →
        Attached env jp rv l x ∧ InForce env jp rv l ∧ NonNeg (value x) := by
      intro l x mem
      obtain ⟨hPtr, res, turn, found⟩ := after.sound _ mem
      obtain ⟨isRes, wanted, first, nonNeg⟩ := candidate_eq_some.mp found
      simp only [adjusts, Bool.and_eq_true, Bool.or_eq_true, Bool.not_eq_true'] at wanted
      refine ⟨⟨res, isRes, wanted.1.1, hPtr, ((mem_turns available).mp turn).1,
        mem_of_find?_eq_some first, by simpa using List.find?_some first⟩, ?_, nonNeg⟩
      exact inForce.mpr fun isAdj => wanted.1.2.resolve_left (by simp [isAdj])
    have distinct : (s.adjusted.map Prod.snd).Nodup := by
      refine (List.Nodup.of_map _ after.once).map_on fun p mem q mem' same => ?_
      have here := (attached mem).1
      rw [same] at here
      exact Prod.ext (here.unique (attached mem').1) same
    constructor
    · intro once ldx x at_
      have taken : ∀ {y}, Attached env jp rv ldx y → (ldx, y) ∈ s.adjusted := by
        intro y at_
        have mem := count_pos_iff.mp (Nat.lt_of_lt_of_eq Nat.one_pos ((once y).1 ⟨ldx, at_⟩).symm)
        obtain ⟨⟨l, _⟩, done, rfl⟩ := mem_map.mp mem
        rwa [at_.unique (attached done).1]
      obtain ⟨-, force, nonNeg⟩ := attached (taken at_)
      exact ⟨force, nonNeg, fun y at' => congrArg Prod.snd
        (inj_on_of_nodup_map after.once (taken at') (taken at_) rfl)⟩
    · intro shared x
      refine ⟨fun ⟨ldx, at_⟩ => ?_, fun none_ => ?_⟩
      · obtain ⟨force, nonNeg, only⟩ := shared ldx x at_
        obtain ⟨res, isRes, wanted, hPtr, host, mem, name⟩ := id at_
        have isSome : (hPtr.instances.find? (env.resName · = res.name)).isSome :=
          List.find?_isSome.mpr ⟨x, mem, decide_eq_true name⟩
        obtain ⟨y, first⟩ := isSome_iff_exists.mp isSome
        obtain rfl := only y ⟨res, isRes, wanted, hPtr, host, mem_of_find?_eq_some first,
          by simpa using List.find?_some first⟩
        have found : candidate env jp rv adj value (hPtr, ldx) = some (res, y) := by
          refine candidate_eq_some.mpr ⟨isRes, ?_, first, nonNeg⟩
          cases adj <;> simp_all [adjusts]
        have turn := (mem_turns available).mpr ⟨host, (List.getElem?_eq_some_iff.mp isRes).1⟩
        have done := after.complete _ turn (by rw [found]; rfl)
        obtain ⟨⟨_, z⟩, mem, rfl⟩ := mem_map.mp done
        refine count_eq_one_of_mem distinct (mem_map.mpr ⟨_, mem, ?_⟩)
        exact only z (attached mem).1
      · refine count_eq_zero.mpr fun mem => ?_
        obtain ⟨⟨l, _⟩, done, rfl⟩ := mem_map.mp mem
        exact none_ ⟨l, (attached done).1⟩

end Once

section Example

/-- A job that reserves of a resource on hosts with the given instances of it. -/
def reserving : ResVal := ⟨[1], fun _ => 1, infinitInt, infinitLoad⟩

def oneResource : Env where
  info := ⟨0, [⟨['l'], true, true, false⟩], by decide⟩
  resName _ := ['l']
  isItPreemptResourceIndex _ := false
  pow factor _ := factor

def runningOn (instances : List Nat) : Job where
  hPtr := instances.map fun x => ⟨false, [x]⟩
  run := true
  susp := false
  reserve := false
  runTime := 0
  runTimeSinceResume := 0
  resVal := some reserving
  isReservePreemptResource := false

theorem updShared_once_iff_shared :
    let jp := runningOn [3, 3]
    (∀ x, ((∃ ldx, Attached oneResource jp reserving ldx x) →
        ((updSharedResourceByRUNJob oneResource jp fun _ => some 5).adjusted.map Prod.snd).count x =
          1) ∧
      ((¬ ∃ ldx, Attached oneResource jp reserving ldx x) →
        ((updSharedResourceByRUNJob oneResource jp fun _ => some 5).adjusted.map Prod.snd).count x =
          0)) ↔
      ∀ ldx x, Attached oneResource jp reserving ldx x →
        InForce oneResource jp reserving ldx ∧ NonNeg (some 5) ∧
          ∀ y, Attached oneResource jp reserving ldx y → y = x :=
  updShared_once_iff _ _ _ _ rfl rfl (by simp [runningOn])

/-- Two hosts with instances of their own: the one of the second host is not adjusted. -/
theorem secondInstance_not_adjusted :
    Attached oneResource (runningOn [3, 4]) reserving 0 4 ∧
      (updSharedResourceByRUNJob oneResource (runningOn [3, 4]) fun _ => some 5).adjusted =
        [(0, 3)] :=
  ⟨⟨_, rfl, by decide +kernel, ⟨false, [4]⟩, by decide, by decide, rfl⟩, by decide +kernel⟩

end Example

end Jhlava.SharedRes
