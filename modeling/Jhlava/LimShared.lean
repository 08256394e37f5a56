import Jhlava.TransitionRun
import Jhlava.TextScan

/-! The values of shared resources as the hosts report them, `copyResValues` of lim.load.c. A host
stands for its node; it has one place in the list of an instance. -/
namespace Jhlava.Lim
open TextScan TransitionRun

structure ResourceInstance (H : Type) where
  hosts : List H
  value : Text
  updHost : Option H
  deriving DecidableEq, Repr

structure SharedResource (H : Type) where
  resourceName : Text
  instances : List (ResourceInstance H)
  deriving DecidableEq, Repr

/-- A pair of a load vector, with the host that sent it. -/
structure ResPair (H : Type) where
  hPtr : H
  name : Text
  value : Text
  deriving DecidableEq, Repr

section Copy
variable {H : Type} [DecidableEq H]

/-- What a value does to the instance of its host. -/
def copyValue (hPtr : H) (value : Text) (inst : ResourceInstance H) : ResourceInstance H :=
  if value = ['-'] ∧ inst.value = ['-'] then inst
  else
    match inst.updHost with
    | none => { inst with value, updHost := some hPtr }
    | some updHost =>
      let updHostNo := inst.hosts.idxOf updHost
      let curHostNo := inst.hosts.idxOf hPtr
      if updHost ∉ inst.hosts ∨ hPtr ∉ inst.hosts then inst
      else if updHostNo < curHostNo ∧ (value = ['-'] ∨ inst.value ≠ ['-']) then inst
      else if updHostNo > curHostNo ∧ value = ['-'] then inst
      else if updHostNo = curHostNo ∧ value = inst.value then inst
      else { inst with value, updHost := some hPtr }

/-- The instance a pair is for: its resource by `inHostResourcs`, and there the one that
`isInHostList` finds. -/
def instanceOf (resources : List (SharedResource H)) (pair : ResPair H) : Nat × Nat :=
  let r := resources.findIdx (·.resourceName = pair.name)
  (r, resources[r]?.elim 0 fun resource => resource.instances.findIdx (pair.hPtr ∈ ·.hosts))

/-- One turn of the loop of `copyResValues`; a place behind the end is no place. -/
def copyResValue (resources : List (SharedResource H)) (pair : ResPair H) :
    List (SharedResource H) :=
  let at_ := instanceOf resources pair
  resources.modify at_.1 fun resource =>
    { resource with instances := resource.instances.modify at_.2 (copyValue pair.hPtr pair.value) }

def instanceAt (resources : List (SharedResource H)) (r i : Nat) : Option (ResourceInstance H) :=
  resources[r]?.bind fun resource => resource.instances[i]?

/-- The values that come to an instance. -/
def received (r i : Nat) : List (SharedResource H) → List (ResPair H) → List (H × Text)
  | _, [] => []
  | resources, pair :: pairs =>
    (if instanceOf resources pair = (r, i) then [(pair.hPtr, pair.value)] else []) ++
      received r i (copyResValue resources pair) pairs

/-- The most recent value of a host. -/
def lastReport (reports : List (H × Text)) (h : H) : Option Text :=
  (reports.reverse.find? (·.1 = h)).map Prod.snd

end Copy

section Reports
variable {H : Type} [DecidableEq H] {inst inst₀ : ResourceInstance H} {reports : List (H × Text)}
  {hPtr updHost : H} {value : Text}

/-- The instance keeps the last report of the host it has its value from; before that, it is the
one of the configuration or has no value. -/
def Latest (inst₀ : ResourceInstance H) (reports : List (H × Text)) (inst : ResourceInstance H) :
    Prop :=
  match inst.updHost with
  | none => reports = [] ∧ inst = inst₀ ∨ inst.value = ['-']
  | some updHost => lastReport reports updHost = some inst.value

theorem lastReport_snoc (h : H) :
    lastReport (reports ++ [(hPtr, value)]) h =
      if hPtr = h then some value else lastReport reports h := by
  by_cases same : hPtr = h <;> simp [lastReport, same]

/-- The value stays, or it is replaced and its host with it; that host always replaces it. -/
theorem copyValue_cases (listed : hPtr ∈ inst.hosts) (value : Text) :
    copyValue hPtr value inst = { inst with value, updHost := some hPtr } ∨
      copyValue hPtr value inst = inst ∧ (inst.updHost = none → inst.value = ['-']) ∧
        (inst.updHost = some hPtr → value = inst.value) := by
  unfold copyValue
  split
  · rename_i both
    exact .inr ⟨rfl, fun _ => both.2, fun _ => both.1.trans both.2.symm⟩
  · cases upd : inst.updHost with
    | none => exact .inl rfl
    | some updHost =>
      have own : some updHost = some hPtr → updHost = hPtr := Option.some.inj
      dsimp only
      split_ifs with out later earlier same
      · exact .inr
          ⟨rfl, nofun, fun h => absurd listed (out.resolve_left (own h ▸ not_not.mpr listed))⟩
      · exact .inr ⟨rfl, nofun, fun h => absurd later.1 (own h ▸ Nat.lt_irrefl _)⟩
      · exact .inr ⟨rfl, nofun, fun h => absurd earlier.1 (own h ▸ Nat.lt_irrefl _)⟩
      · exact .inr ⟨rfl, nofun, fun _ => same.2⟩
      · exact .inl rfl

theorem Latest.copyValue (latest : Latest inst₀ reports inst) (listed : hPtr ∈ inst.hosts)
    (value : Text) : Latest inst₀ (reports ++ [(hPtr, value)]) (copyValue hPtr value inst) := by
  rcases copyValue_cases listed value with eq | ⟨eq, blank, own⟩ <;> rw [eq]
  · exact (lastReport_snoc hPtr).trans (if_pos rfl)
  · unfold Latest at latest ⊢
    cases upd : inst.updHost with
    | none => exact .inr (blank upd)
    | some updHost =>
      rw [upd] at latest own
      refine (lastReport_snoc updHost).trans ?_
      split
      · rename_i same
        exact congrArg some (own (congrArg some same.symm))
      · exact latest

theorem copyValue_later (upd : inst.updHost = some updHost)
    (later : inst.hosts.idxOf updHost < inst.hosts.idxOf hPtr) (has : inst.value ≠ ['-'])
    (value : Text) : copyValue hPtr value inst = inst := by
  unfold copyValue
  rw [if_neg fun both => has both.2, upd]
  dsimp only
  split
  · rfl
  · rw [if_pos ⟨later, .inr has⟩]

end Reports

section Run
variable {H : Type} [DecidableEq H] {inst inst₀ : ResourceInstance H}
    {resources : List (SharedResource H)} {r i : Nat} {pair : ResPair H}

section

variable (at_ : instanceAt resources r i = some inst)
include at_

theorem instanceAt_copyResValue (pair : ResPair H) :
    instanceAt (copyResValue resources pair) r i =
      some (if instanceOf resources pair = (r, i) then copyValue pair.hPtr pair.value inst
        else inst) := by
  obtain ⟨resource, found, at_⟩ := Option.bind_eq_some_iff.mp at_
  unfold instanceAt copyResValue
  rw [List.getElem?_modify, found]
  by_cases res : (instanceOf resources pair).1 = r
  · by_cases place : (instanceOf resources pair).2 = i <;> simp [res, place, at_, Prod.ext_iff]
  · simp [res, at_, Prod.ext_iff]

theorem listed_of_instanceOf (goes : instanceOf resources pair = (r, i)) :
    pair.hPtr ∈ inst.hosts := by
  obtain ⟨resource, found, at_⟩ := Option.bind_eq_some_iff.mp at_
  obtain ⟨res, place⟩ := Prod.mk.inj goes
  rw [res, found] at place
  obtain ⟨lt, rfl⟩ := List.getElem?_eq_some_iff.mp at_
  simp only [← place] at lt ⊢
  exact of_decide_eq_true (List.findIdx_getElem (w := lt))

theorem run_latest {before : List (H × Text)} (latest : Latest inst₀ before inst)
    (pairs : List (ResPair H)) :
    ∃ inst', instanceAt (run copyResValue resources pairs) r i = some inst' ∧
      Latest inst₀ (before ++ received r i resources pairs) inst' := by
  induction pairs generalizing resources inst before with
  | nil => exact ⟨inst, at_, by rwa [received, List.append_nil]⟩
  | cons pair pairs ih =>
    have next := instanceAt_copyResValue at_ pair
    rw [received, ← List.append_assoc]
    split at next
    · rename_i goes
      rw [if_pos goes]
      exact ih next (latest.copyValue (listed_of_instanceOf at_ goes) pair.value)
    · rename_i elsewhere
      rw [if_neg elsewhere, List.append_nil]
      exact ih next latest

end

/-- An instance that no host has reported to yet, after any load vectors. -/
theorem copyResValues_latest (resources : List (SharedResource H)) (pairs : List (ResPair H))
    (r i : Nat) (inst₀ : ResourceInstance H) (start : instanceAt resources r i = some inst₀)
    (fresh : inst₀.updHost = none) :
    ∃ inst, instanceAt (run copyResValue resources pairs) r i = some inst ∧
      (inst.value ≠ ['-'] → received r i resources pairs = [] ∧ inst = inst₀ ∨ ∃ updHost,
        inst.updHost = some updHost ∧
        lastReport (received r i resources pairs) updHost = some inst.value) ∧
      ∀ pair updHost, instanceOf (run copyResValue resources pairs) pair = (r, i) →
        inst.updHost = some updHost →
        inst.hosts.idxOf updHost < inst.hosts.idxOf pair.hPtr →
        lastReport (received r i resources pairs) updHost ≠ some ['-'] →
        instanceAt (run copyResValue resources (pairs ++ [pair])) r i = some inst := by
  have first : Latest inst₀ [] inst₀ := by
    unfold Latest
    rw [fresh]
    exact .inl ⟨rfl, rfl⟩
  obtain ⟨inst, at_, latest⟩ := run_latest start first pairs
  unfold Latest at latest
  refine ⟨inst, at_, fun has => ?_, ?_⟩
  · cases upd : inst.updHost with
    | none =>
      rw [upd] at latest
      exact .inl (latest.resolve_right has)
    | some updHost =>
      rw [upd] at latest
      exact .inr ⟨updHost, rfl, latest⟩
  · intro pair updHost goes upd later reported
    rw [upd] at latest
    have has : inst.value ≠ ['-'] := fun blank => reported (latest.trans (congrArg some blank))
    rw [run_append, run, run, instanceAt_copyResValue at_, if_pos goes,
      copyValue_later upd later has]

/-- Two hosts; the one that is listed later reports first. -/
theorem copyResValues_latest_two :
    let resources : List (SharedResource Bool) := [⟨['x'], [⟨[true, false], ['-'], none⟩]⟩]
    let pairs : List (ResPair Bool) := [⟨false, ['x'], ['2']⟩, ⟨true, ['x'], ['1']⟩]
    ∃ inst, instanceAt (run copyResValue resources pairs) 0 0 = some inst ∧
      (inst.value ≠ ['-'] → received 0 0 resources pairs = [] ∧
        inst = ⟨[true, false], ['-'], none⟩ ∨ ∃ updHost, inst.updHost = some updHost ∧
        lastReport (received 0 0 resources pairs) updHost = some inst.value) := by
  intro resources pairs
  obtain ⟨inst, at_, latest, -⟩ := copyResValues_latest resources pairs 0 0 _ rfl rfl
  exact ⟨inst, at_, latest⟩

/-- A value of the configuration, which no host has reported. -/
theorem configured_not_reported :
    ∃ inst,
      instanceAt (run copyResValue [(⟨['x'], [⟨[true], ['5'], none⟩]⟩ : SharedResource Bool)] [])
        0 0 = some inst ∧ inst.value ≠ ['-'] ∧ inst.updHost = none :=
  ⟨_, rfl, by decide, rfl⟩

end Run

end Jhlava.Lim
