import Jhlava.AskedHosts
import Jhlava.DepParse

/-! Which host `chkAskedHosts` puts first. The mark is remembered by the index of
its name, and is used as the index of a host. -/
namespace Jhlava.AskedHosts
open CValues SelectionSort List Option

def mentions (env : HostEnv) (name : Name) : List AskedHost :=
  let asked := readName env name
  if asked.hName = others then []
  else match env.getHGrpData asked.hName with
    | some gp =>
      if asked.first ∨ (gp.numEnts = 0 ∧ gp.numGroups = 0) then []
      else (expandGrp gp asked.hName).filterMap fun member =>
        if member = all then none else (env.getHostData member).map (⟨·, asked.priority⟩)
    | none => ((usableHost env asked.hName).map (⟨·, asked.priority⟩)).toList

def distinctHosts (env : HostEnv) (names : List Name) : List AskedHost :=
  (names.flatMap (mentions env)).foldl pushNew []

variable {e : AskedHost} {name : Name} {names : List Name}

section Loop

variable {env : HostEnv} {returnBadHost : Bool} {j : Nat} {s s' : AskState}

theorem askAll_keeps {priority : Int} (done : askAll env returnBadHost j priority s = .ok s') :
    s'.askedHosts = s.askedHosts ∧ s'.firstHostIndex = s.firstHostIndex := by
  unfold askAll at done
  split at done
  · cases done
  · cases done
    exact ⟨rfl, rfl⟩

theorem refuse_keeps {error : AskError} (done : refuse returnBadHost error j s = .ok s') :
    s'.askedHosts = s.askedHosts ∧ s'.firstHostIndex = s.firstHostIndex := by
  unfold refuse at done
  split at done
  · cases done
  · cases done
    exact ⟨rfl, rfl⟩

theorem askMembers_hosts {priority : Int} {members : List Name}
    (done : members.foldlM (askMember env returnBadHost j priority) s = .ok s') :
    s'.askedHosts = (members.filterMap fun member =>
        if member = all then none else (env.getHostData member).map (⟨·, priority⟩)).foldl pushNew
      s.askedHosts ∧
    s'.firstHostIndex = s.firstHostIndex := by
  induction members generalizing s with
  | nil =>
    cases done
    exact ⟨rfl, rfl⟩
  | cons member members ih =>
    rw [foldlM_cons] at done
    cases first : askMember env returnBadHost j priority s member with
    | error e =>
      rw [first] at done
      cases done
    | ok s₁ =>
      rw [first] at done
      obtain ⟨hosts, index⟩ := ih done
      unfold askMember at first
      by_cases every : member = all
      · rw [if_pos every] at first
        obtain ⟨hosts₁, index₁⟩ := askAll_keeps first
        rw [filterMap_cons_none (by rw [if_pos every]), hosts, hosts₁, index, index₁]
        exact ⟨rfl, rfl⟩
      · rw [if_neg every] at first
        cases known : env.getHostData member with
        | none =>
          rw [known] at first
          cases first
          rw [filterMap_cons_none (by rw [if_neg every, known]; rfl)]
          exact ⟨hosts, index⟩
        | some hData =>
          rw [known] at first
          cases first
          rw [filterMap_cons_some (b := ⟨hData, priority⟩) (by rw [if_neg every, known]; rfl)]
          exact ⟨hosts, index⟩

/-- A turn adds the hosts its name stands for, and remembers a mark. -/
theorem askName_hosts (single : (readName env name).first = true → s.firstHostIndex = none)
    (before : s.firstHostIndex ≠ some j) (done : askName env returnBadHost j s name = .ok s') :
    s'.askedHosts = (mentions env name).foldl pushNew s.askedHosts ∧
      s'.firstHostIndex = if (readName env name).first then some j else s.firstHostIndex := by
  unfold askName at done
  unfold mentions
  generalize readName env name = asked at single done ⊢
  rw [if_neg fun ⟨first, ne⟩ => ne (single first)] at done
  obtain ⟨s₀, mark⟩ : ∃ s₀, s₀ = if asked.first then { s with firstHostIndex := some j } else s :=
    ⟨_, rfl⟩
  rw [← mark] at done
  have hosts₀ : s₀.askedHosts = s.askedHosts := by
    rw [mark]
    split <;> rfl
  have index₀ : s₀.firstHostIndex = if asked.first then some j else s.firstHostIndex := by
    rw [mark]
    split <;> rfl
  have marked : s₀.firstHostIndex = some j ↔ asked.first = true := by
    rw [index₀]
    split
    · rename_i first
      exact iff_of_true rfl first
    · rename_i first
      exact iff_of_false before first
  rw [← index₀, ← hosts₀]
  by_cases other : asked.hName = others
  · rw [if_pos other] at done ⊢
    split at done
    · cases done
    · split at done
      · exact refuse_keeps done
      · cases done
        exact ⟨rfl, rfl⟩
  · rw [if_neg other] at done ⊢
    cases group : env.getHGrpData asked.hName with
    | some gp =>
      simp only [group] at done ⊢
      by_cases first : asked.first = true
      · rw [if_pos (marked.mpr first)] at done
        rw [if_pos (Or.inl first)]
        exact refuse_keeps done
      · rw [if_neg fun eq => first (marked.mp eq)] at done
        by_cases every : gp.numEnts = 0 ∧ gp.numGroups = 0
        · rw [if_pos every] at done
          rw [if_pos (Or.inr every)]
          exact askAll_keeps done
        · rw [if_neg every] at done
          rw [if_neg fun h => h.elim first every]
          exact askMembers_hosts done
    | none =>
      simp only [group] at done ⊢
      cases usable : usableHost env asked.hName with
      | none =>
        simp only [usable] at done ⊢
        split at done
        · cases done
        · cases done
          exact ⟨rfl, rfl⟩
      | some hData =>
        simp only [usable] at done ⊢
        cases done
        exact ⟨rfl, rfl⟩

theorem askNames_hosts (unmarked : ∀ n ∈ names, (readName env n).first = false)
    (before : ∀ i, s.firstHostIndex = some i → i < j)
    (done : askNames env returnBadHost j names s = .ok s') :
    s'.askedHosts = (names.flatMap (mentions env)).foldl pushNew s.askedHosts ∧
      s'.firstHostIndex = s.firstHostIndex := by
  induction names generalizing s j with
  | nil =>
    cases done
    exact ⟨rfl, rfl⟩
  | cons name names ih =>
    obtain ⟨s₁, first, rest⟩ := Dep.bind_eq_ok.mp done
    have plain := unmarked name mem_cons_self
    obtain ⟨hosts, index⟩ := askName_hosts (fun marked => by rw [plain] at marked; cases marked)
      (fun eq => Nat.lt_irrefl _ (before j eq)) first
    rw [plain, if_neg Bool.false_ne_true] at index
    obtain ⟨hosts', index'⟩ := ih (fun n hn => unmarked n (mem_cons_of_mem _ hn))
      (fun i eq => Nat.lt_succ_of_lt (before i (index ▸ eq))) rest
    rw [flatMap_cons, foldl_append, hosts', hosts, index', index]
    exact ⟨rfl, rfl⟩

theorem askNames_append {more : List Name} :
    askNames env returnBadHost j (names ++ more) s =
      (askNames env returnBadHost j names s).bind
        (askNames env returnBadHost (j + names.length) more) := by
  induction names generalizing s j with
  | nil => rfl
  | cons name names ih =>
    rw [cons_append, askNames, askNames]
    cases askName env returnBadHost j s name with
    | error e => rfl
    | ok s₁ =>
      refine ih.trans ?_
      rw [Nat.add_assoc, Nat.add_comm 1]
      rfl

theorem askNames_marked {before after : List Name}
    (unmarked : ∀ n ∈ before ++ after, (readName env n).first = false)
    (marked : (readName env name).first = true)
    (done : askNames env returnBadHost 0 (before ++ name :: after) ⟨[], -1, 0, false, none, none⟩ =
      .ok s') :
    s'.askedHosts = distinctHosts env (before ++ name :: after) ∧
      s'.firstHostIndex = some before.length := by
  rw [askNames_append, Nat.zero_add] at done
  obtain ⟨s₁, first, rest⟩ := Dep.bind_eq_ok.mp done
  obtain ⟨hosts₁, index₁⟩ := askNames_hosts
    (fun n hn => unmarked n (mem_append_left _ hn)) (fun i eq => by cases eq) first
  obtain ⟨s₂, second, third⟩ := Dep.bind_eq_ok.mp rest
  obtain ⟨hosts₂, index₂⟩ :=
    askName_hosts (fun _ => index₁) (by rw [index₁]; exact fun eq => by cases eq)
    second
  rw [marked] at index₂
  obtain ⟨hosts₃, index₃⟩ := askNames_hosts
    (fun n hn => unmarked n (mem_append_right _ hn))
    (fun i eq => by rw [index₂] at eq; cases eq; exact Nat.lt_succ_self _) third
  refine ⟨?_, index₃.trans index₂⟩
  rw [hosts₃, hosts₂, hosts₁, distinctHosts, flatMap_append, flatMap_cons,
    foldl_append, foldl_append]

end Loop

theorem readName_priority (env : HostEnv) (name : Name) :
    (readName env name).priority ≤ firstHostPriority := by
  have first : firstHostPriority = 2 ^ 31 - 1 := rfl
  have int : ∀ x, toInt32 x ≤ firstHostPriority := fun x => by
    have := (isInt32_toInt32 x).2
    omega
  unfold readName
  split
  · rename_i number
    unfold numbered at number
    split at number
    · split at number
      · cases number
        exact int _
      · cases number
    · cases number
  · split
    · dsimp only
      exact int _
    · split
      · exact Int.le_refl _
      · exact (by decide : (0 : Int) ≤ firstHostPriority)

theorem mentions_priority {env : HostEnv} (mem : e ∈ mentions env name) :
    e.priority ≤ firstHostPriority := by
  have bound := readName_priority env name
  suffices e.priority = (readName env name).priority by omega
  unfold mentions at mem
  dsimp only at mem
  split at mem
  · cases mem
  · split at mem
    · split at mem
      · cases mem
      · obtain ⟨member, -, eq⟩ := mem_filterMap.mp mem
        split at eq
        · cases eq
        · obtain ⟨hData, -, rfl⟩ := map_eq_some_iff.mp eq
          rfl
    · obtain ⟨hData, -, rfl⟩ := map_eq_some_iff.mp (mem_toList.mp mem)
      rfl

theorem pushNew_mem {hosts more : List AskedHost} (mem : e ∈ more.foldl pushNew hosts) :
    e ∈ hosts ∨ e ∈ more := by
  induction more generalizing hosts with
  | nil => exact Or.inl mem
  | cons x more ih =>
    rcases ih mem with mem | mem
    · unfold pushNew at mem
      split at mem
      · exact Or.inl mem
      · rcases mem_append.mp mem with mem | mem
        · exact Or.inl mem
        · exact Or.inr (mem_singleton.mp mem ▸ mem_cons_self)
    · exact Or.inr (mem_cons_of_mem _ mem)

theorem distinctHosts_priority {env : HostEnv} (mem : e ∈ distinctHosts env names) :
    e.priority ≤ firstHostPriority := by
  rcases pushNew_mem mem with mem | mem
  · cases mem
  · obtain ⟨name, -, mem⟩ := mem_flatMap.mp mem
    exact mentions_priority mem

section Sorted

variable {hosts : List AskedHost} {j : Nat} {e : AskedHost}

theorem lowerOthers_first {i : Nat} (at_ : (lowerOthers (some j) hosts)[i]? = some e)
    (first : e.priority = firstHostPriority) : i = j ∧ hosts[j]? = some e := by
  rw [lowerOthers, List.getElem?_mapIdx] at at_
  obtain ⟨e₀, old, eq⟩ := map_eq_some_iff.mp at_
  split at eq
  · subst eq
    dsimp only at first
    omega
  · rename_i kept
    subst eq
    have same : i = j := by
      by_contra ne
      exact kept ⟨by simpa using ne, first⟩
    exact ⟨same, same ▸ old⟩

theorem lowerOthers_at (at_ : hosts[j]? = some e) : (lowerOthers (some j) hosts)[j]? = some e := by
  rw [lowerOthers, List.getElem?_mapIdx, at_, map_some, if_neg (by simp)]

theorem lowerOthers_priority (bound : ∀ e ∈ hosts, e.priority ≤ firstHostPriority)
    (mem : e ∈ lowerOthers (some j) hosts) : e.priority ≤ firstHostPriority := by
  obtain ⟨i, at_⟩ := List.getElem?_of_mem mem
  rw [lowerOthers, List.getElem?_mapIdx] at at_
  obtain ⟨e₀, old, eq⟩ := map_eq_some_iff.mp at_
  have := bound e₀ (mem_of_getElem? old)
  split at eq
  · subst eq
    dsimp only
    omega
  · exact eq ▸ this

theorem lowerOthers_single (hosts : List AskedHost) (j : Nat) :
    (lowerOthers (some j) hosts).Pairwise fun a b =>
      ¬ (a.priority = firstHostPriority ∧ b.priority = firstHostPriority) := by
  rw [pairwise_iff_getElem]
  rintro i k hi hk lt ⟨first, second⟩
  have one := (lowerOthers_first (List.getElem?_eq_getElem hi) first).1
  have two := (lowerOthers_first (List.getElem?_eq_getElem hk) second).1
  omega

/-- The sorted list starts with the entry that was at the index of the mark, if
that one has the priority of a first host. -/
theorem sorted_first_iff (bound : ∀ e ∈ hosts, e.priority ≤ firstHostPriority) {h : Nat} :
    (∃ rest, (selectSort AskedHost.priority (lowerOthers (some j) hosts).toArray).toList =
        ⟨h, firstHostPriority⟩ :: rest ∧ ∀ e ∈ rest, e.priority ≠ firstHostPriority) ↔
      hosts[j]? = some ⟨h, firstHostPriority⟩ := by
  have perm : (selectSort AskedHost.priority (lowerOthers (some j) hosts).toArray).toList.Perm
      (lowerOthers (some j) hosts) := selectSort_perm _
  refine ⟨?_, fun at_ => ?_⟩
  · rintro ⟨rest, sorted, -⟩
    have mem : ⟨h, firstHostPriority⟩ ∈ lowerOthers (some j) hosts :=
      perm.subset (sorted ▸ mem_cons_self)
    obtain ⟨i, place⟩ := List.getElem?_of_mem mem
    exact (lowerOthers_first place rfl).2
  · have mem := mem_of_getElem? (lowerOthers_at at_)
    have nonempty : 0 < (lowerOthers (some j) hosts).toArray.size := by
      exact length_pos_of_mem mem
    obtain ⟨x, front, largest⟩ := @selectSort_head _ AskedHost.priority _ nonempty
    have xmem : x ∈ lowerOthers (some j) hosts := by
      refine perm.subset (Array.mem_toList_iff.mpr (Array.mem_of_getElem? front))
    have top : x.priority = firstHostPriority :=
      Int.le_antisymm (lowerOthers_priority bound xmem) (largest _ (mem_toArray.mpr mem))
    obtain ⟨i, place⟩ := List.getElem?_of_mem xmem
    have eq : x = ⟨h, firstHostPriority⟩ :=
      Option.some.inj ((lowerOthers_first place top).2.symm.trans at_)
    rw [← Array.getElem?_toList] at front
    cases sorted : (selectSort AskedHost.priority (lowerOthers (some j) hosts).toArray).toList with
    | nil =>
      rw [sorted] at front
      cases front
    | cons y rest =>
      rw [sorted] at front perm
      obtain rfl : y = x := Option.some.inj front
      refine ⟨rest, by rw [eq], fun e he first => ?_⟩
      have apart := (perm.pairwise_iff fun h ⟨a, b⟩ => h ⟨b, a⟩).mpr
        (lowerOthers_single hosts j)
      exact (pairwise_cons.mp apart).1 e he ⟨top, first⟩

end Sorted

/-- With exactly one name marked, the list starts with a host at the first-host
priority, and no other entry has it, exactly if that host has the index of the
marked name among the distinct hosts, in the order in which they are mentioned
first, and is mentioned there with that priority. -/
theorem chkAskedHosts_first_iff {env : HostEnv} {before after : List Name} {name : Name}
    {numProcessors : Int} {returnBadHost : Bool} {out : Asked}
    (unmarked : ∀ n ∈ before ++ after, (readName env n).first = false)
    (marked : (readName env name).first = true)
    (done : chkAskedHosts env (before ++ name :: after) numProcessors returnBadHost = .ok out)
    (h : Nat) :
    (∃ rest, out.askedHosts = ⟨h, firstHostPriority⟩ :: rest ∧
        ∀ e ∈ rest, e.priority ≠ firstHostPriority) ↔
      (distinctHosts env (before ++ name :: after))[before.length]? =
        some ⟨h, firstHostPriority⟩ := by
  obtain ⟨s, asked, finish⟩ := Dep.bind_eq_ok.mp done
  obtain ⟨hosts, index⟩ := askNames_marked unmarked marked asked
  split at finish
  · cases finish
  · split at finish
    · cases finish
    · cases finish
      rw [index, hosts]
      exact sorted_first_iff fun e he => distinctHosts_priority he

/-- The hosts `a`, `b` and `c`, and a group `g` of `a` and `b`. -/
def threeHosts : HostEnv where
  confHost n := [['a'], ['b'], ['c']].contains n
  getHGrpData n := if n = ['g'] then some ⟨2, 0, [['a'], ['b']]⟩ else none
  gethostbyname n := some n
  getHostData n := [(['a'], 0), (['b'], 1), (['c'], 2)].lookup n
  numCPUs _ := 1
  lostFound _ := false
  remote _ := false
  numofprocs := 3

theorem chkAskedHosts_first_iff_markedFirst :
    ∃ out, chkAskedHosts threeHosts [['c', '!'], ['g']] 1 true = .ok out ∧
      ∃ rest, out.askedHosts = ⟨2, firstHostPriority⟩ :: rest ∧
        ∀ e ∈ rest, e.priority ≠ firstHostPriority :=
  ⟨⟨[⟨2, firstHostPriority⟩, ⟨0, 0⟩, ⟨1, 0⟩], -1⟩, by decide +kernel,
    (@chkAskedHosts_first_iff threeHosts [] [['g']] ['c', '!'] 1 true
      ⟨[⟨2, firstHostPriority⟩, ⟨0, 0⟩, ⟨1, 0⟩], -1⟩ (by decide +kernel) (by decide +kernel)
      (by decide +kernel) 2).mpr (by decide +kernel)⟩

/-- Behind a group of two the marked host loses its priority, and a host that the
group has mentioned already does not get it. -/
theorem chkAskedHosts_loses_mark :
    (readName threeHosts ['c', '!']).first = true ∧ (readName threeHosts ['b', '!']).first = true ∧
      chkAskedHosts threeHosts [['g'], ['c', '!']] 1 true =
        .ok ⟨[⟨2, firstHostPriority - 1⟩, ⟨1, 0⟩, ⟨0, 0⟩], -1⟩ ∧
      chkAskedHosts threeHosts [['g'], ['b', '!']] 1 true = .ok ⟨[⟨0, 0⟩, ⟨1, 0⟩], -1⟩ := by
  decide +kernel

end Jhlava.AskedHosts
