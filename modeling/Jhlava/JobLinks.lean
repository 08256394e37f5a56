import Jhlava.JobLists

/-! The links of the job lists: every list is a ring, and a job is in at most one of
them. `Layout` says which; linking and unlinking change it at one job. -/
namespace Jhlava.Core
open LinkedRing List Function

def Layout (m : Links Entry) (place : Nat → Option ListNo) : Prop :=
  ∃ lists, Placed Entry.job Entry.head m Set.univ place lists

variable {m : Links Entry} {succ : Entry} {place : Nat → Option ListNo} {p : Nat} {l : ListNo}

theorem listRemoveEntry_eq {e : Entry} {xs : List Entry} (ring : Ring m e xs) (some_ : xs ≠ [])
    (nonNull : ∀ x ∈ xs, x ≠ .null) : listRemoveEntry m e = m.remove e := by
  obtain ⟨next, prev⟩ := ring.neighbours some_
  have apart : ∀ x ∈ xs, e ≠ x := fun x hx eq => (nodup_cons.mp ring.nodup).1 (eq ▸ hx)
  have linked : ¬(m.bw e = .null ∨ m.fw e = .null) := by
    rintro (null | null)
    · exact nonNull _ next null
    · exact nonNull _ prev null
  rw [listRemoveEntry, if_neg linked, Links.remove, if_neg (apart _ next)]
  simp only [update_of_ne (apart _ next), update_of_ne (apart _ prev)]

theorem Layout.off (layout : Layout m place) (at_ : place p = some l) :
    Layout (listRemoveEntry m (.job p)) (Function.update place p none) := by
  obtain ⟨lists, placed⟩ := layout
  obtain ⟨xs, ys, split⟩ := append_of_mem ((placed.mem l trivial p).mpr at_)
  have ring := placed.ring l trivial
  rw [split, map_append] at ring
  have same : listRemoveEntry m (.job p) = m.remove (.job p) := by
    refine listRemoveEntry_eq ring.rotate (by simp) fun x hx => ?_
    simp only [mem_cons, mem_append, mem_map] at hx
    rcases hx with ⟨q, -, rfl⟩ | rfl | ⟨q, -, rfl⟩ <;> exact Entry.noConfusion
  rw [same]
  exact ⟨_, placed.remove trivial at_⟩

def Before (place : Nat → Option ListNo) (l : ListNo) (succ : Entry) : Prop :=
  succ = .head l ∨ ∃ q, succ = .job q ∧ place q = some l

theorem Layout.insert (layout : Layout m place) (free : place p = none)
    (before : Before place l succ) :
    Layout (listInsertEntryBefore m succ (.job p)) (Function.update place p (some l)) := by
  obtain ⟨lists, placed⟩ := layout
  rcases before with rfl | ⟨q, rfl, at_⟩
  · exact ⟨_, placed.insert trivial free⟩
  · have ne : Entry.job p ≠ .job q := by
      rintro ⟨⟩
      exact Option.some_ne_none l (at_.symm.trans free)
    exact placed.insertBefore trivial free at_

/-- A placing of jobs that are allocated. -/
structure Arranged (s : Mbd) (place : Nat → Option ListNo) : Prop where
  layout : Layout s.links place
  bound : ∀ q l, place q = some l → q < s.numJobs

theorem initial_arranged : Arranged initial fun _ => none := by
  refine ⟨⟨fun _ => [], ⟨fun _ _ => Entry.noConfusion, fun _ _ => Entry.job.inj,
    fun _ _ => Entry.head.inj⟩, fun l _ => ⟨⟨rfl, rfl⟩, ?_⟩, by simp⟩, by simp⟩
  exact nodup_singleton _

variable {s : Mbd}

variable (arr : Arranged s place)
include arr

theorem Arranged.ring (l : ListNo) :
    ∃ ps : List Nat, Ring s.links (.head l) (ps.map .job) ∧
      (ps.map Entry.job).length < s.numJobs + 1 ∧ ∀ q, q ∈ ps ↔ place q = some l := by
  obtain ⟨lists, placed⟩ := arr.layout
  refine ⟨lists l, placed.ring l trivial, ?_, placed.mem l trivial⟩
  have sub : lists l ⊆ List.range s.numJobs := fun r hr =>
    mem_range.mpr (arr.bound r l ((placed.mem l trivial r).mp hr))
  have le := (subperm_of_subset (placed.nodup trivial) sub).length_le
  rw [length_range] at le
  rw [length_map]
  exact Nat.lt_succ_of_le le

theorem Arranged.mem_list {q : Nat} : q ∈ s.list l ↔ place q = some l := by
  obtain ⟨ps, ring, short, mem⟩ := arr.ring l
  rw [Mbd.list, ring.forward short, ← mem q]
  simp [mem_filterMap, Entry.jp?]

theorem Arranged.existsUnique (at_ : place p = some l) : ∃! k, p ∈ s.list k := by
  refine ⟨l, arr.mem_list.mpr at_, fun k hk => ?_⟩
  have place := arr.mem_list.mp hk
  rw [at_] at place
  exact (Option.some.inj place).symm

theorem Arranged.before_fw : Before place l (s.links.fw (.head l)) := by
  obtain ⟨ps, ring, -, mem⟩ := arr.ring l
  rcases mem_cons.mp ring.linked.last.1 with eq | inside
  · exact .inl eq
  · obtain ⟨q, hq, eq⟩ := mem_map.mp inside
    exact .inr ⟨q, eq.symm, (mem q).mp hq⟩

theorem Arranged.before_entryOf {found : Option Nat} (inList : ∀ q, found = some q → q ∈ s.list l) :
    Before place l (entryOf l found) := by
  cases found with
  | none => exact Or.inl rfl
  | some q => exact Or.inr ⟨q, rfl, arr.mem_list.mp (inList q rfl)⟩

theorem Arranged.offJobList {k : ListNo} (at_ : place p = some k) :
    Arranged (Core.offJobList s p l) (Function.update place p none) := by
  refine ⟨arr.layout.off at_, fun q k' hq => ?_⟩
  by_cases eq : q = p
  · rw [eq] at hq
    exact absurd hq (by simp)
  · rw [update_of_ne eq] at hq
    exact arr.bound q k' hq

theorem Arranged.link (free : place p = none) (known : p < s.numJobs)
    (before : Before place l succ) :
    Arranged (s.link succ p) (Function.update place p (some l)) := by
  refine ⟨arr.layout.insert free before, fun q k hq => ?_⟩
  by_cases eq : q = p
  · rw [eq]
    exact known
  · rw [update_of_ne eq] at hq
    exact arr.bound q k hq

end Jhlava.Core
