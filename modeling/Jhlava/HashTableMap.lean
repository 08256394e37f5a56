import Jhlava.HashTable

/-! The hash table of lib.table.c is the finite map it stands for, over every
sequence of calls. -/
namespace Jhlava.Table
open LinkedRing TransitionRun List Function

/-- An array of slots, and an index in it. -/
abbrev Slot := Nat × Nat

def Slot.addr (k : Slot) : Addr := .slot k.1 k.2

theorem slotNames : Names Addr.ent Slot.addr := by
  refine ⟨fun _ _ => Addr.noConfusion, fun _ _ => Addr.ent.inj, fun j k eq => ?_⟩
  obtain ⟨array, index⟩ := Addr.slot.inj eq
  exact Prod.ext array index

def HTab.slotOf (t : HTab) (key : Key) : Slot := (t.slotPtr, getAddr t.size key)

def slots (slotPtr size : Nat) : Set Slot := { k | k.1 = slotPtr ∧ k.2 < size }

theorem getClosestPrime_pos (x : Int) : 0 < getClosestPrime x := by
  unfold getClosestPrime
  cases found : primes.find? fun (p : Nat) => x < p with
  | none => decide
  | some p =>
    have mem := mem_of_find?_eq_some found
    have all : ∀ p ∈ primes, 0 < p := by decide
    exact all p mem

variable {e i lastSize lastSlotPtr size slotPtr x : Nat} {es : List Nat} {key : Key} {m : KeyMap}
  {n : Int} {t : HTab} {place : Nat → Option Slot} {lists : Slot → List Nat} {k : Slot}

theorem hashStep_lt (pos : 0 < size) (ha : Nat) (c : Int8) :
    hashStep size ha c < size := Nat.mod_lt _ pos

theorem getAddr_lt (pos : 0 < size) (key : Key) : getAddr size key < size := by
  have loop : ∀ (cs : List Int8) (ha : Nat), ha < size → cs.foldl (hashStep size) ha < size := by
    intro cs
    induction cs with
    | nil => exact fun _ h => h
    | cons c cs ih => exact fun ha _ => ih _ (hashStep_lt pos ha c)
  exact loop key.1 0 pos

/-- The entries in the lists of an array are `n`. -/
def Counted (slotPtr : Nat) (place : Nat → Option Slot) (n : Int) : Prop :=
  ∃ s : Finset Nat, (∀ e, e ∈ s ↔ ∃ i, place e = some (slotPtr, i)) ∧ n = s.card

theorem Counted.insert (counted : Counted slotPtr place n) (out : ∀ j, place e ≠ some (slotPtr, j))
    (i : Nat) : Counted slotPtr (Function.update place e (some (slotPtr, i))) (n + 1) := by
  obtain ⟨s, mem, rfl⟩ := counted
  have new : e ∉ s := fun old => ((mem e).mp old).elim out
  refine ⟨Insert.insert e s, fun x => ?_, by rw [Finset.card_insert_of_notMem new]; rfl⟩
  rcases eq_or_ne x e with rfl | ne
  · simp
  · simp [ne, mem]

theorem Counted.erase (counted : Counted slotPtr place n) (at_ : place e = some (slotPtr, i)) :
    Counted slotPtr (Function.update place e none) (n - 1) := by
  obtain ⟨s, mem, rfl⟩ := counted
  have old : e ∈ s := (mem e).mpr ⟨i, at_⟩
  refine ⟨s.erase e, fun x => ?_, by have := Finset.card_erase_add_one old; omega⟩
  rcases eq_or_ne x e with rfl | ne
  · simp
  · simp [ne, mem]

/-- The table in memory stands for a map. While it grows the entries are in the
lists of the old slots or of the new ones; otherwise `lastSize` is zero. -/
structure Layout (t : HTab) (lastSlotPtr lastSize : Nat) (place : Nat → Option Slot)
    (lists : Slot → List Nat) (m : KeyMap) : Prop where
  size_pos : 0 < t.size
  apart : lastSlotPtr ≠ t.slotPtr
  placed : Placed Addr.ent Slot.addr t.links (slots lastSlotPtr lastSize ∪ slots t.slotPtr t.size)
    place lists
  slot : ∀ e k, place e = some k → k ∈ slots lastSlotPtr lastSize ∨ k = t.slotOf (t.keyname e)
  allocated : ∀ e, place e ≠ none → e < t.blocks
  entry : ∀ k e, m.entry k = some e ↔ t.keyname e = k ∧ place e ≠ none
  numEnts : Counted t.slotPtr place t.numEnts
  next : m.next = t.blocks

theorem hFindEnt_linked {a : Addr} (linked : Linked t.links a (es.map .ent) (.slot slotPtr i))
    {fuel : Nat} (enough : es.length < fuel) :
    hFindEnt t key (.slot slotPtr i) fuel (t.links.bw a) =
      some (es.find? fun e => t.keyname e = key) := by
  induction es generalizing a fuel with
  | nil =>
    obtain ⟨fuel, rfl⟩ := Nat.exists_eq_add_of_lt enough
    have back : t.links.bw a = .slot slotPtr i := linked.1
    rw [back, hFindEnt, if_pos rfl]
    rfl
  | cons e es ih =>
    obtain ⟨fuel, rfl⟩ := Nat.exists_eq_add_of_lt enough
    have next : t.links.bw a = .ent e := linked.1.1
    rw [next, hFindEnt, if_neg (by simp)]
    by_cases found : t.keyname e = key
    · rw [if_pos found, List.find?_cons_of_pos (by simpa using found)]
    · rw [if_neg found, List.find?_cons_of_neg (by simpa using found)]
      exact ih linked.2 (by simp; omega)

namespace Layout

theorem head (h : Layout t lastSlotPtr lastSize place lists m) (key : Key) :
    t.slotOf key ∈ slots lastSlotPtr lastSize ∪ slots t.slotPtr t.size :=
  .inr ⟨rfl, getAddr_lt h.size_pos key⟩

theorem length_le (h : Layout t lastSlotPtr lastSize place lists m)
    (hk : k ∈ slots lastSlotPtr lastSize ∪ slots t.slotPtr t.size) :
    (lists k).length ≤ t.blocks := by
  have below : lists k ⊆ List.range t.blocks := by
    intro e he
    rw [h.placed.mem k hk] at he
    exact mem_range.mpr (h.allocated e (by simp [he]))
  have le := (subperm_of_subset (h.placed.nodup hk) below).length_le
  rwa [length_range] at le

variable (h : Layout t lastSlotPtr 0 place lists m)
include h

theorem slot_eq (known : place e ≠ none) : place e = some (t.slotOf (t.keyname e)) := by
  obtain ⟨k, at_⟩ := Option.ne_none_iff_exists'.mp known
  rw [at_, (h.slot e k at_).resolve_left fun old => Nat.not_lt_zero _ old.2]

theorem findInList (key : Key) : findInList t key = some (m.entry key) := by
  have hk := h.head key
  refine (hFindEnt_linked (h.placed.ring _ hk).linked (Nat.lt_succ_of_le (h.length_le hk))).trans
    (congrArg some ?_)
  cases found : (lists (t.slotOf key)).find? fun e => t.keyname e = key with
  | none =>
    cases entry : m.entry key with
    | none => rfl
    | some e =>
      obtain ⟨named, known⟩ := (h.entry key e).mp entry
      have mem := (h.placed.mem _ hk e).mpr (named ▸ h.slot_eq known)
      exact absurd (decide_eq_true named) (List.find?_eq_none.mp found e mem)
  | some e =>
    have named : t.keyname e = key := by simpa using List.find?_some found
    have at_ := (h.placed.mem _ hk e).mp (mem_of_find?_eq_some found)
    exact ((h.entry key e).mpr ⟨named, by simp [at_]⟩).symm

theorem hGetEnt (key : Key) : hGetEnt t key = some (m.entry key) := by
  unfold Table.hGetEnt
  split
  · rename_i zero
    cases entry : m.entry key with
    | none => rfl
    | some e =>
      obtain ⟨s, mem, count⟩ := h.numEnts
      have old : e ∈ s := (mem e).mpr ⟨_, h.slot_eq ((h.entry key e).mp entry).2⟩
      have pos := Finset.card_pos.mpr ⟨e, old⟩
      omega
  · exact h.findInList key

theorem card_keys : t.numEnts = m.keys.card := by
  obtain ⟨s, mem, count⟩ := h.numEnts
  have placed : ∀ e, e ∈ s ↔ place e ≠ none := by
    refine fun e => (mem e).trans ⟨?_, fun known => ⟨_, h.slot_eq known⟩⟩
    rintro ⟨i, at_⟩
    simp [at_]
  have image : m.keys = s.image t.keyname := by
    ext k
    rw [m.mem_keys, Option.ne_none_iff_exists', Finset.mem_image]
    simp only [h.entry, placed, and_comm]
  have inj : Set.InjOn t.keyname s := by
    intro e he e' he' eq
    have one := (h.entry _ e).mpr ⟨rfl, (placed e).mp he⟩
    have other := (h.entry _ e').mpr ⟨rfl, (placed e').mp he'⟩
    rw [eq, other] at one
    exact (Option.some.inj one).symm
  rw [count, image, Finset.card_image_of_injOn inj]

end Layout

theorem KeyMap.remove_entry (k : Key) :
    (m.remove e).entry k = some x ↔ x ≠ e ∧ m.entry k = some x := by
  unfold KeyMap.remove
  dsimp only
  split
  · rename_i there
    simp [there, eq_comm]
  · rename_i other
    refine ⟨fun here => ⟨?_, here⟩, And.right⟩
    rintro rfl
    exact other here

theorem KeyMap.add_entry (absent : m.entry key = none) {k : Key} :
    (m.add key).entry k = some x ↔ (k = key ∧ x = m.next) ∨ m.entry k = some x := by
  unfold KeyMap.add
  by_cases eq : k = key
  · subst eq
    simp [absent, eq_comm]
  · simp [eq]

/-- One turn of the inner loop of `resetTab`: an old list loses its last entry. -/
theorem Layout.move (h : Layout t lastSlotPtr lastSize place lists m) (hi : i < lastSize)
    (at_ : lists (lastSlotPtr, i) = e :: es) :
    ∃ place' lists', lists' (lastSlotPtr, i) = es ∧
      (∀ j ≠ i, lists' (lastSlotPtr, j) = lists (lastSlotPtr, j)) ∧
      Layout { t with links := (t.links.remove (.ent e)).insert (.ent e) (t.listOf (t.keyname e))
                      numEnts := t.numEnts + 1 } lastSlotPtr lastSize place' lists' m := by
  have hk : (lastSlotPtr, i) ∈ slots lastSlotPtr lastSize ∪ slots t.slotPtr t.size :=
    .inl ⟨rfl, hi⟩
  have old : place e = some (lastSlotPtr, i) :=
    (h.placed.mem _ hk e).mp (at_ ▸ mem_cons_self)
  have apart : ∀ j, (lastSlotPtr, j) ≠ t.slotOf (t.keyname e) :=
    fun j eq => h.apart (congrArg Prod.fst eq)
  have put := (h.placed.remove hk old).insert (h.head (t.keyname e)) (update_self ..)
  rw [update_idem] at put
  have known : ∀ x, Function.update place e (some (t.slotOf (t.keyname e))) x ≠ none ↔
      place x ≠ none := by
    intro x
    rcases eq_or_ne x e with rfl | ne
    · simp [old]
    · simp [ne]
  refine ⟨_, _, ?_, fun j ne => ?_, h.size_pos, h.apart, put, fun x k hx => ?_,
    fun x hx => h.allocated x ((known x).mp hx), fun k x => ?_,
    h.numEnts.insert (fun j eq => ?_) _, h.next⟩
  · rw [update_of_ne (apart i), update_self, at_, erase_cons_head]
  · rw [update_of_ne (apart j), update_of_ne (by simpa using ne)]
  · rcases eq_or_ne x e with rfl | ne
    · rw [update_self] at hx
      exact .inr (Option.some.inj hx).symm
    · rw [update_of_ne ne] at hx
      exact h.slot x k hx
  · rw [known]
    exact h.entry k x
  · rw [old] at eq
    exact h.apart (congrArg Prod.fst (Option.some.inj eq))

theorem Layout.moveEntries (hi : i < lastSize) (es : List Nat) :
    ∀ {t : HTab} {place : Nat → Option Slot} {lists : Slot → List Nat} {fuel : Nat},
    Layout t lastSlotPtr lastSize place lists m → lists (lastSlotPtr, i) = es → es.length < fuel →
    ∃ t' place' lists', moveEntries (.slot lastSlotPtr i) fuel t = some t' ∧
      lists' (lastSlotPtr, i) = [] ∧
      (∀ j ≠ i, lists' (lastSlotPtr, j) = lists (lastSlotPtr, j)) ∧
      Layout t' lastSlotPtr lastSize place' lists' m := by
  induction es with
  | nil =>
    intro t place lists fuel h at_ enough
    obtain ⟨fuel, rfl⟩ := Nat.exists_eq_add_of_lt enough
    have ring := h.placed.ring (lastSlotPtr, i) (.inl ⟨rfl, hi⟩)
    rw [at_] at ring
    have back : t.links.bw (.slot lastSlotPtr i) = .slot lastSlotPtr i := ring.linked.1
    exact ⟨t, place, lists, by rw [Table.moveEntries, if_pos back], at_, fun _ _ => rfl, h⟩
  | cons e es ih =>
    intro t place lists fuel h at_ enough
    obtain ⟨fuel, rfl⟩ := Nat.exists_eq_add_of_lt enough
    have ring := h.placed.ring (lastSlotPtr, i) (.inl ⟨rfl, hi⟩)
    rw [at_] at ring
    have back : t.links.bw (.slot lastSlotPtr i) = .ent e := ring.linked.1.1
    obtain ⟨place', lists', one, others, moved⟩ := h.move hi at_
    obtain ⟨t', place'', lists'', run, none, others', h'⟩ := ih moved one
      (show es.length < (e :: es).length + fuel by simp; omega)
    refine ⟨t', place'', lists'', ?_, none, fun j ne => (others' j ne).trans (others j ne), h'⟩
    rw [Table.moveEntries, back, if_neg (by simp)]
    exact run

theorem Layout.moveLists (h : Layout t lastSlotPtr lastSize place lists m) (n : Nat)
    (le : n ≤ lastSize) :
    ∃ t' place' lists', (List.range n).foldlM
        (fun t i => Table.moveEntries (.slot lastSlotPtr i) (t.blocks + 1) t) t = some t' ∧
      (∀ i < n, lists' (lastSlotPtr, i) = []) ∧
      Layout t' lastSlotPtr lastSize place' lists' m := by
  induction n with
  | zero => exact ⟨t, place, lists, rfl, nofun, h⟩
  | succ n ih =>
    obtain ⟨t', place', lists', run, old, h'⟩ := ih (Nat.le_of_succ_le le)
    have short := Nat.lt_succ_of_le (h'.length_le (k := (lastSlotPtr, n)) (.inl ⟨rfl, le⟩))
    obtain ⟨t'', place'', lists'', run', one, others, h''⟩ := Layout.moveEntries le _ h' rfl short
    refine ⟨t'', place'', lists'', ?_, fun i hi => ?_, h''⟩
    · rw [range_succ, foldlM_append, run]
      exact (congrArg (· >>= pure) run').trans rfl
    · rcases eq_or_ne i n with rfl | ne
      · exact one
      · rw [others i ne, old i (by omega)]

theorem Layout.settle (h : Layout t lastSlotPtr lastSize place lists m)
    (empty : ∀ i < lastSize, lists (lastSlotPtr, i) = []) :
    Layout t lastSlotPtr 0 place lists m := by
  refine ⟨h.size_pos, h.apart, h.placed.mono fun k hk => ⟨hk.imp_left ?_, rfl⟩, fun e k at_ => ?_,
    h.allocated, h.entry, h.numEnts, h.next⟩
  · exact fun old => absurd old.2 (Nat.not_lt_zero _)
  · refine .inr ((h.slot e k at_).resolve_left ?_)
    obtain ⟨slotPtr, i⟩ := k
    rintro ⟨rfl, less⟩
    have mem := (h.placed.mem _ (.inl ⟨rfl, less⟩) e).mpr at_
    rw [empty i less] at mem
    exact not_mem_nil mem

theorem placed_initSlots {links : Links Addr} {old : Set Slot} (slotPtr : Nat)
    (placed : Placed Addr.ent Slot.addr links old place lists)
    (empty : ∀ e i, place e ≠ some (slotPtr, i)) (fresh : ∀ i, (slotPtr, i) ∉ old) (n : Nat) :
    ∃ lists', Placed Addr.ent Slot.addr
      ((List.range n).foldl (fun m i => m.init (.slot slotPtr i)) links) (old ∪ slots slotPtr n)
      place lists' := by
  induction n with
  | zero =>
    exact ⟨lists, placed.mono fun k hk =>
      ⟨hk.resolve_right fun new => Nat.not_lt_zero _ new.2, rfl⟩⟩
  | succ n ih =>
    obtain ⟨lists', placed'⟩ := ih
    rw [range_succ, foldl_append, foldl_cons]
    have new : (slotPtr, n) ∉ old ∪ slots slotPtr n := by
      rintro (here | here)
      · exact fresh n here
      · exact Nat.lt_irrefl _ here.2
    refine ⟨_, (placed'.init new fun e => empty e n).mono fun k hk => ⟨?_, rfl⟩⟩
    rcases hk with hk | ⟨rfl, less⟩
    · exact .inr (.inl hk)
    · rcases Nat.lt_succ_iff_lt_or_eq.mp less with less | rfl
      · exact .inr (.inr ⟨rfl, less⟩)
      · exact .inl rfl

section

variable (h : Layout t lastSlotPtr 0 place lists m)
include h

/-- Deleting an entry of the table deletes its key. -/
theorem Layout.dropEnt (known : ∃ k, m.entry k = some e) :
    ∃ place' lists', Layout (dropEnt t (some e)) lastSlotPtr 0 place' lists' (m.remove e) := by
  obtain ⟨key, entry⟩ := known
  have at_ := h.slot_eq ((h.entry key e).mp entry).2
  have left : ∀ x, Function.update place e none x ≠ none ↔ x ≠ e ∧ place x ≠ none := by
    intro x
    rcases eq_or_ne x e with rfl | ne
    · simp
    · simp [ne]
  refine ⟨_, _, h.size_pos, h.apart, h.placed.remove (h.head _) at_, fun x k hx => h.slot x k ?_,
    fun x hx => h.allocated x ((left x).mp hx).2, fun k x => ?_, h.numEnts.erase at_, h.next⟩
  · rwa [update_of_ne ((left x).mp (by simp [hx])).1] at hx
  · rw [KeyMap.remove_entry, h.entry, left, and_left_comm]
    rfl

theorem Layout.newEnt (absent : m.entry key = none) :
    ∃ place' lists', Layout (newEnt t key) lastSlotPtr 0 place' lists' (m.add key) := by
  have free : place t.blocks = none := by
    by_contra known
    exact Nat.lt_irrefl _ (h.allocated _ known)
  have named : (Table.newEnt t key).keyname t.blocks = key := update_self _ _ _
  have others : ∀ x, x ≠ t.blocks → (Table.newEnt t key).keyname x = t.keyname x :=
    fun x ne => update_of_ne ne _ _
  refine ⟨_, _, h.size_pos, h.apart, h.placed.insert (h.head key) free, fun x k hx => ?_,
    fun x hx => ?_, fun k x => ?_, h.numEnts.insert (by simp [free]) _, congrArg (· + 1) h.next⟩
  · rcases eq_or_ne x t.blocks with rfl | ne
    · rw [update_self] at hx
      rw [named, ← Option.some.inj hx]
      exact .inr rfl
    · rw [update_of_ne ne] at hx
      rw [others x ne]
      exact h.slot x k hx
  · rcases eq_or_ne x t.blocks with rfl | ne
    · exact Nat.lt_succ_self _
    · rw [update_of_ne ne] at hx
      exact Nat.lt_succ_of_lt (h.allocated x hx)
  · rw [KeyMap.add_entry absent, h.next, h.entry]
    rcases eq_or_ne x t.blocks with rfl | ne
    · simp [named, free, eq_comm]
    · simp [others x ne, ne]

/-- The new slots of a table that grows are empty, the old ones keep the entries. -/
theorem Layout.hInitTab (numSlots : Int) :
    ∃ lists', Layout (hInitTab t (t.slotPtr + 1) numSlots) t.slotPtr t.size place lists' m := by
  have old : ∀ e k, place e = some k → k ∈ slots t.slotPtr t.size := by
    intro e k at_
    rw [h.slot_eq (by simp [at_])] at at_
    exact Option.some.inj at_ ▸ ⟨rfl, getAddr_lt h.size_pos _⟩
  have none : ∀ e i, place e ≠ some (t.slotPtr + 1, i) :=
    fun e i at_ => absurd (old e _ at_).1 (Nat.succ_ne_self _)
  obtain ⟨lists', placed⟩ := placed_initSlots (t.slotPtr + 1)
    (h.placed.mono fun k (hk : k ∈ slots t.slotPtr t.size) => ⟨.inr hk, rfl⟩) none
    (fun i here => absurd here.1 (Nat.succ_ne_self _)) (getClosestPrime numSlots)
  refine ⟨lists', getClosestPrime_pos numSlots, (Nat.succ_ne_self _).symm, placed,
    fun e k at_ => .inl (old e k at_), h.allocated, h.entry, ⟨∅, fun e => ?_, rfl⟩, h.next⟩
  exact iff_of_false (Finset.notMem_empty e) fun here => here.elim (none e)

end

def Stored (t : HTab) (m : KeyMap) : Prop :=
  ∃ lastSlotPtr place lists, Layout t lastSlotPtr 0 place lists m

theorem stored_hInitTab (links : Links Addr) (keyname : Nat → Key) (numSlots : Int) :
    Stored (hInitTab (HTab.blank links keyname) 0 numSlots) .empty := by
  have none : Placed Addr.ent Slot.addr links ∅ (fun _ => none) fun _ => [] :=
    ⟨slotNames, fun _ hk => absurd hk (Set.notMem_empty _), fun _ hk =>
      absurd hk (Set.notMem_empty _)⟩
  obtain ⟨lists, placed⟩ := placed_initSlots 0 none (by simp) (fun _ => Set.notMem_empty _)
    (getClosestPrime numSlots)
  refine ⟨1, _, lists, getClosestPrime_pos numSlots, Nat.one_ne_zero, placed.mono fun k hk =>
    ⟨?_, rfl⟩, by simp, by simp, by simp [KeyMap.empty], ⟨∅, by simp, rfl⟩, rfl⟩
  exact .inr (hk.resolve_left fun old => Nat.not_lt_zero _ old.2)

theorem Stored.resetTab (h : Stored t m) : ∃ t', resetTab t = some t' ∧ Stored t' m := by
  obtain ⟨_, _, _, h⟩ := h
  obtain ⟨_, grown⟩ := h.hInitTab (t.size * 2)
  obtain ⟨t', place', lists', run, empty, moved⟩ := grown.moveLists t.size le_rfl
  exact ⟨t', run, t.slotPtr, place', lists', moved.settle empty⟩

theorem hAddEnt_absent (absent : findInList t key = some none) :
    hAddEnt t key = (if 2 * t.numEnts ≥ 3 * t.size then resetTab t else some t).map
      fun t => (newEnt t key, t.blocks, true) := by
  rw [hAddEnt, absent]
  by_cases full : 2 * t.numEnts ≥ 3 * t.size
  · simp only [if_pos full, Option.map_eq_bind]
    rfl
  · simp only [if_neg full]
    rfl

theorem Stored.hAddEnt (h : Stored t m) (key : Key) :
    ∃ t' e new, hAddEnt t key = some (t', e, new) ∧ Stored t' (m.step (.add key)) ∧
      m.out (.add key) = ⟨some e, some new⟩ := by
  obtain ⟨_, _, _, layout⟩ := id h
  have found := layout.findInList key
  cases entry : m.entry key with
  | some e =>
    refine ⟨t, e, false, ?_, ?_, ?_⟩
    · rw [Table.hAddEnt, found, entry]
      rfl
    · rwa [KeyMap.step, if_neg (by simp [entry])]
    · rw [KeyMap.out, entry]
  | none =>
    have grown : ∃ t', (if 2 * t.numEnts ≥ 3 * t.size then Table.resetTab t else some t) = some t' ∧
        Stored t' m := by
      split
      · exact h.resetTab
      · exact ⟨t, rfl, h⟩
    obtain ⟨t', run, lastSlotPtr', _, _, layout'⟩ := grown
    refine ⟨Table.newEnt t' key, t'.blocks, true, ?_, ?_, ?_⟩
    · rw [hAddEnt_absent (found.trans (congrArg some entry)), run]
      rfl
    · rw [KeyMap.step, if_pos entry]
      exact ⟨lastSlotPtr', layout'.newEnt entry⟩
    · rw [KeyMap.out, entry, layout'.next]

theorem Stored.dropEnt (h : Stored t m) {hEntPtr : Option Nat}
    (known : ∀ e, hEntPtr = some e → ∃ k, m.entry k = some e) :
    Stored (dropEnt t hEntPtr) (m.drop hEntPtr) := by
  cases hEntPtr with
  | none => exact h
  | some e =>
    obtain ⟨lastSlotPtr, _, _, layout⟩ := h
    exact ⟨lastSlotPtr, layout.dropEnt (known e rfl)⟩

theorem Stored.step {t : HTab} {m : KeyMap} (h : Stored t m) {op : TabOp} (allowed : m.Allowed op) :
    ∃ t', tabStep t op = some (t', m.out op) ∧ Stored t' (m.step op) := by
  cases op with
  | add key =>
    obtain ⟨t', e, new, run, stored, out⟩ := h.hAddEnt key
    exact ⟨t', by rw [tabStep, run, out]; rfl, stored⟩
  | get key =>
    obtain ⟨_, _, _, layout⟩ := id h
    exact ⟨t, by rw [tabStep, layout.hGetEnt key]; rfl, h⟩
  | del e => exact ⟨_, rfl, h.dropEnt fun x eq => by subst eq; exact allowed⟩
  | rm e => exact ⟨_, rfl, h.dropEnt fun x eq => by subst eq; exact allowed⟩

theorem Stored.run (h : Stored t m) {ops : List TabOp}
    (allowed : Along KeyMap.step KeyMap.Allowed m ops) :
    ∃ t', tabRun t ops = some (t', m.outs ops) ∧ Stored t' (run KeyMap.step m ops) := by
  induction ops generalizing t m with
  | nil => exact ⟨t, rfl, h⟩
  | cons op ops ih =>
    obtain ⟨t', first, stored⟩ := h.step allowed.1
    obtain ⟨t'', rest, last⟩ := ih stored allowed.2
    exact ⟨t'', by rw [tabRun, first]; exact (congrArg (· >>= _) rest).trans rfl, last⟩

/-- From an initialised table on, whatever the memory held before, every call
ends and gives back what a finite map from keys to entries gives, and `numEnts`
is the number of its keys. -/
theorem table_refines_map (links : Links Addr) (keyname : Nat → Key) (numSlots : Int)
    {ops : List TabOp} (allowed : Along KeyMap.step KeyMap.Allowed .empty ops) :
    ∃ t, tabRun (hInitTab (.blank links keyname) 0 numSlots) ops = some (t, KeyMap.empty.outs ops) ∧
      t.numEnts = (run KeyMap.step .empty ops).keys.card := by
  obtain ⟨t, run, _, _, _, layout⟩ := (stored_hInitTab links keyname numSlots).run allowed
  exact ⟨t, run, layout.card_keys⟩

/-- A key of one negative character, added twice, deleted, and added again. -/
theorem table_refines_map_negative :
    ∃ t, tabRun (hInitTab (.blank ⟨id, id⟩ fun _ => ⟨[], List.not_mem_nil⟩) 0 50)
        [.add ⟨[-61], by decide⟩, .add ⟨[-61], by decide⟩, .del (some 0), .get ⟨[-61], by decide⟩,
          .add ⟨[-61], by decide⟩] =
      some (t, [⟨some 0, some true⟩, ⟨some 0, some false⟩, .none, .none, ⟨some 1, some true⟩]) ∧
      t.numEnts = 1 :=
  table_refines_map ⟨id, id⟩ (fun _ => ⟨[], not_mem_nil⟩) 50
    ⟨trivial, trivial, ⟨⟨[-61], by decide⟩, by decide⟩, trivial, trivial, trivial⟩

end Jhlava.Table
