import Jhlava.DepParse
import Jhlava.ReadOnce

/-! The trees of mbd.dep.c as formulas over their term nodes. -/
namespace Jhlava.Dep
open ReadOnce ReadOnce.Formula List

def DptNode.formula : DptNode → Formula Nat
  | .term id _ => leaf id
  | .not left => neg left.formula
  | .binary type left right => gate (type != .or) left.formula right.formula

def DptNode.Plain : DptNode → Prop
  | .term _ _ => True
  | .not left => left.Plain
  | .binary type left right => (type = .and ∨ type = .or) ∧ left.Plain ∧ right.Plain

def DpValue.ofBool : Bool → DpValue
  | true => .dpTrue
  | false => .dpFalse

def assign (σ : Nat → Bool) (id : Nat) (_ : TermData) : DpValue := .ofBool (σ id)

theorem evalDepCond_formula {node : DptNode} (plain : node.Plain) (σ : Nat → Bool) :
    evalDepCond (assign σ) node = .ofBool (node.formula.eval σ) := by
  induction node with
  | term id data => rfl
  | not left ih =>
    simp only [evalDepCond, ih plain, DptNode.formula, eval]
    cases left.formula.eval σ <;> rfl
  | binary type left right ihl ihr =>
    obtain ⟨htype, hl, hr⟩ := plain
    rcases htype with rfl | rfl
    all_goals
      simp only [evalDepCond, ihl hl, ihr hr, DptNode.formula, eval]
      cases left.formula.eval σ <;> cases right.formula.eval σ <;> rfl

/-- The nodes of a tree were allocated between two counts, each its own. -/
structure Numbered (lo hi : Nat) (node : DptNode) : Prop where
  plain : node.Plain
  nodup : node.formula.leaves.Nodup
  range : ∀ a ∈ node.formula.leaves, lo ≤ a ∧ a < hi

theorem numbered_term (id : Nat) (data : TermData) : Numbered id (id + 1) (.term id data) where
  plain := trivial
  nodup := by simp [DptNode.formula, leaves]
  range := by simp [DptNode.formula, leaves]

theorem numbered_createMoreNodes {mk : Nat → JobRec → DptNode} {lo : Nat}
    (hmk : ∀ id job, Numbered id (id + 1) (mk id job)) (jobs : List JobRec) {id : Nat}
    {tree : DptNode} (hlo : lo ≤ id) (h : Numbered lo id tree) :
    Numbered lo (id + jobs.length) (createMoreNodes mk id tree jobs) := by
  induction jobs generalizing id tree with
  | nil => exact h
  | cons job jobs ih =>
    have hnode := hmk id job
    have step : Numbered lo (id + 1) (.binary .and (mk id job) tree) := by
      refine ⟨⟨Or.inl rfl, hnode.plain, h.plain⟩, ?_, ?_⟩
      · refine nodup_append.mpr ⟨hnode.nodup, h.nodup, ?_⟩
        intro a ha b hb
        have := hnode.range a ha
        have := h.range b hb
        omega
      · intro a ha
        rcases mem_append.mp ha with ha | ha
        · have := hnode.range a ha
          omega
        · have := h.range a ha
          omega
    have tail := ih (by omega) step
    rw [show id + (job :: jobs).length = id + 1 + jobs.length by simp; omega]
    exact tail

theorem numbered_buildNode (l : Locals) (type : DptType) (cond : DptType × Int) (useFlag : Bool)
    (jobRec : Option (List JobRec)) (jobIdx : Option JobIdx) :
    Numbered l.nextId (buildNode l type cond useFlag jobRec jobIdx).2.nextId
      (buildNode l type cond useFlag jobRec jobIdx).1 ∧
    l.nextId ≤ (buildNode l type cond useFlag jobRec jobIdx).2.nextId := by
  unfold buildNode
  split
  · exact ⟨numbered_term _ _, by simp⟩
  · refine ⟨?_, by simp; omega⟩
    exact numbered_createMoreNodes (fun _ _ => numbered_term _ _) _ (by omega) (numbered_term _ _)
  · exact ⟨numbered_term _ _, by simp⟩

theorem lookupJobs_nextId {env : DepEnv} {user : String} {l l' : Locals} {useFlag : Bool}
    {text : List Char} {jobRec : Option (List JobRec)} {jobIdx : Option JobIdx}
    (h : lookupJobs env user l useFlag text = .ok (jobRec, jobIdx, l')) :
    l'.nextId = l.nextId := by
  unfold lookupJobs at h
  generalize matchJobs env text user _ = out at h
  dsimp only at h
  split at h
  · cases h
  · split at h
    · cases h
    · cases h
      rfl

variable {fuel : Nat}

section Readers

variable {env : DepEnv} {user : String} {windowConf : Bool} {l l' : Locals} {node : DptNode}
  {s s' : List Char}

theorem numbered_readJobTerm {type : DptType}
    (h : readJobTerm env user windowConf l type s = .ok (node, l', s')) :
    Numbered l.nextId l'.nextId node ∧ l.nextId ≤ l'.nextId := by
  obtain ⟨_, _, h⟩ := bind_eq_ok.mp h
  obtain ⟨_, _, h⟩ := bind_eq_ok.mp h
  obtain ⟨⟨t, s₁⟩, _, h⟩ := bind_eq_ok.mp h
  obtain ⟨⟨jobRec, jobIdx, l₁⟩, hlookup, h⟩ := bind_eq_ok.mp h
  rw [← lookupJobs_nextId hlookup]
  dsimp only at h
  split at h
  · obtain ⟨⟨cond, s₂⟩, _, h⟩ := bind_eq_ok.mp h
    cases h
    exact numbered_buildNode l₁ type cond true jobRec jobIdx
  · obtain ⟨s₂, _, h⟩ := bind_eq_ok.mp h
    cases h
    exact numbered_buildNode l₁ type (.and, 0) true jobRec jobIdx

theorem numbered_readName {text : List Char}
    (h : readName env user windowConf l text s = .ok (node, l', s')) :
    Numbered l.nextId l'.nextId node ∧ l.nextId ≤ l'.nextId := by
  obtain ⟨_, _, h⟩ := bind_eq_ok.mp h
  obtain ⟨⟨jobRec, jobIdx, l₁⟩, hlookup, h⟩ := bind_eq_ok.mp h
  rw [← lookupJobs_nextId hlookup]
  cases h
  exact numbered_buildNode l₁ .done (.and, 0) false jobRec jobIdx

theorem numbered_readNumTerm {type : DptType}
    (h : readNumTerm env l type s = .ok (node, l', s')) :
    Numbered l.nextId l'.nextId node ∧ l.nextId ≤ l'.nextId := by
  obtain ⟨_, _, h⟩ := bind_eq_ok.mp h
  obtain ⟨⟨t, s₁⟩, _, h⟩ := bind_eq_ok.mp h
  obtain ⟨_, _, h⟩ := bind_eq_ok.mp h
  obtain ⟨⟨cond, s₂⟩, _, h⟩ := bind_eq_ok.mp h
  cases h
  exact ⟨numbered_term _ _, Nat.le_succ _⟩

theorem numbered_readWindowTerm (h : readWindowTerm env l fuel s = .ok (node, l', s')) :
    Numbered l.nextId l'.nextId node ∧ l.nextId ≤ l'.nextId := by
  obtain ⟨_, _, h⟩ := bind_eq_ok.mp h
  obtain ⟨⟨ws, s₁⟩, _, h⟩ := bind_eq_ok.mp h
  dsimp only at h
  split at h
  · cases h
    exact ⟨numbered_term _ _, Nat.le_succ _⟩
  · cases h

theorem numbered_operand {r : Except ParseStop (DptNode × Locals × List Char)} {item : Item}
    (hr : ∀ {node l' s'}, r = .ok (node, l', s') →
      Numbered l.nextId l'.nextId node ∧ l.nextId ≤ l'.nextId)
    (h : r.map (fun r => some (Item.operand r.1, r.2.1, r.2.2)) = .ok (some (item, l', s'))) :
    l.nextId ≤ l'.nextId ∧ ∀ node, item = .operand node → Numbered l.nextId l'.nextId node := by
  obtain ⟨node, l₁, s₁, read, eq⟩ := operand_eq_ok h
  cases eq
  obtain ⟨numbered, le⟩ := hr read
  refine ⟨le, ?_⟩
  intro node eq
  cases eq
  exact numbered

theorem readItem_numbered {item : Item}
    (h : readItem env user windowConf l fuel s = .ok (some (item, l', s'))) :
    l.nextId ≤ l'.nextId ∧ ∀ node, item = .operand node → Numbered l.nextId l'.nextId node := by
  unfold readItem at h
  split at h
  · cases h
  · split at h
    any_goals
      cases h
      exact ⟨Nat.le_refl _, fun node eq => by cases eq⟩
    · exact numbered_operand numbered_readWindowTerm h
    any_goals exact numbered_operand numbered_readJobTerm h
    · exact numbered_operand numbered_readName h
    any_goals exact numbered_operand numbered_readNumTerm h
    cases h

end Readers

def Item.leaves : Item → List Nat
  | .operand node => node.formula.leaves
  | _ => []

def itemLeaves (items : List Item) : List Nat := items.flatMap Item.leaves

theorem readItems_numbered {env : DepEnv} {user : String} {windowConf : Bool} {l : Locals}
    {s : List Char} {items : List Item} (h : readItems env user windowConf fuel l s = .ok items) :
    (itemLeaves items).Nodup ∧ (∀ a ∈ itemLeaves items, l.nextId ≤ a) ∧
      ∀ node, .operand node ∈ items → node.Plain := by
  induction fuel generalizing l s items with
  | zero => cases h
  | succ fuel ih =>
    unfold readItems at h
    split at h
    · cases h
    · cases h
      simp [itemLeaves]
    · rename_i item l' s' hread
      match hrest : readItems env user windowConf fuel l' s' with
      | .error stop =>
        rw [hrest] at h
        cases h
      | .ok rest =>
        rw [hrest] at h
        cases h
        obtain ⟨le, numbered⟩ := readItem_numbered hread
        obtain ⟨nodup, low, plain⟩ := ih hrest
        have own : item.leaves.Nodup ∧ ∀ a ∈ item.leaves, l.nextId ≤ a ∧ a < l'.nextId := by
          cases item with
          | operand node => exact ⟨(numbered node rfl).nodup, (numbered node rfl).range⟩
          | _ => simp [Item.leaves]
        refine ⟨nodup_append.mpr ⟨own.1, nodup, ?_⟩, forall_mem_append.mpr ⟨?_, ?_⟩, ?_⟩
        · intro a ha b hb
          have := own.2 a ha
          have := low b hb
          omega
        · exact fun a ha => (own.2 a ha).1
        · exact fun a ha => Nat.le_trans le (low a ha)
        · intro node hnode
          rcases mem_cons.mp hnode with rfl | hnode
          · exact (numbered node rfl).plain
          · exact plain node hnode

end Jhlava.Dep
