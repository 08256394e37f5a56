import Mathlib.Algebra.Order.Ring.Rat

/-! Scanners of a line of text fields. A writer puts one blank before each field and nothing
after it; a scanner may step over the blank before the next field or leave it. `Reads S E p w c a`
says what `p` does on the text `w` of `a` when it starts as `S` says: it returns `a` when `c` holds,
refuses the text when it does not, and stops as `E` says. -/
namespace TextScan
open List

abbrev Text := List Char

abbrev Scanner (ε α : Type) := StateT Text (Except ε) α

def reject {ε : Type} (bad : Prop) [Decidable bad] (e : ε) : Scanner ε Unit :=
  if bad then throw e else pure ()

def look {ε α : Type} (p : Scanner ε α) : Scanner ε α := fun x =>
  match p x with
  | .error e => .error e
  | .ok (a, _) => .ok (a, x)

def Sep (t : Text) : Prop := ∀ c ∈ t.head?, c = ' '

/-- The scanner stands before the field at the front of `t`, on its blank or
just behind it. -/
def At (x t : Text) : Prop := x = t ∨ x = t.drop 1

/-- The scanner stands before the field at the front of `t`, with text in
between that has none of the characters `q`. -/
def Before (q : Char) (x t : Text) : Prop := ∃ u v, q ∉ u ∧ x = u ++ v ∧ At v t

@[simp] theorem sep_nil : Sep [] := by simp [Sep]

@[simp] theorem sep_blank (t : Text) : Sep (' ' :: t) := by simp [Sep]

theorem Sep.head_ne {t : Text} (sep : Sep t) {c : Char} (hc : c ≠ ' ') : t.head? ≠ some c :=
  fun h => hc (sep c h)

theorem At.before {x t : Text} (q : Char) (h : At x t) : Before q x t :=
  ⟨[], x, not_mem_nil, rfl, h⟩

theorem At.pad {x v t : Text} (h : At x (' ' :: v ++ t)) :
    ∃ pad, (∀ c ∈ pad, c = ' ') ∧ x = pad ++ (v ++ t) := by
  rcases h with rfl | rfl
  · exact ⟨[' '], by simp, rfl⟩
  · exact ⟨[], by simp, rfl⟩

/-- The error with which the scanners refuse a text. -/
class Refusal (ε : Type) where
  refusal : ε

structure Reads {ε α : Type} [Refusal ε] (S E : Text → Text → Prop) (p : Scanner ε α) (w : Text)
    (c : Prop) (a : α) : Prop where
  /-- The text is empty or starts with its blank. -/
  field : w = [] ∨ ∃ v, w = ' ' :: v
  reads : c → ∀ t x, Sep t → S x (w ++ t) → ∃ y, E y t ∧ p x = .ok (a, y)
  rejects : ¬c → ∀ t x, Sep t → S x (w ++ t) → p x = .error Refusal.refusal

variable {ε α β : Type} {S M E : Text → Text → Prop}

theorem sep_append {w t : Text} (field : w = [] ∨ ∃ v, w = ' ' :: v) (sep : Sep t) :
    Sep (w ++ t) := by
  rcases field with rfl | ⟨v, rfl⟩
  · exact sep
  · exact sep_blank _

namespace Reads

variable [Refusal ε]

theorem pure (a : α) : Reads S S (Pure.pure a : Scanner ε α) [] True a where
  field := Or.inl rfl
  reads := fun _ _ x _ start => ⟨x, start, rfl⟩
  rejects := fun h => absurd trivial h

variable {p : Scanner ε α} {w : Text} {a : α} {c c' : Prop}

theorem congr (h : Reads S E p w c a) (iff : c ↔ c') : Reads S E p w c' a :=
  (propext iff) ▸ h

variable {c : Prop}

theorem weaken {S' : Text → Text → Prop} (h : Reads S E p w c a) (start : ∀ x t, S' x t → S x t) :
    Reads S' E p w c a where
  field := h.field
  reads := fun hc t x sep hx => h.reads hc t x sep (start _ _ hx)
  rejects := fun hc t x sep hx => h.rejects hc t x sep (start _ _ hx)

variable {f : α → Scanner ε β} {ws : List Text} {b : β}

theorem bind (first : Reads S M p w c a) (next : Reads M E (f a) ws.flatten c' b) :
    Reads S E (p >>= f) (w :: ws).flatten (c ∧ c') b where
  field := by
    rcases first.field with rfl | ⟨v, rfl⟩
    · exact next.field
    · exact Or.inr ⟨v ++ ws.flatten, rfl⟩
  reads := by
    rintro ⟨hc, hc'⟩ t x sep start
    rw [flatten_cons, append_assoc] at start
    obtain ⟨y, middle, read⟩ := first.reads hc _ x (sep_append next.field sep) start
    obtain ⟨z, stop, read'⟩ := next.reads hc' t y sep middle
    refine ⟨z, stop, ?_⟩
    show (p x >>= fun ay => f ay.1 ay.2) = _
    rw [read]
    exact read'
  rejects := by
    intro hcc t x sep start
    rw [flatten_cons, append_assoc] at start
    have sep' := sep_append next.field sep
    show (p x >>= fun ay => f ay.1 ay.2) = _
    by_cases hc : c
    · obtain ⟨y, middle, read⟩ := first.reads hc _ x sep' start
      rw [read]
      exact next.rejects (fun hc' => hcc ⟨hc, hc'⟩) t y sep middle
    · rw [first.rejects hc _ x sep' start]
      rfl

theorem andThen (first : Reads S M p w True a) (next : Reads M E (f a) ws.flatten c b) :
    Reads S E (p >>= f) (w :: ws).flatten c b :=
  (first.bind next).congr (by simp)

theorem skip (first : Reads S M p [] c a) (next : Reads M E (f a) w c' b) :
    Reads S E (p >>= f) w (c ∧ c') b := by
  have both : Reads S E (p >>= f) [[], w].flatten (c ∧ c') b := by
    apply first.bind
    rw [flatten_singleton]
    exact next
  rwa [flatten_cons, flatten_singleton] at both

theorem map (first : Reads S E p w c a) (f : α → β) :
    Reads S E (p >>= fun a => Pure.pure (f a)) w c (f a) := by
  have both : Reads S E (p >>= fun a => Pure.pure (f a)) [w].flatten (c ∧ True) (f a) :=
    first.bind (pure (f a))
  rw [flatten_singleton] at both
  exact both.congr (by simp)

theorem cond (b : Bool) (d : α) (selected : Reads S S p w c a) :
    Reads S S (if b then p else Pure.pure d) (if b then w else []) (b = true → c)
      (if b then a else d) := by
  cases b with
  | true => exact selected.congr (by simp)
  | false => exact (pure d).congr (by simp)

theorem stay {q : Char} (field : w = [] ∨ ∃ v, w = ' ' :: v) (plain : q ∉ w) (a : α) :
    Reads At (Before q) (Pure.pure a : Scanner ε α) w True a where
  field := field
  reads := by
    intro _ t x _ start
    refine ⟨x, ?_, rfl⟩
    rcases start with rfl | rfl
    · exact ⟨w, t, plain, rfl, Or.inl rfl⟩
    · rcases field with rfl | ⟨v, rfl⟩
      · exact ⟨[], _, not_mem_nil, rfl, Or.inr rfl⟩
      · exact ⟨v, t, fun h => plain (mem_cons_of_mem _ h), rfl, Or.inl rfl⟩
  rejects := fun h => absurd trivial h

theorem peek (ahead : Reads S M p w True a) (tail : ws.flatten = [] ∨ ∃ v, ws.flatten = ' ' :: v)
    (next : Reads S E (f a) (w :: ws).flatten c b) :
    Reads S E (TextScan.look p >>= f) (w :: ws).flatten c b := by
  have looked : ∀ t x, Sep t → S x ((w :: ws).flatten ++ t) → TextScan.look p x = .ok (a, x) := by
    intro t x sep start
    rw [flatten_cons, append_assoc] at start
    obtain ⟨y, -, read⟩ := ahead.reads trivial _ x (sep_append tail sep) start
    rw [TextScan.look, read]
  refine { field := next.field, reads := ?_, rejects := ?_ }
  · intro hc t x sep start
    obtain ⟨y, stop, read⟩ := next.reads hc t x sep start
    refine ⟨y, stop, ?_⟩
    show (TextScan.look p x >>= fun ay => f ay.1 ay.2) = _
    rw [looked t x sep start]
    exact read
  · intro hc t x sep start
    show (TextScan.look p x >>= fun ay => f ay.1 ay.2) = _
    rw [looked t x sep start]
    exact next.rejects hc t x sep start

theorem look {q : Char} (ahead : Reads At M p w True a) (plain : q ∉ w) :
    Reads At (Before q) (TextScan.look p) w True a where
  field := ahead.field
  reads := by
    intro _ t x sep start
    obtain ⟨y, -, read⟩ := ahead.reads trivial t x sep start
    obtain ⟨z, stop, same⟩ := (stay (ε := ε) ahead.field plain a).reads trivial t x sep start
    cases same
    exact ⟨x, stop, by rw [TextScan.look, read]⟩
  rejects := fun h => absurd trivial h

theorem check (bad : Prop) [Decidable bad] :
    Reads S S (reject bad (Refusal.refusal : ε)) [] (¬bad) () := by
  unfold reject
  by_cases h : bad
  · rw [if_pos h]
    exact { field := Or.inl rfl, reads := fun hn => absurd h hn,
            rejects := fun _ _ _ _ _ => rfl }
  · rw [if_neg h]
    exact (pure ()).congr (by simp [h])

theorem checked (first : Reads S E p w True a) (bad : α → Prop) [DecidablePred bad] :
    Reads S E (p >>= fun a => reject (bad a) Refusal.refusal >>= fun _ => Pure.pure a) w
      (¬bad a) a := by
  have next : Reads E E (reject (bad a) (Refusal.refusal : ε) >>= fun _ => Pure.pure a)
      ([] : List Text).flatten (¬bad a ∧ True) a := (check (bad a)).skip (pure a)
  have both := first.andThen
    (f := fun a => reject (bad a) Refusal.refusal >>= fun _ => Pure.pure a) next
  rw [flatten_singleton] at both
  exact both.congr (by simp)

end Reads

section Inversion

variable {f : α → Scanner ε β}

theorem bind_eq_ok {p : Scanner ε α} {x z : Text} {b : β} :
    (p >>= f) x = .ok (b, z) ↔ ∃ a y, p x = .ok (a, y) ∧ f a y = .ok (b, z) := by
  show (p x >>= fun ay => f ay.1 ay.2) = _ ↔ _
  cases p x with
  | error e => simp [bind, Except.bind]
  | ok ay =>
    obtain ⟨a, y⟩ := ay
    simp [bind, Except.bind]

theorem pure_eq_ok {a b : α} {x y : Text} :
    (Pure.pure a : Scanner ε α) x = .ok (b, y) ↔ a = b ∧ x = y := by
  change Except.ok (a, x) = .ok (b, y) ↔ _
  simp

theorem reject_eq_ok {bad : Prop} [Decidable bad] {e : ε} {x y : Text} {u : Unit} :
    reject bad e x = .ok (u, y) ↔ ¬bad ∧ x = y := by
  unfold reject
  by_cases h : bad
  · simp [h, throw, throwThe, MonadExceptOf.throw, StateT.lift, bind, Except.bind]
  · simp [h, pure_eq_ok]

def Yields (p : Scanner ε α) (P : α → Prop) : Prop := ∀ x a y, p x = .ok (a, y) → P a

theorem Yields.pure {a : α} {P : α → Prop} (h : P a) : Yields (Pure.pure a : Scanner ε α) P := by
  intro x b y read
  obtain ⟨rfl, -⟩ := pure_eq_ok.mp read
  exact h

theorem Yields.bind {p : Scanner ε α} {P : β → Prop} (h : ∀ a, Yields (f a) P) :
    Yields (p >>= f) P := by
  intro x b z read
  obtain ⟨a, y, -, next⟩ := bind_eq_ok.mp read
  exact h a y b z next

end Inversion

/-- The scanner `p`, `n` times. -/
def times (p : Scanner ε α) : (n : ℕ) → Scanner ε { l : List α // l.length = n }
  | 0 => pure ⟨[], rfl⟩
  | n + 1 => do
      let a ← p
      let l ← times p n
      pure ⟨a :: l.1, by simp [l.2]⟩

theorem Reads.times [Refusal ε] {p : Scanner ε α} {put : α → Text} {c : α → Prop} {n : ℕ}
    (l : { l : List α // l.length = n }) (each : ∀ a ∈ l.1, Reads S S p (put a) (c a) a) :
    Reads S S (TextScan.times p n) (l.1.map put).flatten (∀ a ∈ l.1, c a) l := by
  obtain ⟨l, rfl⟩ := l
  induction l with
  | nil => exact (Reads.pure _).congr (by simp)
  | cons a l ih =>
    have rest := (ih fun b hb => each b (mem_cons_of_mem a hb)).map
      (fun l' => (⟨a :: l'.1, by simp [l'.2]⟩ : { l'' : List α // l''.length = l.length + 1 }))
    exact ((each a mem_cons_self).bind rest).congr (by simp)

end TextScan
