import Jhlava.LogRead

/-! What the readers make of the text the writers wrote. For each record there
is the record the log keeps of it and the condition under which its reader
accepts it; the condition is exact. -/
namespace LogRoundTrip
open TextScan CFormat LogWords LogRecord LogWrite LogRead List

variable {str t w x : Text}

section Words

/-- The limits of `copyQStr`. -/
def Fits (maxLen : ℕ) (nonNil : Bool) (str : Text) : Prop :=
  str.length < maxLen ∧ (nonNil = true → str ≠ [])

instance (maxLen : ℕ) (nonNil : Bool) (str : Text) : Decidable (Fits maxLen nonNil str) :=
  inferInstanceAs (Decidable (_ ∧ _))

/-- The text `w` holds `str` in quotes, however they were written. -/
def Quotes (w str : Text) : Prop :=
  ∃ v, w = ' ' :: '"' :: v ∧ ∀ t, Sep t → unquote (v ++ t) = some (str, t)

theorem quotes_addQStr (str : Text) : Quotes (addQStr str) str := by
  refine ⟨doubleQuotes str ++ ['"'], rfl, ?_⟩
  intro t sep
  rw [append_assoc]
  exact unquote_doubleQuotes str (sep.head_ne (by decide))

/-- What `addQStr` wrote is read back, up to the first character of what follows. -/
theorem stripQStr_addQStr (str t : Text) (next : t.head? ≠ some '"') :
    stripQStr (addQStr str ++ t) = some (str, t) := by
  refine (stripQStr_skip (u := [' ']) (by decide) (doubleQuotes str ++ ['"'] ++ t)).trans ?_
  rw [append_assoc]
  exact unquote_doubleQuotes str next

/-- Quotes at both ends, before another field. -/
theorem stripQStr_addQStr_quotes :
    stripQStr (addQStr "\"a\"\"".toList ++ addQStr "b".toList) =
      some ("\"a\"\"".toList, addQStr "b".toList) :=
  stripQStr_addQStr _ _ (by decide)

theorem quotes_rawQStr (plain : '"' ∉ str) : Quotes (rawQStr str) str := by
  refine ⟨str ++ ['"'], rfl, ?_⟩
  intro t sep
  rw [append_assoc]
  exact unquote_plain plain (sep.head_ne (by decide))

variable (h : Quotes w str)
include h

theorem Quotes.stripQStr (sep : Sep t) (before : Before '"' x (w ++ t)) :
    stripQStr x = some (str, t) := by
  obtain ⟨v, rfl, read⟩ := h
  obtain ⟨u, y, plain, rfl, rfl | rfl⟩ := before
  · have skip := stripQStr_skip (u := u ++ [' ']) (by simpa using plain) (v ++ t)
    rw [append_assoc] at skip
    exact skip.trans (read t sep)
  · exact (stripQStr_skip plain (v ++ t)).trans (read t sep)

theorem reads_saveQStr : Reads (Before '"') At saveQStr w True str where
  field := by
    obtain ⟨v, rfl, -⟩ := h
    exact Or.inr ⟨_, rfl⟩
  reads := by
    intro _ t x sep start
    refine ⟨t.drop 1, Or.inr rfl, ?_⟩
    have read : strip x = .ok (str, t) := by rw [strip, h.stripQStr sep start]
    show (strip x >>= fun ay => _) = _
    rw [read]
    rfl
  rejects := fun h => absurd trivial h

theorem reads_copyQStr (maxLen : ℕ) (nonNil : Bool) :
    Reads (Before '"') At (copyQStr maxLen nonNil) w (Fits maxLen nonNil str) str := by
  have checked := (reads_saveQStr h).checked
    (fun str => maxLen ≤ str.length ∨ (nonNil ∧ str = []))
  apply checked.congr
  simp [Fits, not_or]

theorem reads_bufQStr {size : ℕ} (short : str.length < size) :
    Reads (Before '"') At (bufQStr size) w True str where
  field := (reads_saveQStr h).field
  reads := by
    intro _ t x sep start
    refine ⟨t.drop 1, Or.inr rfl, ?_⟩
    rw [bufQStr, h.stripQStr sep start]
    exact if_neg (Nat.not_le.mpr short)
  rejects := fun h => absurd trivial h

end Words

section Fields

theorem save (str : Text) : Reads At At saveQStr (addQStr str) True str :=
  (reads_saveQStr (quotes_addQStr str)).weaken fun _ _ => At.before '"'

theorem copy (maxLen : ℕ) (nonNil : Bool) (str : Text) :
    Reads At At (copyQStr maxLen nonNil) (addQStr str) (Fits maxLen nonNil str) str :=
  (reads_copyQStr (quotes_addQStr str) maxLen nonNil).weaken fun _ _ => At.before '"'

theorem buf {size : ℕ} {str : Text} (short : str.length < size) :
    Reads At At (bufQStr size) (addQStr str) True str :=
  (reads_bufQStr (quotes_addQStr str) short).weaken fun _ _ => At.before '"'

theorem scanReal_putF (store : ℚ → ℚ) (w k : ℕ) (q : ℚ) (sep : Sep t)
    (start : At x (putF w k q ++ t)) : scanReal store x = .ok (store (printedF k q), t) := by
  obtain ⟨pad, blanks, rfl⟩ := start.pad
  rw [scanReal, scanF_printF w k q blanks sep]

theorem real (store : ℚ → ℚ) (w k : ℕ) (q : ℚ) :
    Reads At At (scanReal store) (putF w k q) True (store (printedF k q)) where
  field := Or.inr ⟨_, rfl⟩
  reads := fun _ t _ sep start => ⟨t, Or.inl rfl, scanReal_putF store w k q sep start⟩
  rejects := fun h => absurd trivial h

theorem realStep (store : ℚ → ℚ) (w k : ℕ) (q : ℚ) :
    Reads At At (scanRealStep store) (putF w k q) True (store (printedF k q)) where
  field := Or.inr ⟨_, rfl⟩
  reads := by
    intro _ t x sep start
    refine ⟨t.drop 1, Or.inr rfl, ?_⟩
    show (scanReal store x >>= fun ay => _) = _
    rw [scanReal_putF store w k q sep start]
    rfl
  rejects := fun h => absurd trivial h

theorem printD_plain (n : ℤ) : '"' ∉ printD n := by
  intro h
  obtain ⟨d, ds, shape, digits, -⟩ := printD_shape n
  rw [shape, mem_append, digits] at h
  rcases h with sign | digit
  · split at sign <;> simp at sign
  · exact absurd (isDigit_toDigits digit) (by decide)

section

variable (n : Int32)
include n

theorem scanInt_putD (sep : Sep t) (start : At x (putD n ++ t)) : scanInt x = .ok (n, t) := by
  obtain ⟨pad, blanks, rfl⟩ := start.pad
  rw [scanInt, scanD_printD n blanks sep]

theorem int : Reads At At scanInt (putD n) True n where
  field := Or.inr ⟨_, rfl⟩
  reads := fun _ t _ sep start => ⟨t, Or.inl rfl, scanInt_putD n sep start⟩
  rejects := fun h => absurd trivial h

theorem intStep : Reads At At scanIntStep (putD n) True n where
  field := Or.inr ⟨_, rfl⟩
  reads := by
    intro _ t x sep start
    refine ⟨t.drop 1, Or.inr rfl, ?_⟩
    show (scanInt x >>= fun ay => _) = _
    rw [scanInt_putD n sep start]
    rfl
  rejects := fun h => absurd trivial h

theorem putD_plain : '"' ∉ putD n := by
  rw [putD, mem_cons, not_or]
  exact ⟨by decide, printD_plain _⟩

theorem lookInt : Reads At (Before '"') (look scanInt) (putD n) True n :=
  (int n).look (putD_plain n)

theorem intStepBlank : Reads At At scanIntStep (putD n ++ [' ']) True n where
  field := Or.inr ⟨_, rfl⟩
  reads := by
    intro _ t x _ start
    rw [append_assoc] at start
    refine ⟨t, Or.inl rfl, ?_⟩
    show (scanInt x >>= fun ay => _) = _
    rw [scanInt_putD n (sep_blank t) start]
    rfl
  rejects := fun h => absurd trivial h

end

variable {α : Type} {p : LogReader α}

theorem optional {c : Prop} {a : α} (b : Bool) (d : α) (selected : Reads At At p w c a) :
    Reads At At (readIf b p d) (putIf b w) (b = true → c) (if b then a else d) :=
  Reads.cond b d selected

theorem optionally {a : α} (b : Bool) (d : α) (selected : Reads At At p w True a) :
    Reads At At (readIf b p d) (putIf b w) True (if b then a else d) :=
  (optional b d selected).congr (by simp)

theorem two (m n : Int32) : Reads At At scanTwo (putD m ++ putD n) True (m, n) := by
  have both : Reads At At scanTwo [putD m, putD n].flatten True (m, n) :=
    (int m).andThen <| (int n).andThen <| .pure _
  rwa [flatten_cons, flatten_singleton] at both

theorem port (old niosPort : Int32) :
    Reads At At (scanPort old) (putD niosPort) True niosPort where
  field := Or.inr ⟨_, rfl⟩
  reads := by
    intro _ t x sep start
    have scan := scanInt_putD niosPort sep start
    have some_text : x ≠ [] := by
      rintro rfl
      cases scan
    exact ⟨t, Or.inl rfl, by rw [scanPort, if_neg some_text, scan]⟩
  rejects := fun h => absurd trivial h

theorem blockPort (old options2 idx niosPort : Int32) :
    Reads At (Before '"') (readBlockPort old) (putBlockPort options2 idx niosPort) True
      (options2, idx, if has options2 sub2BsubBlock then niosPort else old) := by
  have plain : '"' ∉ putD options2 ++ putD idx := by
    rw [mem_append, not_or]
    exact ⟨putD_plain _, putD_plain _⟩
  unfold putBlockPort
  rw [← append_assoc, ← flatten_singleton (l := putIf _ _)]
  apply (two options2 idx).peek
  · cases has options2 sub2BsubBlock with
    | true => exact Or.inr ⟨_, rfl⟩
    | false => exact Or.inl rfl
  · cases has options2 sub2BsubBlock with
    | true =>
      apply (two options2 idx).andThen
      rw [flatten_singleton]
      exact ((port old niosPort).look (putD_plain niosPort)).map _
    | false =>
      refine Reads.stay (Or.inr ⟨_, rfl⟩) ?_ _
      show '"' ∉ putD options2 ++ putD idx ++ []
      rwa [append_nil]

theorem count_toNat (a : CArray α) : a.count.toNatClampNeg = a.items.length :=
  Int32.toNatClampNeg_ofNat_of_lt a.counted

theorem items {put : α → Text} {c : α → Prop} (a : CArray α)
    (each : ∀ x ∈ a.items, Reads At At p (put x) (c x) x) :
    Reads At At (counted p a.count) (a.items.map put).flatten (∀ x ∈ a.items, c x) a := by
  have all : Reads At At (times p a.count.toNatClampNeg) (a.items.map put).flatten
      (∀ x ∈ a.items, c x) ⟨a.items, (count_toNat a).symm⟩ := Reads.times ⟨a.items, _⟩ each
  exact all.map fun l => (⟨l.1, length_lt_of_int32 a.count l.2⟩ : CArray α)

theorem allItems {put : α → Text} (a : CArray α)
    (each : ∀ x ∈ a.items, Reads At At p (put x) True x) :
    Reads At At (counted p a.count) (a.items.map put).flatten True a :=
  (items a each).congr (by simp)

theorem array {put : α → Text} {c : α → Prop} (a : CArray α)
    (each : ∀ x ∈ a.items, Reads At At p (put x) (c x) x) :
    Reads At At (scanIntStep >>= counted p) (putD a.count ++ (a.items.map put).flatten)
      (∀ x ∈ a.items, c x) a := by
  have both : Reads At At (scanIntStep >>= counted p)
      [putD a.count, (a.items.map put).flatten].flatten (∀ x ∈ a.items, c x) a := by
    apply (intStep a.count).andThen
    rw [flatten_singleton]
    exact items a each
  rwa [flatten_cons, flatten_singleton] at both

theorem names {size : ℕ} {a : CArray Text} (short : ∀ x ∈ a.items, x.length < size) :
    Reads At At (readNames size) (putNames a) True a :=
  (array a fun x hx => buf (short x hx)).congr (by simp)

theorem savedNames (a : CArray Text) :
    Reads At At (scanIntStep >>= counted saveQStr) (putNames a) True a :=
  (array a fun x _ => save x).congr (by simp)

def XFile.Plain (x : XFile) : Prop := '"' ∉ x.subFn ∧ '"' ∉ x.execFn

def XFile.Readable (x : XFile) : Prop :=
  Fits maxFileNameLen false x.subFn ∧ Fits maxFileNameLen false x.execFn

theorem rawCopy (maxLen : ℕ) (nonNil : Bool) (plain : '"' ∉ str) :
    Reads At At (copyQStr maxLen nonNil) (rawQStr str) (Fits maxLen nonNil str) str :=
  (reads_copyQStr (quotes_rawQStr plain) maxLen nonNil).weaken fun _ _ => At.before '"'

theorem xFile {x : XFile} (plain : XFile.Plain x) :
    Reads At At readXFile (putXFile x) (XFile.Readable x) x := by
  have all : Reads At At readXFile [rawQStr x.subFn, rawQStr x.execFn, putD x.options].flatten
      _ x :=
    (rawCopy _ _ plain.1).bind <| (rawCopy _ _ plain.2).bind <| (intStep _).andThen <| .pure _
  rw [flatten_cons, flatten_cons, flatten_singleton] at all
  exact all.congr (by simp [XFile.Readable])

theorem xFiles {a : CArray XFile} (plain : ∀ x ∈ a.items, XFile.Plain x) :
    Reads At At readXFiles (putXFiles a) (∀ x ∈ a.items, XFile.Readable x) a :=
  array a fun x hx => xFile (plain x hx)

theorem limits (l : RLimits) : Reads At At readLimits (putLimits l) True l :=
  (Reads.times l fun x _ => intStep x).congr (by simp)

end Fields

end LogRoundTrip
