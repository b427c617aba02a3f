/-!
# Computations that leave notes

A `Traced` computation ends with a value or an error, and leaves the notes that it took on the
way.  What a computation returns never depends on its notes, so a statement about results is
proved on `Traced.result` alone; the lemmas of this file carry that projection through `do`.
-/

namespace NormalGrammar

universe u v w

/-- What a computation returned, and the notes it took, oldest first. -/
structure Traced (ν : Type u) (ε : Type v) (α : Type w) where
  notes : List ν
  result : Except ε α

namespace Traced

variable {ν : Type u} {ε : Type v} {α β : Type w}

/-- Returns a value and notes nothing. -/
protected def pure (a : α) : Traced ν ε α := ⟨[], .ok a⟩

/-- Goes on with the value, unless there is none. -/
protected def bind (t : Traced ν ε α) (f : α → Traced ν ε β) : Traced ν ε β :=
  match t.result with
  | .ok a => ⟨t.notes ++ (f a).notes, (f a).result⟩
  | .error e => ⟨t.notes, .error e⟩

instance : Monad (Traced ν ε) where
  pure := Traced.pure
  bind := Traced.bind

/-- A result without notes. -/
def ofExcept (r : Except ε α) : Traced ν ε α := ⟨[], r⟩

instance : MonadLift (Except ε) (Traced ν ε) := ⟨ofExcept⟩

/-- Fails, and notes nothing. -/
def fail (e : ε) : Traced ν ε α := ⟨[], .error e⟩

/-- Takes notes. -/
def note (ns : List ν) : Traced ν ε PUnit := ⟨ns, .ok ⟨⟩⟩

/-! ## Results -/

@[simp]
theorem result_pure (a : α) : (pure a : Traced ν ε α).result = .ok a := rfl

@[simp]
theorem result_bind (t : Traced ν ε α) (f : α → Traced ν ε β) :
    (t >>= f).result = t.result.bind fun a => (f a).result := by
  show (Traced.bind t f).result = _
  unfold Traced.bind
  cases t.result <;> rfl

@[simp]
theorem result_ofExcept (r : Except ε α) : (ofExcept r : Traced ν ε α).result = r := rfl

@[simp]
theorem result_monadLift (r : Except ε α) : (liftM r : Traced ν ε α).result = r := rfl

@[simp]
theorem result_fail (e : ε) : (fail e : Traced ν ε α).result = .error e := rfl

@[simp]
theorem result_note (ns : List ν) : (note ns : Traced ν ε PUnit).result = .ok ⟨⟩ := rfl

/-- Two computations in a row return a value just when both return. -/
theorem result_bind_eq_ok_iff {t : Traced ν ε α} {f : α → Traced ν ε β} {b : β} :
    (t >>= f).result = .ok b ↔ ∃ a, t.result = .ok a ∧ (f a).result = .ok b := by
  rw [result_bind]
  cases t.result <;> simp [Except.bind]

/-- Two computations in a row fail just when the first fails, or returns and the second fails. -/
theorem result_bind_eq_error_iff {t : Traced ν ε α} {f : α → Traced ν ε β} {e : ε} :
    (t >>= f).result = .error e ↔
      t.result = .error e ∨ ∃ a, t.result = .ok a ∧ (f a).result = .error e := by
  rw [result_bind]
  cases t.result <;> simp [Except.bind]

/-- Two computations in a row return something if the first returns, and the second does on that. -/
theorem exists_result_bind {t : Traced ν ε α} {f : α → Traced ν ε β} {a : α}
    (ht : t.result = .ok a) (hf : ∃ b, (f a).result = .ok b) : ∃ b, (t >>= f).result = .ok b := by
  obtain ⟨b, hb⟩ := hf
  exact ⟨b, result_bind_eq_ok_iff.2 ⟨a, ht, hb⟩⟩

end Traced

end NormalGrammar
