import MonkeyLang.Eval.Run
/-!
# What evaluations keep

`Eval.Keeps` speaks of an evaluation that ends: started in a store with
some property it leaves one, whether it comes to a value or stops early.
There is one rule for each way of putting evaluations together.
-/

namespace MonkeyLang

namespace Eval

variable {ε ε' α β : Type} {s s' : Store}

/-! ## How evaluations end -/

/-- One evaluation after the other comes to a value if both do. -/
theorem bind_eq_ok_iff {x : Eval ε α} {f : α → Eval ε β} {b : β} :
    (x >>= f) s = some (.ok b, s') ↔
      ∃ a s₁, x s = some (.ok a, s₁) ∧ f a s₁ = some (.ok b, s') := by
  change Eval.bind x f s = _ ↔ _
  unfold Eval.bind
  rcases x s with _ | ⟨_ | a, s₁⟩ <;> simp [and_assoc]

/-- It stops early where the first one does, or else where the second one
does. -/
theorem bind_eq_error_iff {x : Eval ε α} {f : α → Eval ε β} {e : ε} :
    (x >>= f) s = some (.error e, s') ↔
      x s = some (.error e, s') ∨
        ∃ a s₁, x s = some (.ok a, s₁) ∧ f a s₁ = some (.error e, s') := by
  change Eval.bind x f s = _ ↔ _
  unfold Eval.bind
  rcases x s with _ | ⟨_ | a, s₁⟩ <;> simp [and_assoc]

theorem bind_of_ok {x : Eval ε α} {f : α → Eval ε β} {a : α} (h : x s = some (.ok a, s')) :
    (x >>= f) s = f a s' := by
  change Eval.bind x f s = _
  unfold Eval.bind
  rw [h]

theorem bind_of_error {x : Eval ε α} {f : α → Eval ε β} {e : ε} (h : x s = some (.error e, s')) :
    (x >>= f) s = some (.error e, s') :=
  bind_eq_error_iff.2 (.inl h)

/-- It stops early where it did before, for another reason. -/
theorem mapReason_eq_error_iff {f : ε → ε'} {x : Eval ε α} {e' : ε'} :
    x.mapReason f s = some (.error e', s') ↔ ∃ e, x s = some (.error e, s') ∧ e' = f e := by
  unfold mapReason
  obtain _ | ⟨e | a, s₁⟩ := x s
  · simp
  · constructor
    · rintro ⟨⟩
      exact ⟨e, rfl, rfl⟩
    · rintro ⟨_, ⟨⟩, rfl⟩
      rfl
  · simp

/-- An operation that fails stops the evaluation around it, and the store
is left as it was. -/
theorem orFail_eq_error_iff {result : Except EvalError α} {reason : Unwind} :
    orFail result s = some (.error reason, s') ↔
      ∃ error, result = .error error ∧ reason = .failed error ∧ s' = s := by
  rw [orFail, mapReason_eq_error_iff]
  constructor
  · rintro ⟨error, h, rfl⟩
    cases result with
    | ok a => cases h
    | error error' =>
      cases h
      exact ⟨error, rfl, rfl, rfl⟩
  · rintro ⟨error, rfl, rfl, rfl⟩
    exact ⟨error, rfl, rfl⟩

/-- Started in a store with a property, an evaluation that ends leaves a
store with it, and what it ends with is as said. -/
structure Keeps (inv : Store → Prop) (x : Eval ε α) (post : α → Prop) (exit : ε → Prop) :
    Prop where
  ok : ∀ {s a s'}, inv s → x s = some (.ok a, s') → inv s' ∧ post a
  error : ∀ {s e s'}, inv s → x s = some (.error e, s') → inv s' ∧ exit e

namespace Keeps

variable {inv : Store → Prop} {post : α → Prop} {exit : ε → Prop}

/-! ## The rules -/

theorem pure {a : α} (ha : post a) : Keeps inv (pure a : Eval ε α) post exit where
  ok hs h := by cases h; exact ⟨hs, ha⟩
  error _ h := by cases h

theorem stop {e : ε} (he : exit e) : Keeps inv (stop e : Eval ε α) post exit where
  ok _ h := by cases h
  error hs h := by cases h; exact ⟨hs, he⟩

theorem exhausted : Keeps inv (exhausted : Eval ε α) post exit where
  ok _ h := by cases h
  error _ h := by cases h

/-- What is asked of a store may rely on the property. -/
theorem ask {f : Store → α} (hf : ∀ {s}, inv s → post (f s)) :
    Keeps inv (ask f : Eval ε α) post exit where
  ok hs h := by cases h; exact ⟨hs, hf hs⟩
  error _ h := by cases h

/-- What changes the store has to see to the property. -/
theorem create {f : Store → α × Store} (hf : ∀ {s}, inv s → inv (f s).2 ∧ post (f s).1) :
    Keeps inv (create f : Eval ε α) post exit where
  ok hs h := by cases h; exact hf hs
  error _ h := by cases h

theorem ofExcept {r : Except ε α} (hok : ∀ a, r = .ok a → post a)
    (herror : ∀ e, r = .error e → exit e) : Keeps inv (ofExcept r) post exit := by
  cases r with
  | ok a => exact pure (hok a rfl)
  | error e => exact stop (herror e rfl)

/-- **One evaluation after the other**: the second one may rely on what is
said of the value that the first one comes to. -/
theorem bind {x : Eval ε α} {f : α → Eval ε β} {post' : β → Prop} (hx : Keeps inv x post exit)
    (hf : ∀ a, post a → Keeps inv (f a) post' exit) : Keeps inv (x >>= f) post' exit where
  ok hs h := by
    obtain ⟨a, s₁, ha, hb⟩ := bind_eq_ok_iff.mp h
    obtain ⟨h₁, hpost⟩ := hx.ok hs ha
    exact (hf a hpost).ok h₁ hb
  error hs h := by
    rcases bind_eq_error_iff.mp h with he | ⟨a, s₁, ha, he⟩
    · exact hx.error hs he
    · obtain ⟨h₁, hpost⟩ := hx.ok hs ha
      exact (hf a hpost).error h₁ he

theorem mapReason {x : Eval ε α} {f : ε → ε'} {exit' : ε' → Prop} (hx : Keeps inv x post exit)
    (hf : ∀ e, exit e → exit' (f e)) : Keeps inv (x.mapReason f) post exit' where
  ok {s a s'} hs h := by
    unfold Eval.mapReason at h
    split at h <;> cases h
    exact hx.ok hs ‹_›
  error {s e s'} hs h := by
    unfold Eval.mapReason at h
    split at h <;> cases h
    obtain ⟨h', he⟩ := hx.error hs ‹_›
    exact ⟨h', hf _ he⟩

/-- At the end of a call the value of a `return` is one that the call comes
to. -/
theorem atCall {x : Eval Unwind Value} {post : Value → Prop} {exit : Unwind → Prop}
    {exit' : EvalError → Prop} (hx : Keeps inv x post exit)
    (hreturned : ∀ v, exit (.returned v) → post v) (hfailed : ∀ e, exit (.failed e) → exit' e) :
    Keeps inv x.atCall post exit' where
  ok {s v s'} hs h := by
    unfold Eval.atCall at h
    split at h <;> cases h
    · exact hx.ok hs ‹_›
    · obtain ⟨h', he⟩ := hx.error hs ‹_›
      exact ⟨h', hreturned v he⟩
  error {s e s'} hs h := by
    unfold Eval.atCall at h
    split at h <;> cases h
    obtain ⟨h', he⟩ := hx.error hs ‹_›
    exact ⟨h', hfailed e he⟩

/-- An evaluation that has come to rest left a store with the property,
and the value it came to is as said. -/
theorem settle {x : Eval ε Value} {post : Value → Prop} (hx : Keeps inv x post exit)
    {reason : ε → Value} {v : Value} (hs : inv s) (h : x.settle reason s = some (v, s')) :
    inv s' ∧ (post v ∨ ∃ e, exit e ∧ v = reason e) := by
  unfold Eval.settle at h
  split at h <;> cases h
  · obtain ⟨h', hv⟩ := hx.ok hs ‹_›
    exact ⟨h', .inl hv⟩
  · obtain ⟨h', he⟩ := hx.error hs ‹_›
    exact ⟨h', .inr ⟨_, he, rfl⟩⟩

end Keeps

end Eval

end MonkeyLang
