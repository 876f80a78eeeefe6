import Mathlib

/-!
# Computations that may fail

Lemmas that take a `do` block apart, one for each way its first part can end. `InStep` and `Matches` compare
two computations that end alike, block by block.
-/

namespace Jvm

section
variable {ε σ α β : Type} {act : EStateM ε σ α} {k : α → EStateM ε σ β} {s s' : σ}

theorem bind_of_ok {a : α} (h : act s = .ok a s') : (act >>= k) s = k a s' := by
  show EStateM.bind act k s = _
  rw [EStateM.bind, h]

theorem bind_of_error {e : ε} (h : act s = .error e s') : (act >>= k) s = .error e s' := by
  show EStateM.bind act k s = _
  rw [EStateM.bind, h]

theorem get_bind (k : σ → EStateM ε σ β) (s : σ) : (get >>= k) s = k s s := rfl

theorem exists_of_bind_eq_ok {b : β} (h : (act >>= k) s = .ok b s') :
    ∃ a t, act s = .ok a t ∧ k a t = .ok b s' := by
  cases hact : act s with
  | error e t =>
    rw [bind_of_error hact] at h
    cases h
  | ok a t => exact ⟨a, t, rfl, by rw [← h, bind_of_ok hact]⟩

theorem error_of_bind_eq_error {e : ε} (h : (act >>= k) s = .error e s') :
    act s = .error e s' ∨ ∃ a t, act s = .ok a t ∧ k a t = .error e s' := by
  cases hact : act s with
  | error e' t =>
    rw [bind_of_error hact] at h
    cases h
    exact .inl rfl
  | ok a t => exact .inr ⟨a, t, rfl, by rw [← h, bind_of_ok hact]⟩

theorem error_of_ofExcept {r : Except ε α} {e : ε} (h : (MonadExcept.ofExcept r : EStateM ε σ α) s = .error e s') :
    r = .error e := by
  cases r with
  | error e' =>
    cases h
    rfl
  | ok a => cases h

end

/-! ## Two computations in step -/

/-- Both computations end alike, in related states. -/
inductive EndInStep {ε σ α : Type} (rel : σ → σ → Prop) : EStateM.Result ε σ α → EStateM.Result ε σ α → Prop
  | ok (a : α) {s s' : σ} : rel s s' → EndInStep rel (.ok a s) (.ok a s')
  | error (e : ε) {s s' : σ} : rel s s' → EndInStep rel (.error e s) (.error e s')

/-- The computations end alike from related states. -/
def InStep {ε σ α : Type} (rel : σ → σ → Prop) (act act' : EStateM ε σ α) : Prop :=
  ∀ s s', rel s s' → EndInStep rel (act s) (act' s')

section
variable {ε σ α β : Type} {rel : σ → σ → Prop}

theorem EndInStep.exists_ok {r r' : EStateM.Result ε σ α} (h : EndInStep rel r r') {a : α} {s : σ} (hr : r = .ok a s) :
    ∃ s', r' = .ok a s' ∧ rel s s' := by
  subst hr
  obtain ⟨_, hs⟩ := h
  exact ⟨_, rfl, hs⟩

theorem EndInStep.exists_error {r r' : EStateM.Result ε σ α} (h : EndInStep rel r r') {e : ε} {s : σ}
    (hr : r = .error e s) : ∃ s', r' = .error e s' ∧ rel s s' := by
  subst hr
  obtain _ | ⟨_, hs⟩ := h
  exact ⟨_, rfl, hs⟩

theorem EndInStep.bind {act act' : EStateM ε σ α} {k k' : α → EStateM ε σ β} {s s' : σ}
    (h : EndInStep rel (act s) (act' s')) (hk : ∀ a t t', rel t t' → EndInStep rel (k a t) (k' a t')) :
    EndInStep rel ((act >>= k) s) ((act' >>= k') s') := by
  cases hact : act s with
  | ok a t =>
    obtain ⟨t', hact', ht⟩ := h.exists_ok hact
    rw [bind_of_ok hact, bind_of_ok hact']
    exact hk a t t' ht
  | error e t =>
    obtain ⟨t', hact', ht⟩ := h.exists_error hact
    rw [bind_of_error hact, bind_of_error hact']
    exact .error e ht

theorem InStep.bind {act act' : EStateM ε σ α} {k k' : α → EStateM ε σ β} (h : InStep rel act act')
    (hk : ∀ a, InStep rel (k a) (k' a)) : InStep rel (act >>= k) (act' >>= k') :=
  fun s s' hs => (h s s' hs).bind fun a t t' ht => hk a t t' ht

/-- Computations that look at the state first. -/
theorem InStep.bind_get {k k' : σ → EStateM ε σ β} (hk : ∀ s s', rel s s' → EndInStep rel (k s s) (k' s' s')) :
    InStep rel (get >>= k) (get >>= k') := hk

theorem inStep_pure (a : α) : InStep rel (pure a : EStateM ε σ α) (pure a) := fun _ _ hs => .ok a hs

theorem inStep_throw (e : ε) : InStep rel (throw e : EStateM ε σ α) (throw e) := fun _ _ hs => .error e hs

theorem inStep_ofExcept (r : Except ε α) :
    InStep rel (MonadExcept.ofExcept r : EStateM ε σ α) (MonadExcept.ofExcept r) := by
  cases r with
  | ok a => exact inStep_pure a
  | error e => exact inStep_throw e

end

/-! ## Results -/

section
variable {ε α β : Type}

theorem exists_of_bind_ok {x : Except ε α} {k : α → Except ε β} {b : β} (h : (x >>= k) = .ok b) :
    ∃ a, x = .ok a ∧ k a = .ok b := by
  cases x with
  | error e => cases h
  | ok a => exact ⟨a, rfl, h⟩

theorem error_of_bind_error {x : Except ε α} {k : α → Except ε β} {e : ε} (h : (x >>= k) = .error e) :
    x = .error e ∨ ∃ a, x = .ok a ∧ k a = .error e := by
  cases x with
  | error e' =>
    cases h
    exact .inl rfl
  | ok a => exact .inr ⟨a, rfl, h⟩

theorem exists_of_map_ok {x : Except ε α} {f : α → β} {b : β} (h : x.map f = .ok b) :
    ∃ a, x = .ok a ∧ f a = b := by
  cases x with
  | error e => cases h
  | ok a =>
    cases h
    exact ⟨a, rfl, rfl⟩

theorem ok_of_mapError_ok {ε' : Type} {x : Except ε α} {f : ε → ε'} {a : α} (h : x.mapError f = .ok a) :
    x = .ok a := by
  cases x with
  | error e => cases h
  | ok a =>
    cases h
    rfl

theorem exists_of_mapError_error {ε' : Type} {x : Except ε α} {f : ε → ε'} {e' : ε'}
    (h : x.mapError f = .error e') : ∃ e, x = .error e ∧ e' = f e := by
  cases x with
  | error e =>
    cases h
    exact ⟨e, rfl, rfl⟩
  | ok a => cases h

/-- Two results that are related, or that are the same error. -/
inductive Matches (rel : α → β → Prop) : Except ε α → Except ε β → Prop
  | ok {a : α} {b : β} : rel a b → Matches rel (.ok a) (.ok b)
  | error (e : ε) : Matches rel (.error e) (.error e)

section
variable {rel : α → β → Prop} {r : Except ε α} {r' : Except ε β}

theorem Matches.refl {rel : α → α → Prop} (h : ∀ a, rel a a) (r : Except ε α) : Matches rel r r := by
  cases r with
  | ok a => exact .ok (h a)
  | error e => exact .error e

theorem Matches.exists_ok (h : Matches rel r r') {a : α} (hr : r = .ok a) : ∃ b, r' = .ok b ∧ rel a b := by
  cases h with
  | @ok a' b hrel =>
    cases hr
    exact ⟨b, rfl, hrel⟩
  | error e => cases hr

theorem Matches.error_iff (h : Matches rel r r') (e : ε) : r = .error e ↔ r' = .error e := by
  cases h <;> simp

theorem Matches.mapError {ε' : Type} (h : Matches rel r r') (f : ε → ε') : Matches rel (r.mapError f) (r'.mapError f) := by
  cases h with
  | ok hrel => exact .ok hrel
  | error e => exact .error (f e)

theorem Matches.bind {γ δ : Type} {rel' : γ → δ → Prop} {k : α → Except ε γ} {k' : β → Except ε δ} (h : Matches rel r r')
    (hk : ∀ a b, rel a b → Matches rel' (k a) (k' b)) : Matches rel' (r >>= k) (r' >>= k') := by
  cases h with
  | ok hrel => exact hk _ _ hrel
  | error e => exact .error e

/-- Checks that do not look at the states. -/
theorem inStep_bind_ofExcept {σ γ : Type} {states : σ → σ → Prop} {k : α → EStateM ε σ γ} {k' : β → EStateM ε σ γ}
    (h : Matches rel r r') (hk : ∀ a b, rel a b → InStep states (k a) (k' b)) :
    InStep states (MonadExcept.ofExcept r >>= k) (MonadExcept.ofExcept r' >>= k') := by
  cases h with
  | ok hrel => exact hk _ _ hrel
  | error e => exact fun _ _ hs => .error e hs

end

/-- A list that is mapped without failure is mapped element by element. -/
theorem pointwise_of_mapM {f : α → Except ε β} {l : List α} {r : List β} (h : l.mapM f = .ok r) :
    l.length = r.length ∧ ∀ (i : Nat) (a : α) (b : β), l[i]? = some a → r[i]? = some b → f a = .ok b := by
  induction l generalizing r with
  | nil =>
    cases h
    exact ⟨rfl, by simp⟩
  | cons a l ih =>
    rw [List.mapM_cons] at h
    obtain ⟨b, ha, h⟩ := exists_of_bind_ok h
    obtain ⟨bs, hl, h⟩ := exists_of_bind_ok h
    cases h
    obtain ⟨hlen, hrest⟩ := ih hl
    refine ⟨congrArg (· + 1) hlen, fun i => ?_⟩
    cases i with
    | zero =>
      rintro x y ⟨⟩ ⟨⟩
      exact ha
    | succ i => exact hrest i

theorem exists_of_mem_mapM {f : α → Except ε β} {l : List α} {r : List β} {b : β} (h : l.mapM f = .ok r)
    (hb : b ∈ r) : ∃ a ∈ l, f a = .ok b := by
  obtain ⟨hlen, hpoint⟩ := pointwise_of_mapM h
  obtain ⟨i, hi, hget⟩ := List.mem_iff_getElem.1 hb
  have hil : i < l.length := by omega
  exact ⟨l[i], List.getElem_mem hil, hpoint i _ _ (List.getElem?_eq_getElem hil) (List.getElem?_eq_some_iff.2 ⟨hi, hget⟩)⟩

theorem mapM_cons_ok {f : α → Except ε β} {a : α} {b : β} (h : f a = .ok b) (l : List α) :
    (a :: l).mapM f = (l.mapM f).map (b :: ·) := by
  rw [List.mapM_cons, h]
  cases hl : l.mapM f <;> rfl

theorem mapM_cons_error {f : α → Except ε β} {a : α} {e : ε} (h : f a = .error e) (l : List α) :
    (a :: l).mapM f = .error e := by
  rw [List.mapM_cons, h]
  rfl

theorem mapM_eq_error_iff {f : α → Except ε β} {l : List α} {e : ε} :
    l.mapM f = .error e ↔
      ∃ before a after, l = before ++ a :: after ∧ (∀ x ∈ before, ∃ b, f x = .ok b) ∧ f a = .error e := by
  constructor
  · intro h
    induction l with
    | nil => cases h
    | cons a l ih =>
      cases ha : f a with
      | error e' =>
        rw [mapM_cons_error ha] at h
        cases h
        exact ⟨[], a, l, rfl, by simp, ha⟩
      | ok b =>
        rw [mapM_cons_ok ha] at h
        cases hl : l.mapM f with
        | ok r =>
          rw [hl] at h
          cases h
        | error e' =>
          rw [hl] at h
          cases h
          obtain ⟨before, x, after, rfl, hbefore, hx⟩ := ih hl
          refine ⟨a :: before, x, after, rfl, ?_, hx⟩
          intro y hy
          rcases List.mem_cons.1 hy with rfl | hy
          · exact ⟨b, ha⟩
          · exact hbefore y hy
  · rintro ⟨before, a, after, rfl, hbefore, ha⟩
    induction before with
    | nil => exact mapM_cons_error ha after
    | cons x before ih =>
      obtain ⟨b, hx⟩ := hbefore x (by simp)
      rw [List.cons_append, mapM_cons_ok hx, ih fun y hy => hbefore y (by simp [hy])]
      rfl

theorem exists_mapM_ok_iff {f : α → Except ε β} {l : List α} :
    (∃ r, l.mapM f = .ok r) ↔ ∀ a ∈ l, ∃ b, f a = .ok b := by
  induction l with
  | nil => exact ⟨by simp, fun _ => ⟨[], rfl⟩⟩
  | cons a l ih =>
    cases ha : f a with
    | error e => simp [mapM_cons_error ha, ha]
    | ok b =>
      rw [List.forall_mem_cons, ← ih, mapM_cons_ok ha]
      cases l.mapM f <;> simp [Except.map, ha]

/-- What is mapped without failure can be mapped after a change of each element. -/
theorem mapM_map_of_ok {γ δ : Type} {f : α → Except ε β} {g : γ → Except ε δ} {φ : α → γ} {ψ : β → δ} {l : List α}
    {r : List β} (h : l.mapM f = .ok r) (hg : ∀ a ∈ l, ∀ b, f a = .ok b → g (φ a) = .ok (ψ b)) :
    (l.map φ).mapM g = .ok (r.map ψ) := by
  induction l generalizing r with
  | nil =>
    cases h
    rfl
  | cons a l ih =>
    rw [List.mapM_cons] at h
    obtain ⟨b, ha, h⟩ := exists_of_bind_ok h
    obtain ⟨bs, hl, h⟩ := exists_of_bind_ok h
    cases h
    have hrest := ih hl fun x hx => hg x (List.mem_cons_of_mem a hx)
    rw [List.map_cons, mapM_cons_ok (hg a List.mem_cons_self b ha), hrest]
    rfl

/-- A fold whose step first computes something from the element computes all of that first. -/
theorem foldlM_eq_mapM {σ : Type} {f : α → Except ε β} (g : σ → β → σ) (l : List α) (s : σ) :
    l.foldlM (fun s a => return g s (← f a)) s = (l.mapM f).map fun r => r.foldl g s := by
  induction l generalizing s with
  | nil => rfl
  | cons a l ih =>
    rw [List.foldlM_cons]
    cases ha : f a with
    | error e =>
      rw [mapM_cons_error ha]
      rfl
    | ok b =>
      rw [mapM_cons_ok ha]
      refine (ih (g s b)).trans ?_
      cases l.mapM f <;> rfl

end

end Jvm
