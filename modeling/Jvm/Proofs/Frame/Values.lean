import Jvm.Proofs.Frame

/-!
# Where the values of a frame come from

The instructions that stay within their frame move values about and make new integers and nulls, and no
other values. So if every value of a frame is one of `p`, and integers and null are, that stays so
(`perform_confined`), also when the instruction fails on the way. The rules are those of a `do` block;
`Confined` carries along what is known of the result of each part.
-/

namespace Jvm.Frame

/-- The values on the stack and in the locals are all among `p`. -/
structure All (p : Value → Prop) (f : Frame) : Prop where
  stack : ∀ v ∈ f.stack, p v
  locals : ∀ v ∈ f.locals, p v

/-- A computation that leaves a frame with values among `p` like that, and whose result is as `q` says. -/
def Confined (p : Value → Prop) {α : Type} (q : α → Prop) (act : OnFrame α) : Prop :=
  ∀ f, f.All p → match act f with
    | .ok a f' => q a ∧ f'.All p
    | .error _ f' => f'.All p

section
variable {p : Value → Prop} {α β : Type} {q : α → Prop} {r : β → Prop} {f f' : Frame}

theorem Confined.of_ok {act : OnFrame α} {a : α} (h : Confined p q act) (hf : f.All p) (hact : act f = .ok a f') :
    q a ∧ f'.All p := by
  have := h f hf
  rwa [hact] at this

theorem Confined.of_error {act : OnFrame α} {e : Error} (h : Confined p q act) (hf : f.All p)
    (hact : act f = .error e f') : f'.All p := by
  have := h f hf
  rwa [hact] at this

theorem Confined.bind {act : OnFrame α} {k : α → OnFrame β} (h : Confined p q act)
    (hk : ∀ a, q a → Confined p r (k a)) : Confined p r (act >>= k) := by
  intro f hf
  cases hact : act f with
  | error e g =>
    rw [bind_of_error hact]
    exact h.of_error hf hact
  | ok a g =>
    rw [bind_of_ok hact]
    obtain ⟨ha, hg⟩ := h.of_ok hf hact
    exact hk a ha g hg

theorem confined_pure {a : α} (h : q a) : Confined p q (pure a : OnFrame α) := fun _ hf => ⟨h, hf⟩

theorem confined_throw (e : Error) : Confined p q (throw e : OnFrame α) := fun _ hf => hf

theorem confined_get : Confined p (All p) (get : OnFrame Frame) := fun _ hf => ⟨hf, hf⟩

theorem confined_ofExcept {result : Except Error α} (h : ∀ a, result = .ok a → q a) :
    Confined p q (MonadExcept.ofExcept result : OnFrame α) := by
  cases result with
  | ok a => exact confined_pure (h a rfl)
  | error e => exact confined_throw e

/-- A part of which only the integers or the instruction's operand are used. -/
theorem confined_any (result : Except Error α) :
    Confined p (fun _ => True) (MonadExcept.ofExcept result : OnFrame α) :=
  confined_ofExcept fun _ _ => trivial

end

section
variable {p : Value → Prop}

theorem confined_push {v : Value} (h : p v) : Confined p (fun _ => True) (push v) := by
  refine fun f hf => ⟨trivial, fun w hw => ?_, hf.locals⟩
  rcases List.mem_cons.1 hw with rfl | hw
  · exact h
  · exact hf.stack w hw

theorem confined_pop : Confined p p pop := by
  intro f hf
  unfold pop
  cases hstack : f.stack with
  | nil => exact hf
  | cons v rest =>
    have hall := hf.stack
    rw [hstack] at hall
    exact ⟨hall v List.mem_cons_self, fun w hw => hall w (List.mem_cons_of_mem v hw), hf.locals⟩

theorem confined_popInt : Confined p (fun _ => True) popInt := confined_pop.bind fun _ _ => confined_any _

theorem eq_of_asReference {v w : Value} (h : v.asReference = .ok w) : w = v := by
  cases v <;> cases h <;> rfl

theorem confined_popReference : Confined p p popReference := by
  refine confined_pop.bind fun v hv => confined_ofExcept fun w hw => ?_
  rw [eq_of_asReference hw]
  exact hv

theorem confined_load (index : UInt16) : Confined p p (load index) := by
  refine confined_get.bind fun f hf => ?_
  cases hlocal : f.locals[index.toNat]? with
  | none => exact confined_throw _
  | some v => exact confined_pure (hf.locals v (Array.mem_of_getElem? hlocal))

theorem confined_store (index : UInt16) {v : Value} (h : p v) : Confined p (fun _ => True) (store index v) := by
  intro f hf
  rw [store_eq]
  by_cases hlt : index.toNat < f.locals.size
  · rw [if_pos hlt]
    refine ⟨trivial, hf.stack, fun w hw => ?_⟩
    rcases Array.mem_or_eq_of_mem_setIfInBounds hw with hold | rfl
    · exact hf.locals w hold
    · exact h
  · rw [if_neg hlt]
    exact hf

theorem confined_jump (target : Nat) : Confined p (fun _ => True) (jump target) :=
  fun _ hf => ⟨trivial, hf.stack, hf.locals⟩

theorem confined_jumpIf (test : Bool) (target : Nat) :
    Confined p (fun _ => True) (if test then jump target else pure ()) := by
  cases test with
  | true => exact confined_jump target
  | false => exact confined_pure trivial

/-- **An instruction that stays within its frame** makes integers and nulls only. -/
theorem perform_confined (hint : ∀ i, p (.int i)) (hnull : p .null) (op : FrameOperation) (inst : Instruction Nat) :
    Confined p (fun _ => True) (perform op inst) := by
  cases op with
  | nop => exact confined_pure trivial
  | pushNull => exact confined_push hnull
  | pushInt => exact (confined_any _).bind fun _ _ => confined_push (hint _)
  | loadConstant =>
    exact (confined_any _).bind fun _ _ => confined_get.bind fun _ _ =>
      (confined_any _).bind fun _ _ => confined_push (hint _)
  | loadInt =>
    exact (confined_any _).bind fun _ _ => (confined_load _).bind fun _ _ =>
      (confined_any _).bind fun _ _ => confined_push (hint _)
  | loadReference =>
    refine (confined_any _).bind fun _ _ => (confined_load _).bind fun v hv => ?_
    refine (confined_ofExcept fun w hw => ?_).bind fun w hw => confined_push hw
    rw [eq_of_asReference hw]
    exact hv
  | storeInt => exact confined_popInt.bind fun _ _ => (confined_any _).bind fun _ _ => confined_store _ (hint _)
  | storeReference =>
    exact confined_popReference.bind fun _ hv => (confined_any _).bind fun _ _ => confined_store _ hv
  | pop => exact confined_pop.bind fun _ _ => confined_pure trivial
  | dup =>
    refine confined_get.bind fun f hf => ?_
    cases htop : f.stack.head? with
    | none => exact confined_throw _
    | some v => exact confined_push (hf.stack v (List.mem_of_head? htop))
  | swap =>
    exact confined_pop.bind fun _ htop => confined_pop.bind fun _ hbelow =>
      (confined_push htop).bind fun _ _ => confined_push hbelow
  | arithmetic op =>
    refine confined_popInt.bind fun b _ => confined_popInt.bind fun a _ => ?_
    cases op.result? a b with
    | none => exact confined_throw _
    | some v => exact confined_push (hint v)
  | negate => exact confined_popInt.bind fun _ _ => confined_push (hint _)
  | increment =>
    exact (confined_any _).bind fun _ _ => (confined_load _).bind fun _ _ =>
      (confined_any _).bind fun _ _ => confined_store _ (hint _)
  | branchZero test => exact (confined_any _).bind fun _ _ => confined_popInt.bind fun _ _ => confined_jumpIf _ _
  | branchCompare test =>
    exact (confined_any _).bind fun _ _ => confined_popInt.bind fun _ _ =>
      confined_popInt.bind fun _ _ => confined_jumpIf _ _
  | branchNull expected =>
    exact (confined_any _).bind fun _ _ => confined_popReference.bind fun _ _ => confined_jumpIf _ _
  | goto => exact (confined_any _).bind fun _ _ => confined_jump _

end

end Jvm.Frame
