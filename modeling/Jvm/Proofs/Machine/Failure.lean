import Jvm.Proofs.Machine.Cases

/-!
# Steps that fail

A step that fails has counted nothing, has touched no frame but the running one, and has done nothing
to that but move its counter and take operands off its stack. The only other end is the return of a
value from the outermost frame, after which there is no frame. What the loader had loaded it still
has.

Main theorem `step_failure`. It is about every machine, whether or not it can be reached.
-/

namespace Jvm

/-- `f'` is what an instruction that fails leaves of the running frame `f`. Stacks have their top
first, so a suffix is what is left when operands are taken off. -/
structure Frame.Failed (f f' : Frame) : Prop where
  owner : f'.owner = f.owner
  method : f'.method = f.method
  locals : f'.locals = f.locals
  stack : f'.stack <:+ f.stack
  pc : f'.pc = match f.fetch? with
    | .ok _ => f.pc + 1
    | .error _ => f.pc

/-- The next instruction returns a value that is on top of the stack, of the type that it returns. -/
def Frame.GivesValue (f : Frame) : Prop := ∃ inst v, f.fetch? = .ok inst ∧ f.Gives inst v

section
variable {f f' : Frame} {inst : Instruction Nat} {v : Value}

theorem Frame.failed_of_fetch_error {e : Error} (h : f.fetch? = .error e) : f.Failed f :=
  ⟨rfl, rfl, rfl, List.suffix_refl _, by rw [h]⟩

theorem Frame.failed_of_spends (h : f.fetch? = .ok inst) (hspends : Frame.Spends { f with pc := f.pc + 1 } f') :
    f.Failed f' :=
  ⟨hspends.owner, hspends.method, hspends.locals, hspends.stack, by rw [h, hspends.pc]⟩

/-- Whether an instruction returns a value does not depend on where the counter is. -/
theorem Frame.gives_moved : Frame.Gives { f with pc := f.pc + 1 } inst v ↔ f.Gives inst v := by
  constructor
  · intro h
    cases h with
    | int hop hstack => exact .int hop hstack
    | reference hop hstack hv => exact .reference hop hstack hv
  · intro h
    cases h with
    | int hop hstack => exact .int hop hstack
    | reference hop hstack hv => exact .reference hop hstack hv

theorem Frame.not_givesValue (h : f.fetch? = .ok inst)
    (hgives : ∀ v, ¬Frame.Gives { f with pc := f.pc + 1 } inst v) : ¬f.GivesValue := by
  rintro ⟨inst', v, h', hv⟩
  cases h.symm.trans h'
  exact hgives v (gives_moved.2 hv)

end

namespace Machine

/-- `m'` is what a step that fails leaves of `m`. -/
structure Failed (m m' : Machine) : Prop where
  executed : m'.executed = m.executed
  loader : m.loader.Extends m'.loader
  frames : ∃ f below, m.calls.frames = f :: below ∧
    (¬(below = [] ∧ f.GivesValue) ∧ (∃ f', f.Failed f' ∧ m'.calls.frames = f' :: below) ∨
      (below = [] ∧ f.GivesValue) ∧ m'.calls.frames = [])

theorem failed_of_step {files : FileSystem} {m m' : Machine} {e : Error}
    (h : step files m = .error (.failed e) m') : m.Failed m' := by
  obtain ⟨f, below, hm⟩ := exists_frame_of_step h
  obtain ⟨hexecuted, hfailure⟩ := stepFailure_of_step hm h
  generalize hloader : m'.loader = later at hfailure
  generalize hframes : m'.calls.frames = frames at hfailure
  cases hfailure with
  | fetch hfetch =>
    have hnot : ¬f.GivesValue := by
      rintro ⟨inst, v, hok, -⟩
      rw [hfetch] at hok
      cases hok
    exact ⟨hexecuted, hloader ▸ .refl _, f, below, hm,
      .inl ⟨fun h => hnot h.2, f, Frame.failed_of_fetch_error hfetch, hframes⟩⟩
  | raised hfetch hspends _ hasked hgives =>
    have hnot := Frame.not_givesValue hfetch hgives
    exact ⟨hexecuted, hloader ▸ hasked.extends, f, below, hm,
      .inl ⟨fun h => hnot h.2, _, Frame.failed_of_spends hfetch hspends, hframes⟩⟩
  | noCaller hfetch hgives hbelow =>
    have hvalue : f.GivesValue := ⟨_, _, hfetch, Frame.gives_moved.1 hgives⟩
    exact ⟨hexecuted, hloader ▸ .refl _, f, below, hm, .inr ⟨⟨hbelow, hvalue⟩, hframes⟩⟩

theorem counted_of_step {files : FileSystem} {m m' : Machine} {more : Bool} (hm : m.calls.frames ≠ [])
    (h : step files m = .ok more m') : more = true ∧ m'.executed = m.executed + 1 := by
  obtain ⟨f, below, hm⟩ := List.exists_cons_of_ne_nil hm
  rcases step_cases hm files with ⟨e, -, hstep⟩ | ⟨inst, o, log, -, -, hstep⟩
  · cases hstep.symm.trans h
  · have hconclude := hstep.symm.trans h
    obtain ⟨frames, hsettle, rfl⟩ := conclude_eq_ok hconclude
    unfold conclude at hconclude
    rw [hsettle] at hconclude
    cases hconclude
    exact ⟨rfl, rfl⟩

/-- **Steps that fail only take operands.** What a step leaves behind that fails; and a step that does
not fail is counted. -/
theorem step_failure (files : FileSystem) (m : Machine) :
    (∀ e m', step files m = .error (.failed e) m' → m.Failed m') ∧
      ∀ more m', m.calls.frames ≠ [] → step files m = .ok more m' →
        more = true ∧ m'.executed = m.executed + 1 :=
  ⟨fun _ _ h => failed_of_step h, fun _ _ hm h => counted_of_step hm h⟩

end Machine

/-! ### A division by zero -/

namespace Sample

/-- Pushes zero and divides by it. -/
def divide : Method where
  name := "divide"
  descriptor := "()V"
  access := 0x0008
  type := ⟨[], none⟩
  maxStack := 2
  maxLocals := 0
  code := some #[⟨0, .iconst0, .int 0⟩, ⟨1, .idiv, .none⟩]

/-- About to push the zero, with the dividend on the stack. -/
def dividing : Machine where
  loader := { roots := [] }
  calls := { frames := [
    { owner := ⟨"D", none, ⟨#[]⟩, [divide]⟩, method := divide, stack := [.int 7], locals := #[] }] }

end Sample

/-- The first step is counted, and the second one fails. -/
theorem step_failure_divide :
    (Sample.dividing.next (.ofRecord [])).executed = 1 ∧
      Machine.step (.ofRecord []) (Sample.dividing.next (.ofRecord [])) =
        .error (.failed (.arithmetic "/ by zero"))
          ((Sample.dividing.next (.ofRecord [])).next (.ofRecord [])) ∧
      (Sample.dividing.next (.ofRecord [])).Failed ((Sample.dividing.next (.ofRecord [])).next (.ofRecord [])) := by
  have hfirst : Machine.step (.ofRecord []) Sample.dividing = .ok true (Sample.dividing.next (.ofRecord [])) := by
    cbv
  have hsecond : Machine.step (.ofRecord []) (Sample.dividing.next (.ofRecord [])) =
      .error (.failed (.arithmetic "/ by zero"))
        ((Sample.dividing.next (.ofRecord [])).next (.ofRecord [])) := by cbv
  obtain ⟨-, hcounted⟩ := (Machine.step_failure (.ofRecord []) Sample.dividing).2 _ _ (List.cons_ne_nil _ _) hfirst
  exact ⟨hcounted, hsecond, (Machine.step_failure (.ofRecord []) _).1 _ _ hsecond⟩

end Jvm
