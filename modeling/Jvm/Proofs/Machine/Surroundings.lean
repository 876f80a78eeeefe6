import Jvm.Proofs.Machine.Reachable
import Jvm.Proofs.Machine.SideBySide

/-!
# What a machine does to its surroundings

An instruction reaches beyond the frames in two ways only: it has the loader find a method, or it has a
native method work on the streams. Entering a program has the loader find a class. So what look-ups and
native methods keep of the loader and the streams (`Upkeep`) is kept by every request, and the settings of
a machine stay what they are (`Kept.after`).
-/

namespace Jvm

/-- Look-ups and native methods keep `p`. -/
structure Upkeep (files : FileSystem) (natives : NativeTable) (p : Loader → Streams → Prop) : Prop where
  resolve : ∀ loader streams name, p loader streams → p (loader.resolve files name).loader streams
  findMethod : ∀ loader streams target, p loader streams → p (loader.findMethod files target).loader streams
  native : ∀ loader streams call, ∀ method ∈ natives.methods, p loader streams →
    match method.action call streams with
    | .ok _ after => p loader after
    | .error _ after => p loader after

/-- The machine has the settings of `m₀`, and its loader and streams are as `p` says. -/
structure Kept (m₀ : Machine) (p : Loader → Streams → Prop) (m : Machine) : Prop where
  natives : m.natives = m₀.natives
  limit : m.calls.limit = m₀.calls.limit
  order : m.order = m₀.order
  around : p m.loader m.streams

section
variable {files : FileSystem} {natives : NativeTable} {p : Loader → Streams → Prop}

theorem Outcome.around_bytecode (files : FileSystem) (target : MemberRef) (f : Frame) (loader : Loader)
    (streams : Streams) :
    (bytecode files target f loader streams).loader = (loader.findMethod files target).loader ∧
      (bytecode files target f loader streams).streams = streams := by
  unfold bytecode
  simp only
  cases (loader.findMethod files target).result with
  | error stop => cases stop <;> exact ⟨rfl, rfl⟩
  | ok found =>
    simp only
    split
    · exact ⟨rfl, rfl⟩
    · split <;> exact ⟨rfl, rfl⟩

/-- **One instruction.** -/
theorem Upkeep.outcome {loader : Loader} {streams : Streams} (h : Upkeep files natives p) (hp : p loader streams)
    (inst : Instruction Nat) (pc : Nat) (f : Frame) :
    p (outcome files natives inst pc f loader streams).loader
      (outcome files natives inst pc f loader streams).streams := by
  rcases outcome_plan natives inst f pc with ⟨effect, hrun⟩ | ⟨method, hmem, call, rest, hrun⟩ | ⟨target, hrun⟩
  · beta_reduce at hrun
    rw [hrun]
    exact hp
  · beta_reduce at hrun
    have hafter := h.native loader streams call method hmem hp
    rw [hrun, Outcome.native]
    cases hact : method.action call streams with
    | error e after =>
      rw [hact] at hafter
      exact hafter
    | ok result after =>
      rw [hact] at hafter
      cases result <;> exact hafter
  · beta_reduce at hrun
    obtain ⟨hl, hs⟩ := Outcome.around_bytecode files target f loader streams
    rw [hrun, hl, hs]
    exact h.findMethod loader streams target hp

namespace Kept

open Machine

variable {m₀ m : Machine}

theorem put {loader : Loader} {streams : Streams} (h : Kept m₀ p m) (hp : p loader streams) (frames : List Frame)
    (log : List Event) : Kept m₀ p (m.put loader streams frames log) :=
  ⟨h.natives, h.limit, h.order, hp⟩

theorem next (hk : Upkeep files m₀.natives p) (h : Kept m₀ p m) : Kept m₀ p (m.next files) := by
  have hstepped := next_stepped m files
  generalize m.next files = after at hstepped
  cases hstepped with
  | nothing => exact h
  | @carried f _ inst o _ _ _ _ _ _ ho _ =>
    have hout := hk.outcome h.around inst f.pc { f with pc := f.pc + 1 }
    rw [← h.natives, ho] at hout
    exact ⟨h.natives, h.limit, h.order, hout⟩

theorem nexts (hk : Upkeep files m₀.natives p) (h : Kept m₀ p m) (k : Nat) :
    Kept m₀ p (m.nexts (List.replicate k files)) := by
  induction k generalizing m with
  | zero => exact h
  | succ k ih => exact ih (h.next hk)

theorem run (hk : Upkeep files m₀.natives p) (h : Kept m₀ p m) (limit : Nat) :
    Kept m₀ p (m.leftBy (run files limit)) := by
  obtain ⟨k, log, hleft, -⟩ := leftBy_run files limit m
  have hnexts := h.nexts hk k
  rw [hleft]
  exact ⟨hnexts.natives, hnexts.limit, hnexts.order, hnexts.around⟩

theorem enter (hk : Upkeep files m₀.natives p) (h : Kept m₀ p m) (className : String) :
    Kept m₀ p (m.leftBy (enter files className)) := by
  obtain ⟨log, henter⟩ := enter_eq files className m
  have hloader := hk.resolve m.loader m.streams className h.around
  unfold leftBy
  rw [henter]
  cases m.entered files className with
  | error e => exact h.put hloader m.calls.frames log
  | ok frames => exact h.put hloader frames log

theorem prepare (hk : Upkeep files m₀.natives p) (h : Kept m₀ p m) (className : String) :
    Kept m₀ p (m.leftBy (prepare files className)) := by
  obtain ⟨log, hprepare⟩ := prepare_eq files className m
  have hentered := (h.put h.around [] log).enter hk className
  unfold leftBy at hentered ⊢
  rw [hprepare]
  exact hentered

/-- **One request.** -/
theorem after (hk : Upkeep files m₀.natives p) (h : Kept m₀ p m) (request : Request) :
    Kept m₀ p (m.after files request) := by
  cases request with
  | enter className => exact h.enter hk className
  | step =>
    rw [after_step]
    exact h.next hk
  | run limit => exact h.run hk limit
  | start className limit =>
    have hentered := h.prepare hk className
    rw [after_start]
    unfold leftBy at hentered ⊢
    cases hprepare : Machine.prepare files className m with
    | error stop entered =>
      rw [hprepare] at hentered
      exact hentered
    | ok _ entered =>
      rw [hprepare] at hentered
      exact hentered.run hk limit

end Kept

end

/-! ## The settings -/

theorem upkeep_trivial (files : FileSystem) (natives : NativeTable) : Upkeep files natives fun _ _ => True where
  resolve _ _ _ _ := trivial
  findMethod _ _ _ _ := trivial
  native _ _ _ _ _ _ := by split <;> trivial

namespace Machine

/-- No request changes a setting. -/
theorem kept_after (m : Machine) (files : FileSystem) (request : Request) :
    Kept m (fun _ _ => True) (m.after files request) :=
  Kept.after (upkeep_trivial files m.natives) ⟨rfl, rfl, rfl, trivial⟩ request

theorem kept_afterAll (m : Machine) (history : History) : Kept m (fun _ _ => True) (m.afterAll history) := by
  induction history generalizing m with
  | nil => exact ⟨rfl, rfl, rfl, trivial⟩
  | cons asked rest ih =>
    obtain ⟨files, request⟩ := asked
    have hfirst := m.kept_after files request
    have hrest := ih (m.after files request)
    exact ⟨hrest.natives.trans hfirst.natives, hrest.limit.trans hfirst.limit, hrest.order.trans hfirst.order, trivial⟩

end Machine

end Jvm
