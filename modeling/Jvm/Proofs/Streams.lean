import Jvm.Native
import Jvm.Proofs.Monad

/-!
# Computations that only print

How a stream answers to writes and flushes is its `behaviour`; what was written to it so far makes no
difference to that. A computation only prints if it ends in the same way on all streams of one behaviour
and appends the same text to each. Nothing that is put together from writes and flushes does more than
that: the rules are those of a `do` block, and `onlyPrints_standard` has the standard native methods.
-/

namespace Jvm

/-- What was printed to the two streams. -/
structure Printed where
  out : String := ""
  err : String := ""
deriving DecidableEq, Repr

/-- Text for one stream. -/
def Printed.on (text : String) : StreamHandle → Printed
  | .stdout => { out := text }
  | .stderr => { err := text }

instance : Append Printed where
  append first later := ⟨first.out ++ later.out, first.err ++ later.err⟩

namespace Streams

/-- The streams after more was printed. -/
def plus (streams : Streams) (text : Printed) : Streams where
  out := { streams.out with written := streams.out.written ++ text.out }
  err := { streams.err with written := streams.err.written ++ text.err }

/-- The streams without what was written. -/
def behaviour (streams : Streams) : Streams where
  out := { streams.out with written := "" }
  err := { streams.err with written := "" }

@[simp] theorem plus_plus (streams : Streams) (first later : Printed) :
    (streams.plus first).plus later = streams.plus (first ++ later) := by
  unfold plus
  simp only [String.append_assoc]
  rfl

@[simp] theorem plus_empty (streams : Streams) : streams.plus {} = streams := by
  unfold plus
  simp only [String.append_empty]

@[simp] theorem behaviour_plus (streams : Streams) (text : Printed) :
    (streams.plus text).behaviour = streams.behaviour := rfl

theorem writeFault_get (streams : Streams) (handle : StreamHandle) :
    (streams.get handle).writeFault = (streams.behaviour.get handle).writeFault := by
  cases handle <;> rfl

theorem flushFault_get (streams : Streams) (handle : StreamHandle) :
    (streams.get handle).flushFault = (streams.behaviour.get handle).flushFault := by
  cases handle <;> rfl

theorem set_append (streams : Streams) (handle : StreamHandle) (text : String) :
    streams.set { streams.get handle with written := (streams.get handle).written ++ text } handle =
      streams.plus (.on text handle) := by
  cases handle <;> simp only [set, get, plus, Printed.on, String.append_empty]

theorem write_of_unrefused {streams : Streams} {handle : StreamHandle} (h : (streams.get handle).writeFault = none)
    (text : String) : write handle text streams = .ok () (streams.plus (.on text handle)) := by
  rw [← set_append]
  simp only [write, h]

theorem write_of_refused {streams : Streams} {handle : StreamHandle} {fault : IoError}
    (h : (streams.get handle).writeFault = some fault) (text : String) :
    write handle text streams = .error (.io fault) streams := by
  simp only [write, h]

/-- Two texts are written like one. -/
theorem write_bind_write (handle : StreamHandle) (first later : String) :
    (write handle first >>= fun _ => write handle later) = write handle (first ++ later) := by
  funext streams
  cases hfault : (streams.get handle).writeFault with
  | some fault => rw [bind_of_error (write_of_refused hfault first), write_of_refused hfault]
  | none =>
    have hlater : ((streams.plus (.on first handle)).get handle).writeFault = none := by
      rw [writeFault_get, behaviour_plus, ← writeFault_get]
      exact hfault
    have hboth : Printed.on first handle ++ Printed.on later handle = .on (first ++ later) handle := by
      cases handle <;> simp only [Printed.on] <;> rfl
    rw [bind_of_ok (write_of_unrefused hfault first), write_of_unrefused hlater, write_of_unrefused hfault, plus_plus,
      hboth]

end Streams

namespace Output

/-- The end of a computation. -/
def ending {α : Type} (result : Except Error α) (streams : Streams) : EStateM.Result Error Streams α :=
  match result with
  | .ok a => .ok a streams
  | .error e => .error e streams

/-- The computation ends in the same way and prints the same on all streams of one behaviour. -/
def OnlyPrints {α : Type} (act : Output α) : Prop :=
  ∀ behaviour, ∃ result text, ∀ streams : Streams, streams.behaviour = behaviour →
    act streams = ending result (streams.plus text)

section
variable {α β : Type}

theorem OnlyPrints.bind {act : Output α} {k : α → Output β} (h : OnlyPrints act) (hk : ∀ a, OnlyPrints (k a)) :
    OnlyPrints (act >>= k) := by
  intro behaviour
  obtain ⟨result, text, hact⟩ := h behaviour
  cases result with
  | error e => exact ⟨.error e, text, fun streams hstreams => bind_of_error (hact streams hstreams)⟩
  | ok a =>
    obtain ⟨result, later, hlater⟩ := hk a behaviour
    refine ⟨result, text ++ later, fun streams hstreams => ?_⟩
    calc (act >>= k) streams
        _ = k a (streams.plus text) := bind_of_ok (hact streams hstreams)
        _ = ending result ((streams.plus text).plus later) := hlater (streams.plus text) hstreams
        _ = ending result (streams.plus (text ++ later)) := by rw [Streams.plus_plus]

theorem onlyPrints_pure (a : α) : OnlyPrints (pure a : Output α) := by
  refine fun _ => ⟨.ok a, {}, fun streams _ => ?_⟩
  rw [Streams.plus_empty]
  rfl

theorem onlyPrints_ofExcept (r : Except Error α) : OnlyPrints (MonadExcept.ofExcept r : Output α) := by
  refine fun _ => ⟨r, {}, fun streams _ => ?_⟩
  rw [Streams.plus_empty]
  cases r <;> rfl

theorem onlyPrints_write (handle : StreamHandle) (text : String) : OnlyPrints (Streams.write handle text) := by
  intro behaviour
  cases hfault : (behaviour.get handle).writeFault with
  | some fault =>
    refine ⟨.error (.io fault), {}, ?_⟩
    rintro streams rfl
    rw [← Streams.writeFault_get] at hfault
    rw [Streams.plus_empty]
    simp only [Streams.write, hfault, ending]
  | none =>
    refine ⟨.ok (), .on text handle, ?_⟩
    rintro streams rfl
    rw [← Streams.writeFault_get] at hfault
    simp only [Streams.write_of_unrefused hfault, ending]

theorem onlyPrints_flush (handle : StreamHandle) : OnlyPrints (Streams.flush handle) := by
  intro behaviour
  cases hfault : (behaviour.get handle).flushFault with
  | some fault =>
    refine ⟨.error (.io fault), {}, ?_⟩
    rintro streams rfl
    rw [← Streams.flushFault_get] at hfault
    simp only [Streams.flush, hfault, Streams.plus_empty, ending]
  | none =>
    refine ⟨.ok (), {}, ?_⟩
    rintro streams rfl
    rw [← Streams.flushFault_get] at hfault
    simp only [Streams.flush, hfault, Streams.plus_empty, ending]

end

end Output

/-! ## Native methods -/

/-- Every native method only prints. -/
def NativeTable.OnlyPrints (natives : NativeTable) : Prop :=
  ∀ method ∈ natives.methods, ∀ call, Output.OnlyPrints (method.action call)

namespace Print

open Output

/-- Both methods flush at the end. -/
theorem onlyPrints_end (handle : StreamHandle) :
    OnlyPrints (do Streams.flush handle; return none : Output (Option Value)) :=
  (onlyPrints_flush handle).bind fun _ => onlyPrints_pure none

theorem onlyPrints_print (call : NativeCall) : OnlyPrints (print call) := by
  refine (onlyPrints_ofExcept _).bind fun handle => ?_
  cases argument? call with
  | none => exact onlyPrints_end handle
  | some text => exact (onlyPrints_write handle text).bind fun _ => onlyPrints_end handle

theorem onlyPrints_println (call : NativeCall) : OnlyPrints (println call) := by
  refine (onlyPrints_ofExcept _).bind fun handle => ?_
  have hend := (onlyPrints_write handle "\n").bind fun _ => onlyPrints_end handle
  cases argument? call with
  | none => exact hend
  | some text => exact (onlyPrints_write handle text).bind fun _ => hend

end Print

theorem NativeTable.onlyPrints_standard : standard.OnlyPrints := by
  intro method hmem call
  simp only [standard, List.mem_cons, List.not_mem_nil, or_false] at hmem
  rcases hmem with rfl | rfl | rfl
  · exact Print.onlyPrints_print call
  · exact Print.onlyPrints_println call
  · exact Print.onlyPrints_println call

end Jvm
