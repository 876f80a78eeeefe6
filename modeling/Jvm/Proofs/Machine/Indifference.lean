import Jvm.Proofs.Machine.NativeCall
import Jvm.Proofs.Machine.Printing
import Jvm.Proofs.Machine.Surroundings

/-!
# Which actions are called

A machine only tells by what it does which actions it calls. So the actions of all entries are replaced: a
computation is `Indifferent` if it does the same then. A step is, as long as the one call that it is at is
answered as before (`indifferent_step`), so it makes no other native call. A run is, whatever the actions do
to calls that do not fit them (`indifferent_afterAll`).

Main theorem `native_calls`, for any history of registrations.
-/

namespace Jvm

/-- The table with other actions under the same keys. -/
def NativeTable.replaced (actions : NativeMethod → NativeAction) (table : NativeTable) : NativeTable :=
  { table with methods := table.methods.map fun method => { method with action := actions method } }

theorem NativeTable.latest?_replaced (actions : NativeMethod → NativeAction) (table : NativeTable) (key : NativeKey) :
    (table.replaced actions).latest? key =
      (table.latest? key).map fun method => { method with action := actions method } := by
  simp only [latest?, replaced, List.find?_map]
  rfl

theorem NativeTable.method?_replaced (actions : NativeMethod → NativeAction) (table : NativeTable)
    (target : MemberRef) (kind : CallKind) (arity : Nat) :
    (table.replaced actions).method? kind target.owner target.name arity =
      (table.latest? (target.key kind arity)).map actions := by
  rw [method?_of_target, latest?_replaced, Option.map_map]
  rfl

/-- The state that is left is changed. -/
def mapState {ε σ α : Type} (g : σ → σ) : EStateM.Result ε σ α → EStateM.Result ε σ α
  | .ok a s => .ok a (g s)
  | .error e s => .error e (g s)

namespace Machine

/-- The machine with other actions under the same keys. -/
def replaced (actions : NativeMethod → NativeAction) (m : Machine) : Machine :=
  { m with natives := m.natives.replaced actions }

/-- At `m`, the computation does the same with other actions. -/
def Indifferent {α : Type} (actions : NativeMethod → NativeAction) (m : Machine) (act : Exec α) : Prop :=
  act (m.replaced actions) = mapState (replaced actions) (act m)

namespace Indifferent
variable {α β : Type} {actions : NativeMethod → NativeAction} {m : Machine} {act : Exec α} {k : α → Exec β}

theorem pure (a : α) : Indifferent actions m (Pure.pure a) := rfl

theorem fail (e : Error) : Indifferent actions m (Machine.fail e : Exec α) := rfl

theorem orFail (result : Except Error α) : Indifferent actions m (Machine.orFail result) := by
  cases result <;> rfl

/-- What comes second starts where the first part ends, if it does. -/
theorem bind (h : Indifferent actions m act) (hk : ∀ a m', act m = .ok a m' → Indifferent actions m' (k a)) :
    Indifferent actions m (act >>= k) := by
  unfold Indifferent at *
  cases hact : act m with
  | ok a m' =>
    rw [hact] at h
    rw [bind_of_ok h, bind_of_ok hact, hk a m' hact]
  | error e m' =>
    rw [hact] at h
    rw [bind_of_error h, bind_of_error hact]
    rfl

/-- What comes second does not look at the table. -/
theorem bind_get {k : Machine → Exec β} (hsame : k (m.replaced actions) = k m) (h : Indifferent actions m (k m)) :
    Indifferent actions m (get >>= k) := by
  rw [Indifferent, get_bind, get_bind, hsame]
  exact h

theorem setCalls (calls : CallStack) : Indifferent actions m (modify fun m => { m with calls }) := rfl

theorem onTop (act : OnFrame α) : Indifferent actions m (Machine.onTop act) := by
  have hcalls : (m.replaced actions).calls = m.calls := rfl
  unfold Indifferent Machine.onTop
  rw [hcalls]
  cases m.calls.onTop act <;> rfl

theorem logging_replaced (actions : NativeMethod → NativeAction) (m : Machine) (event : Event) :
    (m.replaced actions).logging event = (m.logging event).replaced actions := by
  have hlevel : (m.replaced actions).logLevel = m.logLevel := rfl
  rw [logging, logging, hlevel]
  split <;> rfl

theorem note (event : Event) : Indifferent actions m (Machine.note event) :=
  congrArg (EStateM.Result.ok ()) (logging_replaced actions m event)

theorem foldl_logging_replaced (actions : NativeMethod → NativeAction) (events : List Event) (m : Machine) :
    events.foldl logging (m.replaced actions) = (events.foldl logging m).replaced actions := by
  induction events generalizing m with
  | nil => rfl
  | cons event events ih => rw [List.foldl_cons, List.foldl_cons, logging_replaced, ih]

theorem onLoader (work : Loader → Loading Stop α) : Indifferent actions m (Machine.onLoader work) := by
  have hlogged := foldl_logging_replaced actions (work m.loader).events
    { m with loader := (work m.loader).loader }
  unfold Indifferent
  cases h : (work m.loader).result with
  | ok a =>
    have h' : (work (m.replaced actions).loader).result = .ok a := h
    simp only [Machine.onLoader, h, h']
    exact congrArg (EStateM.Result.ok a) hlogged
  | error stop =>
    have h' : (work (m.replaced actions).loader).result = .error stop := h
    simp only [Machine.onLoader, h, h']
    exact congrArg (EStateM.Result.error stop) hlogged

/-! ### The instructions -/

theorem currentClass : Indifferent actions m Machine.currentClass := onTop _

theorem pushFrame (frame : Frame) : Indifferent actions m (Machine.pushFrame frame) :=
  bind_get rfl <| (orFail _).bind fun _ _ _ => (setCalls _).bind fun _ _ _ => note _

theorem popFrame : Indifferent actions m Machine.popFrame := by
  refine bind_get rfl ?_
  cases m.calls.pop? with
  | none => exact pure ()
  | some popped => exact (setCalls _).bind fun _ _ _ => note _

theorem getStatic (index : UInt16) : Indifferent actions m (Machine.getStatic index) := by
  refine currentClass.bind fun c _ _ => (orFail _).bind fun field m _ => bind_get rfl ?_
  cases m.natives.field? field.owner field.name with
  | none => exact fail _
  | some v => exact onTop _

theorem callBytecode (files : FileSystem) (target : MemberRef) :
    Indifferent actions m (Machine.callBytecode files target) := by
  refine (onLoader _).bind fun found m _ => ?_
  obtain ⟨owner, method⟩ := found
  simp only
  split
  · exact bind (fail _) fun _ _ _ => (onTop _).bind fun _ _ _ => pushFrame _
  · exact (onTop _).bind fun _ _ _ => pushFrame _

theorem returnValue (value : Value) : Indifferent actions m (Machine.returnValue value) := by
  refine popFrame.bind fun _ m _ => bind_get rfl ?_
  split
  · exact bind (fail _) fun _ _ _ => onTop _
  · exact onTop _

/-- A static call for which there is no entry, or not enough operands. -/
theorem invokeStatic {index : UInt16} (hm : m.calls.frames = g :: below) (files : FileSystem)
    (h : ∀ target call rest, g.Offers index .static target call rest →
      m.natives.latest? (target.key .static call.types.length) = none) :
    Indifferent actions m (Machine.invokeStatic files index) := by
  have hm' : (m.replaced actions).calls.frames = g :: below := hm
  rcases g.names_or_nameless index with ⟨target, types, hnames⟩ | ⟨e, hnameless⟩
  · have haction := m.natives.method?_of_target target .static types.length
    have haction' := NativeTable.method?_replaced actions m.natives target .static types.length
    cases hlatest : m.natives.latest? (target.key .static types.length) with
    | none =>
      rw [hlatest] at haction haction'
      rw [Indifferent, invokeStatic_of_unregistered hm hnames haction, invokeStatic_of_unregistered hm' hnames haction']
      exact callBytecode files target
    | some method =>
      have hfew : g.stack.length < types.length := by
        by_contra henough
        have hnone := h target { arguments := g.operands types.length, types } (g.stack.drop types.length)
          ⟨hnames, ⟨Frame.length_operands (Nat.le_of_not_lt henough), rfl, by simp⟩, by simp [Frame.operands]⟩
        cases hlatest.symm.trans hnone
      rw [hlatest] at haction haction'
      rw [Indifferent, invokeStatic_eq hm hnames haction, invokeStatic_eq hm' hnames haction',
        bind_of_error (onTop_popArguments_of_few hm hfew), bind_of_error (onTop_popArguments_of_few hm' hfew)]
      rfl
  · rw [Indifferent, Machine.invokeStatic, callSite_of_nameless hm hnameless, callSite_of_nameless hm' hnameless]
    rfl

/-- A virtual call for which there is no entry, or not enough operands. -/
theorem invokeVirtual {index : UInt16} (hm : m.calls.frames = g :: below)
    (h : ∀ target call rest, g.Offers index .virtual target call rest →
      m.natives.latest? (target.key .virtual call.types.length) = none) :
    Indifferent actions m (Machine.invokeVirtual index) := by
  have hm' : (m.replaced actions).calls.frames = g :: below := hm
  rcases g.names_or_nameless index with ⟨target, types, hnames⟩ | ⟨e, hnameless⟩
  · have haction := m.natives.method?_of_target target .virtual types.length
    have haction' := NativeTable.method?_replaced actions m.natives target .virtual types.length
    cases hlatest : m.natives.latest? (target.key .virtual types.length) with
    | none =>
      rw [hlatest] at haction haction'
      rw [Indifferent, invokeVirtual_of_unregistered hm hnames haction,
        invokeVirtual_of_unregistered hm' hnames haction']
      rfl
    | some method =>
      rw [hlatest] at haction haction'
      rw [Indifferent, invokeVirtual_eq hm hnames haction, invokeVirtual_eq hm' hnames haction']
      rcases Nat.lt_or_ge g.stack.length types.length with hfew | henough
      · rw [bind_of_error (onTop_popArguments_of_few hm hfew), bind_of_error (onTop_popArguments_of_few hm' hfew)]
        rfl
      · -- the arguments are there, so it is the object that is missing
        have hlength : (g.operands types.length).length = types.length := Frame.length_operands henough
        cases hrest : g.stack.drop types.length with
        | cons receiver rest =>
          have hsplit := List.take_append_drop types.length g.stack
          rw [hrest] at hsplit
          have hnone := h target { receiver := some receiver, arguments := g.operands types.length, types } rest
            ⟨hnames, ⟨hlength, rfl, by simp⟩, by simpa [Frame.operands] using hsplit.symm⟩
          cases hlatest.symm.trans hnone
        | nil =>
          have hstack : g.stack = (g.operands types.length).reverse ++ [] := by
            rw [← hrest, Frame.operands, List.reverse_reverse, List.take_append_drop]
          have hpop := onTop_popArguments hm hstack
          have hpop' := onTop_popArguments hm' hstack
          rw [hlength] at hpop hpop'
          rw [bind_of_ok hpop, bind_of_ok hpop']
          rfl
  · rw [Indifferent, Machine.invokeVirtual, callSite_of_nameless hm hnameless, callSite_of_nameless hm' hnameless]
    rfl

/-- An instruction that is no call, or one for which there is no entry, or not enough operands. -/
theorem execute (hm : m.calls.frames = g :: below) (files : FileSystem) (inst : Instruction Nat) (pc : Nat)
    (h : ∀ index kind target call rest, inst.opcode = kind.opcode → inst.operand = .index index →
      g.Offers index kind target call rest → m.natives.latest? (target.key kind call.types.length) = none) :
    Indifferent actions m (Machine.execute files inst pc) := by
  have hoperand : ∀ index m', Machine.orFail (Frame.indexOperand inst) m = .ok index m' →
      inst.operand = .index index ∧ m' = m := by
    intro index m' hfound
    unfold Frame.indexOperand at hfound
    split at hfound
    · cases hfound
      exact ⟨‹_›, rfl⟩
    · cases hfound
  unfold Machine.execute
  cases hop : inst.opcode.operation with
  | within op => exact onTop _
  | getStatic => exact (orFail _).bind fun index _ _ => getStatic index
  | invokeStatic =>
    refine (orFail _).bind fun index m' hfound => ?_
    obtain ⟨hindex, rfl⟩ := hoperand index m' hfound
    exact invokeStatic hm files fun target call rest =>
      h index .static target call rest (Opcode.eq_invokestatic hop) hindex
  | invokeVirtual =>
    refine (orFail _).bind fun index m' hfound => ?_
    obtain ⟨hindex, rfl⟩ := hoperand index m' hfound
    exact invokeVirtual hm fun target call rest =>
      h index .virtual target call rest (Opcode.eq_invokevirtual hop) hindex
  | returnVoid => exact popFrame
  | returnInt => exact (onTop _).bind fun v _ _ => returnValue _
  | returnReference => exact (onTop _).bind fun v _ _ => returnValue _
  | unsupported => exact (onTop _).bind fun frame _ _ => fail _

end Indifferent

/-! ### Steps and runs -/

/-- The call that the machine is at, if it is at one, is answered as by the entry in its table. -/
def Answers (actions : NativeMethod → NativeAction) (m : Machine) : Prop :=
  ∀ f below inst kind target call rest method, m.calls.frames = f :: below → f.AtCall inst kind target call rest →
    m.natives.latest? (target.key kind call.types.length) = some method → actions method call = method.action call

section
variable {actions : NativeMethod → NativeAction}

theorem replaced_afterNative (m : Machine) (f : Frame) (below : List Frame) (inst : Instruction Nat)
    (rest : List Value) (result : EStateM.Result Error Streams (Option Value)) :
    (m.replaced actions).afterNative f below inst rest result =
      mapState (replaced actions) (m.afterNative f below inst rest result) := by
  unfold afterNative
  rw [Indifferent.logging_replaced]
  cases result <;> rfl

/-- **A step** asks the table for the one call that it is at, and for nothing else. -/
theorem indifferent_step (h : m.Answers actions) (files : FileSystem) : Indifferent actions m (step files) := by
  cases hm : m.calls.frames with
  | nil =>
    have hempty : m.calls.isEmpty = true := by
      rw [CallStack.isEmpty, hm]
      rfl
    have hempty' : (m.replaced actions).calls.isEmpty = true := hempty
    rw [Indifferent, step, if_pos hempty', step, if_pos hempty]
    rfl
  | cons f below =>
    have hm' : (m.replaced actions).calls.frames = f :: below := hm
    cases hfetch : f.fetch? with
    | error e =>
      rw [Indifferent, step_of_fetch_error hm hfetch, step_of_fetch_error hm' hfetch]
      rfl
    | ok inst =>
      by_cases hcall : ∃ kind target call rest method, f.AtCall inst kind target call rest ∧
          m.natives.latest? (target.key kind call.types.length) = some method
      · obtain ⟨kind, target, call, rest, method, hcall, hlatest⟩ := hcall
        have hlatest' : (m.replaced actions).natives.latest? (target.key kind call.types.length) =
            some { method with action := actions method } :=
          (NativeTable.latest?_replaced ..).trans (congrArg (Option.map _) hlatest)
        rw [Indifferent, step_of_atCall hm hcall hlatest, step_of_atCall hm' hcall hlatest', replaced_afterNative]
        exact congrArg (fun answer => mapState _ (m.afterNative f below inst rest (answer m.streams)))
          (h f below inst kind target call rest method hm hcall hlatest)
      · have hexecute : Indifferent actions (m.fetched f below inst) (execute files inst f.pc) := by
          refine Indifferent.execute rfl files inst f.pc fun index kind target call rest hop hindex hoffers => ?_
          by_contra hsome
          obtain ⟨method, hlatest⟩ := Option.ne_none_iff_exists'.1 hsome
          exact hcall ⟨kind, target, call, rest, method,
            ⟨hfetch, hop, index, hindex, Frame.offers_moved_iff.1 hoffers⟩, hlatest⟩
        have hfetched : (m.replaced actions).fetched f below inst = (m.fetched f below inst).replaced actions := by
          unfold fetched
          rw [Indifferent.logging_replaced]
          rfl
        rw [Indifferent, step_of_fetch? hm hfetch, step_of_fetch? hm' hfetch, hfetched, hexecute]
        cases execute files inst f.pc (m.fetched f below inst) with
        | ok _ after => rfl
        | error stop after => cases stop <;> rfl

/-- The actions do as those of the table with every call that fits its entry. -/
def AgreeOnFits (actions : NativeMethod → NativeAction) : Prop :=
  ∀ method call, call.Fits method.kind method.arity → actions method call = method.action call

theorem AgreeOnFits.answers (h : AgreeOnFits actions) (m : Machine) : m.Answers actions := by
  intro f below inst kind target call rest method _ hcall hlatest
  obtain ⟨index, -, hoffers⟩ := hcall.offers
  have hkey : method.key = target.key kind call.types.length := by
    simpa using List.find?_some hlatest
  have hkind : method.kind = kind := congrArg NativeKey.kind hkey
  have harity : method.arity = call.types.length := congrArg NativeKey.arity hkey
  refine h method call ?_
  rw [hkind, harity]
  exact hoffers.fits

theorem indifferent_run (h : AgreeOnFits actions) (files : FileSystem) (limit : Nat) (m : Machine) :
    Indifferent actions m (run files limit) := by
  induction limit generalizing m with
  | zero => rfl
  | succ limit ih =>
    have hstep := indifferent_step (h.answers m) files
    unfold Indifferent at hstep ⊢
    simp only [run, hstep]
    cases step files m with
    | error stop after => rfl
    | ok more after =>
      cases more with
      | true => exact ih after
      | false => exact Indifferent.note (m := after) _

/-- **Steps and runs** do not notice what the actions do to calls that do not fit them. -/
theorem indifferent_perform (h : AgreeOnFits actions) (files : FileSystem) {request : Request}
    (hcontinues : request.continues = true) (m : Machine) : Indifferent actions m (request.perform files) := by
  cases request with
  | start className limit => cases hcontinues
  | enter className => cases hcontinues
  | step => exact (indifferent_step (h.answers m) files).bind fun _ _ _ => .pure _
  | run limit => exact indifferent_run h files limit m

theorem indifferent_afterAll (h : AgreeOnFits actions) {history : History}
    (hcontinues : ∀ asked ∈ history, asked.2.continues = true) (m : Machine) :
    (m.replaced actions).afterAll history = (m.afterAll history).replaced actions := by
  induction history generalizing m with
  | nil => rfl
  | cons asked rest ih =>
    obtain ⟨files, request⟩ := asked
    have hperform := indifferent_perform h files (hcontinues _ List.mem_cons_self) m
    have hafter : (m.replaced actions).after files request = (m.after files request).replaced actions := by
      unfold after leftBy
      rw [hperform]
      cases request.perform files m <;> rfl
    rw [afterAll, hafter, ih fun asked hmem => hcontinues asked (List.mem_cons_of_mem _ hmem)]
    rfl

/-! ## Any history of registrations -/

/-- How a machine calls the native methods that were registered in this order. -/
structure CallsNatively (registrations : List Registration) (m : Machine) : Prop where
  /-- A call whose key was ever registered, and whose operands are there, does what was registered last. -/
  latest : ∀ f below inst kind target call rest, m.calls.frames = f :: below → f.AtCall inst kind target call rest →
    (∃ r ∈ registrations, r.key? = some (target.key kind call.types.length)) →
      ∃ method, Registration.Latest registrations (target.key kind call.types.length) method ∧
        ∀ files, step files m = m.afterNative f below inst rest (method.action call m.streams)
  /-- No other action has an influence on a step, so none is called. -/
  only : ∀ actions files,
    (∀ f below inst kind target call rest method, m.calls.frames = f :: below → f.AtCall inst kind target call rest →
      Registration.Latest registrations (target.key kind call.types.length) method →
        actions method call = method.action call) →
      step files (m.replaced actions) = mapState (replaced actions) (step files m)
  /-- What the actions do to calls that do not fit them has no influence on any step or run. -/
  fits : ∀ actions, AgreeOnFits actions →
    (∀ (files : FileSystem) (request : Request), request.continues = true →
        request.perform files (m.replaced actions) = mapState (replaced actions) (request.perform files m)) ∧
      ∀ later : History, (∀ asked ∈ later, asked.2.continues = true) →
        (m.replaced actions).afterAll later = (m.afterAll later).replaced actions

/-- **Native calls**, for any history of registrations and of requests. -/
theorem native_calls (base : NativeTable.Base) (registrations : List Registration) {m₀ : Machine}
    (hnatives : m₀.natives = base.table.registerAll registrations) (history : History) :
    CallsNatively (base.registrations ++ registrations) (m₀.afterAll history) := by
  have htable : (m₀.afterAll history).natives = NativeTable.registerAll {} (base.registrations ++ registrations) := by
    rw [(m₀.kept_afterAll history).natives, hnatives, base.registerAll_table]
  refine ⟨fun f below inst kind target call rest hm hcall hever => ?_, fun actions files h => ?_,
    fun actions h => ⟨fun files request hcontinues => indifferent_perform h files hcontinues _,
      fun later hcontinues => indifferent_afterAll h hcontinues _⟩⟩
  · obtain ⟨method, hlatest⟩ := Registration.exists_latest hever
    refine ⟨method, hlatest, fun files => step_of_atCall hm hcall ?_ files⟩
    rw [htable]
    exact NativeTable.latest?_registerAll.2 hlatest
  · refine indifferent_step (fun f below inst kind target call rest method hm hcall hlatest => ?_) files
    rw [htable] at hlatest
    exact h f below inst kind target call rest method hm hcall (NativeTable.latest?_registerAll.1 hlatest)

end

end Machine

/-! ### A method that is registered twice -/

namespace Sample

/-- Doubles its argument. -/
def twice : NativeAction := fun call =>
  match call.arguments with
  | [.int v] => return some (.int (v + v))
  | _ => throw .stackUnderflow

def fails : NativeAction := fun _ => throw .stackUnderflow

/-- The second one is the one that counts for a static call with one argument. -/
def hostMembers : List Registration := [
  .method ⟨.static, "demo/Host", "twice", 1, fails⟩,
  .method ⟨.static, "demo/Host", "twice", 1, twice⟩,
  .method ⟨.virtual, "demo/Host", "twice", 1, fails⟩,
  .method ⟨.static, "demo/Host", "twice", 2, fails⟩,
  .field ⟨"demo/Host", "twice", .null⟩]

/-- Calls `demo/Host.twice(I)I`. -/
def doubling : Method where
  name := "doubling"
  descriptor := "()V"
  access := 0x0008
  type := ⟨[], none⟩
  maxStack := 1
  maxLocals := 0
  code := some #[⟨0, .invokestatic, .index 1⟩]

/-- With 21 on the stack. -/
def doublingFrame : Frame where
  owner := ⟨"D", none, ⟨#[.unusable, .methodRef 2 3, .classRef 4, .nameAndType 5 6, .utf8 "demo/Host", .utf8 "twice",
    .utf8 "(I)I"]⟩, [doubling]⟩
  method := doubling
  stack := [.int 21, .null]
  locals := #[]

/-- No class can be loaded. -/
def hosted : Machine where
  loader := { roots := [] }
  natives := NativeTable.Base.standard.table.registerAll hostMembers
  calls := { frames := [doublingFrame] }

end Sample

/-- The later one of two entries is called, whatever else is registered. -/
theorem native_calls_twice : ∃ m', (∀ files, Machine.step files Sample.hosted = .ok true m') ∧
    m'.calls.frames = [{ Sample.doublingFrame.moved with stack := [.int 42, .null] }] ∧
    m'.loader = Sample.hosted.loader := by
  have hcalls : Machine.CallsNatively _ Sample.hosted := Machine.native_calls .standard Sample.hostMembers rfl []
  have hcall : Sample.doublingFrame.AtCall ⟨0, .invokestatic, .index 1⟩ .static ⟨"demo/Host", "twice", "(I)I"⟩
      { arguments := [.int 21], types := [.primitive .int] } [.null] := by
    refine ⟨rfl, rfl, 1, rfl, ⟨?_, ⟨some (.primitive .int), ?_⟩, ?_⟩, ⟨rfl, rfl, ?_⟩, rfl⟩
    · decide +kernel
    · decide +kernel
    · decide
    · decide
  obtain ⟨method, hlatest, hstep⟩ := hcalls.latest _ [] _ _ _ _ _ rfl hcall
    ⟨.method ⟨.static, "demo/Host", "twice", 1, Sample.twice⟩, by simp [Sample.hostMembers], rfl⟩
  obtain rfl : (⟨.static, "demo/Host", "twice", 1, Sample.twice⟩ : NativeMethod) = method :=
    Option.some.inj (NativeTable.latest?_registerAll.2 hlatest)
  exact ⟨_, hstep, by decide +kernel, rfl⟩

end Jvm
