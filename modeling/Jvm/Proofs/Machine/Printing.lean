import Jvm.Proofs.Machine.Program
import Jvm.Proofs.Machine.Surroundings
import Jvm.Proofs.Print

/-!
# What a program prints

With the standard native methods only a call of `print` or `println` writes, and it writes to the stream
that stands below its arguments: `Frame.Prints` says which text. Any other instruction leaves the streams as
they are, and so does such a call on anything but a stream (`streams_outcome`).

A `Transcript` has what the steps of a run print, in their order. If the streams refuse nothing, a run
writes its transcript and nothing else (`Transcript.written`). Main theorem `output_transcribed`.
-/

namespace Jvm

/-- The instruction is a call that prints the text to the stream. -/
inductive Frame.Prints (f : Frame) (inst : Instruction Nat) : StreamHandle → String → Prop
  | print {target : MemberRef} {type : FieldType} {v : Value} {handle : StreamHandle} {rest : List Value}
      {text : String} : inst.opcode = .invokevirtual → f.callSite inst = .ok (target, [type]) →
      target.owner = "java/io/PrintStream" → target.name = "print" → f.stack = v :: .stream handle :: rest →
      Print.Renders type v text → Prints f inst handle text
  | println {target : MemberRef} {type : FieldType} {v : Value} {handle : StreamHandle} {rest : List Value}
      {text : String} : inst.opcode = .invokevirtual → f.callSite inst = .ok (target, [type]) →
      target.owner = "java/io/PrintStream" → target.name = "println" → f.stack = v :: .stream handle :: rest →
      Print.Renders type v text → Prints f inst handle (text ++ "\n")
  | newline {target : MemberRef} {handle : StreamHandle} {rest : List Value} : inst.opcode = .invokevirtual →
      f.callSite inst = .ok (target, []) → target.owner = "java/io/PrintStream" → target.name = "println" →
      f.stack = .stream handle :: rest → Prints f inst handle "\n"

/-! ## One instruction -/

theorem Opcode.eq_invokevirtual {op : Opcode} (h : op.operation = .invokeVirtual) : op = .invokevirtual := by
  cases op <;> simp [Opcode.operation] at h ⊢

section
variable {f : Frame} {inst : Instruction Nat} {handle : StreamHandle} {text : String} {loader : Loader}
  {streams : Streams}

theorem Frame.Prints.moved (h : f.Prints inst handle text) (pc : Nat) : Prints { f with pc } inst handle text := by
  cases h with
  | print hop hsite howner hname hstack htext => exact .print hop hsite howner hname hstack htext
  | println hop hsite howner hname hstack htext => exact .println hop hsite howner hname hstack htext
  | newline hop hsite howner hname hstack => exact .newline hop hsite howner hname hstack

/-- What an instruction prints does not depend on where the counter is. -/
theorem Frame.prints_moved {pc : Nat} : Frame.Prints { f with pc } inst handle text ↔ f.Prints inst handle text :=
  ⟨fun h => h.moved f.pc, fun h => h.moved pc⟩

/-- What is printed to is on the stack. -/
theorem Frame.Prints.mem_stack (h : f.Prints inst handle text) : .stream handle ∈ f.stack := by
  cases h with
  | print _ _ _ _ hstack | println _ _ _ _ hstack | newline _ _ _ _ hstack => simp [hstack]

theorem Frame.Prints.opcode_eq (h : f.Prints inst handle text) : inst.opcode = .invokevirtual := by
  cases h <;> assumption

namespace Outcome

theorem native_of_eq {action action' : NativeAction} {call call' : NativeCall} (h : action call = action' call')
    (g : Frame) (loader : Loader) (streams : Streams) :
    native action call g loader streams = native action' call' g loader streams := by
  unfold native
  rw [h]

/-- A virtual call of a native method, whose operands are there. -/
theorem invokeVirtual_of_native {natives : NativeTable} {target : MemberRef} {types : List FieldType}
    {action : NativeAction} {arguments rest : List Value} {receiver : Value}
    (hsite : f.callSite inst = .ok (target, types))
    (hmethod : natives.method? .virtual target.owner target.name types.length = some action)
    (hstack : f.stack = arguments.reverse ++ receiver :: rest) (hlength : arguments.length = types.length)
    (loader : Loader) (streams : Streams) :
    invokeVirtual natives inst f loader streams =
      native action { receiver := some receiver, arguments, types } (f.dropped (types.length + 1)) loader streams := by
  have hreverse : arguments.reverse.length = types.length := by rw [List.length_reverse, hlength]
  have hoperands : f.operands types.length = arguments := by
    rw [Frame.operands, hstack, ← hreverse, List.take_left, List.reverse_reverse]
  have hdrop : f.stack.drop types.length = receiver :: rest := by rw [hstack, ← hreverse, List.drop_left]
  have henough : ¬f.stack.length < types.length := by
    rw [hstack, List.length_append, hreverse]
    omega
  unfold invokeVirtual
  simp only [hsite, hmethod, if_neg henough, hdrop, hoperands]

/-- A call that prints only does that. -/
theorem invokeVirtual_of_prints (h : f.Prints inst handle text) (loader : Loader) (streams : Streams) :
    ∃ g, invokeVirtual .standard inst f loader streams =
      native (fun _ => Print.emit handle text) {} g loader streams := by
  cases h with
  | @print target type v _ rest _ _ hsite howner hname hstack htext =>
    have hmethod : NativeTable.standard.method? .virtual target.owner target.name 1 = some Print.print := by
      rw [howner, hname]
      rfl
    have hoperands : f.stack = [v].reverse ++ .stream handle :: rest := hstack
    rw [invokeVirtual_of_native hsite hmethod hoperands rfl, ← Print.renders_iff.1 htext]
    exact ⟨_, native_of_eq (Print.print_stream handle v type) _ loader streams⟩
  | @println target type v _ rest _ _ hsite howner hname hstack htext =>
    have hmethod : NativeTable.standard.method? .virtual target.owner target.name 1 = some Print.println := by
      rw [howner, hname]
      rfl
    have hoperands : f.stack = [v].reverse ++ .stream handle :: rest := hstack
    rw [invokeVirtual_of_native hsite hmethod hoperands rfl, ← Print.renders_iff.1 htext]
    exact ⟨_, native_of_eq (Print.println_stream handle v type) _ loader streams⟩
  | @newline target _ rest _ hsite howner hname hstack =>
    have hmethod : NativeTable.standard.method? .virtual target.owner target.name 0 = some Print.println := by
      rw [howner, hname]
      rfl
    have hoperands : f.stack = [].reverse ++ .stream handle :: rest := hstack
    rw [invokeVirtual_of_native hsite hmethod hoperands rfl]
    exact ⟨_, native_of_eq (Print.println_nothing handle) _ loader streams⟩

/-- A call that is made on something else than a stream has no effect on the streams. -/
theorem streams_native_of_receiver {action : NativeAction} {call : NativeCall}
    (haction : action = Print.print ∨ action = Print.println) (h : ∀ handle, call.receiver ≠ some (.stream handle))
    (g : Frame) (loader : Loader) (streams : Streams) : (native action call g loader streams).streams = streams := by
  obtain ⟨hprint, hprintln⟩ := Print.exists_error_of_receiver h
  have herror : ∃ e, action call streams = .error e streams := by
    rcases haction with rfl | rfl
    · exact hprint streams
    · exact hprintln streams
  obtain ⟨e, he⟩ := herror
  rw [native, he]

/-- No other virtual call writes. -/
theorem streams_invokeVirtual (hop : inst.opcode = .invokevirtual) (h : ∀ handle text, ¬f.Prints inst handle text)
    (loader : Loader) (streams : Streams) : (invokeVirtual .standard inst f loader streams).streams = streams := by
  unfold invokeVirtual
  cases hsite : f.callSite inst with
  | error e => rfl
  | ok site =>
    obtain ⟨target, types⟩ := site
    simp only
    cases hmethod : NativeTable.standard.method? .virtual target.owner target.name types.length with
    | none => rfl
    | some action =>
      obtain ⟨howner, hnative⟩ := NativeTable.standard_method? hmethod
      have haction : action = Print.print ∨ action = Print.println := by
        rcases hnative with ⟨-, -, rfl⟩ | ⟨-, -, rfl⟩ | ⟨-, -, rfl⟩
        · exact .inl rfl
        · exact .inr rfl
        · exact .inr rfl
      simp only
      by_cases hlength : f.stack.length < types.length
      · rw [if_pos hlength]
      · rw [if_neg hlength]
        cases hdrop : f.stack.drop types.length with
        | nil => rfl
        | cons receiver rest =>
          refine streams_native_of_receiver haction (fun handle hreceiver => ?_) _ loader streams
          obtain rfl : receiver = .stream handle := Option.some.inj hreceiver
          have hstack : f.stack = f.stack.take types.length ++ .stream handle :: rest := by
            rw [← hdrop, List.take_append_drop]
          have htaken : (f.stack.take types.length).length = types.length :=
            List.length_take_of_le (Nat.le_of_not_lt hlength)
          -- on a stream it would have printed
          rcases hnative with ⟨hname, harity, -⟩ | ⟨hname, harity, -⟩ | ⟨hname, harity, -⟩
          · obtain ⟨type, rfl⟩ := List.length_eq_one_iff.1 harity
            obtain ⟨v, hv⟩ := List.length_eq_one_iff.1 htaken
            obtain ⟨text, htext⟩ := Print.exists_renders type v
            rw [hv] at hstack
            exact h handle text (.print hop hsite howner hname hstack htext)
          · obtain ⟨type, rfl⟩ := List.length_eq_one_iff.1 harity
            obtain ⟨v, hv⟩ := List.length_eq_one_iff.1 htaken
            obtain ⟨text, htext⟩ := Print.exists_renders type v
            rw [hv] at hstack
            exact h handle (text ++ "\n") (.println hop hsite howner hname hstack htext)
          · obtain rfl := List.eq_nil_of_length_eq_zero harity
            exact h handle "\n" (.newline hop hsite howner hname hstack)

/-- What is printed to a stream, if the stream takes it. -/
theorem native_emit (handle : StreamHandle) (text : String) (g : Frame) (loader : Loader) (streams : Streams) :
    (native (fun _ => Print.emit handle text) {} g loader streams).streams = streams ∨
      (native (fun _ => Print.emit handle text) {} g loader streams).streams = streams.plus (.on text handle) := by
  unfold native
  simp only [Print.emit_eq]
  cases (streams.get handle).writeFault with
  | some fault => exact .inl rfl
  | none => cases (streams.get handle).flushFault <;> exact .inr rfl

end Outcome

theorem outcome_of_prints (files : FileSystem) (pc : Nat) (h : f.Prints inst handle text) (loader : Loader)
    (streams : Streams) :
    ∃ g, outcome files .standard inst pc f loader streams =
      Outcome.native (fun _ => Print.emit handle text) {} g loader streams := by
  have hop : inst.opcode.operation = .invokeVirtual := by
    rw [h.opcode_eq]
    rfl
  obtain ⟨g, hg⟩ := Outcome.invokeVirtual_of_prints h loader streams
  refine ⟨g, ?_⟩
  unfold outcome
  simp only [hop]
  exact hg

/-- **Nothing else writes.** -/
theorem streams_outcome (files : FileSystem) (pc : Nat) (h : ∀ handle text, ¬f.Prints inst handle text)
    (loader : Loader) (streams : Streams) :
    (outcome files .standard inst pc f loader streams).streams = streams := by
  unfold outcome
  cases hop : inst.opcode.operation with
  | within | returnVoid | returnInt | returnReference | unsupported => rfl
  | getStatic =>
    simp only
    split <;> rfl
  | invokeVirtual => exact Outcome.streams_invokeVirtual (Opcode.eq_invokevirtual hop) h loader streams
  | invokeStatic =>
    simp only [Outcome.invokeStatic, NativeTable.standard_method?_static]
    split
    · rfl
    · exact (Outcome.around_bytecode files _ f loader streams).2

/-- An instruction prints one text at most. -/
theorem Frame.Prints.unique {handle' : StreamHandle} {text' : String} (h : f.Prints inst handle text)
    (h' : f.Prints inst handle' text') : handle' = handle ∧ text' = text := by
  cases h with
  | print _ hsite _ hname hstack htext =>
    cases h' with
    | print _ hsite' _ _ hstack' htext' =>
      cases hsite.symm.trans hsite'
      cases hstack.symm.trans hstack'
      exact ⟨rfl, (Print.renders_iff.1 htext').symm.trans (Print.renders_iff.1 htext)⟩
    | println _ hsite' _ hname' =>
      cases hsite.symm.trans hsite'
      exact absurd (hname.symm.trans hname') (by decide)
    | newline _ hsite' => cases hsite.symm.trans hsite'
  | println _ hsite _ hname hstack htext =>
    cases h' with
    | print _ hsite' _ hname' =>
      cases hsite.symm.trans hsite'
      exact absurd (hname.symm.trans hname') (by decide)
    | println _ hsite' _ _ hstack' htext' =>
      cases hsite.symm.trans hsite'
      cases hstack.symm.trans hstack'
      exact ⟨rfl, congrArg (· ++ "\n") ((Print.renders_iff.1 htext').symm.trans (Print.renders_iff.1 htext))⟩
    | newline _ hsite' => cases hsite.symm.trans hsite'
  | newline _ hsite _ _ hstack =>
    cases h' with
    | print _ hsite' | println _ hsite' => cases hsite.symm.trans hsite'
    | newline _ _ _ _ hstack' =>
      cases hstack.symm.trans hstack'
      exact ⟨rfl, rfl⟩

end

/-! ## Steps and runs -/

/-- The texts for one stream, one after the other. -/
def textFor (handle : StreamHandle) (texts : List (StreamHandle × String)) : String :=
  String.join ((texts.filter (·.1 = handle)).map (·.2))

theorem textFor_cons (handle other : StreamHandle) (text : String) (texts : List (StreamHandle × String)) :
    textFor handle ((other, text) :: texts) = (if other = handle then text else "") ++ textFor handle texts := by
  unfold textFor
  by_cases h : other = handle
  · simp [h]
  · simp [h]

namespace Machine

/-- The next step succeeds, and prints the text to the stream. -/
def Prints (m : Machine) (files : FileSystem) (handle : StreamHandle) (text : String) : Prop :=
  m.Succeeds files ∧ ∃ f below inst, m.calls.frames = f :: below ∧ f.fetch? = .ok inst ∧ f.Prints inst handle text

/-- The texts that the steps of a run print, each with the stream that it goes to. -/
inductive Transcript : Machine → List FileSystem → List (StreamHandle × String) → Prop
  | nil (m : Machine) : Transcript m [] []
  | print {m : Machine} {now : FileSystem} {later : List FileSystem} {handle : StreamHandle} {text : String}
      {texts : List (StreamHandle × String)} : m.Prints now handle text → Transcript (m.next now) later texts →
      Transcript m (now :: later) ((handle, text) :: texts)
  | silent {m : Machine} {now : FileSystem} {later : List FileSystem} {texts : List (StreamHandle × String)} :
      (∀ handle text, ¬m.Prints now handle text) → Transcript (m.next now) later texts →
      Transcript m (now :: later) texts

section
variable {m : Machine} {files : FileSystem} {handle : StreamHandle} {text : String} {run : List FileSystem}
  {texts : List (StreamHandle × String)}

/-- Streams that refuse nothing take what is printed. -/
theorem streams_next_of_prints (hnatives : m.natives = .standard) (haccept : m.streams.Accept)
    (h : m.Prints files handle text) : (m.next files).streams = m.streams.plus (.on text handle) := by
  obtain ⟨hsucceeds, f, below, inst, hm, hfetch, hprints⟩ := h
  obtain ⟨g, houtcome⟩ := outcome_of_prints files f.pc (Frame.prints_moved.2 hprints) m.loader m.streams
  have hstepped := next_stepped m files
  generalize m.next files = after at hstepped
  cases hstepped with
  | nothing hnot => exact absurd hsucceeds hnot
  | carried hm' hfetch' ho hsettle =>
    cases hm.symm.trans hm'
    cases hfetch.symm.trans hfetch'
    rw [hnatives, houtcome, Outcome.native, Streams.emit_of_accept haccept] at ho
    rw [← ho]
    rfl

/-- A call that could print but fails does not exist if the streams refuse nothing. -/
theorem prints_of_frame {f : Frame} {below : List Frame} {inst : Instruction Nat} (hnatives : m.natives = .standard)
    (haccept : m.streams.Accept) (hm : m.calls.frames = f :: below) (hfetch : f.fetch? = .ok inst)
    (h : f.Prints inst handle text) : m.Prints files handle text := by
  obtain ⟨g, houtcome⟩ := outcome_of_prints files f.pc (Frame.prints_moved.2 h) m.loader m.streams
  rw [← hnatives, Outcome.native, Streams.emit_of_accept haccept] at houtcome
  exact ⟨succeeds_of_stay hm hfetch houtcome, f, below, inst, hm, hfetch, h⟩

/-- Whatever does not print successfully writes nothing. -/
theorem streams_next_of_silent (hnatives : m.natives = .standard) (haccept : m.streams.Accept)
    (h : ∀ handle text, ¬m.Prints files handle text) : (m.next files).streams = m.streams := by
  have hstepped := next_stepped m files
  generalize m.next files = after at hstepped
  cases hstepped with
  | nothing => rfl
  | @carried f _ inst _ _ _ _ _ hm hfetch ho =>
    -- as nothing is refused, an instruction that could print would have succeeded
    have hsilent : ∀ handle text, ¬Frame.Prints { f with pc := f.pc + 1 } inst handle text := fun handle text hprints =>
      h handle text (prints_of_frame hnatives haccept hm hfetch (Frame.prints_moved.1 hprints))
    rw [← ho, hnatives]
    exact streams_outcome files f.pc hsilent m.loader m.streams

theorem Prints.unique {handle' : StreamHandle} {text' : String} (h : m.Prints files handle text)
    (h' : m.Prints files handle' text') : handle' = handle ∧ text' = text := by
  obtain ⟨-, f, below, inst, hm, hfetch, hprints⟩ := h
  obtain ⟨-, f', below', inst', hm', hfetch', hprints'⟩ := h'
  cases hm.symm.trans hm'
  cases hfetch.symm.trans hfetch'
  exact hprints.unique hprints'

/-- Each run has a transcript. -/
theorem exists_transcript (m : Machine) (run : List FileSystem) : ∃ texts, m.Transcript run texts := by
  induction run generalizing m with
  | nil => exact ⟨[], .nil m⟩
  | cons now later ih =>
    obtain ⟨texts, h⟩ := ih (m.next now)
    by_cases hprints : ∃ handle text, m.Prints now handle text
    · obtain ⟨handle, text, hprints⟩ := hprints
      exact ⟨_, .print hprints h⟩
    · exact ⟨texts, .silent (fun handle text hp => hprints ⟨handle, text, hp⟩) h⟩

theorem Transcript.unique {texts' : List (StreamHandle × String)} (h : m.Transcript run texts)
    (h' : m.Transcript run texts') : texts' = texts := by
  induction h generalizing texts' with
  | nil m =>
    cases h'
    rfl
  | print hprints _ ih =>
    cases h' with
    | print hprints' h' =>
      obtain ⟨rfl, rfl⟩ := hprints.unique hprints'
      rw [ih h']
    | silent hsilent _ => exact absurd hprints (hsilent _ _)
  | silent hsilent _ ih =>
    cases h' with
    | print hprints' _ => exact absurd hprints' (hsilent _ _)
    | silent _ h' => exact ih h'

/-- **A run** writes its transcript. -/
theorem Transcript.written (h : m.Transcript run texts) (hnatives : m.natives = .standard)
    (haccept : m.streams.Accept) (handle : StreamHandle) :
    ((m.nexts run).streams.get handle).written = (m.streams.get handle).written ++ textFor handle texts := by
  induction h with
  | nil m => exact (String.append_empty).symm
  | @print m now later other text texts hprints _ ih =>
    have hnext := streams_next_of_prints hnatives haccept hprints
    have hlater := ih ((natives_next m now).trans hnatives) (hnext ▸ haccept.plus _)
    rw [hnext, Streams.written_plus] at hlater
    rw [textFor_cons, ← String.append_assoc]
    exact hlater
  | @silent m now later texts hsilent _ ih =>
    have hnext := streams_next_of_silent hnatives haccept hsilent
    have hlater := ih ((natives_next m now).trans hnatives) (hnext ▸ haccept)
    rw [hnext] at hlater
    exact hlater

/-- **What a program prints.** From its start, and also beyond errors, each run of steps has one transcript,
and this is what it writes. `start` takes steps up to the first that does not succeed, and so it writes what
was printed before. -/
theorem output_transcribed (hnatives : m.natives = .standard) (haccept : m.streams.Accept) (files : FileSystem)
    (className : String) :
    (∀ run, ∃ texts, (m.leftBy (prepare files className)).Transcript run texts ∧
        (∀ other, (m.leftBy (prepare files className)).Transcript run other → other = texts) ∧
        ∀ handle, ((m.begun files className run).streams.get handle).written =
          (m.streams.get handle).written ++ textFor handle texts) ∧
      ∀ limit, ∃ k log texts,
        m.leftBy (start files className limit) = { m.begun files className (List.replicate k files) with log } ∧
        (∀ i, i + 1 < k → (m.begun files className (List.replicate i files)).Succeeds files) ∧
        (m.leftBy (prepare files className)).Transcript (List.replicate k files) texts ∧
        ∀ handle, ((m.leftBy (start files className limit)).streams.get handle).written =
          (m.streams.get handle).written ++ textFor handle texts := by
  obtain ⟨hsame, hstreams, -⟩ := leftBy_prepare files className m
  have hwritten : ∀ run texts, (m.leftBy (prepare files className)).Transcript run texts →
      ∀ handle, ((m.begun files className run).streams.get handle).written =
        (m.streams.get handle).written ++ textFor handle texts := by
    intro run texts htexts handle
    rw [← hstreams]
    exact htexts.written (hsame.trans hnatives) (hstreams ▸ haccept) handle
  refine ⟨fun run => ?_, fun limit => ?_⟩
  · obtain ⟨texts, htexts⟩ := exists_transcript (m.leftBy (prepare files className)) run
    exact ⟨texts, htexts, fun other hother => htexts.unique hother, hwritten run texts htexts⟩
  · obtain ⟨k, log, hstart, hsucceeds⟩ := leftBy_start files className m limit
    obtain ⟨texts, htexts⟩ := exists_transcript (m.leftBy (prepare files className)) (List.replicate k files)
    refine ⟨k, log, texts, hstart, hsucceeds, htexts, fun handle => ?_⟩
    rw [hstart]
    exact hwritten _ texts htexts handle

end

end Machine

/-! ### A program that fails after it has printed -/

namespace Sample

/-- The file of a class `P` whose `main` prints 5, executes `monitorenter` and prints 5 again. -/
def haltingFile : Bytes := [
  0xca, 0xfe, 0xba, 0xbe, 0x00, 0x00, 0x00, 0x34,
  -- the constants: the names, the class 2, the field 11 and the method 17
  0x00, 0x12, 0x01, 0x00, 0x01, 0x50, 0x07, 0x00, 0x01, 0x01, 0x00, 0x04, 0x6d, 0x61, 0x69, 0x6e,
  0x01, 0x00, 0x16, 0x28, 0x5b, 0x4c, 0x6a, 0x61, 0x76, 0x61, 0x2f, 0x6c, 0x61, 0x6e, 0x67, 0x2f,
  0x53, 0x74, 0x72, 0x69, 0x6e, 0x67, 0x3b, 0x29, 0x56, 0x01, 0x00, 0x04, 0x43, 0x6f, 0x64, 0x65,
  0x01, 0x00, 0x10, 0x6a, 0x61, 0x76, 0x61, 0x2f, 0x6c, 0x61, 0x6e, 0x67, 0x2f, 0x53, 0x79, 0x73,
  0x74, 0x65, 0x6d, 0x07, 0x00, 0x06, 0x01, 0x00, 0x03, 0x6f, 0x75, 0x74, 0x01, 0x00, 0x15, 0x4c,
  0x6a, 0x61, 0x76, 0x61, 0x2f, 0x69, 0x6f, 0x2f, 0x50, 0x72, 0x69, 0x6e, 0x74, 0x53, 0x74, 0x72,
  0x65, 0x61, 0x6d, 0x3b, 0x0c, 0x00, 0x08, 0x00, 0x09, 0x09, 0x00, 0x07, 0x00, 0x0a, 0x01, 0x00,
  0x13, 0x6a, 0x61, 0x76, 0x61, 0x2f, 0x69, 0x6f, 0x2f, 0x50, 0x72, 0x69, 0x6e, 0x74, 0x53, 0x74,
  0x72, 0x65, 0x61, 0x6d, 0x07, 0x00, 0x0c, 0x01, 0x00, 0x07, 0x70, 0x72, 0x69, 0x6e, 0x74, 0x6c,
  0x6e, 0x01, 0x00, 0x04, 0x28, 0x49, 0x29, 0x56, 0x0c, 0x00, 0x0e, 0x00, 0x0f, 0x0a, 0x00, 0x0d,
  0x00, 0x10,
  -- this class, without a superclass
  0x00, 0x21, 0x00, 0x02, 0x00, 0x00, 0x00, 0x00, 0x00, 0x00, 0x00, 0x01,
  -- `main`
  0x00, 0x09, 0x00, 0x03, 0x00, 0x04, 0x00, 0x01, 0x00, 0x05, 0x00, 0x00, 0x00, 0x1c, 0x00, 0x02,
  0x00, 0x01, 0x00, 0x00, 0x00, 0x10, 0xb2, 0x00, 0x0b, 0x08, 0xb6, 0x00, 0x11, 0xc2, 0xb2, 0x00,
  0x0b, 0x08, 0xb6, 0x00, 0x11, 0xb1, 0x00, 0x00, 0x00, 0x00,
  0x00, 0x00]

/-- There is no other file. -/
def haltingFiles : FileSystem := .ofRecord [("r/P.class", .ok haltingFile)]

end Sample

/-- The first 5 is printed, the second is not. -/
theorem output_transcribed_halting :
    Sample.idle.natives = .standard ∧ Sample.idle.streams.Accept ∧
      Sample.idle.answer (Machine.start Sample.haltingFiles "P" 10) =
        .error (.failed (.unsupportedOpcode (.unknown 0xc2) "P" "main" 3)) ∧
      ∃ k texts, (Sample.idle.leftBy (Machine.prepare Sample.haltingFiles "P")).Transcript
          (List.replicate k Sample.haltingFiles) texts ∧
        textFor .stdout texts = "5\n" ∧ textFor .stderr texts = "" := by
  have haccept : Sample.idle.streams.Accept := by
    intro handle
    cases handle <;> exact ⟨rfl, rfl⟩
  obtain ⟨-, hstart⟩ := Machine.output_transcribed (m := Sample.idle) rfl haccept Sample.haltingFiles "P"
  obtain ⟨k, log, texts, -, -, htexts, hwritten⟩ := hstart 10
  have hout : (Sample.idle.leftBy (Machine.start Sample.haltingFiles "P" 10)).streams =
      { out := { written := "5\n" } } := by decide +kernel
  have hstdout := hwritten .stdout
  have hstderr := hwritten .stderr
  rw [hout] at hstdout hstderr
  refine ⟨rfl, haccept, by decide +kernel, k, texts, htexts, ?_, ?_⟩
  · exact (String.empty_append.symm.trans hstdout.symm)
  · exact (String.empty_append.symm.trans hstderr.symm)

end Jvm
