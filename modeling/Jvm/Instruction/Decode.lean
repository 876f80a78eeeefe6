import Jvm.Instruction.Layout

/-!
# Decoding a code array

`scan` cuts a code array into instructions, one after the other; `decode` then turns every branch
displacement into the index of the instruction it reaches. Both stop at the first fault, and a
truncated instruction anywhere comes before a branch that reaches no instruction.
-/

namespace Jvm

/-- Why a code array does not decode. -/
inductive DecodeError where
  /-- The operands of the instruction at `offset` run past the end. -/
  | truncated (offset : Nat)
  /-- The branch at `offset` reaches byte `target`, where no instruction starts. -/
  | invalidBranchTarget (offset : Nat) (target : Int)
deriving DecidableEq, Repr

namespace DecodeError

/-- The error as text. -/
def message : DecodeError → String
  | .truncated offset => "truncated instruction at offset " ++ toString offset
  | .invalidBranchTarget offset target =>
    "branch at offset " ++ toString offset ++ " targets invalid offset " ++ toString target

end DecodeError

namespace Code

/-- The instructions of `code`, which starts at `offset`. An undefined opcode byte is kept as the
last instruction, since nothing tells where the next one would start. -/
def scan (offset : Nat) (code : Bytes) : Except DecodeError (List (Instruction Int)) :=
  match code with
  | [] => .ok []
  | byte :: rest =>
    match Encoded.read? offset byte rest with
    | none => .error (.truncated offset)
    | some e =>
      if Layout.ofByte byte = .undefined then .ok [⟨offset, e.opcode, e.operand⟩]
      else
        match scan (offset + e.size) (rest.drop e.tail) with
        | .error fault => .error fault
        | .ok later => .ok (⟨offset, e.opcode, e.operand⟩ :: later)
termination_by code.length
decreasing_by simp only [List.length_drop, List.length_cons]; omega

/-- The index of the instruction that starts at byte `target`. -/
def indexAt? (code : List (Instruction Int)) (target : Int) : Option Nat :=
  code.findIdx? fun inst => (inst.offset : Int) == target

/-- Replaces the displacement of a branch by an index into `code`. -/
def resolve (code : List (Instruction Int)) (inst : Instruction Int) :
    Except DecodeError (Instruction Nat) :=
  let aim (displacement : Int) : Except DecodeError Nat :=
    let target := inst.offset + displacement
    match indexAt? code target with
    | some index => .ok index
    | none => .error (.invalidBranchTarget inst.offset target)
  (inst.operand.mapTarget aim).map fun operand => ⟨inst.offset, inst.opcode, operand⟩

/-- Decodes a whole code array. -/
def decode (bytes : Bytes) : Except DecodeError Code := do
  let code ← scan 0 bytes
  let resolved ← code.mapM (resolve code)
  return resolved.toArray

end Code

end Jvm
