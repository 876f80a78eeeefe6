import Jvm.Main
import Jvm.Proofs.Frame
import Jvm.Proofs.Machine.Effect
import Jvm.Proofs.Machine.CallIsolation
import Jvm.Proofs.Code.Format
import Jvm.Proofs.Code.Tiling
import Jvm.Proofs.Loader.Decoded
import Jvm.Proofs.Machine.ByteAddressed
import Jvm.Proofs.ClassFile.RoundTrip
import Jvm.Proofs.Code.Operands
import Jvm.Proofs.Frame.Failure
import Jvm.Proofs.Loader.Cache
import Jvm.Proofs.Loader.Superclasses
import Jvm.Proofs.Machine.Cases
import Jvm.Proofs.Machine.Failure
import Jvm.Proofs.Machine.Reachable
import Jvm.Proofs.Machine.Diagnosis
import Jvm.Proofs.Loader.LookUps
import Jvm.Proofs.Machine.MoreRoots
import Jvm.Proofs.Loader.Faithful
import Jvm.Proofs.Machine.Surroundings
import Jvm.Proofs.Machine.Transparency
import Jvm.Proofs.Frame.Locality
import Jvm.Proofs.Machine.Locality
import Jvm.Proofs.Loader.Lineage
import Jvm.Proofs.Frame.Values
import Jvm.Proofs.Machine.Program
import Jvm.Proofs.Print
import Jvm.Proofs.Machine.Printing
import Jvm.Proofs.Machine.Handles
import Jvm.Proofs.Descriptor
import Jvm.Proofs.ClassFile.Delimited
import Jvm.Proofs.ClassFile.Extent
import Jvm.Proofs.Loader.Resolution
import Jvm.Proofs.Machine.StaticCall
import Jvm.Proofs.Native
import Jvm.Proofs.Machine.NativeCall
import Jvm.Proofs.Machine.Indifference
import Jvm.Proofs.Path
import Jvm.Proofs.FileSystem.Tree
import Jvm.Proofs.Text.Surrogates
import Jvm.Proofs.Code.Faults
import Jvm.Proofs.Class
import Jvm.Proofs.Code.Concatenation
import Jvm.Proofs.Code.Encodings
import Jvm.Proofs.Machine.WithinFrame
import Jvm.Proofs.Machine.Arithmetic
import Jvm.Proofs.Machine.Constants
import Jvm.Proofs.Frame.InStep
import Jvm.Proofs.Loader.Recoded
import Jvm.Proofs.Machine.Recoded
import Jvm.Proofs.ClassFile.Slots
import Jvm.Proofs.ConstantPool.Members
import Jvm.Proofs.Machine.Steps
import Jvm.Proofs.Machine.Factorial
import Jvm.Proofs.Machine.Recursion
import Jvm.Proofs.Machine.Summation
