import YulAbi.Field.Document
import YulAbi.Main
import YulAbi.Proofs.Arena.Encoded
import YulAbi.Proofs.Arena.Refusal
import YulAbi.Proofs.Arena.Segments
import YulAbi.Proofs.Arena.Strategy
import YulAbi.Proofs.CodeUnit
import YulAbi.Proofs.Codec.Constants
import YulAbi.Proofs.Codec.Decoding.Accepted
import YulAbi.Proofs.Codec.Decoding.Accounted
import YulAbi.Proofs.Codec.Decoding.Bulk
import YulAbi.Proofs.Codec.Decoding.Restored
import YulAbi.Proofs.Codec.Names
import YulAbi.Proofs.Codec.Occurrences
import YulAbi.Proofs.Codec.Options
import YulAbi.Proofs.Codec.ParameterList.Agreement
import YulAbi.Proofs.Codec.Scoping.Session
import YulAbi.Proofs.Command.Reflect
import YulAbi.Proofs.Description.ReadBack
import YulAbi.Proofs.Field.Evaluated
import YulAbi.Proofs.Interface.Accepted
import YulAbi.Proofs.Interface.Annotation
import YulAbi.Proofs.Machine.ByteMap
import YulAbi.Proofs.Naming.Owners
import YulAbi.Proofs.Naming.Steps
import YulAbi.Proofs.Packing.AccessorNames
import YulAbi.Proofs.Packing.Density
import YulAbi.Proofs.Packing.Flat
import YulAbi.Proofs.Value.ReadBack
import YulAbi.Proofs.Yul.Truncation
import YulAbi.Report.Code
import YulAbi.Report.Fields
import YulAbi.Report.Geometry
import YulAbi.Report.Inputs
import YulAbi.Report.Runs
import YulAbi.Yul.Document
