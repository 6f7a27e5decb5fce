import ObjectStream.Sample
import ObjectStream.Item.Source
import ObjectStream.Writer.Operation
import ObjectStream.Reader.Operation
import ObjectStream.Proofs.BuiltIn
import ObjectStream.Proofs.Framing
import ObjectStream.Proofs.Walk
import ObjectStream.Proofs.Rollback
import ObjectStream.Proofs.Bounded
import ObjectStream.Proofs.Derived
import ObjectStream.Proofs.Lenient
import ObjectStream.Proofs.Unforged
import ObjectStream.Proofs.Unshared
import ObjectStream.Proofs.Transparent
import ObjectStream.Proofs.Registering
import ObjectStream.Proofs.WirePlan
import ObjectStream.Proofs.Holding
import ObjectStream.Proofs.Shortest
import ObjectStream.Proofs.Integer
import ObjectStream.Proofs.Grammar
import ObjectStream.Proofs.Halting
import ObjectStream.Proofs.Reset
import ObjectStream.Proofs.Unmoved
import ObjectStream.Proofs.Discriminant
import ObjectStream.Proofs.AnyOrder
import ObjectStream.Proofs.Flatten
import ObjectStream.Proofs.Whole
import ObjectStream.Proofs.Collecting
import ObjectStream.Proofs.Reference
import ObjectStream.Proofs.Honoured
import ObjectStream.Proofs.Hooks
import ObjectStream.Proofs.Dump
import ObjectStream.Proofs.Announced
import ObjectStream.Proofs.Ticks
import ObjectStream.Proofs.Categories
