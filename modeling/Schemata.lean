import Schemata.Diagnostic
import Schemata.Error
import Schemata.Sharing
import Schemata.Ty.Basic
import Schemata.Ty.Exact
import Schemata.Ty.Contents
import Schemata.Ty.Contents.Lemmas
import Schemata.Ty.Equality
import Schemata.Ty.Hash
import Schemata.Ty.Signature
import Schemata.Ty.Build
import Schemata.Definition
import Schemata.Subtype
import Schemata.Number.Convert
import Schemata.Number.Text
import Schemata.Value.Equality
import Schemata.Value.Text
import Schemata.Value.Natural
import Schemata.Membership
import Schemata.Catalog.Schema
import Schemata.Catalog.Registry
import Schemata.Session.Basic
import Schemata.Proofs.Parts
import Schemata.Proofs.Equality
import Schemata.Proofs.Membership
import Schemata.Proofs.Guard
import Schemata.Proofs.Building
import Schemata.Proofs.EvaluationRules
import Schemata.Proofs.Evaluation
import Schemata.Proofs.Reachability
import Schemata.Proofs.Subtyping
import Schemata.Proofs.Soundness
import Schemata.Proofs.Inhabitation
import Schemata.Proofs.SearchBound
import Schemata.Proofs.UnionLaws
import Schemata.Proofs.Moments
import Schemata.Proofs.SelfReference
import Schemata.Proofs.Equivalence
import Schemata.Proofs.Hashing
import Schemata.Proofs.Interchange
import Schemata.Proofs.Derivation
import Schemata.Proofs.SearchTermination
import Schemata.Proofs.Transitivity
import Schemata.Proofs.Rounding
import Schemata.Proofs.Quantity
import Schemata.Proofs.Lossless
import Schemata.Proofs.Nearest
import Schemata.Proofs.CorrectRounding
import Schemata.Proofs.Expansion
import Schemata.Proofs.ThroughDecimal
import Schemata.Proofs.UnconditionalCycles
import Schemata.Proofs.Refusal
import Schemata.Proofs.NewIdentities
import Schemata.Proofs.Lifetime
import Schemata.Proofs.Mentioning
import Schemata.Proofs.LeastUpperBound
import Schemata.Proofs.Twins
import Schemata.Proofs.WidthSubtyping
import Schemata.Proofs.Templates
import Schemata.Proofs.Wrapping
import Schemata.Proofs.DecimalTypes
import Schemata.Proofs.ValueParts
import Schemata.Proofs.NaturalTypes
import Schemata.Proofs.Unpacking
import Schemata.Proofs.ValueEquality
import Schemata.Proofs.MapLookup
import Schemata.Proofs.OmittedFields
import Schemata.Proofs.Aggregates
import Schemata.Proofs.RegistryRuns
import Schemata.Proofs.PlainConstructors
