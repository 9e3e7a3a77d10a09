import LittleLisp.Host
import LittleLisp.Main
import LittleLisp.Proofs.Reader.Canonical
import LittleLisp.Proofs.Reader.RoundTrip
import LittleLisp.Proofs.Semantics.Agreement
import LittleLisp.Proofs.Session.CodeAndData
import LittleLisp.Proofs.Session.Effects
import LittleLisp.Proofs.Store.Sharing
import LittleLisp.Service
import LittleLisp.Store.Description
import LittleLisp.Proofs.Evaluator.Bindings
import LittleLisp.Proofs.Session.AppendOnly
import LittleLisp.Proofs.Renaming.Basic
import LittleLisp.Proofs.Renaming.Reading
import LittleLisp.Proofs.Renaming.Writing
import LittleLisp.Proofs.Evaluator.Capture
import LittleLisp.Proofs.Renaming.Evaluator
import LittleLisp.Proofs.Renaming.Session
import LittleLisp.Proofs.Renaming.Reach
import LittleLisp.Proofs.Session.Isolation
import LittleLisp.Proofs.Session.LambdaScope
import LittleLisp.Proofs.Store.Built
import LittleLisp.Proofs.Reader.Faults
import LittleLisp.Proofs.Store.Printing
import LittleLisp.Proofs.Session.Safety
import LittleLisp.Proofs.Session.Printing
import LittleLisp.Proofs.Session.Transcript
import LittleLisp.Proofs.Renaming.Identity
import LittleLisp.Proofs.Session.LexicalScope
import LittleLisp.Proofs.Reader.Joining
import LittleLisp.Proofs.Evaluator.Tracing
import LittleLisp.Proofs.Renaming.Composition
import LittleLisp.Proofs.Session.Loading
import LittleLisp.Proofs.Session.Sequence
import LittleLisp.Proofs.Session.Chains
import LittleLisp.Proofs.Session.Stretches
import LittleLisp.Proofs.Session.Disciplines
import LittleLisp.Proofs.Store.Since
import LittleLisp.Proofs.Session.ScopeGraph
import LittleLisp.Proofs.Text.Utf8
import LittleLisp.Proofs.Text.Integer
import LittleLisp.Proofs.Json.Grammar
import LittleLisp.Proofs.Json.Nesting
import LittleLisp.Proofs.Json.Reading
import LittleLisp.Proofs.Json.Writing
import LittleLisp.Proofs.Service.Posting
import LittleLisp.Proofs.Reader.PlainText
import LittleLisp.Proofs.Session.PlainText
import LittleLisp.Proofs.Service.Transparency
import LittleLisp.Proofs.Session.Visibility
import LittleLisp.Proofs.Store.Equality
import LittleLisp.Proofs.Store.Structure
import LittleLisp.Proofs.Session.Tracing
import LittleLisp.Proofs.Reader.Layout
import LittleLisp.Proofs.Reader.Descent
import LittleLisp.Proofs.Reader.Conservation
import LittleLisp.Proofs.Evaluator.Parts
import LittleLisp.Proofs.Evaluator.Failure
import LittleLisp.Proofs.Session.Nesting
import LittleLisp.Proofs.Store.Lookup
import LittleLisp.Proofs.Session.Frames
import LittleLisp.Proofs.Session.Describing
import LittleLisp.Proofs.Reader.Classification
