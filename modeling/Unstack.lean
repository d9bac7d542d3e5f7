import Unstack.Body
import Unstack.Main
import Unstack.Walk.Script
import Unstack.Proofs.Arena.Fields
import Unstack.Proofs.Arena.WellFormed
import Unstack.Proofs.Arena.Cutting
import Unstack.Proofs.Arena.Shows
import Unstack.Proofs.Arena.Work
import Unstack.Proofs.Rewrite
import Unstack.Proofs.Arena.Edits
import Unstack.Proofs.Arena.Marks
import Unstack.Proofs.Rules
import Unstack.Proofs.Refinement
import Unstack.Proofs.Arena.Building
import Unstack.Proofs.NormalForm
import Unstack.Proofs.Meaning
import Unstack.Proofs.Histories
import Unstack.Proofs.Graph
import Unstack.Proofs.Pipeline
import Unstack.Proofs.Undoing
import Unstack.Proofs.Dependencies
import Unstack.Proofs.Reading.Grammar
import Unstack.Proofs.Reading.Symbols
import Unstack.Proofs.Arena.Numbered
import Unstack.Proofs.Reading.Machine
import Unstack.Proofs.Reading.Errors
import Unstack.Proofs.Number.Digits
import Unstack.Proofs.Number.Rounding
import Unstack.Proofs.Number.Layout
import Unstack.Proofs.Printing
import Unstack.Proofs.Json.Grammar
import Unstack.Proofs.Json.Printing
import Unstack.Proofs.Renderings
import Unstack.Proofs.Rereading
import Unstack.Proofs.TypeNames
import Unstack.Proofs.Signatures
import Unstack.Proofs.Command
import Unstack.Proofs.Body.Rendering
import Unstack.Proofs.Remains
import Unstack.Proofs.Body.Normal
import Unstack.Proofs.Survival
import Unstack.Proofs.Stopping
import Unstack.Proofs.Walk.Order
import Unstack.Proofs.Offenders
import Unstack.Proofs.Frame
import Unstack.Proofs.Composition
import Unstack.Proofs.Splicing
import Unstack.Proofs.Adoption
import Unstack.Proofs.Coercions
