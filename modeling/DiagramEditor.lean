import DiagramEditor.Command.Folder
import DiagramEditor.Main
import DiagramEditor.Service.Request
import DiagramEditor.Proofs.Index.Topology
import DiagramEditor.Proofs.Clipboard
import DiagramEditor.Proofs.Keyed.Runs
import DiagramEditor.Proofs.Operation.Cut
import DiagramEditor.Proofs.Operation.CutAndPaste
import DiagramEditor.Proofs.Operation.Refusal
import DiagramEditor.Proofs.Operation.Paste
import DiagramEditor.Proofs.Session.LabelEdit
import DiagramEditor.Proofs.Visual.Environment
import DiagramEditor.Proofs.Visual.Ids
import DiagramEditor.Proofs.Visual.Lookup
import DiagramEditor.Proofs.Json.Lexing
import DiagramEditor.Proofs.Json.Rereading
import DiagramEditor.Proofs.Model.Rereading
import DiagramEditor.Proofs.Service.Descent
import DiagramEditor.Proofs.Service.Guarded
import DiagramEditor.Proofs.Service.Languages
import DiagramEditor.Proofs.Service.Refusal
import DiagramEditor.Proofs.Service.Runs
import DiagramEditor.Proofs.Service.Saving
import DiagramEditor.Proofs.Visual.Failing
import DiagramEditor.Proofs.Diagram.Effects
import DiagramEditor.Proofs.Index.Recency
import DiagramEditor.Proofs.Diagram.Recency
import DiagramEditor.Proofs.Operation.Frame
import DiagramEditor.Proofs.Wire.Records
import DiagramEditor.Proofs.Language.Rereading
import DiagramEditor.Proofs.Store.Agreement
import DiagramEditor.Proofs.Path.Laws
import DiagramEditor.Proofs.Operation.Deletion
import DiagramEditor.Proofs.Condition
import DiagramEditor.Proofs.Model.Loading
import DiagramEditor.Proofs.Operation.Validation
import DiagramEditor.Proofs.Language.Numbering
import DiagramEditor.Proofs.Operation.Counting
import DiagramEditor.Proofs.Operation.Commuting
import DiagramEditor.Proofs.Template.Grammar
import DiagramEditor.Proofs.Clipboard.Rereading
import DiagramEditor.Proofs.Store.Languages
import DiagramEditor.Proofs.Operation.Canonical
import DiagramEditor.Proofs.Visual.Rereading
import DiagramEditor.Proofs.LanguageCache.Overlapping
import DiagramEditor.Proofs.Model.Issues
