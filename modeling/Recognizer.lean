import Recognizer.Source.Position
import Recognizer.Token.Cursor
import Recognizer.Scope
import Recognizer.Preferences
import Recognizer.Grammar.Production
import Recognizer.Limits
import Recognizer.Log.Code
import Recognizer.Document.Json
import Recognizer.Log.Session
import Recognizer.Tokenization
import Recognizer.Recognition
import Recognizer.Document.Toml
import Recognizer.Configuration
import Recognizer.Limits.Build
import Recognizer.Proofs.Ebnf
import Recognizer.Proofs.Runs
import Recognizer.Proofs.Program
import Recognizer.Proofs.Soundness
import Recognizer.Proofs.Completion
import Recognizer.Proofs.Conditional
import Recognizer.Proofs.DeclarationMending
import Recognizer.Proofs.Rescan
import Recognizer.Proofs.Layout
import Recognizer.Proofs.Scoping
import Recognizer.Proofs.Undoing
import Recognizer.Proofs.Truncation
import Recognizer.Proofs.Initialization
import Recognizer.Proofs.Outcome
import Recognizer.Proofs.Leniency
import Recognizer.Proofs.Concatenation
import Recognizer.Proofs.Jump
import Recognizer.Proofs.Course
import Recognizer.Proofs.Guard
import Recognizer.Proofs.Headroom
import Recognizer.Proofs.Filtering
import Recognizer.Proofs.Segmentation
import Recognizer.Proofs.Report
import Recognizer.Proofs.Machine
import Recognizer.Proofs.Progress
import Recognizer.Proofs.CheckedScan
import Recognizer.Proofs.CheckedParser
import Recognizer.Proofs.CheckedRecognition
import Recognizer.Proofs.Checkpoints
import Recognizer.Proofs.Resumption
import Recognizer.Proofs.Foreign
import Recognizer.Proofs.Members
import Recognizer.Proofs.TemplateHeader
import Recognizer.Proofs.Newlines
import Recognizer.Proofs.Spacing
import Recognizer.Proofs.Nesting
import Recognizer.Proofs.Thresholds
import Recognizer.Proofs.Counting
import Recognizer.Proofs.Positions
import Recognizer.Proofs.Visibility
import Recognizer.Proofs.Retention
import Recognizer.Proofs.Installation
import Recognizer.Proofs.Clipping
import Recognizer.Proofs.JsonLines
