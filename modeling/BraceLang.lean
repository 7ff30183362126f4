import BraceLang.Main
import BraceLang.Text.Fingerprint
import BraceLang.Proofs.Store.Readings
import BraceLang.Proofs.Store.Flat
import BraceLang.Proofs.Store.Refinement
import BraceLang.Proofs.Store.Sequences
import BraceLang.Proofs.Store.Staleness
import BraceLang.Proofs.Evaluation.Runs
import BraceLang.Proofs.Evaluation.Extent
import BraceLang.Proofs.Evaluation.Taking
import BraceLang.Proofs.Evaluation.Skipping
import BraceLang.Proofs.Evaluation.Slots
import BraceLang.Proofs.Evaluation.Deferral
import BraceLang.Proofs.Evaluation.Interrupts
import BraceLang.Proofs.Evaluation.Depth
import BraceLang.Proofs.Plain.Core
import BraceLang.Proofs.Plain.Evaluation
import BraceLang.Proofs.Plain.Compositional
import BraceLang.Proofs.Plain.Slots
import BraceLang.Proofs.Plain.Bodies
import BraceLang.Proofs.Plain.Limits
import BraceLang.Proofs.Plain.Due
import BraceLang.Proofs.Plain.Sealing
import BraceLang.Proofs.Plain.Cells
import BraceLang.Proofs.Plain.Conditionals
import BraceLang.Proofs.Denotation.Basic
import BraceLang.Proofs.Denotation.Rendering
import BraceLang.Proofs.Denotation.Simulation
import BraceLang.Proofs.Denotation.Splitting
import BraceLang.Proofs.Denotation.Operations
import BraceLang.Proofs.Denotation.Calls
import BraceLang.Proofs.Denotation.Terms
import BraceLang.Proofs.Denotation.Skipping
import BraceLang.Proofs.Denotation.Scanning
import BraceLang.Proofs.Denotation.Interpreter
import BraceLang.Proofs.Reference.Evaluation
import BraceLang.Proofs.Reference.Lowering
import BraceLang.Proofs.Reference.Calls
import BraceLang.Proofs.Reference.Refinement
import BraceLang.Proofs.Interpreter.Independence
import BraceLang.Proofs.Interpreter.Soundness
import BraceLang.Proofs.Interpreter.Heap
import BraceLang.Proofs.Interpreter.Staleness
import BraceLang.Proofs.Interpreter.Limits
import BraceLang.Proofs.Denotation.Extents
import BraceLang.Proofs.Denotation.Conditionals
import BraceLang.Proofs.Interpreter.Writing
import BraceLang.Proofs.Evaluation.Determinacy
import BraceLang.Proofs.Denotation.Rescanning
import BraceLang.Proofs.Plain.Invariants
import BraceLang.Proofs.Plain.Literals
import BraceLang.Proofs.Interpreter.Reprinting
import BraceLang.Proofs.Interpreter.Pushing
import BraceLang.Proofs.Decimal.Packing
import BraceLang.Proofs.Decimal.Arithmetic
import BraceLang.Proofs.Decimal.Printing
import BraceLang.Proofs.Token.Decomposition
import BraceLang.Proofs.Session.Execution
import BraceLang.Proofs.Session.Lines
import BraceLang.Proofs.Session.Compositional
import BraceLang.Proofs.Session.Inclusion
import BraceLang.Proofs.Session.Conversation
import BraceLang.Proofs.Session.Assembly
import BraceLang.Proofs.Session.Comments
import BraceLang.Proofs.Evaluation.Capturing
import BraceLang.Proofs.Reference.Scoping
import BraceLang.Proofs.Renaming.Evaluation
import BraceLang.Proofs.Store.Environments
import BraceLang.Proofs.Token.Lines
import BraceLang.Proofs.Denotation.Capacity
import BraceLang.Proofs.Interpreter.Unambiguous
import BraceLang.Proofs.Text.Fingerprint
import BraceLang.Proofs.Text.Canonical
import BraceLang.Proofs.Session.Limited
import BraceLang.Proofs.Evaluation.Skippable
