import AssayRules.Expr
import AssayRules.Marking
import AssayRules.Session
import AssayRules.Validation
import AssayRules.Proofs.Alike
import AssayRules.Proofs.Arrangement
import AssayRules.Proofs.Blending
import AssayRules.Proofs.CellNumber
import AssayRules.Proofs.Characters
import AssayRules.Proofs.Checking
import AssayRules.Proofs.Color
import AssayRules.Proofs.Coverage
import AssayRules.Proofs.Cursor
import AssayRules.Proofs.Cutting
import AssayRules.Proofs.Double
import AssayRules.Proofs.Evaluation
import AssayRules.Proofs.Figure
import AssayRules.Proofs.Folding
import AssayRules.Proofs.Formula
import AssayRules.Proofs.Gathering
import AssayRules.Proofs.Interference
import AssayRules.Proofs.Interleaving
import AssayRules.Proofs.Isolation
import AssayRules.Proofs.Legibility
import AssayRules.Proofs.Lexeme
import AssayRules.Proofs.Lexing
import AssayRules.Proofs.Listing
import AssayRules.Proofs.Lookup
import AssayRules.Proofs.Marking
import AssayRules.Proofs.Names
import AssayRules.Proofs.Numeric
import AssayRules.Proofs.Occurrences
import AssayRules.Proofs.Places
import AssayRules.Proofs.Precedence
import AssayRules.Proofs.Precision
import AssayRules.Proofs.Preparation
import AssayRules.Proofs.Readings
import AssayRules.Proofs.Rearrangement
import AssayRules.Proofs.Recording
import AssayRules.Proofs.References
import AssayRules.Proofs.Rendering
import AssayRules.Proofs.Reordering
import AssayRules.Proofs.Report
import AssayRules.Proofs.Rounding
import AssayRules.Proofs.Rows
import AssayRules.Proofs.Runs
import AssayRules.Proofs.Scanning
import AssayRules.Proofs.Schedule
import AssayRules.Proofs.Session
import AssayRules.Proofs.Settled
import AssayRules.Proofs.Shards
import AssayRules.Proofs.Stripping
import AssayRules.Proofs.Substitution
import AssayRules.Proofs.Sufficiency
import AssayRules.Proofs.Target
import AssayRules.Proofs.Torn
import AssayRules.Proofs.Validation
