import Lox.Main
import Lox.Proofs.Identities.Readers
import Lox.Proofs.Joining.Sessions
import Lox.Proofs.Joining.Texts
import Lox.Proofs.Joining.Units
import Lox.Proofs.Likeness.Correspondence
import Lox.Proofs.Likeness.Endings
import Lox.Proofs.Likeness.Machines
import Lox.Proofs.Likeness.Numbering
import Lox.Proofs.Likeness.Reading
import Lox.Proofs.Likeness.Resolver
import Lox.Proofs.Likeness.Respelling
import Lox.Proofs.Likeness.Runs
import Lox.Proofs.Likeness.Sessions
import Lox.Proofs.Likeness.Starts
import Lox.Proofs.Likeness.Trees
import Lox.Proofs.Relabelling.Conservation
import Lox.Proofs.Relabelling.Machines
import Lox.Proofs.Relabelling.Nodes
import Lox.Proofs.Relabelling.Resolver
import Lox.Proofs.Relabelling.Runs
import Lox.Proofs.Relabelling.Trees
import Lox.Proofs.Renaming.Locals
import Lox.Proofs.Renaming.Sessions
import Lox.Proofs.Renaming.Texts
import Lox.Proofs.Running.Distances
import Lox.Proofs.Running.Fitting
import Lox.Proofs.Running.Fuel
import Lox.Proofs.Running.Growth
import Lox.Proofs.Running.Parts
import Lox.Proofs.Running.Readiness
import Lox.Proofs.Running.Readings
import Lox.Proofs.Running.Resuming
import Lox.Proofs.Running.Returns
import Lox.Proofs.Running.Scopes
import Lox.Proofs.Running.SessionSoundness
import Lox.Proofs.Running.Sessions
import Lox.Proofs.Running.Soundness
import Lox.Proofs.Running.Tasks
import Lox.Proofs.Running.Undefined
import Lox.Proofs.Scoping.Binders
import Lox.Proofs.Scoping.Distinct
import Lox.Proofs.Scoping.Frames
import Lox.Proofs.Scoping.LexicalScope
import Lox.Proofs.Scoping.Numbering
import Lox.Proofs.Scoping.Occurrences
import Lox.Proofs.Scoping.Orderly
import Lox.Proofs.Scoping.Resolver
import Lox.Proofs.Scoping.Sites
import Lox.Proofs.Scoping.Surroundings
import Lox.Proofs.Scoping.Table
import Lox.Proofs.Scoping.Tokens
import Lox.Proofs.Scoping.Units
import Lox.Proofs.Syntax.Acceptance
import Lox.Proofs.Syntax.Derivation
import Lox.Proofs.Syntax.ExpressionComplete
import Lox.Proofs.Syntax.ExpressionReading
import Lox.Proofs.Syntax.ExpressionSound
import Lox.Proofs.Syntax.Grammar
import Lox.Proofs.Syntax.Lexemes
import Lox.Proofs.Syntax.Linearization
import Lox.Proofs.Syntax.Program
import Lox.Proofs.Syntax.Readable
import Lox.Proofs.Syntax.Reply
import Lox.Proofs.Syntax.Scanning
import Lox.Proofs.Syntax.Sources
import Lox.Proofs.Syntax.StatementComplete
import Lox.Proofs.Syntax.StatementReading
import Lox.Proofs.Syntax.StatementSound
import Lox.Session.Stepping
import Lox.Proofs.Syntax.Tiling
import Lox.Proofs.Syntax.Lines
import Lox.Proofs.Syntax.Writing
import Lox.Proofs.Identities.Twins
import Lox.Issuing.Program
import Lox.Proofs.Identities.Rules
import Lox.Proofs.Identities.Expressions
import Lox.Proofs.Identities.Statements
import Lox.Proofs.Identities.Issuing
import Lox.Proofs.Identities.Rejections
import Lox.Proofs.Identities.Tables
import Lox.Proofs.Marks.Trees
import Lox.Proofs.Marks.Rules
import Lox.Proofs.Marks.Expressions
import Lox.Proofs.Marks.Statements
import Lox.Proofs.Running.Outcomes
import Lox.Proofs.Discipline.Discipline
import Lox.Proofs.Discipline.Parts
import Lox.Proofs.Discipline.Runs
import Lox.Proofs.Discipline.Sessions
import Lox.Proofs.Marks.Sessions
import Lox.Proofs.Separation.Endings
import Lox.Proofs.Separation.Timeline
import Lox.Proofs.Separation.Cells
import Lox.Proofs.Separation.Frames
import Lox.Proofs.Separation.Histories
import Lox.Proofs.Receivers.Spelling
import Lox.Proofs.Receivers.Keeping
import Lox.Proofs.Receivers.Serving
import Lox.Proofs.Receivers.Construction
import Lox.Proofs.Running.Closed
import Lox.Proofs.Printing.Pouring
import Lox.Proofs.Printing.Texts
import Lox.Proofs.Printing.Units
import Lox.Proofs.Printing.Futures
import Lox.Proofs.Printing.Sessions
import Lox.Proofs.Calls.Depth
import Lox.Proofs.Calls.Courses
import Lox.Proofs.Calls.Activations
import Lox.Proofs.Calls.Answers
import Lox.Proofs.Recovery.Passages
import Lox.Proofs.Recovery.Expressions
import Lox.Proofs.Recovery.Statements
import Lox.Proofs.Recovery.Cursors
import Lox.Proofs.Recovery.Refusals
import Lox.Proofs.Recovery.Omissions
import Lox.Proofs.Recovery.Weights
import Lox.Proofs.Recovery.Drops
import Lox.Proofs.Recovery.Losses
import Lox.Proofs.Recovery.Gaps
import Lox.Proofs.Recovery.Programs
import Lox.Proofs.Recovery.Prefixes
import Lox.Proofs.Loops.Rewriting
import Lox.Proofs.Loops.Reading
import Lox.Proofs.Relining.Trees
import Lox.Proofs.Relining.Resolver
import Lox.Proofs.Loops.Programs
import Lox.Proofs.Globals.Declarations
import Lox.Proofs.Globals.Sessions
import Lox.Proofs.Running.Faults
import Lox.Proofs.Cutting.Runs
import Lox.Proofs.Cutting.Moments
import Lox.Proofs.Cutting.Sessions
import Lox.Proofs.Numbers.Rounding
import Lox.Proofs.Numbers.Shortest
import Lox.Proofs.Numbers.Decimals
import Lox.Proofs.Numbers.Bits
import Lox.Proofs.Numbers.ReadingBack
import Lox.Proofs.Brackets.Forms
import Lox.Proofs.Brackets.Trees
import Lox.Proofs.Brackets.Decoding
import Lox.Proofs.Brackets.Legibility
import Lox.Proofs.Brackets.Sources
import Lox.Proofs.Chains.Owners
import Lox.Proofs.Chains.Operations
import Lox.Proofs.Commands.Requests
import Lox.Proofs.Commands.Dialogues
import Lox.Proofs.Syntax.Bytes
