import JsonTemplate.Bytewise.Basic
import JsonTemplate.Bytewise.Expression
import JsonTemplate.Bytewise.PlainJson
import JsonTemplate.Bytewise.Plan
import JsonTemplate.Bytewise.RepeatBlock
import JsonTemplate.CommandLine.FileTree
import JsonTemplate.Generator.Catalogue
import JsonTemplate.Main
import JsonTemplate.Proofs.Aborts
import JsonTemplate.Proofs.Abreast
import JsonTemplate.Proofs.Accounts
import JsonTemplate.Proofs.Agreement
import JsonTemplate.Proofs.BlockBytes
import JsonTemplate.Proofs.Bounds
import JsonTemplate.Proofs.Brackets
import JsonTemplate.Proofs.Copies
import JsonTemplate.Proofs.Cuts
import JsonTemplate.Proofs.Dates
import JsonTemplate.Proofs.DirectiveFields
import JsonTemplate.Proofs.DirectiveText
import JsonTemplate.Proofs.Documents
import JsonTemplate.Proofs.Excerpt
import JsonTemplate.Proofs.Execution
import JsonTemplate.Proofs.Failure
import JsonTemplate.Proofs.Forest
import JsonTemplate.Proofs.Indifference
import JsonTemplate.Proofs.IntegerBounds
import JsonTemplate.Proofs.Leaks
import JsonTemplate.Proofs.Lengths
import JsonTemplate.Proofs.Limits
import JsonTemplate.Proofs.Literals
import JsonTemplate.Proofs.MarkBlanks
import JsonTemplate.Proofs.Meaning
import JsonTemplate.Proofs.Methods
import JsonTemplate.Proofs.Misplaced
import JsonTemplate.Proofs.Numberings
import JsonTemplate.Proofs.Occurrences
import JsonTemplate.Proofs.Offsets
import JsonTemplate.Proofs.Overflow
import JsonTemplate.Proofs.PartBytes
import JsonTemplate.Proofs.Profiles
import JsonTemplate.Proofs.Ranges
import JsonTemplate.Proofs.Rounds
import JsonTemplate.Proofs.Sampling
import JsonTemplate.Proofs.Scanning
import JsonTemplate.Proofs.Shapes
import JsonTemplate.Proofs.Slots
import JsonTemplate.Proofs.Termination
import JsonTemplate.Proofs.Tokenless
import JsonTemplate.Proofs.TopLevel
import JsonTemplate.Proofs.Undirected
import JsonTemplate.Proofs.Usage
import JsonTemplate.Proofs.Verbatim
import JsonTemplate.Template
import JsonTemplate.ValueSource.Journal
import JsonTemplate.ValueSource.Scripted
