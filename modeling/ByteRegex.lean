import ByteRegex.Byte
import ByteRegex.ByteSet
import ByteRegex.Dialect
import ByteRegex.PatternError
import ByteRegex.Text.Utf8
import ByteRegex.Text.Unprintable
import ByteRegex.Text.Quoted
import ByteRegex.Pattern.Scan
import ByteRegex.Pattern.Escape
import ByteRegex.Pattern.Bracket
import ByteRegex.Pattern.Interval
import ByteRegex.Pattern.InPlace
import ByteRegex.Options
import ByteRegex.Pattern.Block
import ByteRegex.Pattern.Token
import ByteRegex.Pattern.Parser
import ByteRegex.Literal.ByteScan
import ByteRegex.Literal.ExactScan
import ByteRegex.Literal.Occurrence
import ByteRegex.Literal.Borders
import ByteRegex.Program.Operation
import ByteRegex.Program.Link
import ByteRegex.Program.Basic
import ByteRegex.Program.InPlace
import ByteRegex.Program.Listing
import ByteRegex.Machine.State
import ByteRegex.Machine.Position
import ByteRegex.Machine.Run
import ByteRegex.Machine.InPlace
import ByteRegex.Search.Start
import ByteRegex.Search.Basic
import ByteRegex.Template.Basic
import ByteRegex.Template.Expand
import ByteRegex.Regex.Basic
import ByteRegex.Regex.Captures
import ByteRegex.Regex.Replace
import ByteRegex.Log
import ByteRegex.Proofs.Pattern.WellFormed
import ByteRegex.Proofs.Pattern.Sets
import ByteRegex.Proofs.Program.Layout
import ByteRegex.Proofs.Program.Linking
import ByteRegex.Proofs.Program.BlockStructure
import ByteRegex.Proofs.Program.Nesting
import ByteRegex.Proofs.Program.InPlace
import ByteRegex.Proofs.Program.Emission
import ByteRegex.Proofs.Machine.Journal
import ByteRegex.Proofs.Machine.InPlace
import ByteRegex.Proofs.Machine.Outcomes
import ByteRegex.Proofs.Machine.Registers
import ByteRegex.Proofs.Machine.Shifting
import ByteRegex.Proofs.Machine.Counting
import ByteRegex.Proofs.Machine.Calls
import ByteRegex.Proofs.Machine.Refinement
import ByteRegex.Proofs.Machine.FirstOutcome
import ByteRegex.Proofs.Machine.AnyStack
import ByteRegex.Proofs.Machine.Endings
import ByteRegex.Proofs.Machine.CountedLoops
import ByteRegex.Proofs.Machine.Covers
import ByteRegex.Proofs.Literal.Borders
import ByteRegex.Proofs.Literal.InPlace
import ByteRegex.Proofs.Literal.Scanning
import ByteRegex.Proofs.Literal.Search
import ByteRegex.Proofs.Literal.Backward
import ByteRegex.Proofs.Search.Starts
import ByteRegex.Proofs.Search.Exactness
import ByteRegex.Proofs.Search.Matches
import ByteRegex.Proofs.Search.Trials
import ByteRegex.Proofs.Search.Bounds
import ByteRegex.Proofs.Search.Traceless
import ByteRegex.Proofs.Machine.Repetition
import ByteRegex.Proofs.Pattern.Intervals
import ByteRegex.Proofs.Pattern.Brackets
import ByteRegex.Proofs.Pattern.Spelling
import ByteRegex.Proofs.Pattern.Tokens
import ByteRegex.Proofs.Pattern.Parsing
import ByteRegex.Proofs.Regex.Iteration
import ByteRegex.Proofs.Regex.Splicing
import ByteRegex.Proofs.Regex.Enumeration
import ByteRegex.Proofs.Template.Reading
import ByteRegex.Proofs.Search.LetterCase
import ByteRegex.Proofs.Search.Preference
import ByteRegex.Proofs.Search.SingleLine
import ByteRegex.Proofs.Search.Suffix
import ByteRegex.Proofs.Search.SpelledWord
import ByteRegex.Proofs.Template.Expansion
import ByteRegex.Proofs.Template.Writing
import ByteRegex.Proofs.Pattern.NamedClasses
import ByteRegex.Proofs.Pattern.Extensions
import ByteRegex.Proofs.Pattern.NumericEscapes
import ByteRegex.Proofs.Pattern.ErrorPlaces
import ByteRegex.Proofs.Pattern.InPlace
