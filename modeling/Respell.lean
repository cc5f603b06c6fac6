import Respell.Main
import Respell.Rule.Chain
import Respell.Proofs.Pattern.Node
import Respell.Proofs.Way
import Respell.Proofs.Search.Outcome
import Respell.Proofs.Search.Comparison
import Respell.Proofs.Search.Soundness
import Respell.Proofs.Search.Completeness
import Respell.Proofs.Longest
import Respell.Proofs.Choice
import Respell.Proofs.Search.Preference
import Respell.Proofs.Commitment
import Respell.Proofs.Search.Committed
import Respell.Proofs.NamedClass
import Respell.Proofs.Alternation
import Respell.Proofs.ByteSet
import Respell.Proofs.Search.Alike
import Respell.Proofs.Search.Equal
import Respell.Proofs.Search.Thorough
import Respell.Proofs.EarlyStop
import Respell.Proofs.Source.Leaves
import Respell.Proofs.CaseBlind
import Respell.Proofs.MemberOrder
import Respell.Proofs.Draft
import Respell.Proofs.Lexicon
import Respell.Proofs.Source.Reader
import Respell.Proofs.Lexicon.Reachable
import Respell.Proofs.Source.Printed
import Respell.Proofs.Source.PrintedItems
import Respell.Proofs.Rereading
import Respell.Proofs.Source.Rest
import Respell.Proofs.Source.Unclosed
import Respell.Proofs.Source.Closing
import Respell.Proofs.MissingMarks
import Respell.Proofs.Pattern.WellFormed
import Respell.Proofs.WellFormed
import Respell.Proofs.Replacements
import Respell.Proofs.Text.Case
import Respell.Proofs.Text.Utf8
import Respell.Proofs.Faithful
import Respell.Proofs.Participation
import Respell.Proofs.Source.Causes
import Respell.Proofs.Template
import Respell.Proofs.Source.References
import Respell.Proofs.Lexicon.History
import Respell.Proofs.SecondReading
import Respell.Proofs.RepeatedLeaves
import Respell.Proofs.Quotation
import Respell.Proofs.Parentheses
import Respell.Proofs.NamedClass.Finding
import Respell.Proofs.NamedClass.Switching
import Respell.Proofs.Source.Spread
import Respell.Proofs.Source.Places
import Respell.Proofs.Search.Probe
import Respell.Proofs.Search.Restored
import Respell.Proofs.Search.Mirrored
import Respell.Proofs.Trail
import Respell.Proofs.Source.Count
import Respell.Proofs.Source.Roles
import Respell.Proofs.IdleMarks
import Respell.Proofs.Signs
import Respell.Proofs.Sets
import Respell.Proofs.Search.Walk
import Respell.Proofs.Search.Walked
import Respell.Proofs.Search.Parts
import Respell.Proofs.Search.Followed
import Respell.Proofs.Bounds
import Respell.Proofs.Text.Cut
import Respell.Proofs.Text.Line
import Respell.Proofs.CommandLine.Options
import Respell.Proofs.CommandLine.Words
import Respell.Proofs.Source.Extracts
import Respell.Proofs.Source.Descent
import Respell.Proofs.Source.Progress
