import Imap.Main
import Imap.Stream.Reader
import Imap.Stream.Verdict
import Imap.Rule.Steps
import Imap.Proofs.Rule.Answers
import Imap.Proofs.Rule.Stability
import Imap.Proofs.Grammar.Stability
import Imap.Proofs.Grammar.Exclusion
import Imap.Proofs.Grammar.Spelling
import Imap.Proofs.Rule.Reading
import Imap.Proofs.Grammar.TokenReading
import Imap.Proofs.Grammar.FetchReading
import Imap.Proofs.Rule.LineBound
import Imap.Proofs.Grammar.LineBound
import Imap.Proofs.Grammar.ConditionReading
import Imap.Proofs.Grammar.ResponseReading
import Imap.Proofs.Decoding
import Imap.Proofs.Grammar.WellFormed
import Imap.Proofs.Grammar.Wire
import Imap.Proofs.RoundTrip
import Imap.Proofs.Rule.Completion
import Imap.Proofs.Grammar.Completion
import Imap.Proofs.Waiting
import Imap.Proofs.Rule.Counting
import Imap.Proofs.Grammar.Counting
import Imap.Proofs.Hints
import Imap.Proofs.Framing
import Imap.Proofs.Grammar.Inhabited
import Imap.Proofs.Image
import Imap.Proofs.ReadingByHints
import Imap.Proofs.Listing
import Imap.Proofs.FinishedLine
import Imap.Proofs.ConditionLine
import Imap.Proofs.Rule.Blindness
import Imap.Proofs.Grammar.Blindness
import Imap.Proofs.LiteralContent
import Imap.Proofs.Choices
import Imap.Proofs.Numbers
import Imap.Proofs.Strings
import Imap.Proofs.CanonicalCondition
import Imap.Proofs.Logging
import Imap.Proofs.Rule.Steps
import Imap.Proofs.Combinators
import Imap.Proofs.Rule.Series
import Imap.Proofs.Lists
import Imap.Proofs.ClosingQuote
import Imap.Proofs.Progress
import Imap.Proofs.Details
