import TabletopDice.Numeral
import TabletopDice.Text.Blank
import TabletopDice.Text.Lowercase
import TabletopDice.Text.Normal
import TabletopDice.Total
import TabletopDice.Ranking
import TabletopDice.Selection
import TabletopDice.Dice
import TabletopDice.DiceError
import TabletopDice.Die
import TabletopDice.RolledDice
import TabletopDice.Rolling
import TabletopDice.Seeded
import TabletopDice.Source
import TabletopDice.Shuffle
import TabletopDice.DiceRoll
import TabletopDice.Expr
import TabletopDice.RolledExpr
import TabletopDice.Outcome
import TabletopDice.Message
import TabletopDice.Noted
import TabletopDice.Roll
import TabletopDice.TraitRoll
import TabletopDice.Written.Token
import TabletopDice.Written.Term
import TabletopDice.Written.Layout
import TabletopDice.Written.Outline
import TabletopDice.Written.Dice
import TabletopDice.Written.Roll
import TabletopDice.Written.TraitRoll
import TabletopDice.Cli
import TabletopDice.Main
import TabletopDice.Proofs.TermSpelling
import TabletopDice.Proofs.FaultlessDice
import TabletopDice.Proofs.OutlineParts
import TabletopDice.Proofs.LayoutSpelling
import TabletopDice.Proofs.Grammar
import TabletopDice.Proofs.ValidDice
import TabletopDice.Proofs.ParsedRoll
import TabletopDice.Proofs.PrintedRoll
import TabletopDice.Proofs.RollPaths
import TabletopDice.Proofs.RollRules
import TabletopDice.Proofs.Selecting
import TabletopDice.Proofs.Replay
import TabletopDice.Proofs.ExactTotal
import TabletopDice.Proofs.BoundedRoll
import TabletopDice.Proofs.RolledGroups
import TabletopDice.Proofs.SoundRoll
import TabletopDice.Proofs.TraitPair
import TabletopDice.Proofs.TraitGrammar
import TabletopDice.Proofs.Repetition
import TabletopDice.Proofs.NotedLosses
import TabletopDice.Proofs.OpaqueComment
import TabletopDice.Proofs.SoundTrait
import TabletopDice.Proofs.TokenText
import TabletopDice.Proofs.SingleLine
import TabletopDice.Proofs.QuotedText
import TabletopDice.Proofs.Reporting
import TabletopDice.Proofs.SelectedRanks
import TabletopDice.Proofs.ExplodedDice
import TabletopDice.Proofs.HighestResults
import TabletopDice.Proofs.ConservedSuffixes
import TabletopDice.Proofs.OrderedChoice
import TabletopDice.Proofs.TermLanguage
import TabletopDice.Proofs.TokenSpelling
import TabletopDice.Proofs.UndisturbedExpressions
import TabletopDice.Proofs.PerfectShuffle
import TabletopDice.Proofs.SortedFaces
import TabletopDice.Proofs.ExtremeTotals
import TabletopDice.Proofs.ComposedRolls
import TabletopDice.Proofs.FirstFailure
import TabletopDice.Proofs.SuffixOrder
import TabletopDice.Proofs.BlanksAndCase
import TabletopDice.Proofs.CriticalOnes
import TabletopDice.Proofs.KeptRanges
import TabletopDice.Proofs.ListedDice
import TabletopDice.Proofs.ReadBackDice
import TabletopDice.Proofs.ReplacedSign
import TabletopDice.Proofs.SubtractedDie
import TabletopDice.Proofs.Figures
import TabletopDice.Proofs.NumberReports
import TabletopDice.Proofs.TooLargeNumbers
