import StackLogic.Console.Screen
import StackLogic.Main
import StackLogic.Proofs.Terms
import StackLogic.Proofs.Bindings
import StackLogic.Proofs.Loops
import StackLogic.Proofs.Unifying
import StackLogic.Proofs.Nesting
import StackLogic.Proofs.Answers
import StackLogic.Proofs.Derivation
import StackLogic.Proofs.Soundness
import StackLogic.Proofs.Renaming
import StackLogic.Proofs.Completeness
import StackLogic.Proofs.MostGeneral
import StackLogic.Proofs.Variables
import StackLogic.Proofs.Reading
import StackLogic.Proofs.Relabelling
import StackLogic.Proofs.Blocks
import StackLogic.Proofs.History
import StackLogic.Proofs.SearchRuns
import StackLogic.Proofs.Activations
import StackLogic.Proofs.UpperCase
import StackLogic.Proofs.Moments
import StackLogic.Proofs.Definitions
import StackLogic.Proofs.Inlining
import StackLogic.Proofs.LargerLimits
import StackLogic.Proofs.QueryBounds
import StackLogic.Proofs.CallDepth
import StackLogic.Proofs.LineEnds
import StackLogic.Proofs.Database
import StackLogic.Proofs.Lexing
import StackLogic.Proofs.Spelling
import StackLogic.Proofs.Legible
import StackLogic.Proofs.ClauseText
import StackLogic.Proofs.Listing
import StackLogic.Proofs.Matching
import StackLogic.Proofs.Editing
import StackLogic.Proofs.EarlierOutput
import StackLogic.Proofs.Transcript
import StackLogic.Proofs.TopLevel
import StackLogic.Proofs.Atomicity
import StackLogic.Proofs.Tracing
import StackLogic.Proofs.Wildcards
import StackLogic.Proofs.NewVariables
import StackLogic.Proofs.AnonymousVariables
import StackLogic.Proofs.ShortestDigits
import StackLogic.Proofs.BalancedText
import StackLogic.Proofs.WrittenTerms
import StackLogic.Proofs.CompoundTerms
import StackLogic.Proofs.ClearTerms
import StackLogic.Proofs.IntegerOperators
import StackLogic.Proofs.IntegerExpressions
import StackLogic.Proofs.UnifySymmetry
import StackLogic.Proofs.Precedence
import StackLogic.Proofs.TokenLayout
import StackLogic.Proofs.JoinedLines
import StackLogic.Proofs.LetterCase
import StackLogic.Proofs.CaseInsensitive
import StackLogic.Proofs.Programs
import StackLogic.Proofs.DeepResolution
import StackLogic.Proofs.Rotation
import StackLogic.Proofs.ScrollWindows
import StackLogic.Proofs.TokenSpans
import StackLogic.Proofs.CursorTexts
