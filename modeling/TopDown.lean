import TopDown.Bnf.Load
import TopDown.Bnf.Print
import TopDown.Bnf.Word
import TopDown.CommandLine.Log
import TopDown.CommandLine.Options
import TopDown.CommandLine.Run
import TopDown.Derivation
import TopDown.Files
import TopDown.First
import TopDown.Fixpoint
import TopDown.Follow
import TopDown.Grammar
import TopDown.Height
import TopDown.Location
import TopDown.Lookahead
import TopDown.Main
import TopDown.NameMap
import TopDown.Parse
import TopDown.Random.ChaCha
import TopDown.Random.Source
import TopDown.Sampling
import TopDown.SyntaxTree
import TopDown.Table
import TopDown.Text.Blank
import TopDown.Text.Control
import TopDown.Text.Escaped
import TopDown.Text.Order
import TopDown.Text.Unsigned
import TopDown.Token
import TopDown.Token.Dump
import TopDown.Toy.Analysis
import TopDown.Toy.Construct
import TopDown.Toy.Language
import TopDown.Toy.SymbolTable
import TopDown.Toy.Typing
import TopDown.Toy.ValueType
import TopDown.Toy.Violation
import TopDown.Proofs.Bnf.RoundTrip
import TopDown.Proofs.Bnf.Spelling
import TopDown.Proofs.FirstSets
import TopDown.Proofs.FollowSets
import TopDown.Proofs.TableCells
import TopDown.Proofs.TableEntries
import TopDown.Proofs.FirstConflict
import TopDown.Proofs.Forests
import TopDown.Proofs.Reading
import TopDown.Proofs.Machine
import TopDown.Proofs.Layout
import TopDown.Proofs.TreeBuilding
import TopDown.Proofs.Erosion
import TopDown.Proofs.StepBound
import TopDown.Proofs.Termination
import TopDown.Proofs.Recognition
import TopDown.Proofs.Reordering
import TopDown.Proofs.Conflicts
import TopDown.Proofs.Overlaps
import TopDown.Proofs.CorrectPrefix
import TopDown.Proofs.Ownership
import TopDown.Proofs.SententialForms
import TopDown.Proofs.ExactSets
import TopDown.Proofs.LeastHeights
import TopDown.Proofs.RandomChoices
import TopDown.Proofs.Sentences
import TopDown.Proofs.Toy.Inference
import TopDown.Proofs.Toy.Handlers
import TopDown.Proofs.Toy.Visiting
import TopDown.Proofs.Toy.ItemOrder
import TopDown.Proofs.Toy.Phrases
import TopDown.Proofs.Toy.ConcreteSyntax
import TopDown.Proofs.Toy.ProgramReading
import TopDown.Proofs.Toy.Occurrences
import TopDown.Proofs.Toy.ExpressionTypes
import TopDown.Proofs.Toy.StatementChecks
import TopDown.Proofs.Toy.GlobalNames
import TopDown.Proofs.Toy.ItemChecks
import TopDown.Proofs.Toy.PredictiveGrammar
import TopDown.Proofs.Toy.LawfulPrograms
import TopDown.Proofs.Toy.Faults
import TopDown.Proofs.Toy.FaultPlaces
import TopDown.Proofs.Toy.OpenScopes
import TopDown.Proofs.Toy.UnboundedLookups
import TopDown.Proofs.Toy.UnboundedVisits
import TopDown.Proofs.Toy.RenamedTrees
import TopDown.Proofs.Toy.RenamedTypes
import TopDown.Proofs.Toy.RenamedVisits
import TopDown.Proofs.CommandLine.Courses
import TopDown.Proofs.CommandLine.Responses
import TopDown.Proofs.ParsedTrees
import TopDown.Proofs.Toy.ProgramPrefixes
import TopDown.Proofs.Bnf.LoadOutcomes
import TopDown.Proofs.Bnf.JoinedLines
import TopDown.Proofs.Recasting
import TopDown.Proofs.KindsOnly
import TopDown.Proofs.Growth
import TopDown.Proofs.ScriptedSentences
import TopDown.Proofs.Toy.ScopeChains
import TopDown.Proofs.Token.Dumps
import TopDown.Proofs.CommandLine.Displays
import TopDown.Proofs.FirstOfSequences
import TopDown.Proofs.LeastFollow
import TopDown.Proofs.Preorder
import TopDown.Proofs.Toy.Recursion
