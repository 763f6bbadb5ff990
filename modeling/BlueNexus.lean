import BlueNexus.Bindings
import BlueNexus.Command
import BlueNexus.Command.Files
import BlueNexus.Command.Line
import BlueNexus.Division
import BlueNexus.Fault
import BlueNexus.Form
import BlueNexus.Form.Meaning
import BlueNexus.Form.Nesting
import BlueNexus.Form.Quotation
import BlueNexus.Form.Reading
import BlueNexus.Fragment
import BlueNexus.Glyph
import BlueNexus.Host
import BlueNexus.Host.Recorder
import BlueNexus.Host.Terminal
import BlueNexus.Machine
import BlueNexus.Main
import BlueNexus.Name
import BlueNexus.Numeral
import BlueNexus.Proofs.BalancedCommands
import BlueNexus.Proofs.BalancedText
import BlueNexus.Proofs.BlockBodies
import BlueNexus.Proofs.BoundNames
import BlueNexus.Proofs.CallLog
import BlueNexus.Proofs.CodeSequences
import BlueNexus.Proofs.CommandDepth
import BlueNexus.Proofs.CompletionNotice
import BlueNexus.Proofs.CountingLoops
import BlueNexus.Proofs.EmbeddedFragments
import BlueNexus.Proofs.ExecutionRuns
import BlueNexus.Proofs.FaultPlaces
import BlueNexus.Proofs.FaultState
import BlueNexus.Proofs.FloorDivision
import BlueNexus.Proofs.FormRules
import BlueNexus.Proofs.ForwardRuns
import BlueNexus.Proofs.HostEffects
import BlueNexus.Proofs.InPlaceArithmetic
import BlueNexus.Proofs.Invariants
import BlueNexus.Proofs.JoinedInputs
import BlueNexus.Proofs.LeadingNumerals
import BlueNexus.Proofs.LiteralBreaks
import BlueNexus.Proofs.Lookahead
import BlueNexus.Proofs.LoopExits
import BlueNexus.Proofs.LoopTermination
import BlueNexus.Proofs.MachineFrame
import BlueNexus.Proofs.MachineRules
import BlueNexus.Proofs.MirroredRuns
import BlueNexus.Proofs.MovedFragments
import BlueNexus.Proofs.NearestDoubles
import BlueNexus.Proofs.NestedExecution
import BlueNexus.Proofs.NestingDepth
import BlueNexus.Proofs.NestingLimit
import BlueNexus.Proofs.NestingRoom
import BlueNexus.Proofs.NumeralBytes
import BlueNexus.Proofs.NumericReplies
import BlueNexus.Proofs.PostfixPrograms
import BlueNexus.Proofs.Predicates
import BlueNexus.Proofs.PushFusion
import BlueNexus.Proofs.PushMarkers
import BlueNexus.Proofs.QueuedReplies
import BlueNexus.Proofs.QuotedStrings
import BlueNexus.Proofs.Removals
import BlueNexus.Proofs.RotatingValues
import BlueNexus.Proofs.ScanCuts
import BlueNexus.Proofs.ScanStretches
import BlueNexus.Proofs.SeparatedSources
import BlueNexus.Proofs.SessionRuns
import BlueNexus.Proofs.ShiftedRuns
import BlueNexus.Proofs.ShiftedTokens
import BlueNexus.Proofs.SignedNumerals
import BlueNexus.Proofs.SourceBreaks
import BlueNexus.Proofs.SpacedTokens
import BlueNexus.Proofs.SpelledSequences
import BlueNexus.Proofs.StringPrograms
import BlueNexus.Proofs.StutteringRuns
import BlueNexus.Proofs.TerminalRuns
import BlueNexus.Proofs.TokenScan
import BlueNexus.Proofs.VariableFrame
import BlueNexus.Proofs.VariableMarks
import BlueNexus.Proofs.WrappedProgram
import BlueNexus.Session
import BlueNexus.Settings.Reader
import BlueNexus.Stack
import BlueNexus.State
import BlueNexus.Text
import BlueNexus.Token.Listing
import BlueNexus.Value
