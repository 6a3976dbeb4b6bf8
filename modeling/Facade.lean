import Facade.Main
import Facade.Proofs.Generation.Faithful
import Facade.Proofs.Symbol.Closure
import Facade.Proofs.Cache.Manifest
import Facade.Proofs.Disk.Entries
import Facade.Proofs.Disk.Actions
import Facade.Proofs.Cache.Keeping
import Facade.Proofs.Command.Writing
import Facade.Proofs.Command.Calls
import Facade.Proofs.Command.HintNames
import Facade.Proofs.Command.Histories
import Facade.Proofs.Disk.Footprint
import Facade.Proofs.Command.Footprint
import Facade.Proofs.Command.Modes
import Facade.Proofs.Command.FailedSources
import Facade.Proofs.Binding.Identity
import Facade.Proofs.Binding.Scoped
import Facade.Proofs.Binding.TypeLevel
import Facade.Proofs.Binding.InterfaceClosure
import Facade.Proofs.Grammar.Ahead
import Facade.Proofs.Grammar.Nesting
import Facade.Proofs.Grammar.Takes
import Facade.Proofs.Syntax.ReadType
import Facade.Proofs.Syntax.ReadAlias
import Facade.Proofs.Binding.Declared
import Facade.Proofs.Binding.Found
import Facade.Proofs.Binding.Visible
import Facade.Proofs.Binding.Seen
import Facade.Proofs.Generation.ReadBack
import Facade.Proofs.Generation.Cancellation
import Facade.Proofs.Generation.Registration
import Facade.Proofs.Binding.Merging
import Facade.Proofs.Binding.Reordering
import Facade.Proofs.Binding.Unfolding
import Facade.Proofs.Generation.MarkerRecognition
import Facade.Proofs.Generation.TargetInterface
import Facade.Proofs.Syntax.NamesRead
import Facade.Proofs.Grammar.Braces
import Facade.Proofs.Grammar.Lookahead
import Facade.Proofs.Grammar.Progress
import Facade.Proofs.Grammar.Bare
import Facade.Proofs.Grammar.Transfer
import Facade.Proofs.Grammar.Refill
import Facade.Proofs.Grammar.Through
import Facade.Proofs.Grammar.Around
import Facade.Proofs.Grammar.BlockText
import Facade.Proofs.Syntax.WithoutSpans
import Facade.Proofs.Syntax.BareTree
import Facade.Proofs.Binding.Spans
import Facade.Proofs.Generation.Spans
import Facade.Proofs.Generation.OpaqueBodies
import Facade.Proofs.Symbol.Mentioned
import Facade.Proofs.Generation.ParameterNames
import Facade.Proofs.Binding.OuterArguments
import Facade.Proofs.Symbol.Pieces
import Facade.Proofs.Binding.Undeclared
import Facade.Proofs.Binding.BaseClass
import Facade.Proofs.Syntax.Characters
import Facade.Proofs.Binding.Nearest
import Facade.Proofs.Binding.GlobalNames
import Facade.Proofs.Binding.Directives
import Facade.Proofs.Binding.AliasMemory
import Facade.Proofs.Binding.Aliases
import Facade.Proofs.Generation.Notices
import Facade.Proofs.Generation.MemoContents
import Facade.Proofs.Generation.PartialContainers
import Facade.Proofs.Syntax.SourceOrder
import Facade.Proofs.Grammar.Filler
import Facade.Proofs.Grammar.Insertion
import Facade.Proofs.Grammar.Taken
import Facade.Proofs.Grammar.Layout
import Facade.Proofs.Syntax.Layout
import Facade.Proofs.Binding.MetadataNames
import Facade.Proofs.Generation.Blocks
import Facade.Proofs.Generation.Indentation
import Facade.Proofs.Text.Lines
import Facade.Proofs.Diagnostic.Colours
import Facade.Proofs.Grammar.ErrorPlaces
import Facade.Proofs.Diagnostic.Excerpts
import Facade.Proofs.Command.SourceCollection
import Facade.Proofs.Binding.ParameterOwners
import Facade.Proofs.Binding.FullyApplied
import Facade.Proofs.Grammar.PhraseParts
import Facade.Proofs.Syntax.PartsFound
import Facade.Proofs.Syntax.Entries
import Facade.Proofs.Grammar.Following
import Facade.Proofs.Grammar.DefaultText
import Facade.Proofs.Syntax.ReadDirective
import Facade.Proofs.Syntax.Requirements
import Facade.Proofs.Syntax.NamesPlaced
import Facade.Proofs.Generation.ReadSignature
import Facade.Proofs.Generation.ReadMethod
import Facade.Proofs.Generation.ReadContainer
import Facade.Proofs.Generation.ReadFacade
import Facade.Proofs.Generation.ReadUnits
