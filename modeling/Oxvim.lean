import Oxvim.Lib.Transition
import Oxvim.Lib.Splice
import Oxvim.Lib.Lines
import Oxvim.Lib.Utf8
import Oxvim.Lib.Binary64
import Oxvim.Lib.Brackets
import Oxvim.Lib.EState
import Oxvim.Lib.Enclosing
import Oxvim.Lib.Ancestry
import Oxvim.Lib.Links
import Oxvim.Lib.LinePositions
import Oxvim.Lib.Moves
import Oxvim.Lib.Nesting
import Oxvim.Lib.PositionIndex
import Oxvim.Lib.Replay
import Oxvim.Lib.RowCol
import Oxvim.Lib.RowMajor
import Oxvim.Lib.Usize
import Oxvim.Text.Rope
import Oxvim.Text.Buffer
import Oxvim.Text.BufferModel
import Oxvim.Text.BufferRefine
import Oxvim.Text.BufferRuns
import Oxvim.Text.BufferLines
import Oxvim.Text.Marks
import Oxvim.Text.Undo
import Oxvim.Text.UndoInvariant
import Oxvim.Text.UndoEntries
import Oxvim.Text.UndoRecords
import Oxvim.Text.ShaDa
import Oxvim.Text.ShaDaFrames
import Oxvim.Editor.ShaDaReader
import Oxvim.Editor.Extmark
import Oxvim.Editor.ExtmarkIndex
import Oxvim.Editor.ExtmarkQuery
import Oxvim.Editor.ExtmarkGeometry
import Oxvim.Editor.ExtmarkUndo
import Oxvim.Editor.Fold
import Oxvim.Editor.FoldNesting
import Oxvim.Lib.Stretches
import Oxvim.Editor.FoldMethods
import Oxvim.Editor.FoldLevels
import Oxvim.Editor.FoldRuns
import Oxvim.Editor.FoldManual
import Oxvim.Editor.BufferState
import Oxvim.Editor.BufferEdits
import Oxvim.Editor.BufferOps
import Oxvim.Editor.BufferRun
import Oxvim.Editor.BufferAtomic
import Oxvim.Editor.Decoration
import Oxvim.Loop.MultiQueue
import Oxvim.Loop.MultiQueueSpec
import Oxvim.Loop.MultiQueueDrain
import Oxvim.Loop.MultiQueueRuns
import Oxvim.Loop.Work
import Oxvim.Loop.WorkRuns
import Oxvim.Lib.Holders
import Oxvim.Lib.OrderedMap
import Oxvim.Lib.Latest
import Oxvim.Lib.Shares
import Oxvim.Editor.Layout
import Oxvim.Editor.LayoutFrames
import Oxvim.Editor.LayoutRewrites
import Oxvim.Editor.LayoutGeometry
import Oxvim.Editor.LayoutRoom
import Oxvim.Editor.LayoutOps
import Oxvim.Editor.LayoutRuns
import Oxvim.Editor.LayoutResize
import Oxvim.Editor.Tabpage
import Oxvim.Editor.TabpageOps
import Oxvim.Editor.TabpageRuns
import Oxvim.Editor.Session
import Oxvim.Editor.SessionInvariant
import Oxvim.Editor.SessionOps
import Oxvim.Editor.SessionSplit
import Oxvim.Editor.SessionClose
import Oxvim.Editor.SessionRuns
import Oxvim.Editor.SessionContext
import Oxvim.Editor.Register
import Oxvim.Editor.RegisterRuns
import Oxvim.Editor.Keys
import Oxvim.Editor.Mapping
import Oxvim.Editor.MappingRuns
import Oxvim.Lib.Utf8Char
import Oxvim.Lib.Utf8Lossy
import Oxvim.Lib.Utf8Boundary
import Oxvim.Lib.Glob
import Oxvim.Lib.Quoted
import Oxvim.Lib.OrderedSearch
import Oxvim.Lib.Repetition
import Oxvim.Lib.Trim
import Oxvim.Editor.TextObject
import Oxvim.Editor.Typeahead
import Oxvim.Editor.TypeaheadRuns
import Oxvim.Editor.Shift
import Oxvim.Editor.Indent
import Oxvim.Editor.FlatText
import Oxvim.Editor.WordMotion
import Oxvim.Editor.Terminal
import Oxvim.Editor.TerminalParser
import Oxvim.Editor.TerminalSteps
import Oxvim.Editor.TerminalControls
import Oxvim.Editor.TerminalRender
import Oxvim.Editor.TerminalColumn
import Oxvim.Editor.TerminalGlyphs
import Oxvim.Editor.TerminalRuns
import Oxvim.Editor.TerminalText
import Oxvim.Regex.Pattern
import Oxvim.Regex.Backtrack
import Oxvim.Regex.Nfa
import Oxvim.Regex.Priority
import Oxvim.Regex.Leftmost
import Oxvim.Regex.Limits
import Oxvim.Regex.Results
import Oxvim.Regex.Program
import Oxvim.Regex.Compiled
import Oxvim.Regex.Fallbacks
import Oxvim.Regex.NfaSearch
import Oxvim.Regex.NfaSteps
import Oxvim.Regex.MatchPositions
import Oxvim.Regex.Engines
import Oxvim.Ui.Grid
import Oxvim.Ui.Channel
import Oxvim.Ui.GridLines
import Oxvim.Ui.GridMirror
import Oxvim.Ui.RedrawBatch
import Oxvim.Ui.Emitter
import Oxvim.Ui.GridWrite
import Oxvim.Ui.GridWhole
import Oxvim.Ui.GridFrame
import Oxvim.Ui.GridScroll
import Oxvim.Ui.MessageWrap
import Oxvim.Ui.PopupMenu
import Oxvim.Ui.WrappedCursor
import Oxvim.Ui.Highlight
import Oxvim.Ui.Compositor
import Oxvim.Ui.CompositorWhole
import Oxvim.Ui.CompositorRuns
import Oxvim.Lib.Walk
import Oxvim.Lib.Sweep
import Oxvim.Lib.TabStops
import Oxvim.Lib.Tiling
import Oxvim.Eval.Typval
import Oxvim.Eval.ValuesEqual
import Oxvim.Eval.DeepCopy
import Oxvim.Lib.LevelSearch
import Oxvim.Lib.Modify
import Oxvim.Lib.Escaped
import Oxvim.Lib.Greedy
import Oxvim.Lib.Ascii
import Oxvim.Lib.Runs
import Oxvim.Eval.DeepCopyGraph
import Oxvim.Eval.LockValue
import Oxvim.Eval.KeyEscape
import Oxvim.Eval.Lexer
import Oxvim.Eval.LexerGrammar
import Oxvim.Eval.LexerStrings
import Oxvim.Eval.LexerNumbers
import Oxvim.Eval.LexerWords
import Oxvim.Eval.LexerTokens
import Oxvim.Eval.Tokenize
import Oxvim.Eval.TokenizeRuns
import Oxvim.Eval.DeepCopyRuns
import Oxvim.Eval.Equality
import Oxvim.Eval.EqualityDecides
import Oxvim.Eval.EqualityLaws
import Oxvim.Eval.Scope
import Oxvim.Editor.Autocmd
import Oxvim.Editor.AutocmdRuns
import Oxvim.Editor.AutocmdPatterns
import Oxvim.Editor.Lvalue
import Oxvim.Editor.LvalueSplit
import Oxvim.Editor.MatchingPair
import Oxvim.Editor.OptionList
import Oxvim.Editor.OptionListLaws
import Oxvim.Editor.Retab
import Oxvim.Editor.Search
import Oxvim.Editor.SearchPositions
import Oxvim.Editor.Quickfix
import Oxvim.Editor.DiffFolds
import Oxvim.Editor.ErrorFormat
import Oxvim.Editor.ErrorFormatItems
import Oxvim.Editor.FloatCoordinate
import Oxvim.Editor.ExtmarkText
