import MoveTools.Library.Text
import MoveTools.Library.Splice
import MoveTools.Library.Regex
import MoveTools.Library.Hex
import MoveTools.Library.Decimal
import MoveTools.Library.Loop
import MoveTools.Library.Regroup
import MoveTools.Library.Bech32Code
import MoveTools.Library.Codec
import MoveTools.Library.Uleb
import MoveTools.Library.Runs
import MoveTools.Library.Effects
import MoveTools.Library.Attempt
import MoveTools.Library.Simulation
import MoveTools.Library.Readable
import MoveTools.Library.Identifiers
import MoveTools.Library.Terms
import MoveTools.Library.FileTree
import MoveTools.Compiler.SourceMap
import MoveTools.Compiler.LineEndings
import MoveTools.Compiler.Lines
import MoveTools.Compiler.Parser
import MoveTools.Compiler.LibraAddresses
import MoveTools.Compiler.LibraRewriting
import MoveTools.Compiler.LibraLiterals
import MoveTools.Compiler.LibraTermination
import MoveTools.Compiler.LiteralValues
import MoveTools.Compiler.AddressLayers
import MoveTools.Compiler.Bech32
import MoveTools.Compiler.Bech32Tokens
import MoveTools.Compiler.Ss58
import MoveTools.Compiler.Ss58Tokens
import MoveTools.Compiler.Templates
import MoveTools.Compiler.Senders
import MoveTools.Compiler.Messages
import MoveTools.Compiler.Dialects
import MoveTools.Compiler.Bech32Codec
import MoveTools.Compiler.Accepted.Meaning
import MoveTools.Compiler.Accepted.Libra
import MoveTools.Compiler.Accepted.DFinance
import MoveTools.Compiler.Accepted.Polkadot
import MoveTools.Compiler.AccountAddresses
import MoveTools.Compiler.Builder
import MoveTools.Library.KeyStore
import MoveTools.Executor.Oracles
import MoveTools.Executor.Execution
import MoveTools.Executor.Pipeline
import MoveTools.Executor.Threading
import MoveTools.Executor.Session
import MoveTools.Executor.Reports
import MoveTools.Executor.Expectations
import MoveTools.Executor.WriteSet
import MoveTools.Executor.TagTexts
import MoveTools.LanguageServer.GlobalState
import MoveTools.LanguageServer.MainLoop
import MoveTools.LanguageServer.OpenDocuments
import MoveTools.LanguageServer.Diagnostics
import MoveTools.LanguageServer.VisitingOrder
import MoveTools.LanguageServer.Pool
import MoveTools.LanguageServer.StaleDiagnostics
import MoveTools.Compiler.Location
import MoveTools.Compiler.Positions
import MoveTools.Compiler.Checker
import MoveTools.LanguageServer.Analysis
import MoveTools.LanguageServer.StdlibTexts
import MoveTools.LanguageServer.Configuration
import MoveTools.LanguageServer.DependencyList
import MoveTools.LanguageServer.ChangeLog
import MoveTools.Compat.BinaryFormat
import MoveTools.Compat.Mutator
import MoveTools.Compat.Simultaneous
import MoveTools.Compat.Adapt
import MoveTools.Compat.Pieces
import MoveTools.Compat.Adaptation
import MoveTools.Compat.LibraVm
import MoveTools.Compat.Widening
import MoveTools.Compat.HeaderOrder
import MoveTools.Compat.AddressLengths
import MoveTools.Compat.Overflow
import MoveTools.Compat.AnyBytes
import MoveTools.Library.Collect
import MoveTools.Syntax.Ast
import MoveTools.Index.Meta
import MoveTools.Index.Imports
import MoveTools.Index.Store
import MoveTools.Index.Resolve
import MoveTools.Index.Build
import MoveTools.Index.Sources
import MoveTools.Disassembler.UseList
import MoveTools.Index.Chain
import MoveTools.Index.ChainCache
import MoveTools.Index.Dependencies
import MoveTools.Index.Placeholders
import MoveTools.Disassembler.Unit
import MoveTools.Disassembler.Module
import MoveTools.Disassembler.Generics
import MoveTools.Disassembler.Exp
import MoveTools.Disassembler.Translator
import MoveTools.Disassembler.StackMachine
import MoveTools.Disassembler.Building
import MoveTools.Disassembler.Straight
import MoveTools.Disassembler.Operands
import MoveTools.Disassembler.Fields
import MoveTools.Disassembler.Reconstruction
import MoveTools.Disassembler.Nodes
import MoveTools.Disassembler.Conservation
import MoveTools.Disassembler.Instructions
import MoveTools.Disassembler.Placed
import MoveTools.Disassembler.Layout
import MoveTools.Disassembler.Body
import MoveTools.Disassembler.Statements
import MoveTools.Disassembler.Conditionals
import MoveTools.Disassembler.Interpretation
import MoveTools.Disassembler.Heads
import MoveTools.Disassembler.Settled
import MoveTools.Disassembler.Meaning
import MoveTools.Disassembler.Preservation
import MoveTools.Disassembler.Loops
import MoveTools.Disassembler.Compiled
import MoveTools.Disassembler.Names
import MoveTools.Disassembler.TypeTexts
import MoveTools.Disassembler.SignatureTexts
import MoveTools.Disassembler.Declarations
import MoveTools.Disassembler.DeclarationTexts
import MoveTools.Disassembler.Declared
import MoveTools.Disassembler.Interface
import MoveTools.Dove.Lexer
import MoveTools.Dove.TypeQueries
import MoveTools.Dove.Artifacts
import MoveTools.Dove.Calls
import MoveTools.Dove.CallEnds
import MoveTools.Dove.CallPrinting
import MoveTools.Dove.ScriptArguments
import MoveTools.Dove.ArgumentTypes
import MoveTools.Dove.EncodedArguments
import MoveTools.Dove.ScriptLookup
import MoveTools.Dove.Transactions
import MoveTools.Index.GitNames
import MoveTools.Index.GitResolve
import MoveTools.Index.GitCheckout
import MoveTools.Executor.DocComments
import MoveTools.Executor.MetaComments
import MoveTools.Executor.Constants
