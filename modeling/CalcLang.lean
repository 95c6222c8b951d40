import CalcLang.Libuv.Tcp
import CalcLang.Libuv.Completion
import CalcLang.Libuv.StartUp
import CalcLang.Libuv.Queue
import CalcLang.Libuv.Jobs
import CalcLang.Slices.Safety
import CalcLang.Slices.Capacity
import CalcLang.Strings.Values
import CalcLang.Linkedlist.Refinement
import CalcLang.Coro.Await
import CalcLang.Coro.WakeUp
import CalcLang.Coro.Scheduler
import CalcLang.Coro.Drain
import CalcLang.Coro.Continuation
import CalcLang.Ast.ControlExact
import CalcLang.Ast.Jumps
import CalcLang.Ast.TerminatorsExact
import CalcLang.Ast.Lexical
import CalcLang.Ast.ShortCircuit
import CalcLang.Ast.Indexing
import CalcLang.Ast.Literals
import CalcLang.Ast.Operands
import CalcLang.Ast.Anonymous
import CalcLang.Ast.AsyncCalls
import CalcLang.Ast.InstanceTable
import CalcLang.Ast.Labels
import CalcLang.Ast.StructInit
import CalcLang.Ast.Aliases
import CalcLang.Ast.Routes
import CalcLang.Ast.Travel
import CalcLang.Ast.DeReference
import CalcLang.Ast.FrameExact
import CalcLang.Ast.Clearing
import CalcLang.Ast.InstancesExact
import CalcLang.Ast.GeneratorRefine
import CalcLang.Ast.DryRunExact
import CalcLang.Ast.ScopeExact
import CalcLang.Lex.Layout
import CalcLang.Lex.Strings
import CalcLang.Module.Loops
import CalcLang.Module.OrderExact
import CalcLang.Task.Completion
import CalcLang.Types.Fixpoint
import CalcLang.Types.Conformance
import CalcLang.Parser.RoundTrip
import CalcLang.Parser.Files
import CalcLang.Parser.Numerals
import CalcLang.Parser.Booleans
import CalcLang.Parser.ChoicesExact
import CalcLang.Parser.Recovery
import CalcLang.Parser.Positions
