import Ncc.Load
import Ncc.Slvn
import Ncc.ConstProp
import Ncc.Coal
import Ncc.Testz
import Ncc.SwitchCases
import Ncc.Liveness
import Ncc.Dead
import Ncc.TestzEarly
import Ncc.Thread
import Ncc.ThreadRun
import Ncc.Cast
import Ncc.Fold
import Ncc.Simplify
import Ncc.Dealias
import Ncc.WebsRun
import Ncc.Cpp.Select
import Ncc.Cpp.Evaluate
import Ncc.Cpp.Semantics
import Ncc.Color
import Ncc.Scope
import Ncc.Agree
import Ncc.LexFile
import Ncc.Number
import Ncc.Lookup
import Ncc.Amd64.SelxnRun
import Ncc.LiveCcs
import Ncc.FoldHost
import Ncc.Gen.Sign
import Ncc.Gen.FieldRun
import Ncc.Gen.Algebra
import Ncc.Algebra
import Ncc.CopyGlobal
import Ncc.MapBinary
import Ncc.Libc.MallocSafe
import Ncc.Output
import Ncc.Amd64.CallSite
import Ncc.Amd64.Blkcopy
import Ncc.Amd64.Frame
import Ncc.Decl.Layout
import Ncc.Decl.Declarator
import Ncc.Strlit
import Ncc.Cpp.Gather
import Ncc.Cpp.Input
import Ncc.Cpp.Comments
import Ncc.RegNames
import Ncc.Loop
import Ncc.Interf
import Ncc.Merge
import Ncc.Asm
import Ncc.Sched
import Ncc.Stringize
import Ncc.Decl.Image
import Ncc.Sets
import Ncc.InsnList
import Ncc.Amd64.Insn
import Ncc.Amd64.Spill
import Ncc.Amd64.Cpu
import Ncc.Amd64.Effect
import Ncc.Lib.Simulation
import Ncc.Stmt.Code
import Ncc.Stmt.Run
import Ncc.Stmt.Grow
import Ncc.Stmt.Gen
import Ncc.Stmt.Mark
import Ncc.Stmt.Lower
import Ncc.Stmt.LowerSwitch
import Ncc.Stmt.Correct
