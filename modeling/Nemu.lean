import Nemu.Memory.Bounds
import Nemu.X86.Reg
import Nemu.Expr.Correct
import Nemu.Expr.Lexing
import Nemu.Expr.Oracle
import Nemu.Expr.Accepts
import Nemu.Monitor.WatchpointPool
import Nemu.X86.MovCorrect
import Nemu.Monitor.Terminal
import Nemu.Monitor.TraceFits
import Nemu.Monitor.DiffTestRun
import Nemu.Memory.ByteStore
import Nemu.Memory.Registration
import Nemu.Device.Keyboard
import Nemu.Monitor.SingleStep
import Nemu.X86.History
import Nemu.Monitor.RefImage
import Nemu.Monitor.UiSteps
import Nemu.QemuDiff.BlockTransfer
import Nemu.Riscv32.Correct
import Nemu.Mips32.Correct
import Nemu.Monitor.WatchpointCreate
import Nemu.Monitor.WatchpointDelete
import Nemu.X86.RegViews
import Nemu.Expr.Recorded
import Nemu.Expr.LexerWrites
import Nemu.Expr.CallerFlag
import Nemu.Expr.Deref
import Nemu.Expr.OuterMatch
import Nemu.X86.DivideFault
import Nemu.X86.Returns
import Nemu.Memory.IOSpace
import Nemu.Expr.Htoi
import Nemu.Expr.StackRuns
import Nemu.NanosLite.Ramdisk
import Nemu.Monitor.UiCalls
import Nemu.Monitor.Examine
import Nemu.Mips32.Programs
import Nemu.Monitor.Lockstep
import Nemu.QemuDiff.Conversation
import Nemu.QemuDiff.RecvBuffer
import Nemu.QemuDiff.Target
import Nemu.Riscv32.Programs
import Nemu.Device.BoardHistory
import Nemu.Monitor.Watching
import Nemu.NanosLite.PageAllocator
import Nemu.Monitor.Main
import Nemu.X86.RtlMachine
