import RacOS.Block.CacheNoSteal
import RacOS.Racfs.Search
import RacOS.Vfs.TmpfsSpace
import RacOS.Vfs.TmpfsContents
import RacOS.Vfs.Pipe
import RacOS.Mm.FrameLedger
import RacOS.Mm.FreeGap
import RacOS.Elf.Safety
import RacOS.Task.Privilege
import RacOS.Task.Fairness
import RacOS.Task.LoadFrames
import RacOS.Task.Stopped
import RacOS.Syscall.FrameOwner
import RacOS.Syscall.Vectored
import RacOS.Syscall.CloneContext
import RacOS.Syscall.ReturnPaths
import RacOS.Syscall.WorkingDirectory
import RacOS.Net.TcpTimer
import RacOS.Net.TcpIsolation
import RacOS.Net.Listeners
import RacOS.Net.Resolver
import RacOS.Net.TcpAdvertise
import RacOS.Net.TcpFlow
import RacOS.Net.TcpEof
import RacOS.Net.ConnectFailure
import RacOS.Drivers.Transmit
import RacOS.Tty.Pty
import RacOS.Tty.PtyInput
import RacOS.RacInit.Supervision
import RacOS.RacInit.Restarts
import RacOS.RacInit.Directives
import RacOS.Shell.Substitution
import RacOS.Shell.Aliases
import RacOS.Shell.DoubleQuotes
import RacOS.Terminal.Printed
import RacOS.Terminal.Scrollback
import RacOS.Terminal.Transcript
import RacOS.Racfs.Regions
import RacOS.Coreutils.Grep
import RacOS.Coreutils.Mv
