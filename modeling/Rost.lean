import Rost.Memory.Early
import Rost.Process.Provenance
import Rost.Scheduler.Running
import Rost.Scheduler.Wakeup
import Rost.Scheduler.Deadlock
import Rost.Scheduler.Rates
import Rost.Scheduler.Preemption
import Rost.Scheduler.Realtime
import Rost.Scheduler.Budget
import Rost.Scheduler.Audit
import Rost.Kernel.Naming
import Rost.Kernel.Receive
import Rost.Kernel.UserPtr
import Rost.Kernel.Drivers
import Rost.Kernel.Identity
import Rost.Kernel.Isolation
import Rost.Libc.Reading
import Rost.Libc.Descriptors
import Rost.Libc.Signal
import Rost.Block.Driver
import Rost.Net.Stream
import Rost.Net.Owners
import Rost.Vfs.Failure
import Rost.Vfs.Slashes
import Rost.Vfs.Sessions
import Rost.Vfs.LongNames
import Rost.Vfs.SectorCall
import Rost.Libc.Reuse
import Rost.Net.Datagrams
import Rost.Net.Headers
import Rost.Net.Echo
import Rost.Net.Receive
import Rost.Init.Faults
import Rost.Init.Clients
import Rost.Shell.Maps
import Rost.Shell.Tokens
import Rost.Shell.AndOr
import Rost.Shell.Arguments
import Rost.Shell.References
import Rost.Shell.Nesting
import Rost.Shell.Search
import Rost.Shell.Addressing
import Rost.Shell.Dialogue
import Rost.Kernel.ExecLoad
import Rost.Kernel.CrashLog
import Rost.Acpi.Dmar
import Rost.Kernel.Protection
import Rost.Gop.Erasing
import Rost.Gop.Colours
import Rost.Gop.Mirror
import Rost.Kernel.Lives
