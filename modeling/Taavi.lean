import Taavi.Heap.Sessions
import Taavi.Kernel.Lifecycle
import Taavi.Kernel.HailMary
import Taavi.Kernel.Blocking
import Taavi.Kernel.Kills
import Taavi.Kernel.Results
import Taavi.Memory.DirectMap
import Taavi.Memory.KernelHalf
import Taavi.Fat.Bounds
import Taavi.Kernel.Turns
import Taavi.Kernel.Running
import Taavi.Memory.Accounting
import Taavi.Memory.Teardown
import Taavi.Fat.Names
import Taavi.Fs.Climbing
import Taavi.Fs.Streams
import Taavi.Kernel.KeyQueue
import Taavi.Fat.Mirrors
import Taavi.X64.Kstacks
import Taavi.Fat.Failures
import Taavi.Fs.Deletes
import Taavi.Fat.RoundTrips
import Taavi.Fat.Additions
import Taavi.Memory.ElfReads
import Taavi.X64.Ranges
import Taavi.User.Readline
import Taavi.Gui.Repainting
import Taavi.Fat.Formatting
import Taavi.X64.Smp
import Taavi.User.Regions
