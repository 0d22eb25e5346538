import Moxia.Lib.Run
import Moxia.Memory.Manager
import Moxia.Memory.Bits
import Moxia.Memory.Init
import Moxia.Lib.LevelQueues
import Moxia.Task.Manager
import Moxia.Task.Find
import Moxia.Task.RunQueue
import Moxia.Task.Scheduler
import Moxia.Lib.Buffer
import Moxia.Lib.Stream
import Moxia.Task.Inbox
import Moxia.Terminal.Pipe
import Moxia.Terminal.Pipeline
import Moxia.Terminal.PipeStream
import Moxia.Terminal.PipeLifetime
import Moxia.Fat.File
import Moxia.Lib.Chain
import Moxia.Fat.Chains
import Moxia.Fat.WellFormed
import Moxia.Fat.Entry
import Moxia.Fat.Writing
import Moxia.Fat.WriteFile
import Moxia.Fat.Contents
import Moxia.Fat.Readers
import Moxia.Fat.Small
import Moxia.Fat.Appending
import Moxia.Fat.WriteFidelity
import Moxia.Fat.CreateFile
import Moxia.Fat.Invariant
import Moxia.Fat.Paths
import Moxia.Fat.FindCreated
import Moxia.Lib.FirstFit
import Moxia.Memory.Allocate
import Moxia.Memory.Bounds
import Moxia.Lib.PriorityQueue
import Moxia.Timer.Manager
import Moxia.Timer.Fire
import Moxia.Fat.OutOfSpace
import Moxia.Fat.Names
import Moxia.Fat.ReadPaths
import Moxia.Task.Contexts
import Moxia.Task.Wakeups
import Moxia.Terminal.CommandLine
import Moxia.Fat.Resolution
import Moxia.Terminal.Completion
import Moxia.Lib.Trie
import Moxia.Paging.Entry
import Moxia.Paging.Mmu
import Moxia.Paging.Space
import Moxia.Paging.Setup
import Moxia.Paging.Clean
import Moxia.Paging.Halves
import Moxia.Paging.Stores
import Moxia.App.Loader
import Moxia.App.AddressSpace
import Moxia.Paging.Mapping
import Moxia.Paging.Undo
import Moxia.Fat.Allocation
import Moxia.Fat.Listing
import Moxia.Graphics.Console
import Moxia.Terminal.ArgVector
import Moxia.Graphics.Lines
import Moxia.Graphics.Shows
import Moxia.Paging.Identity
import Moxia.Paging.Contents
import Moxia.App.Loading
import Moxia.App.ExecuteFile
import Moxia.App.FileBuffer
import Moxia.Terminal.Buffers
import Moxia.Terminal.Overruns
import Moxia.App.Isolation
import Moxia.App.Leaks
import Moxia.App.Malformed
import Moxia.Input.Keyboard
import Moxia.Graphics.Transcript
import Moxia.Fat.Layout
import Moxia.Boot.LoadKernel
import Moxia.Cpu.Asmfunc
import Moxia.Cpu.Items
import Moxia.Cpu.View
import Moxia.Cpu.SaveContext
import Moxia.Cpu.RestoreContext
import Moxia.Cpu.CallApp
import Moxia.Cpu.Contexts
import Moxia.Cpu.Syscall
import Moxia.Cpu.Switching
import Moxia.Task.Fairness
import Moxia.Terminal.Keystrokes
import Moxia.Timer.Rearm
import Moxia.Terminal.Redirects
import Moxia.App.Neighbours
import Moxia.Lib.Files
import Moxia.Fat.Descriptors
import Moxia.App.FileCalls
import Moxia.Cpu.Applications
import Moxia.Lib.StackMachine
import Moxia.App.Rpn
import Moxia.Graphics.FrameBuffer
