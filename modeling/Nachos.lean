import Nachos.Lib.Run
import Nachos.Lib.WaitQueue
import Nachos.Lib.Occupancy
import Nachos.Lib.Bytes
import Nachos.Lib.DoubleWord
import Nachos.Lib.WriteBack
import Nachos.Lib.Exec
import Nachos.Lib.Rotation
import Nachos.Lib.SlotTable
import Nachos.Lib.Chain
import Nachos.Threads.List
import Nachos.Threads.LinkedList
import Nachos.Threads.Scheduler
import Nachos.Threads.ThreadTable
import Nachos.Threads.Reaping
import Nachos.Threads.Priority
import Nachos.Threads.Timer
import Nachos.Threads.Semaphore
import Nachos.Threads.Lock
import Nachos.Threads.LockHolder
import Nachos.Threads.Condition
import Nachos.Threads.SynchList
import Nachos.Threads.Protocol
import Nachos.Threads.ReadersWriter
import Nachos.Threads.Monitor
import Nachos.Threads.BoundedBuffer
import Nachos.Threads.Barrier
import Nachos.Threads.Switch
import Nachos.Threads.ContextSwitch
import Nachos.Machine.Interrupt
import Nachos.Machine.DueOrder
import Nachos.Machine.DueLoop
import Nachos.Machine.Memory
import Nachos.Machine.Paging
import Nachos.Machine.PageTable
import Nachos.Machine.Tlb
import Nachos.Machine.Mips
import Nachos.Machine.Mult
import Nachos.Machine.Limits
import Nachos.Machine.Restart
import Nachos.Machine.Alu
import Nachos.Machine.OneInstruction
import Nachos.Machine.Overflow
import Nachos.Machine.Jumps
import Nachos.Machine.NoCrash
import Nachos.Machine.DiskTime
import Nachos.Userprog.BitMap
import Nachos.Userprog.BitMapSet
import Nachos.Userprog.Process
import Nachos.Userprog.Isolation
import Nachos.Userprog.Sharing
import Nachos.Userprog.Registers
import Nachos.Userprog.Join
import Nachos.Userprog.Syscall
import Nachos.Userprog.RegisterFile
import Nachos.Userprog.UserCopy
import Nachos.Userprog.ConsoleTest
import Nachos.Userprog.ConsoleLoss
import Nachos.Filesys.SynchDisk
import Nachos.Filesys.Layout
import Nachos.Filesys.FlatFile
import Nachos.Filesys.RequestBounds
import Nachos.Filesys.Allocate
import Nachos.Filesys.Directory
import Nachos.Filesys.FileSystem
import Nachos.Filesys.Volume
import Nachos.Filesys.Ownership
import Nachos.Filesys.Reboot
import Nachos.Filesys.DirectoryMap
import Nachos.Filesys.Remove
import Nachos.Filesys.Space
import Nachos.Filesys.ByteToSector
import Nachos.Filesys.CreateFrame
import Nachos.Filesys.Discard
import Nachos.Filesys.Pipe
import Nachos.Network.Wire
import Nachos.Network.PostOffice
import Nachos.Network.PostalWorker
import Nachos.Network.Delivery
import Nachos.Bin.Coff2Noff
import Nachos.Bin.Image
import Nachos.Userprog.AddrSpace
import Nachos.Userprog.ProgramImage
