import Veni.Lib.Tokens
import Veni.Lib.Transition
import Veni.Memory.KernelFrames
import Veni.Memory.Vmm
import Veni.Memory.PageTables
import Veni.Memory.KernelMemory
import Veni.Lib.Blocks
import Veni.Lib.ByteMemory
import Veni.Memory.Heap
import Veni.Memory.HeapHeaders
import Veni.Memory.HeapBlocks
import Veni.Memory.HeapOperations
import Veni.Memory.HeapInvariant
import Veni.Memory.HeapAllocations
import Veni.Memory.HeapCoalescing
import Veni.Memory.HeapDoubleFree
import Veni.Memory.HeapPages
import Veni.Memory.HeapGrowth
import Veni.Memory.HeapFrames
import Veni.Memory.HeapTables
import Veni.Memory.PmmAccount
import Veni.Memory.PmmNull
import Veni.Memory.PmmInit
import Veni.Memory.HeapBounds
import Veni.Memory.HeapFailure
import Veni.Memory.PageExhaustion
import Veni.Lib.NameGraph
import Veni.Filesystem.Ramfs
import Veni.Filesystem.RamfsInvariant
import Veni.Filesystem.RamfsResults
import Veni.Filesystem.RamfsPaths
import Veni.Filesystem.RamfsSlots
import Veni.Filesystem.RamfsNames
import Veni.Filesystem.RamfsStorage
import Veni.Filesystem.RamfsAlike
import Veni.Lib.FirstMax
import Veni.Filesystem.VfsResolve
import Veni.Filesystem.VfsOperations
import Veni.Filesystem.VfsEnds
import Veni.Filesystem.VfsEntries
import Veni.Filesystem.VfsCreate
import Veni.Filesystem.VfsFiles
import Veni.Filesystem.VfsSimulation
import Veni.Filesystem.VfsNamespace
import Veni.Filesystem.VfsOutcome
import Veni.Filesystem.VfsAtomic
import Veni.Filesystem.VfsRoundTrip
import Veni.Filesystem.VfsIsolation
import Veni.Filesystem.VfsFormed
import Veni.Filesystem.VfsMounts
import Veni.Filesystem.VfsUnmount
import Veni.Filesystem.VfsAlike
import Veni.Filesystem.VfsWrites
import Veni.Lib.WordMemory
import Veni.Interrupts.IrqStub
import Veni.Interrupts.IrqReturn
import Veni.Lib.RingQueue
import Veni.Drivers.Keyboard
import Veni.Drivers.KeyQueue
import Veni.Drivers.KeyModifiers
import Veni.Drivers.KeyAscii
import Veni.Lib.TextRows
import Veni.Lib.Numerals
import Veni.Libc.Printf
import Veni.Libc.PrintfRender
import Veni.Libc.PrintfDecimal
import Veni.Drivers.Terminal
import Veni.Drivers.TerminalLayout
import Veni.Libc.Memmove
import Veni.Libc.Strtok
import Veni.Libc.PrintfCount
import Veni.Filesystem.VfsComponents
import Veni.Lib.Logged
import Veni.Libc.StringBuffers
import Veni.Filesystem.VfsCreateLog
import Veni.Filesystem.VfsPrefixes
import Veni.Filesystem.VfsTokens
import Veni.Lib.OracleRuns
import Veni.Memory.HeapContents
import Veni.Memory.HeapMalloc
import Veni.Lib.LineEndings
import Veni.Lib.Uart
import Veni.Drivers.Serial
import Veni.Libc.Console
import Veni.Lib.TextScreen
import Veni.Drivers.TerminalScreen
import Veni.Drivers.TerminalEditing
import Veni.Interrupts.Exception
import Veni.Lib.PortProgram
import Veni.Lib.InterruptController
import Veni.Interrupts.Pic
import Veni.Lib.IntervalTimer
import Veni.Drivers.Pit
import Veni.Interrupts.Irq
import Veni.Interrupts.IrqProtocol
import Veni.Interrupts.IrqProgress
import Veni.Drivers.Typing
import Veni.Lib.Segments
import Veni.Interrupts.Descriptors
import Veni.Lib.WordStack
import Veni.Interrupts.ExceptionEntry
import Veni.Lib.TranslationCache
import Veni.Memory.Mmu
import Veni.Libc.StringOrder
import Veni.Libc.StringCopy
import Veni.Filesystem.RamfsBytes
import Veni.Filesystem.RamfsLookup
import Veni.Filesystem.RamfsEntries
import Veni.Filesystem.RamfsRefinement
