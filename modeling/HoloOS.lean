import HoloOS.BaseLinks
import HoloOS.ListHeap
import HoloOS.ThreadKernel
import HoloOS.ThreadScheduler
import HoloOS.BaseMonitor
import HoloOS.SyncSemaphore
import HoloOS.SyncMachine
import HoloOS.SyncTyping
import HoloOS.SyncLists
import HoloOS.SyncInvariant
import HoloOS.SyncEvents
import HoloOS.SyncAssignments
import HoloOS.SyncTagSafety
import HoloOS.SyncSpin
import HoloOS.SyncPosition
import HoloOS.SyncLock
import HoloOS.DeviceIoqueue
import HoloOS.SyncFlag
import HoloOS.MemoryBitmap
import HoloOS.DeviceKeyboard
import HoloOS.DeviceKeyboardRuns
import HoloOS.BasePaging
import HoloOS.MemoryPages
import HoloOS.MemoryWindow
import HoloOS.MemoryFrames
import HoloOS.MemoryTables
import HoloOS.MemoryAlloc
import HoloOS.MemoryFree
import HoloOS.MemoryContents
import HoloOS.MemoryBlocks
import HoloOS.MemoryBoot
import HoloOS.MemoryProcess
import HoloOS.MemoryCreation
import HoloOS.MemoryRuns
import HoloOS.MemoryCount
import HoloOS.MemoryAliasing
import HoloOS.MemoryPacked
import HoloOS.MemoryFailure
import HoloOS.MemoryLayout
import HoloOS.ListFamily
import HoloOS.BootMemory
import HoloOS.DeviceConsole
import HoloOS.MemoryMapping
import HoloOS.DeviceTerminal
import HoloOS.ThreadRoundRobin
import HoloOS.MemoryCache
import HoloOS.MemoryTableFrames
import HoloOS.MemoryKernelSpace
import HoloOS.BaseBytes
import HoloOS.LibString
import HoloOS.LibSearch
import HoloOS.LibStdio
import HoloOS.LibFormat
import HoloOS.DeviceModifiers
import HoloOS.ThreadPids
import HoloOS.ThreadFirstFrame
import HoloOS.BaseStores
import HoloOS.BootKernelInit
import HoloOS.ThreadFailure
import HoloOS.HeapWords
import HoloOS.HeapLists
import HoloOS.HeapPages
import HoloOS.HeapArenas
import HoloOS.HeapMoves
import HoloOS.HeapRegions
import HoloOS.HeapCalls
import HoloOS.HeapSteps
import HoloOS.HeapStates
import HoloOS.HeapMalloc
import HoloOS.HeapFree
import HoloOS.HeapInit
import HoloOS.HeapSpaces
import HoloOS.HeapRuns
import HoloOS.HeapAccounts
import HoloOS.HeapCache
import HoloOS.HeapBoot
import HoloOS.HeapSafety
import HoloOS.BaseX86
import HoloOS.InterruptEntry
import HoloOS.InterruptSyscall
import HoloOS.ThreadSwitch
import HoloOS.InterruptProcess
import HoloOS.InterruptGates
