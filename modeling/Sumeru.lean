import Sumeru.Library.Clocked
import Sumeru.Library.DelayLine
import Sumeru.Library.Toggle
import Sumeru.Library.Traced
import Sumeru.Library.Ring
import Sumeru.Library.IntelHex
import Sumeru.Library.NorFlash
import Sumeru.Cpu.Types
import Sumeru.Cpu.Datapath
import Sumeru.Cpu.Ifetch
import Sumeru.Cpu.Idecode
import Sumeru.Cpu.Iexec
import Sumeru.Cpu.Pipeline
import Sumeru.Cpu.ControlFlow
import Sumeru.Cpu.Forwarding
import Sumeru.Cpu.CsrAccess
import Sumeru.Cpu.CsrCounters
import Sumeru.Cpu.CsrDevices
import Sumeru.Cpu.Shifter
import Sumeru.Cpu.Rv32
import Sumeru.Memory.Arbitrator
import Sumeru.Memory.SdramController
import Sumeru.Memory.System
import Sumeru.Memory.Refresh
import Sumeru.Memory.CommandTiming
import Sumeru.Memory.Arbitration
import Sumeru.Memory.SdramDevice
import Sumeru.Memory.SdramMemory
import Sumeru.Memory.Channel
import Sumeru.Cache.ReadCache
import Sumeru.Cache.InstructionFetch
import Sumeru.Cache.ReadWriteCache
import Sumeru.Cache.MemOps
import Sumeru.Cache.Operations
import Sumeru.Cache.Coherence
import Sumeru.Memory.PeriphDma
import Sumeru.Memory.MemoryLoader
import Sumeru.Cache.Requests
import Sumeru.Cpu.Instructions
import Sumeru.Cpu.MulDiv
import Sumeru.Cpu.Targets
import Sumeru.Cpu.IntrController
import Sumeru.Cache.DataCache
import Sumeru.Cache.LoadStore
import Sumeru.Cache.Refinement
import Sumeru.Cache.RangeFlush
import Sumeru.Uart.Receiver
import Sumeru.Uart.Driver
import Sumeru.Uart.Reception
import Sumeru.Uart.ReceivePath
import Sumeru.Uart.ReceiveBuffer
import Sumeru.Uart.Transmitter
import Sumeru.Cpu.PureReads
import Sumeru.Cpu.PowerUp
import Sumeru.Uart.UartDma
import Sumeru.Uart.TransmitEngine
import Sumeru.Uart.Loopback
import Sumeru.Drivers.Consprod
import Sumeru.Drivers.ReturnValues
import Sumeru.Uart.TransmitDriver
import Sumeru.Uart.TransmitPath
import Sumeru.Bootloader.Genbootcode
import Sumeru.Tools.SpiFlash
import Sumeru.Bootloader.UartClient
import Sumeru.Bootloader.BootRom
import Sumeru.Bootloader.BootLoad
import Sumeru.Bootloader.BootCommands
import Sumeru.Bootloader.CommandBuffer
import Sumeru.Bootloader.BluetoothClient
import Sumeru.Cpu.Rv32Machine
import Sumeru.Cpu.Hart
import Sumeru.Cpu.ProgramExecution
import Sumeru.Cache.FetchProgress
import Sumeru.Cpu.ProgramMemory
import Sumeru.Cpu.Computer
import Sumeru.Cpu.MemoryChannels
import Sumeru.Cpu.SharedMemory
import Sumeru.Library.CircularList
import Sumeru.Library.ByteMemory
import Sumeru.Libc.Malloc
import Sumeru.Libc.Headers
import Sumeru.Libc.BlockLists
import Sumeru.Libc.Heap
import Sumeru.Libc.HeapRuns
import Sumeru.Libc.Realloc
import Sumeru.Libc.Numerals
import Sumeru.Libc.Tinyprintf
import Sumeru.Libc.Vsscanf
import Sumeru.Library.ExchangeSort
import Sumeru.Libc.Qsort
import Sumeru.Cpu.PreciseInterrupts
import Sumeru.Cpu.InterruptDelivery
import Sumeru.Cpu.InterruptEntry
