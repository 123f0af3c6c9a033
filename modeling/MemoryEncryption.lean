import MemoryEncryption.Verif.ClockAgreement
import MemoryEncryption.Verif.QueuePointers
import MemoryEncryption.Verif.ForkRace
import MemoryEncryption.Verif.LogCrash
import MemoryEncryption.Verif.Patterns
import MemoryEncryption.Verif.Pipes
import MemoryEncryption.Verif.Reaping
import MemoryEncryption.Verif.SharedOffset
import MemoryEncryption.Verif.References
import MemoryEncryption.Verif.QueueHistory
import MemoryEncryption.Verif.Resizing
import MemoryEncryption.Verif.LineDiscipline
import MemoryEncryption.Verif.BufferCoherence
import MemoryEncryption.Verif.HeapRequests
import MemoryEncryption.Verif.ShellParser
import MemoryEncryption.Verif.MkfsKernel
import MemoryEncryption.Verif.EncryptedRange
import MemoryEncryption.Verif.Placement
import MemoryEncryption.Verif.WorkingSetReports
import MemoryEncryption.Verif.RawDumps
import MemoryEncryption.Verif.Moves
import MemoryEncryption.Verif.NameFields
