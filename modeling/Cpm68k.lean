import Cpm68k.Library.Splice
import Cpm68k.Library.Struct
import Cpm68k.Library.Rebase
import Cpm68k.Library.Dict
import Cpm68k.Tools.CpmFile
import Cpm68k.Tools.RelocTable
import Cpm68k.Tools.CpmCodec
import Cpm68k.Tools.ElfLoader
import Cpm68k.Tools.Elf2Cpm
import Cpm68k.Tools.SegmentTargets
import Cpm68k.Library.ShortWrites
import Cpm68k.Tools.Elf2Cpm68k
import Cpm68k.Tools.ElfRelocs
import Cpm68k.Tools.CpmOutput
import Cpm68k.Tools.RelocStream
import Cpm68k.Tools.CpmProgram
import Cpm68k.Tools.StoredElf
import Cpm68k.Tools.Relinked
import Cpm68k.Tools.Converters
import Cpm68k.Library.Hoare
import Cpm68k.Library.Blocks
import Cpm68k.Library.Sync
import Cpm68k.Library.Stream
import Cpm68k.Library.Memory
import Cpm68k.Library.Bump
import Cpm68k.Cpmlib.Osif
import Cpm68k.Cpmlib.CcbBytes
import Cpm68k.Cpmlib.Console
import Cpm68k.Cpmlib.FileIo
import Cpm68k.Cpmlib.Parsefn
import Cpm68k.Cpmlib.FileNames
import Cpm68k.Cpmlib.DriveCodes
import Cpm68k.Cpmlib.TokenBuffer
import Cpm68k.Cpmlib.Channels
import Cpm68k.Cpmlib.UserNumber
import Cpm68k.Cpmlib.Coupling
import Cpm68k.Cpmlib.Mode
import Cpm68k.Cpmlib.ChannelAlloc
import Cpm68k.Cpmlib.Descriptors
import Cpm68k.Cpmlib.AccessMode
import Cpm68k.Cpmlib.UserRestored
import Cpm68k.Cpmlib.RecordStore
import Cpm68k.Cpmlib.MemStore
import Cpm68k.Cpmlib.BinaryWrite
import Cpm68k.Cpmlib.FlatFile
import Cpm68k.Cpmlib.FstatQuery
import Cpm68k.Cpmlib.StoreCalls
import Cpm68k.Cpmlib.OpenFile
import Cpm68k.Cpmlib.Content
import Cpm68k.Cpmlib.BinaryRead
import Cpm68k.Cpmlib.LastWriter
import Cpm68k.Cpmlib.TwoChannels
import Cpm68k.Cpmlib.Sequential
import Cpm68k.Cpmlib.BinaryCopy
import Cpm68k.Cpmlib.AsciiText
import Cpm68k.Cpmlib.AsciiFile
import Cpm68k.Cpmlib.Coherence
import Cpm68k.Cpmlib.AsciiSessions
import Cpm68k.Cpmlib.AsciiOverwrite
import Cpm68k.Cpmlib.SectorNumbers
import Cpm68k.Cpmlib.FailedSeek
import Cpm68k.Cpmlib.FailedTransfers
import Cpm68k.Cpmlib.FailedWrites
import Cpm68k.Cpmlib.FailedReads
import Cpm68k.Cpmlib.ReadExtent
import Cpm68k.Cpmlib.ReadFrame
import Cpm68k.Cpmlib.SplitReads
import Cpm68k.Cpmlib.DeviceOutput
import Cpm68k.Cpmlib.OutputBuffer
import Cpm68k.Cpmlib.OutputLines
import Cpm68k.Cpmlib.TabExpansion
import Cpm68k.Cpmlib.TerminalRead
import Cpm68k.Cpmlib.TerminalSettings
import Cpm68k.Cpmlib.CommandTail
import Cpm68k.Cpmlib.Sbrk
import Cpm68k.Cpmlib.ExactWrites
import Cpm68k.Cpmlib.CleanRead
import Cpm68k.Cpmlib.AsciiRead
import Cpm68k.Cpmlib.EndOfFile
import Cpm68k.Cpmlib.AsciiSplit
import Cpm68k.Library.Parts
import Cpm68k.Cpmlib.Media
import Cpm68k.Library.Refine
import Cpm68k.Cpmlib.RandomFile
import Cpm68k.Cpmlib.DiskStore
import Cpm68k.Cpmlib.FileSystem
import Cpm68k.Cpmlib.Startup
import Cpm68k.Cpmlib.CommandWords
import Cpm68k.Cpmlib.ReadBounds
import Cpm68k.Cpmlib.ChannelKinds
import Cpm68k.Cpmlib.SettingsUnseen
import Cpm68k.Tools.WrittenFile
