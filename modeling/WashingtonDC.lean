import WashingtonDC.CodeCache
import WashingtonDC.Timeslice
import WashingtonDC.X86.NativeMem
import WashingtonDC.X86.EmitRight
import WashingtonDC.X86.LabelRuns
import WashingtonDC.Jit.Mem
import WashingtonDC.Jit.Determ
import WashingtonDC.Jit.Slots
import WashingtonDC.Arm7.Flags
import WashingtonDC.Arm7.LoadStore
import WashingtonDC.Arm7.BlockTransfer
import WashingtonDC.Arm7.Pipeline
import WashingtonDC.Sh4.Division
import WashingtonDC.Sh4.Mac
import WashingtonDC.Sh4.Pending
import WashingtonDC.Sh4.NextIrq
import WashingtonDC.Sh4.DelaySlot
import WashingtonDC.Sh4.ExceptionReturn
import WashingtonDC.Sh4.Underflow
import WashingtonDC.Sh4.ScifRuns
import WashingtonDC.Sh4.StoreQueue
import WashingtonDC.Holly
import WashingtonDC.FlashMem
import WashingtonDC.Gdi
import WashingtonDC.ConfigFile
import WashingtonDC.GdbStub
import WashingtonDC.Fifo
import WashingtonDC.Pvr2.RasterWrites
import WashingtonDC.Pvr2.SpgSync
import WashingtonDC.Pvr2.TaRuns
import WashingtonDC.Pvr2.FbPixels
import WashingtonDC.Pvr2.YuvReports
import WashingtonDC.Pvr2.TexExtent
import WashingtonDC.Pvr2.TexLookups
import WashingtonDC.Gdrom.Runs
import WashingtonDC.Gdrom.Dma
import WashingtonDC.Gdrom.Packets
import WashingtonDC.Aica.Channel
import WashingtonDC.Aica.Interrupts
