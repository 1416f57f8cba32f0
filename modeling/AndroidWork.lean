import AndroidWork.EhabiTable
import AndroidWork.ExceptionHandlerText
import AndroidWork.ExidxDecode
import AndroidWork.ExidxDecodeTable
import AndroidWork.BitmapOwnership
import AndroidWork.Compositing
import AndroidWork.EhFrameWalk
import AndroidWork.ExidxProgress
import AndroidWork.FiniteLoop
import AndroidWork.FrameQueueDeadlock
import AndroidWork.FrameQueueOrder
import AndroidWork.GifCanvas
import AndroidWork.GifLzwSafety
import AndroidWork.GifLzwImages
import AndroidWork.GifFileModes
import AndroidWork.GifStreamPlayer
import AndroidWork.WebpCanvas
import AndroidWork.CrashSignals
import AndroidWork.InotifyWatches
import AndroidWork.PeekStream
import AndroidWork.MemLeak
import AndroidWork.ElfHook
import AndroidWork.GifCanvasPlaces
import AndroidWork.GifPaletteRuns
import AndroidWork.GifRawAgreement
import AndroidWork.GifExport
import AndroidWork.DumpHandshake
import AndroidWork.GifImageEnd
import AndroidWork.GifInputStream
import AndroidWork.GifGraphics
import AndroidWork.GifflenReadBack
import AndroidWork.GifInterlace
import AndroidWork.ExidxStatus
import AndroidWork.NeuQuantQuantise
import AndroidWork.NeuQuantBounds
import AndroidWork.GifLzwReference
import AndroidWork.GifLzwAccesses
import AndroidWork.Leb128Shifts
import AndroidWork.ElfSymbols
import AndroidWork.RealPc
import AndroidWork.MemoryNearby
import AndroidWork.ElfHookEffect
import AndroidWork.ImageHeaderParser
import AndroidWork.StackBlurPasses
import AndroidWork.SampleSize
import AndroidWork.RedoWorker
import AndroidWork.BackTraceUtils
import AndroidWork.CommutingWords
import AndroidWork.InstallDex
import AndroidWork.FileTree
import AndroidWork.FileOperator
import AndroidWork.CopyDirWalk
import AndroidWork.CopyDirEnd
import AndroidWork.CopyDirRight
import AndroidWork.GifLzwFindHash
import AndroidWork.ArmTrampoline
import AndroidWork.ThumbTrampoline
import AndroidWork.ThumbDeviations
import AndroidWork.InlineHookCode
import AndroidWork.InlineHookThreads
import AndroidWork.EhStepCallers
