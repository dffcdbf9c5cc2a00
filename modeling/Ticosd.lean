import Ticosd.QueueInterleave
import Ticosd.QueueReset
import Ticosd.QueueBounds
import Ticosd.ConfigMerge
import Ticosd.RateLimiter
import Ticosd.CborDecode
import Ticosd.RebootFreshness
import Ticosd.Attributes
import Ticosd.CoreElfReader
import Ticosd.CoreFiles
import Ticosd.CoreElfTransformer
import Ticosd.ProcessLoop
import Ticosd.QueueChecksum
import Ticosd.UploadResult
import Ticosd.ConfigRuntime
import Ticosd.Collectd
import Ticosd.ReaderFollows
import Ticosd.TransformerWarnings
import Ticosd.SegmentArray
import Ticosd.QueueWriteEffect
import Ticosd.QueueStartup
import Ticosd.QueueGenuine
import Ticosd.LoadCopy
import Ticosd.CoreElfLayout
import Ticosd.MetadataNote
import Ticosd.StorageLimits
import Ticosd.SegmentCount
import Ticosd.CoreElfFileIo
import Ticosd.WriterEnds
import Ticosd.ReaderProtocol
import Ticosd.DescriptorRead
import Ticosd.ConfigLookup
import Ticosd.WriterRefines
import Ticosd.ConfigObjects
import Ticosd.QueueCreate
import Ticosd.DeviceSettings
import Ticosd.NoteFormat
import Ticosd.ParseAttributes
import Ticosd.GzipIo
import Ticosd.QueueCutImage
import Ticosd.QueuePowerCut
import Ticosd.LossyFifo
import Ticosd.QueueFifo
import Ticosd.QueueRetention
import Ticosd.QueueTransmit
import Ticosd.GzipWriter
import Ticosd.StoredCore
import Ticosd.CoreQuota
import Ticosd.CoreHandler
import Ticosd.Requests
import Ticosd.PidFile
import Ticosd.UploadProtocol
