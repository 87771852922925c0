import Capsule.Analysis.StorageLaws
import Capsule.Analysis.FaultLaws
import Capsule.Analysis.EmptyKey
import Capsule.Analysis.Capacity
import Capsule.Analysis.Depth
import Capsule.Analysis.CoreTestLaws
import Capsule.Analysis.Sessions
import Capsule.Analysis.Affected
import Capsule.Analysis.MergeReference
import Capsule.Analysis.EnclaveLaws
import Capsule.Analysis.CodecLaws
import Capsule.Analysis.SignatureLaws
import Capsule.Analysis.BlockLog
import Capsule.Analysis.ServerLaws
import Capsule.Analysis.FileStore
import Capsule.Analysis.NetworkLaws
import Capsule.Analysis.NetworkIntegrity
import Capsule.Analysis.FaultSource
