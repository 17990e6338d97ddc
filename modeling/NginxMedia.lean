import NginxMedia.MediaPromotion
import NginxMedia.GraphConvergence
import NginxMedia.RtmpBudget
import NginxMedia.HlsContents
import NginxMedia.HlsExpiry
import NginxMedia.SrtFeed
import NginxMedia.SrtRing
import NginxMedia.OutputClean
import NginxMedia.SrtWake
import NginxMedia.SrtHandoff
import NginxMedia.TransformExecutor
import NginxMedia.GraphKeys
import NginxMedia.HlsHandoff
import NginxMedia.RoutedFencing
import NginxMedia.RouteTracks
import NginxMedia.TsConfigTimes
import NginxMedia.GraphBurial
import NginxMedia.HlsIngestPlaylist
import NginxMedia.GraphJournal
import NginxMedia.OutputSync
import NginxMedia.RuntimeVisit
import NginxMedia.StreamTeardown
import NginxMedia.DesiredReplay
import NginxMedia.SelectorChoice
import NginxMedia.EmergencyCount
import NginxMedia.HealthFailure
import NginxMedia.RtmpRejected
import NginxMedia.HttpFraming
import NginxMedia.ApiJsonPointers
import NginxMedia.HlsPullSeen
import NginxMedia.RecordSlices
import NginxMedia.RtmpHandshakeFeed
import NginxMedia.RtmpChainRun
import NginxMedia.ProgramDirs
import NginxMedia.HlsSegmentNames
import NginxMedia.EgressScaling
import NginxMedia.DestinationRequests
import NginxMedia.ConditionalRequests
import NginxMedia.HlsPlaylistKept
import NginxMedia.DesiredAdmission
import NginxMedia.FlvFrames
import NginxMedia.RtmpAmfForms
import NginxMedia.SrtStreamId
import NginxMedia.CompatVerdict
import NginxMedia.Sha256Standard
import NginxMedia.RtmpFootprint
import NginxMedia.IpcFlow
import NginxMedia.MediaPercentile
import NginxMedia.MediaKeyframes
import NginxMedia.TsContinuity
import NginxMedia.RtmpMaintenance
