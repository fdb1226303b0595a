import FirebirdCore.Blb.PageList
import FirebirdCore.Btr.DeleteNode
import FirebirdCore.Btr.FindPage
import FirebirdCore.Btr.IndexRoot
import FirebirdCore.Btr.InsertNoSplit
import FirebirdCore.Btr.JumpNodes
import FirebirdCore.Btr.LeafRun
import FirebirdCore.Btr.Key
import FirebirdCore.Btr.NodeCodec
import FirebirdCore.Btr.NullKey
import FirebirdCore.Btr.RemoveLeafNode
import FirebirdCore.Btr.SegmentDuplicates
import FirebirdCore.Btr.SegmentGroups
import FirebirdCore.Btr.Selectivity
import FirebirdCore.Burp.ArraySlices
import FirebirdCore.Burp.Compress
import FirebirdCore.Clumplet.Find
import FirebirdCore.Clumplet.RoundTrip
import FirebirdCore.Clumplet.Upgrade
import FirebirdCore.Cvt.DateTimeAccept
import FirebirdCore.Cvt.Misread
import FirebirdCore.Cvt.Rescale
import FirebirdCore.Cvt.Text
import FirebirdCore.Gc.PageMap
import FirebirdCore.Intl.AttributeRoundTrip
import FirebirdCore.Intl.Conversion
import FirebirdCore.Intl.Encodings
import FirebirdCore.Intl.UnicodeUtil
import FirebirdCore.Intl.WellFormed
import FirebirdCore.Lck.PhysicalLevel
import FirebirdCore.Lib.Blocks
import FirebirdCore.Lib.Machine
import FirebirdCore.Like.Chunks
import FirebirdCore.Like.Contains
import FirebirdCore.Lock.DataQueue
import FirebirdCore.Lock.Deadlock
import FirebirdCore.Lock.Downgrade
import FirebirdCore.Lock.Pending
import FirebirdCore.Lock.QueueRecovery
import FirebirdCore.Pag.AddClump
import FirebirdCore.Pag.PageSpace
import FirebirdCore.Sdl.Subscripts
import FirebirdCore.Similar.CutOff
import FirebirdCore.Similar.Substring
import FirebirdCore.Sort.DiddleOrder
import FirebirdCore.Sort.Order
import FirebirdCore.Sort.Quick
import FirebirdCore.Sort.RunLimit
import FirebirdCore.Sort.Sorted
import FirebirdCore.Sqz.Bounds
import FirebirdCore.Sqz.Fragments
import FirebirdCore.Temp.Failure
import FirebirdCore.Temp.Holdings
import FirebirdCore.Temp.Session
import FirebirdCore.Tra.Cleanup
import FirebirdCore.Tra.FindStates
import FirebirdCore.Tra.Snapshot
import FirebirdCore.Tree.Recovery
import FirebirdCore.Tree.SortedSet
import FirebirdCore.Xdr.Datum
import FirebirdCore.Xdr.Message
import FirebirdCore.TimeStamp.Dates
import FirebirdCore.Intl.Substring
