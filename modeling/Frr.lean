import Frr.SpfEqualCost
import Frr.MaxAgeRuns
import Frr.InsertionPoints
import Frr.JitRun
import Frr.PacketReads
import Frr.Summary
import Frr.LsaPos
import Frr.Manifest
import Frr.SpfPlugletHeap
import Frr.MyLsaBuild
import Frr.DbDescRequests
import Frr.FloodDiscard
import Frr.SelfCount
import Frr.Dual
import Frr.BabelFeasible
import Frr.PrefixListApply
import Frr.AspathRuns
import Frr.LsAck
import Frr.BackLink
import Frr.SpfSchedule
import Frr.ActInts
import Frr.Fragments
import Frr.SpfStat
import Frr.PriorityQueueRuns
import Frr.LabelManager
import Frr.AspathMerging
import Frr.BabelExpiry
import Frr.PluginMemcpy
