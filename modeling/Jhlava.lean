import Jhlava.DepPrecedence
import Jhlava.ChannelWrite
import Jhlava.ChannelMessages
import Jhlava.HashTableMap
import Jhlava.JobArrayExact
import Jhlava.JobFiled
import Jhlava.JgrpExact
import Jhlava.WindowUnion
import Jhlava.AuthXdr
import Jhlava.UserGroupsExact
import Jhlava.ConfExact
import Jhlava.BitsetOperate
import Jhlava.DepNesting
import Jhlava.DepOneToOne
import Jhlava.DepApart
import Jhlava.RequeueExact
import Jhlava.HostSort
import Jhlava.HostPrefer
import Jhlava.BackfillFree
import Jhlava.DispatchRefused
import Jhlava.ShareShown
import Jhlava.JobIndexExact
import Jhlava.LogJobsExact
import Jhlava.JobIds
import Jhlava.LimLoadAdj
import Jhlava.LimAnnounce
import Jhlava.LimNet
import Jhlava.MbdHosts
import Jhlava.ConfRewind
import Jhlava.ConfLogical
import Jhlava.NegHosts
import Jhlava.LimShared
import Jhlava.SharedRes
import Jhlava.LimPolicy
import Jhlava.UserSlots
import Jhlava.EncodeMsg
import Jhlava.PackageXdr
import Jhlava.ReserveList
import Jhlava.QueueSort
import Jhlava.SubmitSize
