import RolodexDns.NoDsSoundness
import RolodexDns.WildcardExpansionSoundness
import RolodexDns.NoDataSoundness
import RolodexDns.ArpaTraffic
import RolodexDns.UdpDatagrams
import RolodexDns.ServedRecords
import RolodexDns.ScopedRecordCache
import RolodexDns.TldOwnership
import RolodexDns.ManagedZones
import RolodexDns.SigningCompleteness
import RolodexDns.AcmeSingleUse
import RolodexDns.AcmeNonces
import RolodexDns.AuthLockouts
import RolodexDns.DhcpLeases
import RolodexDns.ZoneBoundaries
import RolodexDns.DelegationEviction
import RolodexDns.TierRecovery
import RolodexDns.HiddenCuts
import RolodexDns.DelegationPersistence
import RolodexDns.CacheRestarts
import RolodexDns.LameServers
import RolodexDns.LanViews
import RolodexDns.ForwarderTiers
import RolodexDns.CircularOrders
import RolodexDns.RootBlame
import RolodexDns.WireQuestions
import RolodexDns.BlocklistSpellings
