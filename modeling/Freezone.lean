import Freezone.Chainbase.Revisions
import Freezone.Chain.Database.Finality
import Freezone.Chain.Database.FailedSwitch
import Freezone.Chain.Database.Storage
import Freezone.Chain.Database.Notifications
import Freezone.Chain.Evaluation.Schedule
import Freezone.Chain.Pending.Restoring
import Freezone.Protocol.KeyMonotonicity
import Freezone.Chain.Delegation.PowerDown
import Freezone.Chain.Ledger.Routes
import Freezone.Chain.Ledger.Burning
import Freezone.Chain.Witnesses.VirtualTime
import Freezone.Chain.Witnesses.Pay
import Freezone.Chain.Witnesses.Hardforks
import Freezone.Chain.Voting.Tally
import Freezone.Chain.Market.Crossing
import Freezone.Chain.Proposals.Integrity
import Freezone.Plugins.MarketHistory
import Freezone.Plugins.Rc.Counters
import Freezone.Chain.Tokens.Splits
import Freezone.Chain.Tokens.Emissions
import Freezone.Chain.RewardCurve
import Freezone.Chain.Tokens.Claims
import Freezone.Chain.Slots
import Freezone.Protocol.Merkle
import Freezone.Protocol.SymbolEncoding
import Freezone.Protocol.SearchWork
