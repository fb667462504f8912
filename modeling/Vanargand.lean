import Vanargand.AddressTypos
import Vanargand.AuditedFees
import Vanargand.ChannelProtocol
import Vanargand.ClosureDeadline
import Vanargand.Conservation
import Vanargand.CurrentGuardians
import Vanargand.DelayChecks
import Vanargand.DutyRoster
import Vanargand.EmissionSchedule
import Vanargand.FirstKey
import Vanargand.Formats
import Vanargand.GeneratedAddresses
import Vanargand.GeneratedEncodings
import Vanargand.Guilt
import Vanargand.Housekeeping
import Vanargand.LeakLiveness
import Vanargand.LightClient
import Vanargand.LiveKeys
import Vanargand.MinimalRows
import Vanargand.NormativeDraw
import Vanargand.Outage
import Vanargand.Outrunning
import Vanargand.Progress
import Vanargand.Reconnection
import Vanargand.Revocation
import Vanargand.RigidProofs
import Vanargand.SealedReveals
import Vanargand.SeedChoice
import Vanargand.StructuralRules
import Vanargand.Transmission
