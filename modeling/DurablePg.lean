import DurablePg.Atomic
import DurablePg.Budget
import DurablePg.CallBound
import DurablePg.Cancel
import DurablePg.ClaimBound
import DurablePg.ClaimComplete
import DurablePg.Compiled
import DurablePg.Completion
import DurablePg.Contexts
import DurablePg.Deadlines
import DurablePg.Dedup
import DurablePg.Defences
import DurablePg.Delivery
import DurablePg.Exclusion
import DurablePg.Expiry
import DurablePg.Fencing
import DurablePg.Genuine
import DurablePg.Healthy
import DurablePg.Host
import DurablePg.Ideal
import DurablePg.IdempotencyKey
import DurablePg.Registration
import DurablePg.Keeping
import DurablePg.Lifecycle
import DurablePg.Overtaking
import DurablePg.Maintenance
import DurablePg.Migrate
import DurablePg.Quiescence
import DurablePg.Replay
import DurablePg.Sanitize
import DurablePg.Timers
import DurablePg.Uuid
import DurablePg.WakeUp
