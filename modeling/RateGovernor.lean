import RateGovernor.Binary.Bits
import RateGovernor.Dropper.Recorder
import RateGovernor.Dropper.Scripted
import RateGovernor.Governor.Session
import RateGovernor.Json.Codec
import RateGovernor.Json.RoundTrip
import RateGovernor.Proofs.Dropper.Conformance
import RateGovernor.Proofs.FrameRate.ArrivalLog
import RateGovernor.Proofs.Dropper.Calls
import RateGovernor.Proofs.Governor.Step
import RateGovernor.Proofs.Governor.History
import RateGovernor.Proofs.Governor.CallHistory
import RateGovernor.Proofs.Governor.Ceiling
import RateGovernor.Proofs.Dropper.Bucket
import RateGovernor.Proofs.Dropper.Faults
import RateGovernor.Proofs.Governor.Interleaving
import RateGovernor.Proofs.Governor.Interruption
import RateGovernor.Proofs.Governor.Reconfiguration
import RateGovernor.Proofs.Binary.Rounding
import RateGovernor.Proofs.Binary.Value
import RateGovernor.Proofs.Binary.Single
import RateGovernor.Proofs.Dropper.Debt
import RateGovernor.Proofs.Dropper.Draining
import RateGovernor.Proofs.FrameRate.Cadence
import RateGovernor.Proofs.Dropper.DropDuration
import RateGovernor.Proofs.Governor.Coupling
import RateGovernor.Proofs.Governor.Account
import RateGovernor.Proofs.Dropper.Range
import RateGovernor.Proofs.Governor.SteadyQueries
import RateGovernor.Proofs.Governor.Starvation
import RateGovernor.Proofs.Governor.Allowance
import RateGovernor.Proofs.Governor.Stall
import RateGovernor.Proofs.Governor.Switching
import RateGovernor.Proofs.Binary.Order
import RateGovernor.Proofs.Dropper.Dominance
import RateGovernor.Proofs.Governor.Repetition
import RateGovernor.Proofs.Governor.TimeShift
import RateGovernor.Proofs.Governor.Settings
import RateGovernor.Proofs.Clock
import RateGovernor.Proofs.FrameRate.HalfUp
import RateGovernor.Proofs.FrameRate.Range
import RateGovernor.Proofs.Governor.Rates
import RateGovernor.Proofs.Json.Grammar
import RateGovernor.Proofs.Json.Lexing
import RateGovernor.Proofs.Json.Records
import RateGovernor.Proofs.Json.ReadBack
import RateGovernor.Proofs.Binary.Double
import RateGovernor.Proofs.Governor.DropRatio
import RateGovernor.Proofs.Decimal.Interval
import RateGovernor.Proofs.Decimal.Shortest
import RateGovernor.Proofs.Decimal.Separation
import RateGovernor.Proofs.Decimal.Scaling
import RateGovernor.Proofs.Decimal.RoundTrip
import RateGovernor.Proofs.Decimal.Reading
import RateGovernor.Proofs.Json.Rates
