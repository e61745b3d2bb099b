import Chime.Buzzer.Recorder
import Chime.Dispatch
import Chime.Guarded
import Chime.Notation.Script
import Chime.Proofs.Scheduling
import Chime.Proofs.Circle
import Chime.Proofs.Polling
import Chime.Proofs.Tokens
import Chime.Proofs.Calls
import Chime.Proofs.Sounding
import Chime.Proofs.Domains
import Chime.Proofs.Joining
import Chime.Proofs.Single.Truncation
import Chime.Proofs.Writing
import Chime.Proofs.Pauses
import Chime.Proofs.Single.Division
import Chime.Proofs.Single.Bounds
import Chime.Proofs.Limits
import Chime.Proofs.Lasting
import Chime.Proofs.Tuning
import Chime.Proofs.Forgetting
import Chime.Proofs.Switching
import Chime.Proofs.EarlyPolls
import Chime.Proofs.Progress
import Chime.Proofs.Ending
import Chime.Proofs.Stopping
import Chime.Proofs.Reporting
import Chime.Proofs.Cycling
import Chime.Proofs.Requests
import Chime.Proofs.Numbers
import Chime.Proofs.Accepting
import Chime.Proofs.Respelling
import Chime.Proofs.Steering
import Chime.Proofs.Deadlines
