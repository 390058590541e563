import Retrograd.Infer.Guarantees
import Retrograd.Infer.Detokenized
import Retrograd.Training.Assembly
import Retrograd.Agent.Integrity
import Retrograd.Agent.Exportable
import Retrograd.Training.Schedule
import Retrograd.Server.Pauses
import Retrograd.Server.Watched
import Retrograd.Checkpoints.Runs
import Retrograd.Lower.Fastdiv
import Retrograd.Infer.KvMaximal
import Retrograd.Dataset.Shared
import Retrograd.Agent.Accounted
import Retrograd.Observe.Incremental
import Retrograd.Decision.D1omni
import Retrograd.Decision.Break
import Retrograd.Decision.Quote
import Retrograd.Decision.PythonDumps
import Retrograd.Dataset.Hermes
import Retrograd.Training.Trained
import Retrograd.Openai.Answered
import Retrograd.Openai.FileStore
import Retrograd.Judge.Elision
import Retrograd.Training.PreferenceRuns
import Retrograd.Run.Resumed
import Retrograd.Training.PreferenceChunk
import Retrograd.Judge.EvenHanded
import Retrograd.Container.Woken
import Retrograd.Training.PolicyGradient
import Retrograd.Rir.Coverage
import Retrograd.Trainable.WellFormed
import Retrograd.Training.Distilled
import Retrograd.Plan.Merge
import Retrograd.Decision.D1labels
import Retrograd.Optimizer.Live
import Retrograd.Rir.Addressed
import Retrograd.Rir.Budget
import Retrograd.Training.FeatureStorage
