import Neologism.Search.Admissible
import Neologism.Setup
import Neologism.Proofs.Chart.Undoing
import Neologism.Proofs.Model.Reordering
import Neologism.Proofs.Model.Restrictions
import Neologism.Proofs.Session.Limits
import Neologism.Proofs.Session.Uniqueness
import Neologism.Proofs.Phonotactics.Merging
import Neologism.Proofs.Phonotactics.Rescaling
import Neologism.Proofs.Model.Entries
import Neologism.Proofs.Chart.Termination
import Neologism.Proofs.Doubles
import Neologism.Proofs.Lexicon.Assignments
import Neologism.Proofs.Search.Drawing
import Neologism.Proofs.Search.Proportion
import Neologism.Proofs.Chart.Contributions
import Neologism.Proofs.Chart.Readout
import Neologism.Proofs.Chart.RuleOrder
import Neologism.Proofs.Chart.Saturation
import Neologism.Proofs.Literals
import Neologism.Proofs.OrderedMap.Indexed
import Neologism.Proofs.Session.Batches
import Neologism.Proofs.Phonotactics.Instances
import Neologism.Proofs.Document.Settings
