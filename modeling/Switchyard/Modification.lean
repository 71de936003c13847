import Switchyard.Coupling
import Switchyard.FeederConnection
import Switchyard.FeederRemoval
import Switchyard.Grid
import Switchyard.LineCut
import Switchyard.LineMerge
import Switchyard.LineTap
import Switchyard.SectionInsertion
import Switchyard.TeeReplacement

namespace Switchyard

variable [Numbering]

/-- A change of the topology of a network, made of many elementary changes. -/
inductive Modification where
  | feederBays (m : FeederBays)
  | feederRemoval (m : FeederRemoval)
  | coupling (m : Coupling)
  | sectionInsertion (m : SectionInsertion)
  | grid (m : Grid)
  | feederConnection (m : FeederConnection)
  | lineTap (m : LineTap)
  | lineCut (m : LineCut)
  | tapRemoval (m : TapRemoval)
  | lineMerge (m : LineMerge)
  | teeReplacement (m : TeeReplacement)

namespace Modification

def name : Modification → String
  | .feederBays m => m.name
  | .feederRemoval _ => "RemoveFeederBay"
  | .coupling _ => "CreateCouplingDevice"
  | .sectionInsertion _ => "CreateVoltageLevelSections"
  | .grid _ => "CreateVoltageLevelTopology"
  | .feederConnection _ => "ConnectFeedersToBusbarSections"
  | .lineTap _ => "CreateLineOnLine"
  | .lineCut _ => "ConnectVoltageLevelOnLine"
  | .tapRemoval _ => "RevertCreateLineOnLine"
  | .lineMerge _ => "RevertConnectVoltageLevelOnLine"
  | .teeReplacement _ => "ReplaceTeePointByVoltageLevelOnLine"

/-- What the application would do, told without changing anything. -/
def impact : Modification → Network → Impact
  | .feederBays m => m.impact
  | .feederRemoval m => m.impact
  | .coupling m => m.impact
  | .sectionInsertion m => m.impact
  | .grid m => m.impact
  | .feederConnection m => m.impact
  | .lineTap m => m.impact
  | .lineCut m => m.impact
  | .tapRemoval m => m.impact
  | .lineMerge m => m.impact
  | .teeReplacement m => m.impact

/-- The steps, with the failure policy applied. -/
def run (m : Modification) (naming : NamingStrategy) (strict : Bool) : Run Unit :=
  match m with
  | .feederBays m => (m.steps naming).finish strict
  | .feederRemoval m => m.steps strict
  | .coupling m => (m.steps naming).finish strict
  | .sectionInsertion m => (m.steps naming).finish strict
  | .grid m => (m.steps naming).finish strict
  | .feederConnection m => (m.steps naming).finish strict
  | .lineTap m => (m.steps naming).finish strict
  | .lineCut m => (m.steps naming).finish strict
  | .tapRemoval m => m.steps.finish strict
  | .lineMerge m => m.steps.finish strict
  | .teeReplacement m => (m.steps naming).finish strict

/-- Applies the modification to a network. Faults are raised if `strict`, and
only reported if not. -/
def apply (m : Modification) (n : Network) (naming : NamingStrategy) (strict : Bool) : Outcome :=
  (m.run naming strict).outcome n

end Modification

/-- A modification as asked for, before its fields are checked. -/
inductive Request where
  | injectionBay (r : InjectionBayRequest)
  | branchBays (r : BranchBaysRequest)
  | transformerBays (r : TransformerBaysRequest)
  | feederRemoval (r : FeederRemovalRequest)
  | coupling (r : CouplingRequest)
  | sectionInsertion (r : SectionInsertionRequest)
  | grid (r : GridRequest)
  | feederConnection (m : FeederConnection)
  | lineTap (r : LineTapRequest)
  | lineCut (r : LineCutRequest)
  | tapRemoval (r : TapRemovalRequest)
  | lineMerge (r : LineMergeRequest)
  | teeReplacement (r : TeeReplacementRequest)

/-- The modification asked for, if the fields that it needs are given. -/
def Request.build : Request → Except Fault Modification
  | .injectionBay r => .feederBays <$> r.build
  | .branchBays r => .feederBays <$> r.build
  | .transformerBays r => .feederBays <$> r.build
  | .feederRemoval r => .feederRemoval <$> r.build
  | .coupling r => .coupling <$> r.build
  | .sectionInsertion r => .sectionInsertion <$> r.build
  | .grid r => .grid <$> r.build
  | .feederConnection m => .ok (.feederConnection m)
  | .lineTap r => .lineTap <$> r.build
  | .lineCut r => .lineCut <$> r.build
  | .tapRemoval r => .tapRemoval <$> r.build
  | .lineMerge r => .lineMerge <$> r.build
  | .teeReplacement r => .teeReplacement <$> r.build

end Switchyard
