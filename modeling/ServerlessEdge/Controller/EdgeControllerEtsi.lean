import ServerlessEdge.Controller.Serving

/-! The controller that only conveys the appearance and disappearance of lambdas
to an ETSI UE application LCM proxy. -/
namespace ServerlessEdge.Controller
open EdgeController

/-- A UE application; its characteristics are always the default ones. -/
structure AppInfo where
  theAppName : String
  theAppProvider : String
  theAppVersion : String
  theAppDescription : String
  deriving DecidableEq, Repr

/-- What the proxy is asked for. -/
inductive AppCommand where
  | addApp (aApp : AppInfo)
  | delApp (aApp : AppInfo)
  deriving DecidableEq, Repr

/-- The proxy is not part of the controller: only the commands to it are kept. -/
structure EdgeControllerEtsi where
  theUeAppLcmProxy : List AppCommand

namespace EdgeControllerEtsi

def make (aVersion aLambda : String) : AppInfo := ⟨aLambda, "ServerlessOnEdge", aVersion, ""⟩

def send (aCommand : AppCommand) : Member EdgeControllerEtsi Unit :=
  modify fun s => { s with theDerived := ⟨s.theDerived.theUeAppLcmProxy ++ [aCommand]⟩ }

def hooks (aVersion : String) : Hooks EdgeControllerEtsi where
  addComputer _ _ := pure ()
  delComputer _ _ := pure ()
  addLambda l := send (.addApp (make aVersion l))
  delLambda l := send (.delApp (make aVersion l))
  privateAnnounceComputer _ _ := pure ()
  privateAnnounceRouter _ _ := pure ()
  privateRemoveComputer _ _ := pure ()

theorem keeps_send (x : AppCommand) : Keeps (send x) :=
  keeps_modify fun d : EdgeControllerEtsi => ⟨d.theUeAppLcmProxy ++ [x]⟩

theorem frames (aVersion : String) : Frames (hooks aVersion) where
  addComputer _ _ := keeps_pure
  delComputer _ _ := keeps_pure
  addLambda _ := keeps_send _
  delLambda _ := keeps_send _
  privateAnnounceComputer _ _ := keeps_pure
  privateRemoveComputer _ _ := keeps_pure

theorem neverThrows (aVersion : String) : NeverThrows (hooks aVersion) where
  addComputer _ _ := returns_pure ()
  delComputer _ _ := returns_pure ()
  addLambda _ := returns_modify _
  delLambda _ := returns_modify _
  privateAnnounceComputer _ _ := returns_pure ()
  privateRemoveComputer _ _ := returns_pure ()

end EdgeControllerEtsi
end ServerlessEdge.Controller
