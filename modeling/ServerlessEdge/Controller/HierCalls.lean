import ServerlessEdge.Controller.HierRegistry
import ServerlessEdge.Controller.Serving

/-! The calls that a hierarchical controller serves, in terms of the functions of
the derived class: the base class itself only keeps its registries. -/
namespace ServerlessEdge.Controller.EdgeControllerHier
open Std Library Triple EdgeController

variable (env : Environment) (c : String)

def withLambdas (s : State) (m : ExtTreeMap String (ExtTreeSet String)) : State :=
  { s with theLambdas := m }

/-- The state in which the derived class hears of a new computer. -/
def joined (cs : ContainerList) (m : ExtTreeMap String (ExtTreeSet String)) (s : State) : State :=
  { s with theComputers := s.theComputers.insert c cs, theLambdas := m }

/-- The state in which the derived class hears that a computer is gone. -/
def departed (m : ExtTreeMap String (ExtTreeSet String)) (s : State) : State :=
  { s with theComputers := s.theComputers.erase c, theLambdas := m }

/-- The lambdas that a computer offers, if it is known. -/
def offered (s : State) : List String := (s.theComputers[c]?.map ContainerList.lambdas).getD []

theorem notifyComputer_eq (cs : ContainerList) (s : State) :
    ∃ m, notifyComputer (hooks env) c cs s =
      privateAnnounceComputer env (reset env (resets (withLambdas s m))) c cs (withLambdas s m) := by
  obtain ⟨m, hm⟩ := marks_silent (h := hooks env) (c := c) (fun _ => rfl) cs.lambdas s
  exact ⟨m, bind_of_ok hm _⟩

theorem announceComputer_new {cs : ContainerList} {s : State} (h : s.theComputers[c]? = none) :
    ∃ m, announceComputer (hooks env) c cs s = privateAnnounceComputer env
      (reset env (resets (joined c cs m s))) c cs (joined c cs m s) := by
  obtain ⟨m, hm⟩ := notifyComputer_eq env c cs (joined c cs s.theLambdas s)
  exact ⟨m, (EdgeController.announceComputer_new (hooks env) h).trans hm⟩

theorem removeComputer_eq (s : State) :
    ∃ m, removeComputer (hooks env) c s = privateRemoveComputer env
      (reset env (resets (departed c m s))) c (offered c s) (departed c m s) := by
  obtain ⟨m, hm⟩ := unmarks_silent (h := hooks env) (c := c) (fun _ => rfl) (offered c s)
    (departed c s.theLambdas s)
  exact ⟨m, (EdgeController.removeComputer_eq (hooks env) c s).trans (bind_of_ok hm _)⟩

/-- Whatever follows the removal of a computer with changed containers, no event
is taken back. -/
theorem grows_addNotify (cs : ContainerList) : Moves Grows (do
    let _ ← addToComputers c cs
    notifyComputer (hooks env) c cs) := by
  have hbase (s : State) (cs : ExtTreeMap String ContainerList)
      (ls : ExtTreeMap String (ExtTreeSet String)) :
      Grows s { s with theComputers := cs, theLambdas := ls } := List.suffix_refl (log s)
  exact moves_bind (Carried.addToComputers hbase c cs) fun _ =>
    Carried.notifyComputer hbase (carried_grows env) c cs

theorem announceRouter_eq {e f a : String} {s : State} (ha : address e = .ok a) :
    ∃ k, s.theDerived.theForwardingTableEndpoints.size + 2 ≤ k ∧
      announceRouter (hooks env) e f s = reset env k (added e f a s) := by
  let s₁ : State := { s with theRouters := s.theRouters.insert e f }
  refine ⟨resets s₁, ?_, ?_⟩
  · simp only [resets, s₁]
    omega
  · exact @privateAnnounceRouter_eq (reset env (resets s₁)) e f a s₁ ha

theorem announceRouter_error {e f err : String} {s : State} (ha : address e = .error err) :
    announceRouter (hooks env) e f s =
      .error err { s with theRouters := s.theRouters.insert e f } := by
  have h : announceRouter (hooks env) e f s = privateAnnounceRouter
      (reset env (resets { s with theRouters := s.theRouters.insert e f })) e f
      { s with theRouters := s.theRouters.insert e f } := rfl
  rw [h, privateAnnounceRouter, addressOf, ha]
  rfl

end ServerlessEdge.Controller.EdgeControllerHier
